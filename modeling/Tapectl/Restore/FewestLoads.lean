import Tapectl.Library.FewestRuns
import Tapectl.Restore.Span

/-!
# The plan changes cartridges least often

A cartridge of the plan is left only where it does not hold the next slice, and the next one reads
furthest from there: a volume that holds the version whole reads to its end, so the preference for it
is the same choice. The plan is then greedy in the sense of `Library.FewestRuns`.
-/

namespace Tapectl.Restore

open Tapectl.Library.FewestRuns

variable {Digest : Type}

def Holds (held : List SliceHolder) (volumeId number : Int) : Prop :=
  ∃ other ∈ held, other.sliceNumber = number ∧ other.holder.volumeId = volumeId

section Held

variable {held : List SliceHolder}

variable {number : Int}

theorem on_volume_some {volumeId : Int} {other : SliceHolder}
    (found : onVolume held volumeId number = some other) :
    other ∈ held ∧ other.sliceNumber = number ∧ other.holder.volumeId = volumeId := by
  have member := List.mem_of_getLast? found
  simp only [byVolume, List.mem_filter, decide_eq_true_eq] at member
  exact ⟨member.1.1, member.2, member.1.2⟩

theorem on_volume_is_some {volumeId : Int} :
    (onVolume held volumeId number).isSome = true ↔ Holds held volumeId number := by
  constructor
  · intro found
    obtain ⟨other, same⟩ := Option.isSome_iff_exists.mp found
    exact ⟨other, on_volume_some same⟩
  · rintro ⟨other, member, number, volume⟩
    rw [onVolume, Option.isSome_iff_ne_none, Ne, List.getLast?_eq_none_iff]
    refine List.ne_nil_of_mem (a := other) ?_
    simp [byVolume, member, number, volume]

theorem le_top_slice {numbers : List Int} (member : number ∈ numbers) :
    number ≤ topSlice numbers := by
  induction numbers with
  | nil => cases member
  | cons first rest ih =>
    rw [topSlice, List.foldr_cons, ← topSlice]
    rcases List.mem_cons.mp member with rfl | member
    · exact le_max_left _ _
    · exact (ih member).trans (le_max_right _ _)

theorem reach_from_run (has : Int → Bool) (fuel : Nat) (last : Int) :
    last ≤ reachFrom has fuel last ∧
      (∀ number, last < number → number ≤ reachFrom has fuel last → has number = true) ∧
      (has (reachFrom has fuel last + 1) = false ∨ reachFrom has fuel last = last + fuel) := by
  induction fuel generalizing last with
  | zero => exact ⟨le_rfl, fun number after before => absurd after (not_lt_of_ge before), .inr (by simp [reachFrom])⟩
  | succ fuel ih =>
    rw [reachFrom]
    split
    case isTrue next =>
      obtain ⟨le, run, stop⟩ := ih (last + 1)
      refine ⟨by omega, fun number after before => ?_, ?_⟩
      · by_cases first : number = last + 1
        · rw [first]
          exact next
        · exact run number (by omega) before
      · refine stop.imp_right fun spent => ?_
        rw [spent]
        push_cast
        omega
    case isFalse stops =>
      exact ⟨le_rfl, fun number after before => absurd after (not_lt_of_ge before),
        .inl (by simpa using stops)⟩

variable (held) in
theorem reach_run (next volumeId : Int) :
    next ≤ reach held next volumeId ∧
      (∀ number, next < number → number ≤ reach held next volumeId → Holds held volumeId number) ∧
      ¬ Holds held volumeId (reach held next volumeId + 1) := by
  obtain ⟨le, run, stop⟩ := reach_from_run
    (fun number => (onVolume held volumeId number).isSome)
    (topSlice (held.map SliceHolder.sliceNumber) - next).toNat next
  rw [← reach] at le run stop
  refine ⟨le, fun number after before => on_volume_is_some.mp (run number after before), ?_⟩
  rintro held'
  rcases stop with stops | spent
  · rw [on_volume_is_some.mpr held'] at stops
    cases stops
  · obtain ⟨other, member, number, _⟩ := held'
    have top := le_top_slice (List.mem_map_of_mem (f := SliceHolder.sliceNumber) member)
    omega

theorem reaches_of_le {next one other : Int} (here : Holds held one next)
    (further : reach held next other ≤ reach held next one) :
    Reaches (Holds held) one other next := by
  obtain ⟨_, run, _⟩ := reach_run held next one
  obtain ⟨begins, _, stop⟩ := reach_run held next other
  intro last otherRun number from_ upto
  by_cases first : number = next
  · rw [first]
    exact here
  · refine run number (by omega) ?_
    by_contra beyond
    exact stop (otherRun _ (by omega) (by omega))

theorem PickKey.less_trans {one two three : PickKey} (first : one.less two = true)
    (second : two.less three = true) : one.less three = true := by
  obtain ⟨away, part, far, volume⟩ := one
  obtain ⟨away', part', far', volume'⟩ := two
  obtain ⟨away'', part'', far'', volume''⟩ := three
  cases away <;> cases away' <;> cases away'' <;> cases part <;> cases part' <;> cases part'' <;>
    simp_all [PickKey.less] <;> omega

/-- The candidate kept so far is one of those seen, and none of them has a lesser key. -/
def LeastOf (key : SliceHolder → PickKey) (seen : List SliceHolder) : Option SliceHolder → Prop
  | none => seen = []
  | some best => best ∈ seen ∧ ∀ other ∈ seen, (key other).less (key best) = false

theorem least_of_foldl (key : SliceHolder → PickKey) (candidates seen : List SliceHolder)
    (best : Option SliceHolder) (least : LeastOf key seen best) :
    LeastOf key (seen ++ candidates) (candidates.foldl (fun best candidate =>
      match best with
      | none => some candidate
      | some chosen => if (key candidate).less (key chosen) then some candidate else some chosen)
      best) := by
  induction candidates generalizing seen best with
  | nil => simpa using least
  | cons candidate rest ih =>
    rw [List.foldl_cons, List.append_cons]
    refine ih (seen ++ [candidate]) _ ?_
    cases best with
    | none =>
      obtain rfl : seen = [] := least
      simp [LeastOf, PickKey.less]
    | some chosen =>
      obtain ⟨member, none_less⟩ := least
      dsimp only
      split
      case isTrue lesser =>
        refine ⟨by simp, fun other seen_ => ?_⟩
        rcases List.mem_append.mp seen_ with before | last
        · by_contra less
          have := PickKey.less_trans (by simpa using less) lesser
          rw [none_less other before] at this
          cases this
        · rw [List.mem_singleton.mp last]
          simp [PickKey.less]
      case isFalse kept =>
        refine ⟨by simp [member], fun other seen_ => ?_⟩
        rcases List.mem_append.mp seen_ with before | last
        · exact none_less other before
        · rw [List.mem_singleton.mp last]
          simpa using kept

variable (held) in
theorem pick_least (slices : Nat) (next : Int) :
    LeastOf (pickKey held slices next) (bySlice held next) (pick held slices next) :=
  least_of_foldl (pickKey held slices next) (bySlice held next) [] none rfl

variable {slices : Nat}
  (within : ∀ other ∈ held, 1 ≤ other.sliceNumber ∧ other.sliceNumber ≤ slices)

include within

theorem whole_volume_holds {volumeId : Int} (whole : wholeVolume held slices volumeId = true)
    (first : 1 ≤ number) (last : number ≤ slices) : Holds held volumeId number := by
  have size : ((byVolume held volumeId).map SliceHolder.sliceNumber).toFinset.card = slices := by
    rw [List.card_toFinset]
    exact beq_iff_eq.mp whole
  have inside : ((byVolume held volumeId).map SliceHolder.sliceNumber).toFinset ⊆
      Finset.Icc 1 (slices : Int) := by
    intro found member
    obtain ⟨other, listed, rfl⟩ := List.mem_map.mp (List.mem_toFinset.mp member)
    exact Finset.mem_Icc.mpr (within other (List.mem_filter.mp listed).1)
  have all : number ∈ ((byVolume held volumeId).map SliceHolder.sliceNumber).toFinset := by
    rw [Finset.eq_of_subset_of_card_le inside (by rw [size, Int.card_Icc]; omega)]
    exact Finset.mem_Icc.mpr ⟨first, last⟩
  obtain ⟨other, listed, same⟩ := List.mem_map.mp (List.mem_toFinset.mp all)
  simp only [byVolume, List.mem_filter, decide_eq_true_eq] at listed
  exact ⟨other, listed.1, same, listed.2⟩

theorem reach_le {next volumeId : Int} (le : next ≤ slices) :
    reach held next volumeId ≤ slices := by
  obtain ⟨begins, run, _⟩ := reach_run held next volumeId
  rcases begins.eq_or_lt with same | after
  · omega
  · obtain ⟨other, member, number, _⟩ := run _ after le_rfl
    rw [← number]
    exact (within other member).2

theorem pick_furthest (inService : ∀ other ∈ held, other.standing = .inService) {next : Int}
    (first : 1 ≤ next) (le : next ≤ slices) {picked : SliceHolder}
    (chosen : pick held slices next = some picked) :
    Holds held picked.holder.volumeId next ∧
      ∀ other, Holds held other next → Reaches (Holds held) picked.holder.volumeId other next := by
  have least := pick_least held slices next
  rw [chosen] at least
  obtain ⟨member, none_less⟩ := least
  simp only [bySlice, List.mem_filter, decide_eq_true_eq] at member none_less
  have here : Holds held picked.holder.volumeId next := ⟨picked, member.1, member.2, rfl⟩
  refine ⟨here, fun volumeId holds => reaches_of_le here ?_⟩
  obtain ⟨other, listed, number, rfl⟩ := holds
  by_cases whole : wholeVolume held slices picked.holder.volumeId = true
  · -- a whole volume reads to the last slice
    refine (reach_le within le).trans ?_
    by_contra short
    obtain ⟨begins, _, stop⟩ := reach_run held next picked.holder.volumeId
    exact stop (whole_volume_holds within whole (by omega) (by omega))
  · by_contra further
    have key := none_less other ⟨listed, number⟩
    simp only [pickKey, PickKey.less, inService other listed, inService picked member.1] at key
    by_cases otherWhole : wholeVolume held slices other.holder.volumeId = true
    · simp [whole, otherWhole] at key
    · simp [whole, otherWhole] at key
      omega

end Held

/-- `count` numbers from `first` on. -/
def numbersFrom : Int → Nat → List Int
  | _, 0 => []
  | first, count + 1 => first :: numbersFrom (first + 1) count

theorem numbers_from_add (first : Int) (count more : Nat) :
    numbersFrom first (count + more) = numbersFrom first count ++ numbersFrom (first + count) more := by
  induction count generalizing first with
  | zero => simp [numbersFrom]
  | succ count ih =>
    have place : first + 1 + (count : Int) = first + ((count + 1 : Nat) : Int) := by omega
    rw [Nat.succ_add, numbersFrom, ih, numbersFrom, place]
    rfl

theorem mem_numbers_from {first number : Int} {count : Nat} :
    number ∈ numbersFrom first count ↔ first ≤ number ∧ number < first + count := by
  induction count generalizing first with
  | zero => simp [numbersFrom]
  | succ count ih =>
    rw [numbersFrom, List.mem_cons, ih]
    push_cast
    omega

def Recorded (held : List SliceHolder) (plan : List (WritePositionInfo Digest)) : Prop :=
  ∀ wp ∈ plan, ∃ other ∈ held, other.sliceNumber = wp.sliceNumber ∧
    other.holder.volumeId = wp.volumeId ∧ wp.position = some other.holder.position

theorem Recorded.append {held : List SliceHolder} {first second : List (WritePositionInfo Digest)}
    (one : Recorded held first) (two : Recorded held second) : Recorded held (first ++ second) := by
  intro wp member
  rcases List.mem_append.mp member with member | member
  · exact one wp member
  · exact two wp member

theorem Recorded.holding {held : List SliceHolder} {plan : List (WritePositionInfo Digest)}
    (recorded : Recorded held plan) {first : Int} {count : Nat}
    (numbers : plan.map WritePositionInfo.sliceNumber = numbersFrom first count) :
    Holding (Holds held) first (plan.map WritePositionInfo.volumeId) := by
  induction plan generalizing first count with
  | nil => exact .nil first
  | cons wp rest ih =>
    cases count with
    | zero => simp [numbersFrom] at numbers
    | succ count =>
      obtain ⟨number, later⟩ := List.cons.inj numbers
      obtain ⟨other, member, same, volume, _⟩ := recorded wp (.head _)
      refine .cons ⟨other, member, same.trans number, volume⟩ ?_
      exact ih (fun wp member => recorded wp (.tail _ member)) later

/-- A greedy plan of the slices from `next` on, which begins on a holder that reads furthest. -/
structure GreedyFrom (held : List SliceHolder) (next : Int) (count : Nat)
    (plan : List (WritePositionInfo Digest)) : Prop where
  numbers : plan.map WritePositionInfo.sliceNumber = numbersFrom next count
  recorded : Recorded held plan
  greedy : Greedy (Holds held) next (plan.map WritePositionInfo.volumeId)
  furthest : ∀ first ∈ (plan.map WritePositionInfo.volumeId).head?, ∀ other,
    Holds held other next → Reaches (Holds held) first other next

theorem GreedyFrom.nil (held : List SliceHolder) (next : Int) {count : Nat} (none : count = 0) :
    GreedyFrom held next count ([] : List (WritePositionInfo Digest)) := by
  subst none
  exact ⟨rfl, fun wp member => absurd member List.not_mem_nil, .nil next, by simp⟩

theorem GreedyFrom.block {held : List SliceHolder} {next volumeId : Int} {count more : Nat}
    {read later : List (WritePositionInfo Digest)}
    (numbers : read.map WritePositionInfo.sliceNumber = numbersFrom next count)
    (volumes : read.map WritePositionInfo.volumeId = List.replicate count volumeId)
    (recorded : Recorded held read) (ends : ¬ Holds held volumeId (next + count))
    (rest : GreedyFrom held (next + count) more later) :
    (read ++ later).map WritePositionInfo.sliceNumber = numbersFrom next (count + more) ∧
      Recorded held (read ++ later) ∧
      Greedy (Holds held) next ((read ++ later).map WritePositionInfo.volumeId) := by
  refine ⟨?_, recorded.append rest.recorded, ?_⟩
  · rw [List.map_append, numbers, rest.numbers, numbers_from_add]
  · rw [List.map_append, volumes]
    exact Greedy.block ends rest.furthest rest.greedy

section Reading

variable {held : List SliceHolder} {stageSetId : Int} {slices : List (SliceRow Digest)}
  (numbered : slices.map SliceRow.number = numbersFrom 1 slices.length)

include numbered

theorem slice_row_found {number : Int} (first : 1 ≤ number) (last : number ≤ slices.length) :
    ∃ row, slices.find? (fun row => row.number = number) = some row := by
  have listed : number ∈ slices.map SliceRow.number := by
    rw [numbered, mem_numbers_from]
    omega
  obtain ⟨row, member, same⟩ := List.mem_map.mp listed
  refine Option.isSome_iff_exists.mp (List.find?_isSome.mpr ⟨row, member, ?_⟩)
  simpa using same

variable (stageSetId) in
theorem read_on_run {volumeId next : Int} {count : Nat} (first : 1 ≤ next)
    (last : next + count ≤ slices.length + 1)
    (run : ∀ number, next ≤ number → number < next + count → Holds held volumeId number) :
    ∃ read, readOn held stageSetId slices volumeId count next = .ok read ∧
      read.map WritePositionInfo.sliceNumber = numbersFrom next count ∧
      read.map WritePositionInfo.volumeId = List.replicate count volumeId ∧ Recorded held read := by
  induction count generalizing next with
  | zero => exact ⟨[], rfl, rfl, rfl, fun wp member => by cases member⟩
  | succ count ih =>
    push_cast at last run
    obtain ⟨row, found⟩ := slice_row_found numbered first (by omega)
    obtain ⟨other, there⟩ := Option.isSome_iff_exists.mp
      (on_volume_is_some.mpr (run next le_rfl (by omega)))
    obtain ⟨member, number, volume⟩ := on_volume_some there
    obtain ⟨later, read, numbers, volumes, recorded⟩ := @ih (next + 1) (by omega) (by omega)
      fun number after before => run number (by omega) (by omega)
    refine ⟨_, by rw [readOn, found, there, read]; rfl, ?_, ?_, ?_⟩
    · simp [numbers, numbersFrom]
    · simp [volumes, volume, List.replicate_succ]
    · intro wp listed
      rcases List.mem_cons.mp listed with rfl | listed
      · exact ⟨other, member, number, rfl, rfl⟩
      · exact recorded wp listed

variable (within : ∀ other ∈ held, 1 ≤ other.sliceNumber ∧ other.sliceNumber ≤ slices.length)
  (inService : ∀ other ∈ held, other.standing = .inService)
  (everywhere : ∀ number : Int, 1 ≤ number → number ≤ slices.length → ∃ volumeId, Holds held volumeId number)

include within inService everywhere

variable (stageSetId) in
theorem plan_rest_greedy (fuel : Nat) (next : Int) (first : 1 ≤ next)
    (enough : slices.length + 1 - next ≤ fuel) :
    ∃ plan, planRest held stageSetId slices fuel next = .ok plan ∧
      GreedyFrom held next (slices.length + 1 - next).toNat plan := by
  induction fuel generalizing next with
  | zero => exact ⟨[], by rw [planRest, if_neg (by omega)], .nil held next (by omega)⟩
  | succ fuel ih =>
    rw [planRest]
    split
    case isFalse done => exact ⟨[], rfl, .nil held next (by omega)⟩
    case isTrue inside =>
      obtain ⟨picked, chosen⟩ : ∃ picked, pick held slices.length next = some picked := by
        have least := pick_least held slices.length next
        cases chosen : pick held slices.length next with
        | some picked => exact ⟨picked, rfl⟩
        | none =>
          obtain ⟨volumeId, other, member, number, _⟩ := everywhere next first inside
          rw [chosen] at least
          have empty : bySlice held next = [] := least
          exact absurd (List.mem_filter.mpr ⟨member, by simpa using number⟩)
            (List.eq_nil_iff_forall_not_mem.mp empty other)
      obtain ⟨here, furthest⟩ := pick_furthest within inService first inside chosen
      obtain ⟨begins, run, stop⟩ := reach_run held next picked.holder.volumeId
      have ends : reach held next picked.holder.volumeId ≤ slices.length := reach_le within inside
      rw [chosen]
      dsimp only
      generalize reach held next picked.holder.volumeId = last at begins run stop ends
      obtain ⟨count, size⟩ : ∃ count : Nat, last + 1 - next = count + 1 :=
        ⟨(last - next).toNat, by omega⟩
      have place : last + 1 = next + ((count + 1 : Nat) : Int) := by push_cast; omega
      have length : (last + 1 - next).toNat = count + 1 := by omega
      have whole : ∀ number, next ≤ number → number < next + ((count + 1 : Nat) : Int) →
          Holds held picked.holder.volumeId number := by
        intro number after before
        by_cases same : number = next
        · rw [same]
          exact here
        · exact run number (by omega) (by omega)
      obtain ⟨read, made, numbers, volumes, recorded⟩ := read_on_run stageSetId numbered first
        (by omega) whole
      obtain ⟨later, rest, good⟩ := ih (last + 1) (by omega) (by omega)
      rw [place] at stop good
      obtain ⟨allNumbers, allRecorded, greedy⟩ := GreedyFrom.block numbers volumes recorded stop good
      refine ⟨read ++ later, by rw [length, made, rest]; rfl, ?_, allRecorded, greedy, ?_⟩
      · rw [allNumbers]
        congr 1
        omega
      · intro one isFirst
        rw [List.map_append, volumes, List.replicate_succ, List.cons_append, List.head?_cons] at isFirst
        obtain rfl : picked.holder.volumeId = one := by simpa using isFirst
        exact furthest

end Reading

theorem start_run_reads (onStart : Int → Option (WritePositionInfo Digest))
    (numbered : ∀ number wp, onStart number = some wp → wp.sliceNumber = number) (fuel : Nat)
    (next : Int) :
    (startRun onStart fuel next).2 = next + (startRun onStart fuel next).1.length ∧
      (startRun onStart fuel next).1.map WritePositionInfo.sliceNumber =
        numbersFrom next (startRun onStart fuel next).1.length ∧
      (∀ wp ∈ (startRun onStart fuel next).1, onStart wp.sliceNumber = some wp) ∧
      (onStart (startRun onStart fuel next).2 = none ∨
        (startRun onStart fuel next).1.length = fuel) := by
  induction fuel generalizing next with
  | zero => simp [startRun, numbersFrom]
  | succ fuel ih =>
    rw [startRun]
    cases found : onStart next with
    | none => simp [numbersFrom, found]
    | some wp =>
      obtain ⟨after, numbers, own, stop⟩ := ih (next + 1)
      have number := numbered next wp found
      refine ⟨?_, ?_, ?_, ?_⟩
      · simp only [List.length_cons]
        push_cast
        omega
      · simp [numbers, numbersFrom, number]
      · intro other member
        rcases List.mem_cons.mp member with rfl | member
        · rw [number]
          exact found
        · exact own other member
      · exact stop.imp_right fun spent => by simp [spent]

theorem runs_from_length (run : Run) (positions : List (WritePositionInfo Digest)) :
    (runsFrom (some run) positions).length =
      changes (run.volumeId :: positions.map WritePositionInfo.volumeId) + 1 := by
  induction positions generalizing run with
  | nil => simp [runsFrom, changes]
  | cons wp rest ih =>
    rw [runsFrom, List.map_cons, changes]
    split
    case isTrue same => rw [ih, Nat.zero_add, ← same]
    case isFalse => rw [List.length_cons, ih, Nat.add_comm 1]

theorem runs_length {positions : List (WritePositionInfo Digest)} (some_slice : positions ≠ []) :
    (runs positions).length = changes (positions.map WritePositionInfo.volumeId) + 1 := by
  cases positions with
  | nil => exact absurd rfl some_slice
  | cons wp rest => rw [runs, runsFrom, runs_from_length, List.map_cons]

/-- Every slice in order, each at a position a holder of it records, the first from the start. -/
structure PlanOf (held : List SliceHolder) (slices : Nat) (volumeId : Int)
    (plan : List (WritePositionInfo Digest)) : Prop where
  numbers : plan.map WritePositionInfo.sliceNumber = numbersFrom 1 slices
  recorded : Recorded held plan
  starts : (plan.map WritePositionInfo.volumeId).head? = some volumeId

/-- The positions of the start cartridge: what the catalog says it holds of the set. -/
structure StartsOn (held : List SliceHolder) (volumeId : Int)
    (start : List (WritePositionInfo Digest)) : Prop where
  own : ∀ wp ∈ start, wp.volumeId = volumeId
  recorded : Recorded held start
  all : ∀ other ∈ held, other.holder.volumeId = volumeId →
    ∃ wp ∈ start, wp.sliceNumber = other.sliceNumber

theorem mem_holders_of_set {rows : List HolderRow} {other : SliceHolder}
    (member : other ∈ holdersOfSet rows) : ∃ row ∈ rows, row.sliceNumber = other.sliceNumber ∧
      other.standing = if row.inService then .inService else .quarantined := by
  unfold holdersOfSet at member
  revert other
  refine List.foldlRecOn (motive := fun found : List SliceHolder => ∀ {other}, other ∈ found →
    ∃ row ∈ rows, row.sliceNumber = other.sliceNumber ∧
      other.standing = if row.inService then .inService else .quarantined) rows _ (by simp) ?_
  intro found each row listed other member
  split at member
  · exact each member
  · split at member
    · exact each member
    · rcases List.mem_append.mp member with before | new
      · exact each before
      · rw [List.mem_singleton.mp new]
        exact ⟨row, listed, rfl, rfl⟩

section Across

variable {stageSetId volumeId : Int} {slices : List (SliceRow Digest)} {rows : List HolderRow}
  {start : List (WritePositionInfo Digest)}

theorem on_start_some {number : Int} {wp : WritePositionInfo Digest}
    (found : (start.filter fun wp => wp.sliceNumber = number).getLast? = some wp) :
    wp ∈ start ∧ wp.sliceNumber = number := by
  simpa using List.mem_filter.mp (List.mem_of_getLast? found)

theorem on_start_none (starts : StartsOn (holdersOfSet rows) volumeId start) {number : Int} :
    (start.filter fun wp => wp.sliceNumber = number).getLast? = none ↔
      ¬ Holds (holdersOfSet rows) volumeId number := by
  rw [List.getLast?_eq_none_iff, List.filter_eq_nil_iff]
  constructor
  · rintro none ⟨other, member, same, volume⟩
    obtain ⟨wp, listed, number⟩ := starts.all other member volume
    exact none wp listed (by simpa using number.trans same)
  · intro absent wp listed same
    obtain ⟨other, member, number, volume, _⟩ := starts.recorded wp listed
    refine absent ⟨other, member, number.trans (by simpa using same), ?_⟩
    exact volume.trans (starts.own wp listed)

/-- What the loop over the start cartridge reads: its run from slice 1, to where it ends. -/
theorem start_run_own (starts : StartsOn (holdersOfSet rows) volumeId start) :
    ∃ (begun : List (WritePositionInfo Digest)) (count : Nat),
      startRun (fun number => (start.filter fun wp => wp.sliceNumber = number).getLast?)
        (topSlice (start.map WritePositionInfo.sliceNumber)).toNat.succ 1 = (begun, 1 + (count : Int)) ∧
      begun.map WritePositionInfo.sliceNumber = numbersFrom 1 count ∧
      begun.map WritePositionInfo.volumeId = List.replicate count volumeId ∧
      Recorded (holdersOfSet rows) begun ∧
      ¬ Holds (holdersOfSet rows) volumeId (1 + count) := by
  obtain ⟨after, numbers, own, stop⟩ := start_run_reads
    (fun number => (start.filter fun wp => wp.sliceNumber = number).getLast?)
    (fun number wp found => (on_start_some found).2)
    (topSlice (start.map WritePositionInfo.sliceNumber)).toNat.succ 1
  generalize startRun (fun number => (start.filter fun wp => wp.sliceNumber = number).getLast?)
    (topSlice (start.map WritePositionInfo.sliceNumber)).toNat.succ 1 = run at after numbers own stop
  obtain ⟨begun, next⟩ := run
  dsimp only at after numbers own stop
  have listed : ∀ wp ∈ begun, wp ∈ start := fun wp member => (on_start_some (own wp member)).1
  refine ⟨begun, begun.length, by rw [after], numbers, ?_, ?_, ?_⟩
  · refine List.eq_replicate_iff.mpr ⟨List.length_map _, fun volume member => ?_⟩
    obtain ⟨wp, inside, rfl⟩ := List.mem_map.mp member
    exact starts.own wp (listed wp inside)
  · exact fun wp member => starts.recorded wp (listed wp member)
  · rcases stop with none | spent
    · rw [← after]
      exact (on_start_none starts).mp none
    · -- the fuel is past the highest slice the start holds
      have top : (begun.length : Int) ∈ begun.map WritePositionInfo.sliceNumber := by
        rw [numbers, mem_numbers_from]
        omega
      obtain ⟨wp, inside, same⟩ := List.mem_map.mp top
      have le := le_top_slice (List.mem_map_of_mem (f := WritePositionInfo.sliceNumber) (listed wp inside))
      omega

variable (stageSetId) in
theorem plan_across_greedy (numbered : slices.map SliceRow.number = numbersFrom 1 slices.length)
    (within : ∀ other ∈ holdersOfSet rows, 1 ≤ other.sliceNumber ∧ other.sliceNumber ≤ slices.length)
    (inService : ∀ other ∈ holdersOfSet rows, other.standing = .inService)
    (starts : StartsOn (holdersOfSet rows) volumeId start)
    (everywhere : ∀ number : Int, 1 ≤ number → number ≤ slices.length →
      ∃ volumeId, Holds (holdersOfSet rows) volumeId number)
    (first : Holds (holdersOfSet rows) volumeId 1) :
    ∃ plan, planAcross stageSetId slices rows start = .ok plan ∧
      PlanOf (holdersOfSet rows) slices.length volumeId plan ∧
      Greedy (Holds (holdersOfSet rows)) 1 (plan.map WritePositionInfo.volumeId) := by
  have notEmpty : start.isEmpty = false := by
    obtain ⟨other, member, _, volume⟩ := first
    obtain ⟨wp, listed, _⟩ := starts.all other member volume
    exact List.isEmpty_eq_false_iff.mpr (List.ne_nil_of_mem listed)
  have noneMissing : ((slices.map SliceRow.number).filter fun number =>
      ((start.filter fun wp => wp.sliceNumber = number).getLast?).isNone &&
        (bySlice (holdersOfSet rows) number).isEmpty) = [] := by
    refine List.filter_eq_nil_iff.mpr fun number member missing => ?_
    rw [numbered, mem_numbers_from] at member
    obtain ⟨volume, other, listed, same, _⟩ := everywhere number member.1 (by omega)
    have empty : bySlice (holdersOfSet rows) number = [] := by
      simpa using (Bool.and_eq_true_iff.mp missing).2
    exact List.eq_nil_iff_forall_not_mem.mp empty other
      (List.mem_filter.mpr ⟨listed, by simpa using same⟩)
  have here : ((start.filter fun wp => wp.sliceNumber = 1).getLast?).isNone = false := by
    rw [Option.isNone_eq_false_iff, Option.isSome_iff_ne_none]
    exact fun none => (on_start_none starts).mp none first
  obtain ⟨begun, count, ran, numbers, volumes, recorded, stop⟩ := start_run_own starts
  have some_slice : count ≠ 0 := by
    rintro rfl
    exact stop (by simpa using first)
  have inside : count ≤ slices.length := by
    have last : (count : Int) ∈ begun.map WritePositionInfo.sliceNumber := by
      rw [numbers, mem_numbers_from]
      omega
    obtain ⟨wp, member, same⟩ := List.mem_map.mp last
    obtain ⟨other, listed, number, _⟩ := recorded wp member
    have := (within other listed).2
    omega
  obtain ⟨later, rest, good⟩ := plan_rest_greedy stageSetId numbered within inService
    everywhere slices.length (1 + count) (by omega) (by omega)
  obtain ⟨allNumbers, allRecorded, greedy⟩ := GreedyFrom.block numbers volumes recorded stop good
  refine ⟨begun ++ later, ?_, ⟨?_, allRecorded, ?_⟩, greedy⟩
  · simp only [planAcross, notEmpty, noneMissing, here, ran, rest]
    rfl
  · rw [allNumbers]
    congr 1
    omega
  · obtain ⟨fewer, rfl⟩ := Nat.exists_eq_succ_of_ne_zero some_slice
    rw [List.map_append, volumes]
    rfl

variable (stageSetId) in
theorem plan_across_refused (numbered : slices.map SliceRow.number = numbersFrom 1 slices.length)
    (starts : StartsOn (holdersOfSet rows) volumeId start)
    (lacking : (∃ number : Int, 1 ≤ number ∧ number ≤ slices.length ∧
        ∀ volumeId, ¬ Holds (holdersOfSet rows) volumeId number) ∨
      ¬ Holds (holdersOfSet rows) volumeId 1) :
    ∃ refusal, planAcross stageSetId slices rows start = .error refusal := by
  rw [planAcross]
  split
  case isTrue => exact ⟨_, rfl⟩
  case isFalse =>
    dsimp only
    split
    case isTrue => exact ⟨_, rfl⟩
    case isFalse noneMissing =>
      split
      case isTrue => exact ⟨_, rfl⟩
      case isFalse here =>
        refine absurd lacking (not_or.mpr ⟨?_, ?_⟩)
        · rintro ⟨number, first, last, nobody⟩
          refine noneMissing ?_
          have missing : number ∈ (slices.map SliceRow.number).filter fun number =>
              ((start.filter fun wp => wp.sliceNumber = number).getLast?).isNone &&
                (bySlice (holdersOfSet rows) number).isEmpty := by
            refine List.mem_filter.mpr ⟨?_, ?_⟩
            · rw [numbered, mem_numbers_from]
              omega
            · rw [(on_start_none starts).mpr (nobody volumeId)]
              have empty : bySlice (holdersOfSet rows) number = [] :=
                List.filter_eq_nil_iff.mpr fun other member same =>
                  nobody other.holder.volumeId ⟨other, member, by simpa using same, rfl⟩
              simp [empty]
          rw [Bool.not_eq_true', List.isEmpty_eq_false_iff]
          exact List.ne_nil_of_mem missing
        · exact fun absent => here (by rw [(on_start_none starts).mpr absent]; rfl)

/-- A plan across cartridges reads every slice in order from a holder of it, with no more runs than
any other plan from the same start; it is refused exactly when a slice has no holder or the start
does not hold slice 1. -/
theorem plan_across_fewest_runs (numbered : slices.map SliceRow.number = numbersFrom 1 slices.length)
    (queried : ∀ row ∈ rows, 1 ≤ row.sliceNumber ∧ row.sliceNumber ≤ slices.length)
    (inService : ∀ row ∈ rows, row.inService = true)
    (starts : StartsOn (holdersOfSet rows) volumeId start) :
    (∀ plan, planAcross stageSetId slices rows start = .ok plan →
      PlanOf (holdersOfSet rows) slices.length volumeId plan ∧
        ∀ other : List (WritePositionInfo Digest),
          PlanOf (holdersOfSet rows) slices.length volumeId other →
            (runs plan).length ≤ (runs other).length) ∧
    ((∃ refusal, planAcross stageSetId slices rows start = .error refusal) ↔
      (∃ number : Int, 1 ≤ number ∧ number ≤ slices.length ∧
        ∀ volumeId, ¬ Holds (holdersOfSet rows) volumeId number) ∨
      ¬ Holds (holdersOfSet rows) volumeId 1) := by
  have within : ∀ other ∈ holdersOfSet rows,
      1 ≤ other.sliceNumber ∧ other.sliceNumber ≤ slices.length := by
    intro other member
    obtain ⟨row, listed, same, _⟩ := mem_holders_of_set member
    rw [← same]
    exact queried row listed
  have service : ∀ other ∈ holdersOfSet rows, other.standing = .inService := by
    intro other member
    obtain ⟨row, listed, _, standing⟩ := mem_holders_of_set member
    rw [standing, inService row listed]
    rfl
  by_cases lacking : (∃ number : Int, 1 ≤ number ∧ number ≤ slices.length ∧
        ∀ volumeId, ¬ Holds (holdersOfSet rows) volumeId number) ∨
      ¬ Holds (holdersOfSet rows) volumeId 1
  · obtain ⟨refusal, refused⟩ := plan_across_refused stageSetId numbered starts lacking
    refine ⟨fun plan made => ?_, fun _ => lacking, fun _ => ⟨refusal, refused⟩⟩
    cases refused.symm.trans made
  · have held := not_or.mp lacking
    push Not at held
    obtain ⟨plan, made, planned, greedy⟩ := plan_across_greedy stageSetId numbered within
      service starts held.1 held.2
    refine ⟨fun same found => ?_, fun ⟨refusal, refused⟩ => ?_, fun lacks => absurd lacks lacking⟩
    · obtain rfl := Except.ok.inj (made.symm.trans found)
      refine ⟨planned, fun other valid => ?_⟩
      have some_slice : ∀ {plan : List (WritePositionInfo Digest)},
          PlanOf (holdersOfSet rows) slices.length volumeId plan → plan ≠ [] := by
        rintro plan valid rfl
        cases valid.starts
      have lengths : (plan.map WritePositionInfo.volumeId).length =
          (other.map WritePositionInfo.volumeId).length := by
        have same := congrArg List.length (planned.numbers.trans valid.numbers.symm)
        simpa using same
      rw [runs_length (some_slice planned), runs_length (some_slice valid)]
      exact Nat.add_le_add_right (greedy.fewest (planned.recorded.holding planned.numbers)
        (valid.recorded.holding valid.numbers) lengths (planned.starts.trans valid.starts.symm)) 1
    · cases made.symm.trans refused

end Across

/-- Four slices: the start holds 1 and 3, and is left for the volume that reads on to the end. -/
theorem plan_across_fewest_runs_two_loads :
    let slices : List (SliceRow Nat) := [⟨1, none, 11, 1⟩, ⟨2, none, 12, 1⟩, ⟨3, none, 13, 1⟩,
      ⟨4, none, 14, 1⟩]
    let rows : List HolderRow := [⟨1, 7, "A", some 5, true⟩, ⟨2, 8, "B", some 5, true⟩,
      ⟨2, 9, "C", some 5, true⟩, ⟨3, 7, "A", some 6, true⟩, ⟨3, 9, "C", some 6, true⟩,
      ⟨4, 9, "C", some 7, true⟩]
    let start : List (WritePositionInfo Nat) := [⟨1, 1, 7, some 5, 1, 11, none⟩,
      ⟨1, 3, 7, some 6, 1, 13, none⟩]
    ∃ plan, planAcross 1 slices rows start = .ok plan ∧
      runs plan = [⟨7, 1, 1⟩, ⟨9, 2, 4⟩] ∧
      ∀ other : List (WritePositionInfo Nat), PlanOf (holdersOfSet rows) 4 7 other →
        2 ≤ (runs other).length := by
  intro slices rows start
  have made : (planAcross 1 slices rows start).toOption.any (fun plan =>
      runs plan = [⟨7, 1, 1⟩, ⟨9, 2, 4⟩]) = true := by decide +kernel
  obtain ⟨fewest, _⟩ := @plan_across_fewest_runs Nat 1 7 slices rows start (by decide) (by decide)
    (by decide) ⟨by decide, by unfold Recorded; decide +kernel, by decide +kernel⟩
  cases planned : planAcross 1 slices rows start with
  | error refusal => simp [planned, Except.toOption] at made
  | ok plan =>
    have same : runs plan = [⟨7, 1, 1⟩, ⟨9, 2, 4⟩] := by
      simpa [planned, Except.toOption] using made
    refine ⟨plan, rfl, same, fun other valid => ?_⟩
    have least := (fewest plan planned).2 other valid
    rw [same] at least
    exact least

end Tapectl.Restore
