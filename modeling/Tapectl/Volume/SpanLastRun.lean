import Tapectl.Volume.PlacementBounds

/-!
# The last run of a set larger than one tape

`CapacityBudget::span_last_run`: how many bytes of a spannable tail are left for its last tape, taking
its first tape to hold the plan bound less where the set starts and each later one the bound less the
fixed files. The plain `-` and `*` of the source wrap; that they never do is part of the result.
-/

namespace Tapectl.Volume

def wrappingMul (left right : Nat) : Nat := left * right % 2 ^ 64

def divCeil (left right : Nat) : Nat := (left + right - 1) / right

def Placement.tail (placement : Placement) : Option Nat :=
  placement.placed.findIdx? fun placed => placed = .tail

namespace CapacityBudget

/-- The plan's end before the unit `t`. -/
def planStart (fixedBytes : Nat) (items : List PlanItem) (order : List Nat) (t : Nat) : Nat :=
  (itemSizes items (order.takeWhile fun i => i ≠ t)).foldl saturatingAddU64 fixedBytes

/-- What of a set of `bytes` its first tape does not hold. -/
def spanRest (bound start bytes : Nat) : Nat := bytes - (bound - start)

def laterTapes (rest room : Nat) : Nat := max (divCeil rest room) 1

/-- What a set larger than one tape leaves for its last tape. `none` where the source would index past
the items stands for its panic; `place` gives every item a verdict. -/
def spanLastRun (budget : CapacityBudget) (fixedBytes : Nat) (items : List PlanItem)
    (placement : Placement) : Option Nat := do
  let t ← placement.tail
  let bound ← budget.planBoundBytes
  let room ← budget.spanRoom fixedBytes
  let item ← items[t]?
  if item.planClass ≠ .spannable ∨ item.bytes ≤ room then none
  else
    let rest := spanRest bound (planStart fixedBytes items placement.order t) item.bytes
    some (wrappingSub rest (wrappingMul (wrappingSub (laterTapes rest room) 1) room))

theorem wrapping_sub_exact {left right : Nat} (le : right ≤ left) (small : left < 2 ^ 64) :
    wrappingSub left right = left - right := by
  have right_small : right % 2 ^ 64 = right := Nat.mod_eq_of_lt (by omega)
  rw [wrappingSub, right_small]
  omega

theorem wrapping_mul_exact {left right : Nat} (small : left * right < 2 ^ 64) :
    wrappingMul left right = left * right := Nat.mod_eq_of_lt small

/-- The tail of a placement is a spannable set larger than the room past the fixed files. -/
structure LargeTail (budget : CapacityBudget) (fixedBytes : Nat) (items : List PlanItem)
    (placement : Placement) (bound t : Nat) (item : PlanItem) : Prop where
  tail : placement.tail = some t
  limited : budget.planBoundBytes = some bound
  room : fixedBytes < bound
  there : items[t]? = some item
  spannable : item.planClass = .spannable
  larger : bound - fixedBytes < item.bytes

theorem span_room_eq {budget : CapacityBudget} {fixedBytes bound room : Nat}
    (limited : budget.planBoundBytes = some bound) :
    budget.spanRoom fixedBytes = some room ↔ fixedBytes < bound ∧ room = bound - fixedBytes := by
  simp only [spanRoom, limited, Option.map_some, Option.filter_eq_some_iff, Option.some.injEq,
    decide_eq_true_eq]
  omega

theorem span_last_run_eq_some {budget : CapacityBudget} {fixedBytes : Nat} {items : List PlanItem}
    {placement : Placement} {r : Nat} :
    budget.spanLastRun fixedBytes items placement = some r ↔
      ∃ bound t item, LargeTail budget fixedBytes items placement bound t item ∧
        let room := bound - fixedBytes
        let rest := spanRest bound (planStart fixedBytes items placement.order t) item.bytes
        r = wrappingSub rest (wrappingMul (wrappingSub (laterTapes rest room) 1) room) := by
  simp only [spanLastRun, Option.bind_eq_bind, Option.bind_eq_some_iff]
  constructor
  · rintro ⟨t, tail, bound, limited, room, found, item, there, last⟩
    obtain ⟨fits, rfl⟩ := (span_room_eq limited).1 found
    split at last
    · cases last
    · rename_i large
      rw [not_or, not_not, Nat.not_le] at large
      exact ⟨bound, t, item, ⟨tail, limited, fits, there, large.1, large.2⟩,
        (Option.some.inj last).symm⟩
  · rintro ⟨bound, t, item, large, rfl⟩
    refine ⟨t, large.tail, bound, large.limited, _, (span_room_eq large.limited).2 ⟨large.room, rfl⟩,
      item, large.there, ?_⟩
    rw [if_neg]
    rw [not_or, not_not, Nat.not_le]
    exact ⟨large.spannable, large.larger⟩

theorem saturating_fold {start : Nat} {sizes : List Nat} (small : start + sizes.sum < 2 ^ 64) :
    sizes.foldl saturatingAddU64 start = start + sizes.sum := by
  induction sizes generalizing start with
  | nil => rfl
  | cons bytes rest ih =>
    rw [List.sum_cons] at small ⊢
    rw [List.foldl_cons, exact_add (by omega), ih (by omega), Nat.add_assoc]

theorem span_run_within {budget : CapacityBudget} {bound start : Nat} {sizes : List Nat}
    (limited : budget.planBoundBytes = some bound) (available : budget.availableBytes ≤ bound)
    (starts : start ≤ bound) (small : start + sizes.sum < 2 ^ 64) :
    (∀ n, (budget.spanRun start sizes).placed[n]? = some .tail →
      start + (sizes.take n).sum ≤ bound) ∧
    (Cut.opened (budget.spanRun start sizes) = true →
      (budget.spanRun start sizes).finish = start + sizes.sum ∧ start + sizes.sum ≤ bound) := by
  induction sizes generalizing start with
  | nil =>
    refine ⟨fun n verdict => by simp [spanRun] at verdict, fun _ => ⟨rfl, ?_⟩⟩
    simpa using starts
  | cons bytes rest ih =>
    rw [List.sum_cons] at small ⊢
    have exact : saturatingAddU64 start bytes = start + bytes := exact_add (by omega)
    rcases budget.span_placed_cases (saturatingAddU64 start bytes) with
      ⟨refused, _⟩ | ⟨tail, _⟩ | ⟨placed, settled, found, _⟩
    · rw [budget.span_run_refuses refused]
      refine ⟨fun n verdict => ?_, by simp [Cut.opened]⟩
      cases n <;> simp at verdict
    · rw [budget.span_run_tail tail]
      refine ⟨fun n verdict => ?_, by simp [Cut.opened]⟩
      cases n with
      | zero => simpa using starts
      | succ n => simp at verdict
    · have within : start + bytes ≤ bound := by
        rw [exact, spanPlaced, limited] at found
        split at found
        · rename_i under
          have reached : start + bytes ≤ saturatingAddU64 (start + bytes) budget.reserveBytes := by
            simp only [saturatingAddU64, maxU64]
            omega
          omega
        · simp only at found
          split at found
          · assumption
          · cases found
            exact absurd rfl settled.ne_tail
      rw [budget.span_run_settles settled found, exact]
      obtain ⟨tails, opens⟩ := @ih (start + bytes) within (by omega)
      constructor
      · intro n verdict
        cases n with
        | zero =>
          rw [List.getElem?_cons_zero, Option.some.injEq] at verdict
          exact absurd verdict settled.ne_tail
        | succ n =>
          rw [List.take_succ_cons, List.sum_cons, ← Nat.add_assoc]
          exact tails n (by simpa using verdict)
      · intro opened
        rw [← Nat.add_assoc]
        exact opens opened

theorem planned_to_tail {budget : CapacityBudget} {indices sizes : List Nat} {start n t : Nat}
    {settled : List Placed} (length : indices.length = sizes.length) (unit : indices[n]? = some t)
    (reached : settled.length = n) (fits : ∀ placed ∈ settled, Settled placed)
    (verdicts : (budget.spanRun start sizes).placed = settled ++ [.tail]) :
    ((indices.zip (budget.placeSpans sizes start false).placed).filter
      fun unit => unit.2.planned).map Prod.fst = indices.take n ++ [t] := by
  have inside : n < indices.length := (List.getElem?_eq_some_iff.1 unit).1
  rw [place_spans_opened, SpanRun.fill, verdicts]
  dsimp only
  rw [filter_planned, map_fst_zip_take, List.take_take, List.length_append, reached]
  · rw [show min (n + [Placed.tail].length) (n + [Placed.tail].length) = n + 1 by simp,
      List.take_add_one, unit]
    rfl
  · simp
    omega
  · intro verdict member
    rcases List.mem_append.1 member with member | member
    · exact (fits verdict member).planned
    · rw [List.mem_singleton.1 member]
      rfl
  · intro verdict member
    rw [List.eq_of_mem_replicate member]
    split <;> rfl

section Tail

variable {budget : CapacityBudget} {fixedBytes : Nat} {items : List PlanItem} {bound t : Nat}
  {item : PlanItem}
  (large : LargeTail budget fixedBytes items (budget.place fixedBytes items) bound t item)

include large

theorem LargeTail.verdict : (budget.place fixedBytes items).placed[t]? = some .tail := by
  obtain ⟨inside, found, _⟩ := List.findIdx?_eq_some_iff_getElem.1 large.tail
  rw [List.getElem?_eq_getElem inside]
  simpa using found

omit large in
/-- With a tail among the sets and no whole unit kept, the sets start where the owed runs end. -/
theorem plan_cut_spans_opened {n : Nat} (none : (budget.planCut fixedBytes items).kept = 0)
    (fits : Cut.opened (budget.spanRun fixedBytes (itemSizes items (classIndices items .owed))) = true →
      (budget.spanRun fixedBytes (itemSizes items (classIndices items .owed))).finish < 2 ^ 64)
    (tail : (budget.planCut fixedBytes items).spans.placed[n]? = some .tail) :
    Cut.opened (budget.spanRun fixedBytes (itemSizes items (classIndices items .owed))) = true ∧
    (budget.planCut fixedBytes items).spans = budget.placeSpans
      (itemSizes items (classIndices items .spannable))
      (budget.spanRun fixedBytes (itemSizes items (classIndices items .owed))).finish false := by
  rw [planCut] at none tail ⊢
  rcases budget.cut_cases fixedBytes (itemSizes items (classIndices items .owed))
    (itemSizes items (classIndices items .whole)) (itemSizes items (classIndices items .spannable))
    with ⟨_, start, same⟩ | ⟨opened, _, _, same⟩ | ⟨opened, _, same⟩
  · rw [same] at tail
    cases (budget.place_spans_tail_reached tail).1
  · rw [same]
    exact ⟨opened, rfl⟩
  · rw [same] at none ⊢
    dsimp only at none
    have fits := fits opened
    refine ⟨opened, ?_⟩
    dsimp only
    rw [none, List.take_zero]
    congr 1
    simp only [saturatingAddU64, maxU64, wrappingSum, List.sum_nil, Nat.zero_mod]
    omega

/-- Only owed runs and other sets come before a tail larger than one tape, and they end within the
bound. -/
theorem LargeTail.starts_within (available : budget.availableBytes ≤ bound)
    (small : fixedBytes + (items.map PlanItem.bytes).sum < 2 ^ 64) :
    ∃ front back, (budget.place fixedBytes items).order = front ++ t :: back ∧
      fixedBytes + (itemSizes items front).sum ≤ bound ∧
      fixedBytes + (itemSizes items front).sum < 2 ^ 64 := by
  have sums := class_sums items
  have none := budget.displaced_whole fixedBytes items large.limited large.room large.there
    large.spannable large.larger large.verdict
  obtain ⟨n, unit, placed⟩ := budget.tail_among_sets fixedBytes items large.there large.spannable
    large.verdict
  have owedSmall : fixedBytes + (itemSizes items (classIndices items .owed)).sum < 2 ^ 64 := by omega
  obtain ⟨_, owedEnd⟩ := span_run_within large.limited available large.room.le owedSmall
  obtain ⟨opened, spans⟩ := plan_cut_spans_opened none
    (fun opened => by rw [(owedEnd opened).1]; exact owedSmall) placed
  obtain ⟨finish, within⟩ := owedEnd opened
  rw [spans] at placed
  obtain ⟨_, settled, fits, reached, verdicts, _⟩ := budget.place_spans_tail_reached placed
  obtain ⟨tails, _⟩ := @span_run_within budget bound
    (budget.spanRun fixedBytes (itemSizes items (classIndices items .owed))).finish
    (itemSizes items (classIndices items .spannable)) large.limited available (by omega) (by omega)
  have front : (itemSizes items (classIndices items .owed ++
      (classIndices items .spannable).take n)).sum =
      (itemSizes items (classIndices items .owed)).sum +
        ((itemSizes items (classIndices items .spannable)).take n).sum := by
    rw [itemSizes, List.map_append, List.sum_append, List.map_take]
    rfl
  refine ⟨classIndices items .owed ++ (classIndices items .spannable).take n, [], ?_, ?_, ?_⟩
  · have owed : (budget.planCut fixedBytes items).owed.placed.length =
        (classIndices items .owed).length := by
      rw [plan_cut_owed]
      have ended := budget.span_run_ended fixedBytes (itemSizes items (classIndices items .owed))
      generalize budget.spanRun fixedBytes (itemSizes items (classIndices items .owed)) = run
        at ended opened
      cases ended with
      | complete finish verdicts fits reached => simpa using reached
      | tail => simp [Cut.opened] at opened
      | refused => simp [Cut.opened] at opened
    have sets := planned_to_tail (length_item_sizes items _).symm unit reached fits verdicts
    simp only [place]
    rw [owed, List.take_length, none, List.take_zero, List.append_nil, spans, sets,
      List.append_assoc]
  · have sets := tails n (by rw [verdicts, ← reached]; simp)
    rw [finish] at sets
    rw [front, ← Nat.add_assoc]
    exact sets
  · have whole := List.sum_take_add_sum_drop (itemSizes items (classIndices items .spannable)) n
    rw [front]
    omega

theorem LargeTail.plan_start (available : budget.availableBytes ≤ bound)
    (small : fixedBytes + (items.map PlanItem.bytes).sum < 2 ^ 64) :
    planStart fixedBytes items (budget.place fixedBytes items).order t =
        startOf fixedBytes items (budget.place fixedBytes items).order t ∧
      startOf fixedBytes items (budget.place fixedBytes items).order t ≤ bound := by
  obtain ⟨front, back, order, within, fits⟩ := large.starts_within available small
  have nodup := budget.order_nodup fixedBytes items
  rw [order] at nodup
  have absent : t ∉ front := fun member =>
    (List.nodup_append.1 nodup).2.2 t member t List.mem_cons_self rfl
  have before : (front ++ t :: back).takeWhile (fun i => decide (i ≠ t)) = front := by
    rw [List.takeWhile_append_of_pos, List.takeWhile_cons_of_neg, List.append_nil]
    · simp
    · intro i member
      simpa using fun same : i = t => absent (same ▸ member)
  have index : (front ++ t :: back).idxOf t = front.length := by
    rw [List.idxOf_append_of_notMem absent, List.idxOf_cons_self, Nat.add_zero]
  rw [planStart, startOf, order, before, index, List.take_left, saturating_fold fits]
  exact ⟨rfl, within⟩

end Tail

theorem last_room {rest room : Nat} (some_bytes : 0 < rest) (some_room : 0 < room) :
    1 ≤ laterTapes rest room ∧ (laterTapes rest room - 1) * room < rest ∧
      rest ≤ (laterTapes rest room - 1) * room + room := by
  have quotient := Nat.div_add_mod (rest + room - 1) room
  have remainder := Nat.mod_lt (rest + room - 1) some_room
  have positive : 1 ≤ (rest + room - 1) / room := (Nat.one_le_div_iff some_room).2 (by omega)
  have tapes : laterTapes rest room = (rest + room - 1) / room := max_eq_left positive
  obtain ⟨before, count⟩ := Nat.exists_eq_add_of_le' positive
  rw [count, Nat.mul_comm, Nat.add_mul] at quotient
  rw [tapes, count, Nat.add_sub_cancel]
  refine ⟨by omega, ?_, ?_⟩ <;> omega

theorem span_last_run_spec (budget : CapacityBudget) (fixedBytes : Nat) (items : List PlanItem)
    (available : ∀ bound, budget.planBoundBytes = some bound → budget.availableBytes ≤ bound)
    (small : fixedBytes + (items.map PlanItem.bytes).sum < 2 ^ 64) :
    ((budget.spanLastRun fixedBytes items (budget.place fixedBytes items)).isSome ↔
      ∃ bound t item, LargeTail budget fixedBytes items (budget.place fixedBytes items) bound t item) ∧
    ∀ r bound t item, budget.spanLastRun fixedBytes items (budget.place fixedBytes items) = some r →
      LargeTail budget fixedBytes items (budget.place fixedBytes items) bound t item →
        let room := bound - fixedBytes
        let start := startOf fixedBytes items (budget.place fixedBytes items).order t
        let rest := spanRest bound (planStart fixedBytes items (budget.place fixedBytes items).order t)
          item.bytes
        1 ≤ r ∧ r ≤ room ∧ start ≤ bound ∧ (∃ k, item.bytes = (bound - start) + k * room + r) ∧
          1 ≤ laterTapes rest room ∧ (laterTapes rest room - 1) * room < 2 ^ 64 ∧
          (laterTapes rest room - 1) * room ≤ rest := by
  constructor
  · rw [Option.isSome_iff_exists]
    constructor
    · rintro ⟨r, last⟩
      obtain ⟨bound, t, item, large, _⟩ := span_last_run_eq_some.1 last
      exact ⟨bound, t, item, large⟩
    · rintro ⟨bound, t, item, large⟩
      exact ⟨_, span_last_run_eq_some.2 ⟨bound, t, item, large, rfl⟩⟩
  · intro r bound t item last large room start rest
    obtain ⟨_, _, _, found, last⟩ := span_last_run_eq_some.1 last
    obtain rfl := Option.some.inj (large.limited.symm.trans found.limited)
    obtain rfl := Option.some.inj (large.tail.symm.trans found.tail)
    obtain rfl := Option.some.inj (large.there.symm.trans found.there)
    obtain ⟨exact, within⟩ := large.plan_start (available bound large.limited) small
    have fixed : fixedBytes ≤ start := Nat.le_add_right _ _
    have some_room := large.room
    have larger := large.larger
    have item_small : item.bytes < 2 ^ 64 := by
      have le := List.le_sum_of_mem (List.mem_map_of_mem (f := PlanItem.bytes)
        (List.mem_of_getElem? large.there))
      omega
    have rest_eq : rest = item.bytes - (bound - start) := by
      rw [← exact] at within
      simp only [rest, spanRest, exact]
      rfl
    obtain ⟨tapes, below, above⟩ := @last_room rest room (by omega) (by omega)
    have fits : (laterTapes rest room - 1) * room < 2 ^ 64 := by omega
    have tapes_small : laterTapes rest room < 2 ^ 64 := by
      have : laterTapes rest room - 1 ≤ (laterTapes rest room - 1) * room :=
        Nat.le_mul_of_pos_right _ (by omega)
      omega
    have value : r = rest - (laterTapes rest room - 1) * room := by
      rw [last, wrapping_sub_exact tapes tapes_small, wrapping_mul_exact fits,
        wrapping_sub_exact below.le (by omega)]
    refine ⟨by omega, by omega, within, ⟨laterTapes rest room - 1, ?_⟩, tapes, fits, below.le⟩
    have covered : bound - start ≤ item.bytes := by omega
    omega

/-- A set of thirty bytes behind an owed run of two, on tapes with eighteen bytes past the fixed
files: sixteen on the first tape, fourteen left. -/
theorem span_last_run_spec_two_tapes :
    let budget : CapacityBudget := ⟨10, 1, some 20⟩
    let items : List PlanItem := [⟨.whole, 3⟩, ⟨.spannable, 30⟩, ⟨.owed, 2⟩]
    budget.spanLastRun 2 items (budget.place 2 items) = some 14 ∧ 1 ≤ 14 ∧ 14 ≤ 20 - 2 ∧
      startOf 2 items (budget.place 2 items).order 1 ≤ 20 := by
  intro budget items
  have last : budget.spanLastRun 2 items (budget.place 2 items) = some 14 := by decide
  have bounded : ∀ bound, budget.planBoundBytes = some bound → budget.availableBytes ≤ bound := by
    intro bound limited
    obtain rfl := Option.some.inj limited
    decide
  have large : LargeTail budget 2 items (budget.place 2 items) 20 1 ⟨.spannable, 30⟩ :=
    ⟨by decide, rfl, by decide, rfl, rfl, by decide⟩
  obtain ⟨one, room, start, _⟩ :=
    (span_last_run_spec budget 2 items bounded (by decide)).2 14 20 1 ⟨.spannable, 30⟩ last large
  exact ⟨last, one, room, start⟩

end CapacityBudget

end Tapectl.Volume
