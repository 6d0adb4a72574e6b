import Tapectl.Volume.LayoutModel

/-!
# The plan order of one tape

`volume/layout_model.rs`: `CapacityBudget::place` and the capacity gate of a Layout. The sizes are
`u64` values held as naturals: `saturating_add` stops at `2^64 - 1`, and the plain `+`, `-` and
`sum()` of a release build wrap around `2^64`. Nothing below bounds the sizes.

`Layout` holds no budget here; the functions that read `self.budget` take it as an argument.
-/

namespace Tapectl.Volume

def maxU64 : Nat := 2 ^ 64 - 1

def saturatingAddU64 (left right : Nat) : Nat := min (left + right) maxU64

def wrappingSum (sizes : List Nat) : Nat := sizes.sum % 2 ^ 64

def wrappingAdd (left right : Nat) : Nat := (left + right) % 2 ^ 64

def wrappingSub (left right : Nat) : Nat := (left + (2 ^ 64 - right % 2 ^ 64)) % 2 ^ 64

structure CapacityBudget where
  availableBytes : Nat
  reserveBytes : Nat
  planBoundBytes : Option Nat
  deriving DecidableEq, Repr

inductive PlanClass where
  | owed
  | whole
  | spannable
  deriving DecidableEq, Repr

def PlanClass.rank : PlanClass → Nat
  | .owed => 0
  | .whole => 1
  | .spannable => 2

structure PlanItem where
  planClass : PlanClass
  bytes : Nat
  deriving DecidableEq, Repr

inductive Placed where
  | committed
  | pastCeiling
  | tail
  | deferred
  | refused
  deriving DecidableEq, Repr

def Placed.planned : Placed → Bool
  | .committed | .pastCeiling | .tail => true
  | .deferred | .refused => false

inductive LayoutError where
  | unsized (position : Int) (label : String)
  | capacityExceeded (needed reserve available : Nat)
  | planBoundExceeded (needed bound : Nat)
  | spanNeedsPostWarningBytes (needed reserve available : Nat)
  deriving DecidableEq, Repr

structure Placement where
  order : List Nat
  placed : List Placed
  errors : List LayoutError
  deriving DecidableEq, Repr

namespace CapacityBudget

variable (budget : CapacityBudget)

/-- The whole units in the caller's order from `finish`: how many are committed, and how many are
planned in all. `ceilingCrossed` is the loop's flag. -/
def wholeRun (pastCeiling : Bool) : Bool → Nat → List Nat → Nat × Nat
  | _, _, [] => (0, 0)
  | ceilingCrossed, finish, bytes :: rest =>
    let finish := saturatingAddU64 finish bytes
    if !ceilingCrossed ∧ saturatingAddU64 finish budget.reserveBytes ≤ budget.availableBytes then
      let later := wholeRun pastCeiling false finish rest
      (later.1 + 1, later.2 + 1)
    else
      match budget.planBoundBytes with
      | some bound =>
        if pastCeiling ∧ finish ≤ bound then
          let later := wholeRun pastCeiling true finish rest
          (later.1, later.2 + 1)
        else (0, 0)
      | none => (0, 0)

/-- Where a spannable unit that ends the plan at `finish` sits; `none` when it passes the fill
ceiling on a drive with no plan bound. -/
def spanPlaced (finish : Nat) : Option Placed :=
  if saturatingAddU64 finish budget.reserveBytes ≤ budget.availableBytes then some .committed
  else
    match budget.planBoundBytes with
    | none => none
    | some bound => if finish ≤ bound then some .pastCeiling else some .tail

/-- What a loop over spannable units decided: the plan's end, the verdicts, the bytes of the tail
and the refusal. -/
structure SpanRun where
  finish : Nat
  placed : List Placed
  tailBytes : Option Nat
  errors : List LayoutError
  deriving DecidableEq, Repr

/-- The loop the owed runs and the spannable sets share (`place_span`). It stops at the tail and at
the first refusal, so `placed` has a verdict for each unit it reached. -/
def spanRun : Nat → List Nat → SpanRun
  | finish, [] => ⟨finish, [], none, []⟩
  | finish, bytes :: rest =>
    let finish := saturatingAddU64 finish bytes
    match budget.spanPlaced finish with
    | none =>
      ⟨finish, [.refused], none,
        [.spanNeedsPostWarningBytes finish budget.reserveBytes budget.availableBytes]⟩
    | some .tail => ⟨finish, [.tail], some bytes, []⟩
    | some placed =>
      let later := spanRun finish rest
      { later with placed := placed :: later.placed }

/-- A verdict for every unit: the ones the loop did not reach get `rest`. -/
def SpanRun.fill (run : SpanRun) (units : Nat) (rest : Placed) : List Placed :=
  run.placed ++ List.replicate (units - run.placed.length) rest

/-- Step 3 of `place`: after the tail, or when the plan is closed, every set is deferred; after a
refusal every set is refused with it. -/
def placeSpans (sizes : List Nat) (start : Nat) (closed : Bool) : SpanRun :=
  if closed then ⟨start, List.replicate sizes.length .deferred, none, []⟩
  else
    let run := budget.spanRun start sizes
    { run with placed := run.fill sizes.length (if run.errors.isEmpty then .deferred else .refused) }

def spanRoom (fixedBytes : Nat) : Option Nat :=
  (budget.planBoundBytes.map (· - fixedBytes)).filter (0 < ·)

def largerThanOneTape (fixedBytes bytes : Nat) : Bool :=
  (budget.spanRoom fixedBytes).any (· < bytes)

/-- The decisions of `place`, on the sizes of the three classes alone. -/
structure Cut where
  held : Nat
  owed : SpanRun
  committed : Nat
  kept : Nat
  spans : SpanRun
  deriving DecidableEq, Repr

def Cut.opened (owed : SpanRun) : Bool := owed.tailBytes.isNone && owed.errors.isEmpty

def cut (fixedBytes : Nat) (owed whole spannable : List Nat) : Cut :=
  let held := (budget.wholeRun true false fixedBytes whole).2
  let owedRun := budget.spanRun fixedBytes owed
  let opened := Cut.opened owedRun
  let run :=
    if opened then budget.wholeRun spannable.isEmpty false owedRun.finish (whole.take held)
    else (0, 0)
  let spans := budget.placeSpans spannable
    (saturatingAddU64 owedRun.finish (wrappingSum ((whole.take held).take run.2))) (!opened)
  let displaces := 0 < run.2 ∧ spans.tailBytes.any (budget.largerThanOneTape fixedBytes)
  if displaces then ⟨held, owedRun, run.1, 0, budget.placeSpans spannable owedRun.finish false⟩
  else ⟨held, owedRun, run.1, run.2, spans⟩

/-- The verdict of the whole unit `n`. -/
def Cut.wholeVerdict (cut : Cut) (n : Nat) : Placed :=
  if cut.held ≤ n then .refused
  else if n < min cut.committed cut.kept then .committed
  else if n < cut.kept then .pastCeiling
  else .deferred

def baselineErrors (fixedBytes held : Nat) (whole : List Nat) : List LayoutError :=
  if held < whole.length then
    let needed := saturatingAddU64 fixedBytes (wrappingSum whole)
    [match budget.planBoundBytes with
      | some bound => .planBoundExceeded needed bound
      | none => .capacityExceeded needed budget.reserveBytes budget.availableBytes]
  else []

end CapacityBudget

variable (items : List PlanItem)

def classIndices (planClass : PlanClass) : List Nat :=
  (List.range items.length).filter fun i => (items[i]?.map PlanItem.planClass) = some planClass

def itemSizes (indices : List Nat) : List Nat :=
  indices.map fun i => ((items[i]?).map PlanItem.bytes).getD 0

namespace CapacityBudget

/-- The decisions of `place` for the items' own sizes. -/
def planCut (budget : CapacityBudget) (fixedBytes : Nat) (items : List PlanItem) : Cut :=
  budget.cut fixedBytes (itemSizes items (classIndices items .owed))
    (itemSizes items (classIndices items .whole)) (itemSizes items (classIndices items .spannable))

/-- Every item with the verdict the loops give it, the classes in plan order. -/
def verdicts (budget : CapacityBudget) (fixedBytes : Nat) (items : List PlanItem) :
    List (Nat × Placed) :=
  let cut := budget.planCut fixedBytes items
  let owed := classIndices items .owed
  let whole := classIndices items .whole
  owed.zip (cut.owed.fill owed.length .deferred) ++
    whole.zip ((List.range whole.length).map cut.wholeVerdict) ++
    (classIndices items .spannable).zip cut.spans.placed

def place (budget : CapacityBudget) (fixedBytes : Nat) (items : List PlanItem) : Placement :=
  let cut := budget.planCut fixedBytes items
  let whole := classIndices items .whole
  { -- every owed run the loop reached is pushed, also the one it refuses
    order := (classIndices items .owed).take cut.owed.placed.length ++ whole.take cut.kept ++
      (((classIndices items .spannable).zip cut.spans.placed).filter
        fun unit => unit.2.planned).map Prod.fst
    placed := (List.range items.length).map fun i =>
      ((budget.verdicts fixedBytes items).lookup i).getD .deferred
    errors := budget.baselineErrors fixedBytes cut.held (itemSizes items whole) ++
      cut.owed.errors ++ cut.spans.errors }

end CapacityBudget

namespace CapacityBudget

variable (budget : CapacityBudget)

theorem whole_run_cons (pastCeiling crossed : Bool) (finish bytes : Nat) (rest : List Nat) :
    (budget.wholeRun pastCeiling crossed finish (bytes :: rest) = (0, 0)) ∨
    (crossed = false ∧
      saturatingAddU64 (saturatingAddU64 finish bytes) budget.reserveBytes ≤ budget.availableBytes ∧
      ∀ after, budget.wholeRun pastCeiling crossed finish (bytes :: after) =
        ((budget.wholeRun pastCeiling false (saturatingAddU64 finish bytes) after).1 + 1,
          (budget.wholeRun pastCeiling false (saturatingAddU64 finish bytes) after).2 + 1)) ∨
    (∃ bound, budget.planBoundBytes = some bound ∧ pastCeiling = true ∧
      saturatingAddU64 finish bytes ≤ bound ∧
      ∀ after, budget.wholeRun pastCeiling crossed finish (bytes :: after) =
        ((budget.wholeRun pastCeiling true (saturatingAddU64 finish bytes) after).1,
          (budget.wholeRun pastCeiling true (saturatingAddU64 finish bytes) after).2 + 1)) := by
  by_cases under : (!crossed) = true ∧
      saturatingAddU64 (saturatingAddU64 finish bytes) budget.reserveBytes ≤ budget.availableBytes
  · refine .inr (.inl ⟨by simpa using under.1, under.2, fun after => ?_⟩)
    simp only [wholeRun, if_pos under]
  · cases bound : budget.planBoundBytes with
    | none => exact .inl (by simp only [wholeRun, if_neg under, bound])
    | some limit =>
      by_cases within : pastCeiling = true ∧ saturatingAddU64 finish bytes ≤ limit
      · refine .inr (.inr ⟨limit, rfl, within.1, within.2, fun after => ?_⟩)
        simp only [wholeRun, if_neg under, bound, if_pos within]
      · exact .inl (by simp only [wholeRun, if_neg under, bound, if_neg within])

theorem whole_run_le (pastCeiling crossed : Bool) (finish : Nat) (sizes : List Nat) :
    (budget.wholeRun pastCeiling crossed finish sizes).1 ≤
        (budget.wholeRun pastCeiling crossed finish sizes).2 ∧
      (budget.wholeRun pastCeiling crossed finish sizes).2 ≤ sizes.length := by
  induction sizes generalizing crossed finish with
  | nil => simp [wholeRun]
  | cons bytes rest ih =>
    rcases budget.whole_run_cons pastCeiling crossed finish bytes rest with
      stops | ⟨_, _, goes⟩ | ⟨_, _, _, _, goes⟩
    · simp [stops]
    · have := ih false (saturatingAddU64 finish bytes)
      simp only [goes, List.length_cons]
      omega
    · have := ih true (saturatingAddU64 finish bytes)
      simp only [goes, List.length_cons]
      omega

theorem whole_run_crossed (pastCeiling : Bool) (finish : Nat) (sizes : List Nat) :
    (budget.wholeRun pastCeiling true finish sizes).1 = 0 := by
  induction sizes generalizing finish with
  | nil => rfl
  | cons bytes rest ih =>
    rcases budget.whole_run_cons pastCeiling true finish bytes rest with
      stops | ⟨flag, _, _⟩ | ⟨_, _, _, _, goes⟩
    · simp [stops]
    · exact absurd flag (by decide)
    · rw [goes, ih]

theorem whole_run_take (pastCeiling crossed : Bool) (finish count : Nat) (sizes : List Nat) :
    budget.wholeRun pastCeiling crossed finish (sizes.take count) =
      (min (budget.wholeRun pastCeiling crossed finish sizes).1 count,
        min (budget.wholeRun pastCeiling crossed finish sizes).2 count) := by
  induction sizes generalizing crossed finish count with
  | nil => simp [wholeRun]
  | cons bytes rest ih =>
    cases count with
    | zero => simp [wholeRun]
    | succ count =>
      rcases budget.whole_run_cons pastCeiling crossed finish bytes rest with
        stops | ⟨_, _, goes⟩ | ⟨_, _, _, _, goes⟩
      · have early : budget.wholeRun pastCeiling crossed finish (bytes :: rest.take count) = (0, 0) := by
          rcases budget.whole_run_cons pastCeiling crossed finish bytes (rest.take count) with
            same | ⟨_, _, goes⟩ | ⟨_, _, _, _, goes⟩
          · exact same
          · simp [goes rest] at stops
          · simp [goes rest] at stops
        simp [early, stops]
      · simp only [List.take_succ_cons, goes, ih, Prod.mk.injEq]
        omega
      · simp only [List.take_succ_cons, goes, ih, whole_run_crossed, Prod.mk.injEq]
        omega

def Settled (placed : Placed) : Prop := placed = .committed ∨ placed = .pastCeiling

variable {placed : Placed} {bytes : Nat} {sizes : List Nat}

theorem Settled.planned (settled : Settled placed) : placed.planned = true := by
  rcases settled with rfl | rfl <;> rfl

theorem Settled.ne_tail (settled : Settled placed) : placed ≠ .tail := by
  rcases settled with rfl | rfl <;> decide

theorem span_placed_cases (finish : Nat) :
    (budget.spanPlaced finish = none ∧ budget.planBoundBytes = none ∧
      budget.availableBytes < saturatingAddU64 finish budget.reserveBytes) ∨
    (budget.spanPlaced finish = some .tail ∧ budget.planBoundBytes ≠ none) ∨
    (∃ placed, Settled placed ∧ budget.spanPlaced finish = some placed ∧
      (saturatingAddU64 finish budget.reserveBytes ≤ budget.availableBytes ∨
        ∃ bound, budget.planBoundBytes = some bound ∧ finish ≤ bound)) := by
  unfold spanPlaced
  split
  case isTrue under => exact .inr (.inr ⟨_, .inl rfl, rfl, .inl under⟩)
  case isFalse beyond =>
    cases limit : budget.planBoundBytes with
    | none => exact .inl ⟨rfl, rfl, Nat.lt_of_not_le beyond⟩
    | some bound =>
      by_cases within : finish ≤ bound
      · exact .inr (.inr ⟨_, .inr rfl, if_pos within, .inr ⟨bound, rfl, within⟩⟩)
      · exact .inr (.inl ⟨if_neg within, by simp⟩)

theorem span_run_refuses {finish : Nat}
    (refused : budget.spanPlaced (saturatingAddU64 finish bytes) = none) (rest : List Nat) :
    budget.spanRun finish (bytes :: rest) = ⟨saturatingAddU64 finish bytes, [.refused], none,
      [.spanNeedsPostWarningBytes (saturatingAddU64 finish bytes) budget.reserveBytes
        budget.availableBytes]⟩ := by
  simp only [spanRun, refused]

theorem span_run_tail {finish : Nat}
    (tail : budget.spanPlaced (saturatingAddU64 finish bytes) = some .tail) (rest : List Nat) :
    budget.spanRun finish (bytes :: rest) =
      ⟨saturatingAddU64 finish bytes, [.tail], some bytes, []⟩ := by
  simp only [spanRun, tail]

theorem span_run_settles {finish : Nat} (settled : Settled placed)
    (found : budget.spanPlaced (saturatingAddU64 finish bytes) = some placed) (rest : List Nat) :
    budget.spanRun finish (bytes :: rest) =
      { budget.spanRun (saturatingAddU64 finish bytes) rest with
        placed := placed :: (budget.spanRun (saturatingAddU64 finish bytes) rest).placed } := by
  rcases settled with rfl | rfl <;> simp only [spanRun, found]

/-- How a run over spannable units ends: every unit settled, or a tail, or a refusal. -/
inductive SpanRun.Ended (sizes : List Nat) : SpanRun → Prop where
  | complete (finish : Nat) (settled : List Placed) (fits : ∀ placed ∈ settled, Settled placed)
      (reached : settled.length = sizes.length) : Ended sizes ⟨finish, settled, none, []⟩
  | tail (finish bytes : Nat) (settled : List Placed) (fits : ∀ placed ∈ settled, Settled placed)
      (reached : sizes[settled.length]? = some bytes) :
      Ended sizes ⟨finish, settled ++ [.tail], some bytes, []⟩
  | refused (finish : Nat) (settled : List Placed) (error : LayoutError)
      (fits : ∀ placed ∈ settled, Settled placed) (reached : settled.length < sizes.length) :
      Ended sizes ⟨finish, settled ++ [.refused], none, [error]⟩

theorem span_run_ended (start : Nat) (sizes : List Nat) :
    SpanRun.Ended sizes (budget.spanRun start sizes) := by
  induction sizes generalizing start with
  | nil => exact .complete _ [] (by simp) rfl
  | cons bytes rest ih =>
    rcases budget.span_placed_cases (saturatingAddU64 start bytes) with
      ⟨refused, _⟩ | ⟨tail, _⟩ | ⟨placed, settled, found, _⟩
    · rw [budget.span_run_refuses refused]
      exact .refused _ [] _ (by simp) (by simp)
    · rw [budget.span_run_tail tail]
      exact .tail _ _ [] (by simp) (by simp)
    · rw [budget.span_run_settles settled found]
      have also : ∀ {verdicts : List Placed}, (∀ v ∈ verdicts, Settled v) →
          ∀ v ∈ placed :: verdicts, Settled v := by
        intro verdicts fits v member
        rcases List.mem_cons.mp member with rfl | member
        · exact settled
        · exact fits v member
      have ended := ih (saturatingAddU64 start bytes)
      generalize budget.spanRun (saturatingAddU64 start bytes) rest = later at ended
      cases ended with
      | complete finish verdicts fits reached =>
        exact .complete finish (placed :: verdicts) (also fits) (by simp [reached])
      | tail finish size verdicts fits reached =>
        exact .tail finish size (placed :: verdicts) (also fits) (by simpa using reached)
      | refused finish verdicts error fits reached =>
        exact .refused finish (placed :: verdicts) error (also fits) (by simpa using reached)

theorem span_run_take (start count : Nat) (sizes : List Nat)
    (reached : (budget.spanRun start sizes).placed.length ≤ count) :
    budget.spanRun start (sizes.take count) = budget.spanRun start sizes := by
  induction sizes generalizing start count with
  | nil => simp
  | cons bytes rest ih =>
    rcases budget.span_placed_cases (saturatingAddU64 start bytes) with
      ⟨refused, _⟩ | ⟨tail, _⟩ | ⟨placed, settled, found, _⟩
    · rw [budget.span_run_refuses refused] at reached ⊢
      obtain ⟨count, rfl⟩ := Nat.exists_eq_add_of_le' reached
      exact budget.span_run_refuses refused _
    · rw [budget.span_run_tail tail] at reached ⊢
      obtain ⟨count, rfl⟩ := Nat.exists_eq_add_of_le' reached
      exact budget.span_run_tail tail _
    · rw [budget.span_run_settles settled found] at reached ⊢
      obtain ⟨count, rfl⟩ := Nat.exists_eq_add_of_le' (Nat.le_trans (Nat.le_add_left 1 _) reached)
      rw [List.take_succ_cons, budget.span_run_settles settled found,
        ih _ count (by simpa using reached)]

theorem SpanRun.Ended.length_le {run : SpanRun} (ended : run.Ended sizes) :
    run.placed.length ≤ sizes.length := by
  cases ended with
  | complete finish settled fits reached => exact reached.le
  | tail finish bytes settled fits reached =>
    obtain ⟨inside, _⟩ := List.getElem?_eq_some_iff.mp reached
    simpa using inside
  | refused finish settled error fits reached => simpa using reached

theorem SpanRun.Ended.planned {run : SpanRun} (ended : run.Ended sizes)
    (accepted : run.errors = []) : ∀ placed ∈ run.placed, placed.planned = true := by
  cases ended with
  | complete finish settled fits reached => exact fun placed member => (fits placed member).planned
  | tail finish bytes settled fits reached =>
    intro placed member
    rcases List.mem_append.mp member with member | member
    · exact (fits placed member).planned
    · rw [List.mem_singleton.mp member]
      rfl
  | refused finish settled error fits reached => exact absurd accepted (by simp)

theorem SpanRun.Ended.refused_mem {run : SpanRun} (ended : run.Ended sizes) :
    Placed.refused ∈ run.placed ↔ run.errors ≠ [] := by
  have absent : ∀ {settled : List Placed}, (∀ placed ∈ settled, Settled placed) →
      Placed.refused ∉ settled := by
    intro settled fits member
    exact absurd (fits _ member).planned (by decide)
  cases ended with
  | complete finish settled fits reached => simpa using absent fits
  | tail finish bytes settled fits reached => simpa using absent fits
  | refused finish settled error fits reached => simp

@[simp] theorem place_spans_closed (sizes : List Nat) (start : Nat) :
    budget.placeSpans sizes start true = ⟨start, List.replicate sizes.length .deferred, none, []⟩ :=
  rfl

theorem place_spans_opened (sizes : List Nat) (start : Nat) :
    budget.placeSpans sizes start false =
      { budget.spanRun start sizes with
        placed := (budget.spanRun start sizes).fill sizes.length
          (if (budget.spanRun start sizes).errors.isEmpty then .deferred else .refused) } :=
  rfl

/-- The three ways a cut is made: closed by an owed run, whole units displaced by a set larger than
one tape, or every class in turn. -/
theorem cut_cases (fixedBytes : Nat) (owed whole spannable : List Nat) :
    let held := (budget.wholeRun true false fixedBytes whole).2
    let owedRun := budget.spanRun fixedBytes owed
    let run := budget.wholeRun spannable.isEmpty false owedRun.finish (whole.take held)
    let start := saturatingAddU64 owedRun.finish (wrappingSum ((whole.take held).take run.2))
    (Cut.opened owedRun = false ∧ ∃ start, budget.cut fixedBytes owed whole spannable =
      ⟨held, owedRun, 0, 0, budget.placeSpans spannable start true⟩) ∨
    (Cut.opened owedRun = true ∧ 0 < run.2 ∧
      ((budget.spanRun start spannable).tailBytes.any (budget.largerThanOneTape fixedBytes)) ∧
      budget.cut fixedBytes owed whole spannable =
        ⟨held, owedRun, run.1, 0, budget.placeSpans spannable owedRun.finish false⟩) ∨
    (Cut.opened owedRun = true ∧
      ¬(0 < run.2 ∧
        (budget.spanRun start spannable).tailBytes.any (budget.largerThanOneTape fixedBytes)) ∧
      budget.cut fixedBytes owed whole spannable =
        ⟨held, owedRun, run.1, run.2, budget.placeSpans spannable start false⟩) := by
  intro held owedRun run start
  cases opened : Cut.opened owedRun with
  | false =>
    refine .inl ⟨rfl, saturatingAddU64 owedRun.finish (wrappingSum ((whole.take held).take 0)), ?_⟩
    have closed : Cut.opened (budget.spanRun fixedBytes owed) = false := opened
    simp only [cut, closed, Bool.false_eq_true, if_false, Bool.not_false]
    exact if_neg fun displaced => absurd displaced.1 (Nat.lt_irrefl 0)
  | true =>
    have opened : Cut.opened (budget.spanRun fixedBytes owed) = true := opened
    by_cases displaced : 0 < run.2 ∧
        (budget.spanRun start spannable).tailBytes.any (budget.largerThanOneTape fixedBytes)
    · refine .inr (.inl ⟨rfl, displaced.1, displaced.2, ?_⟩)
      simp only [cut, opened, if_true, Bool.not_true]
      exact if_pos displaced
    · refine .inr (.inr ⟨rfl, displaced, ?_⟩)
      simp only [cut, opened, if_true, Bool.not_true]
      exact if_neg displaced

section Sizes

variable (fixedBytes : Nat) (owed whole spannable : List Nat)

theorem cut_owed : (budget.cut fixedBytes owed whole spannable).owed =
    budget.spanRun fixedBytes owed := by
  rcases budget.cut_cases fixedBytes owed whole spannable with
    ⟨_, _, same⟩ | ⟨_, _, _, same⟩ | ⟨_, _, same⟩ <;> rw [same]

theorem cut_held : (budget.cut fixedBytes owed whole spannable).held =
    (budget.wholeRun true false fixedBytes whole).2 := by
  rcases budget.cut_cases fixedBytes owed whole spannable with
    ⟨_, _, same⟩ | ⟨_, _, _, same⟩ | ⟨_, _, same⟩ <;> rw [same]

theorem cut_held_le : (budget.cut fixedBytes owed whole spannable).held ≤ whole.length := by
  rw [cut_held]
  exact (budget.whole_run_le true false fixedBytes whole).2

theorem cut_kept_le : (budget.cut fixedBytes owed whole spannable).kept ≤
    (budget.cut fixedBytes owed whole spannable).held := by
  have run := (budget.whole_run_le spannable.isEmpty false (budget.spanRun fixedBytes owed).finish
    (whole.take (budget.wholeRun true false fixedBytes whole).2)).2
  rcases budget.cut_cases fixedBytes owed whole spannable with
    ⟨_, _, same⟩ | ⟨_, _, _, same⟩ | ⟨_, _, same⟩ <;> rw [same]
  · exact Nat.zero_le _
  · exact Nat.zero_le _
  · exact run.trans (List.length_take_le _ _)

/-- The spannable sets are placed by one run, or all deferred behind an owed run that closed the
plan. -/
theorem cut_spans :
    (Cut.opened (budget.spanRun fixedBytes owed) = false ∧
      (budget.cut fixedBytes owed whole spannable).kept = 0 ∧
      ∃ start, (budget.cut fixedBytes owed whole spannable).spans =
        budget.placeSpans spannable start true) ∨
    (Cut.opened (budget.spanRun fixedBytes owed) = true ∧
      ∃ start, (budget.cut fixedBytes owed whole spannable).spans =
        budget.placeSpans spannable start false) := by
  rcases budget.cut_cases fixedBytes owed whole spannable with
    ⟨opened, start, same⟩ | ⟨opened, _, _, same⟩ | ⟨opened, _, same⟩ <;> rw [same]
  · exact .inl ⟨opened, rfl, start, rfl⟩
  · exact .inr ⟨opened, _, rfl⟩
  · exact .inr ⟨opened, _, rfl⟩

end Sizes

/-- What step 3 gives the sets: planned ones first, at most the last of them the tail, then the
deferred and refused ones. -/
theorem place_spans_parts (sizes : List Nat) (start : Nat) (closed : Bool) :
    ∃ settled ending rest, (budget.placeSpans sizes start closed).placed = settled ++ ending ++ rest ∧
      (∀ placed ∈ settled, Settled placed) ∧ (ending = [] ∨ ending = [.tail] ∧ closed = false) ∧
      (∀ placed ∈ rest, placed.planned = false) ∧
      (Placed.refused ∈ rest ↔ (budget.placeSpans sizes start closed).errors ≠ []) ∧
      (settled ++ ending ++ rest).length = sizes.length := by
  cases closed with
  | true =>
    refine ⟨[], [], List.replicate sizes.length .deferred, rfl, by simp, .inl rfl, ?_, ?_, by simp⟩
    · intro placed member
      rw [List.eq_of_mem_replicate member]
      rfl
    · simp
  | false =>
    rw [place_spans_opened]
    have ended := budget.span_run_ended start sizes
    generalize budget.spanRun start sizes = run at ended ⊢
    cases ended with
    | complete finish settled fits reached =>
      exact ⟨settled, [], [], by simp [SpanRun.fill, reached], fits, .inl rfl, by simp, by simp,
        by simpa using reached⟩
    | tail finish bytes settled fits reached =>
      obtain ⟨inside, _⟩ := List.getElem?_eq_some_iff.mp reached
      refine ⟨settled, [.tail], List.replicate (sizes.length - (settled.length + 1)) .deferred,
        by simp [SpanRun.fill], fits, .inr ⟨rfl, rfl⟩, ?_, by simp, by simp; omega⟩
      intro placed member
      rw [List.eq_of_mem_replicate member]
      rfl
    | refused finish settled error fits reached =>
      refine ⟨settled, [], .refused :: List.replicate (sizes.length - (settled.length + 1)) .refused,
        by simp [SpanRun.fill], fits, .inl rfl, ?_, by simp, by simp; omega⟩
      intro placed member
      rcases List.mem_cons.mp member with rfl | member
      · rfl
      · rw [List.eq_of_mem_replicate member]
        rfl

end CapacityBudget

theorem mem_class_indices {items : List PlanItem} {planClass : PlanClass} {i : Nat} :
    i ∈ classIndices items planClass ↔
      ∃ item, items[i]? = some item ∧ item.planClass = planClass := by
  simp only [classIndices, List.mem_filter, List.mem_range, decide_eq_true_eq,
    Option.map_eq_some_iff]
  refine ⟨And.right, fun found => ⟨?_, found⟩⟩
  obtain ⟨item, there, _⟩ := found
  exact (List.getElem?_eq_some_iff.mp there).1

theorem class_indices_sorted (planClass : PlanClass) :
    (classIndices items planClass).Pairwise (· < ·) :=
  List.pairwise_lt_range.filter _

@[simp] theorem length_item_sizes (indices : List Nat) :
    (itemSizes items indices).length = indices.length := List.length_map _

theorem planned_front {front rest : List Placed} (planned : ∀ placed ∈ front, placed.planned = true)
    (left : ∀ placed ∈ rest, placed.planned = false) :
    (front ++ rest).filter Placed.planned = front := by
  rw [List.filter_append, List.filter_eq_self.mpr planned, List.filter_eq_nil_iff.mpr,
    List.append_nil]
  intro placed member
  simp [left placed member]

theorem filter_planned {indices : List Nat} {front rest : List Placed}
    (same : indices.length = (front ++ rest).length)
    (planned : ∀ placed ∈ front, placed.planned = true)
    (left : ∀ placed ∈ rest, placed.planned = false) :
    (indices.zip (front ++ rest)).filter (fun unit => unit.2.planned) =
      (indices.take front.length).zip front := by
  have split : indices.zip (front ++ rest) =
      (indices.take front.length).zip front ++ (indices.drop front.length).zip rest := by
    conv_lhs => rw [← List.take_append_drop front.length indices]
    refine List.zip_append ?_
    simp only [List.length_append] at same
    simp only [List.length_take]
    omega
  rw [split, List.filter_append, List.filter_eq_self.mpr, List.filter_eq_nil_iff.mpr,
    List.append_nil]
  · intro unit member
    simp [left unit.2 (List.of_mem_zip member).2]
  · intro unit member
    exact planned unit.2 (List.of_mem_zip member).2

theorem lookup_of_nodup {units : List (Nat × Placed)} (nodup : (units.map Prod.fst).Nodup)
    {i : Nat} {placed : Placed} : units.lookup i = some placed ↔ (i, placed) ∈ units := by
  induction units with
  | nil => simp
  | cons unit rest ih =>
    obtain ⟨key, verdict⟩ := unit
    rw [List.map_cons, List.nodup_cons] at nodup
    by_cases same : i = key
    · subst same
      have absent : (i, placed) ∉ rest := fun member =>
        nodup.1 (List.mem_map.mpr ⟨_, member, rfl⟩)
      simp [List.lookup_cons_self, absent, eq_comm]
    · rw [List.lookup_cons, beq_false_of_ne same, ih nodup.2]
      simp [same]

namespace CapacityBudget

section Plan

variable (budget : CapacityBudget) (fixedBytes : Nat) (items : List PlanItem)

theorem plan_cut_spans_length :
    (budget.planCut fixedBytes items).spans.placed.length =
      (classIndices items .spannable).length := by
  rcases budget.cut_spans fixedBytes (itemSizes items (classIndices items .owed))
    (itemSizes items (classIndices items .whole)) (itemSizes items (classIndices items .spannable))
    with ⟨_, _, start, same⟩ | ⟨_, start, same⟩
  all_goals
    rw [planCut, same]
    obtain ⟨_, _, _, parts, _, _, _, _, length⟩ := budget.place_spans_parts
      (itemSizes items (classIndices items .spannable)) start _
    rw [parts, length, length_item_sizes]

theorem plan_cut_owed : (budget.planCut fixedBytes items).owed =
    budget.spanRun fixedBytes (itemSizes items (classIndices items .owed)) :=
  budget.cut_owed _ _ _ _

theorem plan_cut_owed_ended : SpanRun.Ended (itemSizes items (classIndices items .owed))
    (budget.planCut fixedBytes items).owed := by
  rw [plan_cut_owed]
  exact budget.span_run_ended _ _

theorem owed_fill_length :
    ((budget.planCut fixedBytes items).owed.fill (classIndices items .owed).length
      .deferred).length = (classIndices items .owed).length := by
  have reached := (budget.plan_cut_owed_ended fixedBytes items).length_le
  rw [length_item_sizes] at reached
  simp only [SpanRun.fill, List.length_append, List.length_replicate]
  omega

theorem verdicts_units : (budget.verdicts fixedBytes items).map Prod.fst =
    classIndices items .owed ++ classIndices items .whole ++ classIndices items .spannable := by
  simp only [verdicts, List.map_append]
  rw [List.map_fst_zip, List.map_fst_zip, List.map_fst_zip]
  · exact (budget.plan_cut_spans_length fixedBytes items).ge
  · simp
  · exact (budget.owed_fill_length fixedBytes items).ge

/-- `i` comes before `j` in the plan: of an earlier class, or of the same class and earlier in the
caller's order. -/
def ComesBefore (items : List PlanItem) (i j : Nat) : Prop :=
  ∃ first second, items[i]? = some first ∧ items[j]? = some second ∧
    (first.planClass.rank < second.planClass.rank ∨ first.planClass = second.planClass ∧ i < j)

theorem plan_order_sorted : (classIndices items .owed ++ classIndices items .whole ++
    classIndices items .spannable).Pairwise (ComesBefore items) := by
  have within : ∀ planClass, (classIndices items planClass).Pairwise (ComesBefore items) := by
    intro planClass
    refine List.Pairwise.imp_of_mem ?_ (class_indices_sorted items planClass)
    intro i j first second less
    obtain ⟨one, there, same⟩ := mem_class_indices.mp first
    obtain ⟨other, also, too⟩ := mem_class_indices.mp second
    exact ⟨one, other, there, also, .inr ⟨same.trans too.symm, less⟩⟩
  have across : ∀ {one other : PlanClass}, one.rank < other.rank → ∀ i ∈ classIndices items one,
      ∀ j ∈ classIndices items other, ComesBefore items i j := by
    intro one other less i first j second
    obtain ⟨item, there, rfl⟩ := mem_class_indices.mp first
    obtain ⟨next, also, rfl⟩ := mem_class_indices.mp second
    exact ⟨item, next, there, also, .inl less⟩
  rw [List.pairwise_append, List.pairwise_append]
  refine ⟨⟨within _, within _, across (by decide)⟩, within _, ?_⟩
  intro i member
  rcases List.mem_append.mp member with member | member
  · exact across (by decide) i member
  · exact across (by decide) i member

theorem ComesBefore.ne {items : List PlanItem} {i j : Nat} (before : ComesBefore items i j) :
    i ≠ j := by
  rintro rfl
  obtain ⟨first, second, there, also, less⟩ := before
  obtain rfl := Option.some.inj (there.symm.trans also)
  omega

theorem verdicts_nodup : ((budget.verdicts fixedBytes items).map Prod.fst).Nodup := by
  rw [verdicts_units]
  exact (plan_order_sorted items).imp ComesBefore.ne

theorem placed_iff {i : Nat} {placed : Placed} :
    (budget.place fixedBytes items).placed[i]? = some placed ↔
      (i, placed) ∈ budget.verdicts fixedBytes items := by
  rw [← lookup_of_nodup (budget.verdicts_nodup fixedBytes items)]
  simp only [place, List.getElem?_map, Option.map_eq_some_iff]
  constructor
  · rintro ⟨j, inRange, verdict⟩
    obtain ⟨inside, rfl⟩ := List.getElem?_eq_some_iff.mp inRange
    rw [List.getElem_range] at verdict
    simp only [List.length_range] at inside
    have listed : i ∈ (budget.verdicts fixedBytes items).map Prod.fst := by
      rw [verdicts_units]
      simp only [List.mem_append, mem_class_indices, List.getElem?_eq_getElem inside]
      cases planClass : items[i].planClass <;> simp [planClass]
    obtain ⟨⟨_, found⟩, member, rfl⟩ := List.mem_map.mp listed
    rw [(lookup_of_nodup (budget.verdicts_nodup fixedBytes items)).mpr member] at verdict ⊢
    exact congrArg some verdict
  · intro verdict
    refine ⟨i, ?_, by rw [verdict]; rfl⟩
    have member := (lookup_of_nodup (budget.verdicts_nodup fixedBytes items)).mp verdict
    have listed : i ∈ (budget.verdicts fixedBytes items).map Prod.fst :=
      List.mem_map.mpr ⟨_, member, rfl⟩
    rw [verdicts_units] at listed
    have inside : i < items.length := by
      simp only [List.mem_append, mem_class_indices] at listed
      rcases listed with (⟨_, there, _⟩ | ⟨_, there, _⟩) | ⟨_, there, _⟩ <;>
        exact (List.getElem?_eq_some_iff.mp there).1
    exact List.getElem?_range inside

theorem whole_verdicts_parts : ∃ rest, (List.range (classIndices items .whole).length).map
        (budget.planCut fixedBytes items).wholeVerdict =
      (List.range (budget.planCut fixedBytes items).kept).map
        (budget.planCut fixedBytes items).wholeVerdict ++ rest ∧
      (∀ placed ∈ (List.range (budget.planCut fixedBytes items).kept).map
        (budget.planCut fixedBytes items).wholeVerdict, Settled placed) ∧
      (∀ placed ∈ rest, placed.planned = false) ∧
      (Placed.refused ∈ rest ↔
        (budget.planCut fixedBytes items).held < (classIndices items .whole).length) := by
  have keptLe : (budget.planCut fixedBytes items).kept ≤ (budget.planCut fixedBytes items).held :=
    budget.cut_kept_le _ _ _ _
  have heldLe : (budget.planCut fixedBytes items).held ≤ (classIndices items .whole).length := by
    rw [← length_item_sizes items]
    exact budget.cut_held_le _ _ _ _
  generalize budget.planCut fixedBytes items = cut at keptLe heldLe ⊢
  generalize (classIndices items .whole).length = units at heldLe ⊢
  refine ⟨(List.range (units - cut.kept)).map fun n => cut.wholeVerdict (cut.kept + n),
    ?_, ?_, ?_, ?_⟩
  · obtain ⟨more, rfl⟩ := Nat.exists_eq_add_of_le (keptLe.trans heldLe)
    rw [List.range_add, List.map_append, Nat.add_sub_cancel_left, List.map_map]
    rfl
  · intro placed member
    obtain ⟨n, inside, rfl⟩ := List.mem_map.mp member
    have less := List.mem_range.mp inside
    simp only [Cut.wholeVerdict, Settled]
    rw [if_neg (by omega), if_pos less]
    split
    · exact .inl rfl
    · exact .inr rfl
  · intro placed member
    obtain ⟨n, inside, rfl⟩ := List.mem_map.mp member
    simp only [Cut.wholeVerdict]
    rw [if_neg (show ¬ cut.kept + n < min cut.committed cut.kept by omega),
      if_neg (show ¬ cut.kept + n < cut.kept by omega)]
    split <;> rfl
  · constructor
    · intro member
      obtain ⟨n, inside, verdict⟩ := List.mem_map.mp member
      have less := List.mem_range.mp inside
      by_contra full
      simp only [Cut.wholeVerdict] at verdict
      rw [if_neg (by omega), if_neg (by omega), if_neg (by omega)] at verdict
      cases verdict
    · intro short
      refine List.mem_map.mpr ⟨cut.held - cut.kept, List.mem_range.mpr (by omega), ?_⟩
      simp only [Cut.wholeVerdict]
      exact if_pos (by omega)

/-- The verdicts of the planned sets, after those of the owed runs: settled ones, and at most the
last of them the tail. -/
theorem spans_parts (accepted : (budget.planCut fixedBytes items).owed.errors = []) :
    ∃ front rest, (budget.planCut fixedBytes items).spans.placed = front ++ rest ∧
      (∀ placed ∈ front, placed.planned = true) ∧ (∀ placed ∈ rest, placed.planned = false) ∧
      (Placed.refused ∈ rest ↔ (budget.planCut fixedBytes items).spans.errors ≠ []) ∧
      ((front = [] ∧ (budget.planCut fixedBytes items).kept = 0 ∧
          ∃ settled, (∀ placed ∈ settled, Settled placed) ∧
            (budget.planCut fixedBytes items).owed.placed = settled ++ [.tail]) ∨
        (∀ placed ∈ (budget.planCut fixedBytes items).owed.placed, Settled placed) ∧
          ∃ settled ending, (∀ placed ∈ settled, Settled placed) ∧
            (ending = [] ∨ ending = [.tail]) ∧ front = settled ++ ending) := by
  have ended := budget.plan_cut_owed_ended fixedBytes items
  rcases budget.cut_spans fixedBytes (itemSizes items (classIndices items .owed))
    (itemSizes items (classIndices items .whole)) (itemSizes items (classIndices items .spannable))
    with ⟨opened, kept, start, spans⟩ | ⟨opened, start, spans⟩
  · refine ⟨[], (budget.planCut fixedBytes items).spans.placed, rfl, by simp, ?_, ?_, .inl ⟨rfl, kept, ?_⟩⟩
    · intro placed member
      rw [planCut, spans, place_spans_closed] at member
      rw [List.eq_of_mem_replicate member]
      rfl
    · simp [planCut, spans]
    · rw [← plan_cut_owed] at opened
      generalize (budget.planCut fixedBytes items).owed = run at ended opened accepted
      cases ended with
      | complete finish settled fits reached => simp [Cut.opened] at opened
      | tail finish bytes settled fits reached => exact ⟨settled, fits, rfl⟩
      | refused finish settled error fits reached => simp at accepted
  · obtain ⟨settled, ending, rest, parts, fits, last, left, refused, _⟩ :=
      budget.place_spans_parts (itemSizes items (classIndices items .spannable)) start false
    rw [← spans] at parts refused
    have ends : ending = [] ∨ ending = [Placed.tail] := last.imp_right And.left
    refine ⟨settled ++ ending, rest, parts, ?_, left, refused, .inr ⟨?_, settled, ending, fits, ends, rfl⟩⟩
    · intro placed member
      rcases List.mem_append.mp member with member | member
      · exact (fits placed member).planned
      · rcases ends with rfl | rfl
        · simp at member
        · rw [List.mem_singleton.mp member]
          rfl
    · rw [← plan_cut_owed] at opened
      generalize (budget.planCut fixedBytes items).owed = run at ended opened
      cases ended with
      | complete finish settled fits reached => exact fits
      | tail finish bytes settled fits reached => simp [Cut.opened] at opened
      | refused finish settled error fits reached => simp [Cut.opened] at opened

theorem planned_units (accepted : (budget.planCut fixedBytes items).owed.errors = []) :
    ((budget.verdicts fixedBytes items).filter fun unit => unit.2.planned).map Prod.fst =
        (budget.place fixedBytes items).order ∧
      ((budget.verdicts fixedBytes items).filter fun unit => unit.2.planned).map Prod.snd =
        (budget.planCut fixedBytes items).owed.placed ++
          (List.range (budget.planCut fixedBytes items).kept).map
            (budget.planCut fixedBytes items).wholeVerdict ++
          (budget.planCut fixedBytes items).spans.placed.filter Placed.planned := by
  have ended := budget.plan_cut_owed_ended fixedBytes items
  have reached := ended.length_le
  rw [length_item_sizes] at reached
  have owedUnits := filter_planned (budget.owed_fill_length fixedBytes items).symm
    (ended.planned accepted) (fun placed member => by rw [List.eq_of_mem_replicate member]; rfl)
  obtain ⟨displaced, wholes, keptSettled, displacedLeft, _⟩ :=
    budget.whole_verdicts_parts fixedBytes items
  have wholeLength := congrArg List.length wholes
  simp only [List.length_map, List.length_range] at wholeLength
  have wholeUnits := filter_planned wholeLength
    (fun placed member => (keptSettled placed member).planned) displacedLeft
  obtain ⟨front, rest, parts, planned, left, _⟩ := budget.spans_parts fixedBytes items accepted
  have spanLength := budget.plan_cut_spans_length fixedBytes items
  rw [parts] at spanLength
  have spanUnits := filter_planned spanLength.symm planned left
  have frontLe : front.length ≤ (classIndices items .spannable).length := by
    rw [← spanLength, List.length_append]
    omega
  have keptLe : ((List.range (budget.planCut fixedBytes items).kept).map
      (budget.planCut fixedBytes items).wholeVerdict).length ≤
        (classIndices items .whole).length := by
    rw [wholeLength, List.length_append]
    omega
  have units : (budget.verdicts fixedBytes items).filter (fun unit => unit.2.planned) =
      ((classIndices items .owed).take (budget.planCut fixedBytes items).owed.placed.length).zip
          (budget.planCut fixedBytes items).owed.placed ++
        ((classIndices items .whole).take ((List.range (budget.planCut fixedBytes items).kept).map
          (budget.planCut fixedBytes items).wholeVerdict).length).zip
            ((List.range (budget.planCut fixedBytes items).kept).map
              (budget.planCut fixedBytes items).wholeVerdict) ++
        ((classIndices items .spannable).take front.length).zip front := by
    simp only [verdicts, List.filter_append, wholes, parts, SpanRun.fill]
    rw [← wholeUnits, ← spanUnits, ← owedUnits]
  have first : ∀ {indices : List Nat} {verdicts : List Placed},
      (((indices.take verdicts.length).zip verdicts).map Prod.fst) =
        indices.take verdicts.length := by
    intro indices verdicts
    exact List.map_fst_zip (List.length_take_le _ _)
  have second : ∀ {indices : List Nat} {verdicts : List Placed}, verdicts.length ≤ indices.length →
      (((indices.take verdicts.length).zip verdicts).map Prod.snd) = verdicts := by
    intro indices verdicts le
    exact List.map_snd_zip (by simpa using le)
  constructor
  · rw [units, List.map_append, List.map_append, first, first, first]
    simp only [place, parts, spanUnits, first, List.length_map, List.length_range]
  · rw [units, List.map_append, List.map_append, second reached, second keptLe, second frontLe,
      parts, planned_front planned left]

/-- The verdicts of the planned units: settled ones, and at most the last of them the tail. -/
theorem planned_verdicts (accepted : (budget.planCut fixedBytes items).owed.errors = []) :
    ∃ settled ending, (∀ placed ∈ settled, Settled placed) ∧
      (ending = [] ∨ ending = [.tail]) ∧
      (budget.planCut fixedBytes items).owed.placed ++
          (List.range (budget.planCut fixedBytes items).kept).map
            (budget.planCut fixedBytes items).wholeVerdict ++
          (budget.planCut fixedBytes items).spans.placed.filter Placed.planned =
        settled ++ ending := by
  obtain ⟨_, _, keptSettled, _, _⟩ := budget.whole_verdicts_parts fixedBytes items
  obtain ⟨front, rest, parts, planned, left, _, shape⟩ :=
    budget.spans_parts fixedBytes items accepted
  rw [parts, planned_front planned left]
  rcases shape with ⟨rfl, none, settled, fits, same⟩ | ⟨owedFits, settled, ending, fits, ends, rfl⟩
  · exact ⟨settled, [.tail], fits, .inr rfl, by simp [same, none]⟩
  · refine ⟨(budget.planCut fixedBytes items).owed.placed ++
      (List.range (budget.planCut fixedBytes items).kept).map
        (budget.planCut fixedBytes items).wholeVerdict ++ settled, ending, ?_, ends, by simp⟩
    intro placed member
    rw [List.mem_append, List.mem_append] at member
    rcases member with (member | member) | member
    · exact owedFits placed member
    · exact keptSettled placed member
    · exact fits placed member

/-- What a plan order promises: one verdict for each item, the planned items each once and in
class order, a single tail at the end, an error exactly for a refusal. -/
structure Partitions (items : List PlanItem) (placement : Placement) : Prop where
  verdicts : placement.placed.length = items.length
  nodup : placement.order.Nodup
  planned : ∀ i : Nat, i ∈ placement.order ↔
    ∃ placed, placement.placed[i]? = some placed ∧ placed.planned = true
  ordered : placement.order.Pairwise (ComesBefore items)
  one_tail : ∀ i j : Nat, placement.placed[i]? = some Placed.tail → placement.placed[j]? = some Placed.tail → i = j
  tail_last : ∀ i : Nat, placement.placed[i]? = some Placed.tail →
    placement.order.getLast? = some i ∧ i ∉ classIndices items .whole
  errors : placement.errors = [] ↔ Placed.refused ∉ placement.placed

/-- With a plan bound no run is refused; without one, exactly the run that passes the fill
ceiling. -/
theorem span_run_accepted (start : Nat) (sizes : List Nat) :
    (budget.spanRun start sizes).errors = [] ↔ budget.planBoundBytes ≠ none ∨ sizes = [] ∨
      saturatingAddU64 (saturatingAddU64 start sizes.sum) budget.reserveBytes ≤ budget.availableBytes := by
  induction sizes generalizing start with
  | nil => simp [spanRun]
  | cons bytes rest ih =>
    have total : saturatingAddU64 (saturatingAddU64 start bytes) rest.sum =
        saturatingAddU64 start (bytes :: rest).sum := by
      simp only [saturatingAddU64, List.sum_cons]
      omega
    have grows : saturatingAddU64 (saturatingAddU64 start bytes) budget.reserveBytes ≤
        saturatingAddU64 (saturatingAddU64 start (bytes :: rest).sum) budget.reserveBytes := by
      simp only [saturatingAddU64, List.sum_cons]
      omega
    rcases budget.span_placed_cases (saturatingAddU64 start bytes) with
      ⟨refused, unbound, passes⟩ | ⟨tail, bound⟩ | ⟨placed, settled, found, reason⟩
    · rw [budget.span_run_refuses refused]
      simp only [unbound, List.cons_ne_nil, false_iff, ne_eq, not_true_eq_false, false_or]
      exact Nat.not_le_of_lt (passes.trans_le grows)
    · rw [budget.span_run_tail tail]
      exact ⟨fun _ => .inl bound, fun _ => rfl⟩
    · rw [budget.span_run_settles settled found, ih, total]
      rcases reason with under | ⟨limit, bound, _⟩
      · by_cases last : rest = []
        · subst last
          exact ⟨fun _ => .inr (.inr under), fun _ => .inr (.inl rfl)⟩
        · simp [last]
      · simp [bound]

/-- The owed runs fit the fill ceiling, or the drive has a plan bound for them to pass. -/
def OwedRunsFit : Prop :=
  budget.planBoundBytes ≠ none ∨ itemSizes items (classIndices items .owed) = [] ∨
    saturatingAddU64 (saturatingAddU64 fixedBytes (itemSizes items (classIndices items .owed)).sum)
      budget.reserveBytes ≤ budget.availableBytes

theorem owed_accepted : (budget.planCut fixedBytes items).owed.errors = [] ↔
    budget.OwedRunsFit fixedBytes items := by
  rw [plan_cut_owed]
  exact budget.span_run_accepted _ _

theorem plan_cut_spans_refused :
    Placed.refused ∈ (budget.planCut fixedBytes items).spans.placed ↔
      (budget.planCut fixedBytes items).spans.errors ≠ [] := by
  have decided : ∃ start closed, (budget.planCut fixedBytes items).spans =
      budget.placeSpans (itemSizes items (classIndices items .spannable)) start closed := by
    rcases budget.cut_spans fixedBytes (itemSizes items (classIndices items .owed))
      (itemSizes items (classIndices items .whole))
      (itemSizes items (classIndices items .spannable))
      with ⟨_, _, start, same⟩ | ⟨_, start, same⟩
    · exact ⟨start, true, same⟩
    · exact ⟨start, false, same⟩
  obtain ⟨start, closed, same⟩ := decided
  obtain ⟨settled, ending, rest, parts, fits, ends, _, refused, _⟩ := budget.place_spans_parts
    (itemSizes items (classIndices items .spannable)) start closed
  rw [same, ← refused, parts]
  simp only [List.mem_append]
  refine ⟨fun member => ?_, .inr⟩
  rcases member with (member | member) | member
  · exact absurd (fits _ member).planned (by decide)
  · rcases ends with rfl | ⟨rfl, _⟩ <;> simp at member
  · exact member

theorem verdicts_column : (budget.verdicts fixedBytes items).map Prod.snd =
    (budget.planCut fixedBytes items).owed.fill (classIndices items .owed).length .deferred ++
      (List.range (classIndices items .whole).length).map
        (budget.planCut fixedBytes items).wholeVerdict ++
      (budget.planCut fixedBytes items).spans.placed := by
  simp only [verdicts, List.map_append]
  rw [List.map_snd_zip, List.map_snd_zip, List.map_snd_zip]
  · exact (budget.plan_cut_spans_length fixedBytes items).le
  · simp
  · exact (budget.owed_fill_length fixedBytes items).le

theorem errors_iff_refused : (budget.place fixedBytes items).errors = [] ↔
    Placed.refused ∉ (budget.place fixedBytes items).placed := by
  have listed : Placed.refused ∈ (budget.place fixedBytes items).placed ↔
      Placed.refused ∈ (budget.verdicts fixedBytes items).map Prod.snd := by
    rw [List.mem_iff_getElem?, List.mem_map]
    simp only [placed_iff]
    exact ⟨fun ⟨i, member⟩ => ⟨_, member, rfl⟩, fun ⟨⟨i, _⟩, member, same⟩ => ⟨i, same ▸ member⟩⟩
  obtain ⟨rest, wholes, fits, _, wholeRefused⟩ := budget.whole_verdicts_parts fixedBytes items
  have owedRefused := (budget.plan_cut_owed_ended fixedBytes items).refused_mem
  have spansRefused := budget.plan_cut_spans_refused fixedBytes items
  have notKept : Placed.refused ∉ (List.range (budget.planCut fixedBytes items).kept).map
      (budget.planCut fixedBytes items).wholeVerdict := fun member =>
    absurd (fits _ member).planned (by decide)
  rw [listed, verdicts_column, wholes]
  simp only [place, SpanRun.fill, List.append_eq_nil_iff, List.mem_append, List.mem_replicate,
    owedRefused, wholeRefused, spansRefused, notKept, baselineErrors, length_item_sizes]
  simp
  tauto

theorem refused_owed_in_order (refused : (budget.planCut fixedBytes items).owed.errors ≠ []) :
    ∃ i ∈ (budget.place fixedBytes items).order,
      (budget.place fixedBytes items).placed[i]? = some .refused := by
  have ended := budget.plan_cut_owed_ended fixedBytes items
  obtain ⟨settled, same, reached⟩ : ∃ settled,
      (budget.planCut fixedBytes items).owed.placed = settled ++ [.refused] ∧
        settled.length < (classIndices items .owed).length := by
    rw [← length_item_sizes items]
    generalize (budget.planCut fixedBytes items).owed = run at ended refused
    cases ended with
    | complete => exact absurd rfl refused
    | tail => exact absurd rfl refused
    | refused finish settled error fits reached => exact ⟨settled, rfl, reached⟩
  refine ⟨(classIndices items .owed).get ⟨settled.length, reached⟩, ?_, ?_⟩
  · simp only [place, same, List.mem_append, List.length_append, List.length_singleton]
    exact .inl (.inl (List.mem_take_iff_getElem.mpr ⟨settled.length, by omega, rfl⟩))
  · rw [placed_iff, verdicts]
    refine List.mem_append_left _ (List.mem_append_left _ ?_)
    rw [List.mem_iff_getElem?]
    refine ⟨settled.length, ?_⟩
    simp [SpanRun.fill, same, reached]

theorem whole_verdict_ne_tail (cut : Cut) (n : Nat) : cut.wholeVerdict n ≠ .tail := by
  unfold Cut.wholeVerdict
  split
  · decide
  · split
    · decide
    · split <;> decide

theorem mem_one_class {i : Nat} {one other : PlanClass} (first : i ∈ classIndices items one)
    (second : i ∈ classIndices items other) : one = other := by
  obtain ⟨item, there, rfl⟩ := mem_class_indices.mp first
  obtain ⟨same, also, rfl⟩ := mem_class_indices.mp second
  rw [Option.some.inj (there.symm.trans also)]

theorem place_partitions_iff : Partitions items (budget.place fixedBytes items) ↔
    budget.OwedRunsFit fixedBytes items := by
  rw [← owed_accepted]
  constructor
  · intro partitions
    by_contra refused
    obtain ⟨i, member, verdict⟩ := budget.refused_owed_in_order fixedBytes items refused
    obtain ⟨placed, same, planned⟩ := (partitions.planned i).mp member
    obtain rfl := Option.some.inj (verdict.symm.trans same)
    cases planned
  · intro accepted
    obtain ⟨order, planned⟩ := budget.planned_units fixedBytes items accepted
    obtain ⟨settled, ending, fits, ends, shape⟩ := budget.planned_verdicts fixedBytes items accepted
    rw [shape] at planned
    replace order := order.symm
    have sublist : (budget.place fixedBytes items).order.Sublist
        (classIndices items .owed ++ classIndices items .whole ++ classIndices items .spannable) := by
      rw [order, ← budget.verdicts_units fixedBytes items]
      exact List.filter_sublist.map _
    have last : ∀ i, (budget.place fixedBytes items).placed[i]? = some Placed.tail →
        (budget.place fixedBytes items).order.getLast? = some i := by
      intro i verdict
      have member : (i, Placed.tail) ∈
          (budget.verdicts fixedBytes items).filter fun unit => unit.2.planned :=
        List.mem_filter.mpr ⟨(budget.placed_iff fixedBytes items).mp verdict, rfl⟩
      obtain ⟨before, after, split, beforeSettled, afterEnding⟩ := List.map_eq_append_iff.mp planned
      rw [split] at member order
      have late : (i, Placed.tail) ∈ after := by
        refine (List.mem_append.mp member).resolve_left fun early => ?_
        refine (fits Placed.tail ?_).ne_tail rfl
        rw [← beforeSettled]
        exact List.mem_map_of_mem early
      rcases ends with rfl | rfl
      · rw [List.map_eq_nil_iff.mp afterEnding] at late
        cases late
      · obtain ⟨unit, rfl, _⟩ := List.map_eq_singleton_iff.mp afterEnding
        obtain rfl := List.mem_singleton.mp late
        simp [order]
    refine ⟨by simp [place], ?_, ?_, (plan_order_sorted items).sublist sublist, ?_, ?_,
      budget.errors_iff_refused fixedBytes items⟩
    · exact ((plan_order_sorted items).imp ComesBefore.ne).sublist sublist
    · intro i
      simp only [placed_iff, order, List.mem_map, List.mem_filter, Prod.exists]
      simp
    · intro i j first second
      exact Option.some.inj ((last i first).symm.trans (last j second))
    · intro i verdict
      refine ⟨last i verdict, fun whole => ?_⟩
      have member := (budget.placed_iff fixedBytes items).mp verdict
      simp only [verdicts, List.mem_append] at member
      rcases member with (member | member) | member
      · cases mem_one_class items whole (List.of_mem_zip member).1
      · obtain ⟨n, _, tail⟩ := List.mem_map.mp (List.of_mem_zip member).2
        exact whole_verdict_ne_tail _ n tail
      · cases mem_one_class items whole (List.of_mem_zip member).1

/-- An owed run of 11 bytes on a tape of 10 without a plan bound: refused, and in the order. -/
theorem refused_owed_run_is_ordered :
    CapacityBudget.place ⟨10, 0, none⟩ 0 [⟨.owed, 11⟩] =
        ⟨[0], [.refused], [.spanNeedsPostWarningBytes 11 0 10]⟩ ∧
      ¬ Partitions [⟨.owed, 11⟩] (CapacityBudget.place ⟨10, 0, none⟩ 0 [⟨.owed, 11⟩]) := by
  have placement : CapacityBudget.place ⟨10, 0, none⟩ 0 [⟨.owed, 11⟩] =
      ⟨[0], [.refused], [.spanNeedsPostWarningBytes 11 0 10]⟩ := by decide
  refine ⟨placement, fun partitions => ?_⟩
  rw [placement] at partitions
  obtain ⟨placed, same, planned⟩ := (partitions.planned 0).mp (by simp)
  obtain rfl : Placed.refused = placed := by simpa using same
  cases planned

end Plan

section Again

variable (budget : CapacityBudget)

theorem place_spans_start (start : Nat) (sizes : List Nat) :
    (budget.placeSpans sizes (saturatingAddU64 start 0) false).placed =
        (budget.placeSpans sizes start false).placed ∧
      (budget.placeSpans sizes (saturatingAddU64 start 0) false).errors =
        (budget.placeSpans sizes start false).errors := by
  cases sizes with
  | nil => exact ⟨rfl, rfl⟩
  | cons bytes rest =>
    have same : saturatingAddU64 (saturatingAddU64 start 0) bytes = saturatingAddU64 start bytes := by
      simp only [saturatingAddU64]
      omega
    have head : budget.spanRun (saturatingAddU64 start 0) (bytes :: rest) =
        budget.spanRun start (bytes :: rest) := by simp only [spanRun, same]
    rw [place_spans_opened, place_spans_opened, head]
    exact ⟨rfl, rfl⟩

variable {sizes : List Nat}

theorem place_spans_planned {start : Nat}
    (accepted : (budget.placeSpans sizes start false).errors = []) :
    (budget.placeSpans sizes start false).placed.filter Placed.planned =
      (budget.spanRun start sizes).placed := by
  have ended := budget.span_run_ended start sizes
  rw [place_spans_opened] at accepted ⊢
  refine planned_front (ended.planned accepted) fun placed member => ?_
  rw [List.eq_of_mem_replicate member, if_pos (by simpa using accepted)]
  rfl

theorem place_spans_again {start : Nat}
    (accepted : (budget.placeSpans sizes start false).errors = []) :
    (budget.placeSpans (sizes.take (budget.spanRun start sizes).placed.length) start
        false).placed = (budget.spanRun start sizes).placed ∧
      (budget.placeSpans (sizes.take (budget.spanRun start sizes).placed.length) start
        false).errors = [] := by
  have reached := (budget.span_run_ended start sizes).length_le
  rw [place_spans_opened] at accepted
  rw [place_spans_opened, budget.span_run_take start _ sizes le_rfl]
  exact ⟨by simp [SpanRun.fill, reached], accepted⟩

theorem span_run_reaches (start : Nat) (some_set : sizes ≠ []) :
    0 < (budget.spanRun start sizes).placed.length := by
  have ended := budget.span_run_ended start sizes
  generalize budget.spanRun start sizes = run at ended
  cases ended with
  | complete finish settled fits reached =>
    rw [reached]
    exact List.length_pos_iff.mpr some_set
  | tail => simp
  | refused => simp

theorem cut_in_turn_again {fixedBytes start : Nat} {owed whole spannable : List Nat} {run : Nat × Nat}
    (opened : Cut.opened (budget.spanRun fixedBytes owed) = true)
    (held : (budget.wholeRun true false fixedBytes whole).2 = whole.length)
    (decided : budget.wholeRun spannable.isEmpty false (budget.spanRun fixedBytes owed).finish
      whole = run)
    (starts : saturatingAddU64 (budget.spanRun fixedBytes owed).finish
      (wrappingSum (whole.take run.2)) = start)
    (stays : ¬(0 < run.2 ∧
      (budget.spanRun start spannable).tailBytes.any (budget.largerThanOneTape fixedBytes))) :
    budget.cut fixedBytes (owed.take (budget.spanRun fixedBytes owed).placed.length)
        (whole.take run.2) (spannable.take (budget.spanRun start spannable).placed.length) =
      ⟨run.2, budget.spanRun fixedBytes owed, run.1, run.2,
        budget.placeSpans (spannable.take (budget.spanRun start spannable).placed.length) start
          false⟩ := by
  have bounds := budget.whole_run_le spannable.isEmpty false
    (budget.spanRun fixedBytes owed).finish whole
  rw [decided] at bounds
  have owedAgain := budget.span_run_take fixedBytes _ owed le_rfl
  have heldAgain : (budget.wholeRun true false fixedBytes (whole.take run.2)).2 = run.2 := by
    rw [whole_run_take, held]
    exact min_eq_right bounds.2
  have queued : (spannable.take (budget.spanRun start spannable).placed.length).isEmpty =
      spannable.isEmpty := by
    cases spannable with
    | nil => rfl
    | cons bytes rest =>
      obtain ⟨count, same⟩ := Nat.exists_eq_add_of_lt
        (budget.span_run_reaches start (List.cons_ne_nil bytes rest))
      rw [same, zero_add]
      rfl
  have runAgain : budget.wholeRun spannable.isEmpty false (budget.spanRun fixedBytes owed).finish
      (whole.take run.2) = run := by
    rw [whole_run_take, decided]
    exact Prod.ext (min_eq_left bounds.1) (min_self _)
  have spansAgain := budget.span_run_take start _ spannable le_rfl
  have keptAgain : (whole.take run.2).take run.2 = whole.take run.2 := by
    rw [List.take_take, min_self]
  simp only [cut, owedAgain, heldAgain, keptAgain, opened, queued, runAgain, starts, if_true,
    Bool.not_true]
  refine if_neg ?_
  rw [place_spans_opened, spansAgain]
  exact stays

theorem cut_again (fixedBytes : Nat) (owed whole spannable : List Nat)
    (held : (budget.cut fixedBytes owed whole spannable).held = whole.length)
    (accepted : (budget.cut fixedBytes owed whole spannable).spans.errors = []) :
    let cut := budget.cut fixedBytes owed whole spannable
    let again := budget.cut fixedBytes (owed.take cut.owed.placed.length) (whole.take cut.kept)
      (spannable.take (cut.spans.placed.filter Placed.planned).length)
    again.held = cut.kept ∧ again.owed = cut.owed ∧ again.kept = cut.kept ∧
      min again.committed again.kept = min cut.committed cut.kept ∧
      again.spans.placed = cut.spans.placed.filter Placed.planned ∧ again.spans.errors = [] := by
  have owedAgain := budget.span_run_take fixedBytes _ owed le_rfl
  rcases budget.cut_cases fixedBytes owed whole spannable with
    ⟨closed, start, same⟩ | ⟨opened, _, _, same⟩ | ⟨opened, stays, same⟩
  · rw [same]
    simp only [place_spans_closed, List.take_zero]
    rcases budget.cut_cases fixedBytes (owed.take (budget.spanRun fixedBytes owed).placed.length) []
      (spannable.take ((List.replicate spannable.length Placed.deferred).filter
        Placed.planned).length) with ⟨_, _, now⟩ | ⟨now, _⟩ | ⟨now, _⟩
    · rw [now, owedAgain]
      simp [wholeRun, Placed.planned]
    · rw [owedAgain, closed] at now
      cases now
    · rw [owedAgain, closed] at now
      cases now
  · rw [same] at accepted ⊢
    simp only [List.take_zero]
    rw [budget.place_spans_planned accepted]
    obtain ⟨verdicts, errors⟩ := budget.place_spans_again accepted
    rcases budget.cut_cases fixedBytes (owed.take (budget.spanRun fixedBytes owed).placed.length) []
      (spannable.take (budget.spanRun (budget.spanRun fixedBytes owed).finish
        spannable).placed.length) with ⟨closed, _⟩ | ⟨_, none, _⟩ | ⟨_, _, now⟩
    · rw [owedAgain, opened] at closed
      cases closed
    · simp [wholeRun] at none
    · rw [now, owedAgain]
      simp only [List.take_nil, wholeRun]
      have fromEnd := budget.place_spans_start (budget.spanRun fixedBytes owed).finish
        (spannable.take (budget.spanRun (budget.spanRun fixedBytes owed).finish
          spannable).placed.length)
      exact ⟨trivial, trivial, trivial, by simp, fromEnd.1.trans verdicts, fromEnd.2.trans errors⟩
  · rw [same] at accepted held ⊢
    simp only at held accepted ⊢
    simp only [held, List.take_length] at accepted stays ⊢
    rw [budget.place_spans_planned accepted,
      budget.cut_in_turn_again opened held rfl rfl stays]
    exact ⟨rfl, rfl, rfl, rfl, budget.place_spans_again accepted⟩

end Again

end CapacityBudget

section Regrouped

theorem class_indices_append (first second : List PlanItem) (planClass : PlanClass) :
    classIndices (first ++ second) planClass = classIndices first planClass ++
      (classIndices second planClass).map (first.length + ·) := by
  simp only [classIndices, List.length_append, List.range_add, List.filter_append, List.filter_map]
  congr 1
  · refine List.filter_congr fun i member => ?_
    rw [List.getElem?_append_left (List.mem_range.mp member)]
  · congr 1
    refine List.filter_congr fun i _ => ?_
    simp only [Function.comp_apply]
    rw [List.getElem?_append_right (Nat.le_add_right _ _), Nat.add_sub_cancel_left]

theorem class_indices_all {items : List PlanItem} {planClass : PlanClass}
    (all : ∀ item ∈ items, item.planClass = planClass) :
    classIndices items planClass = List.range items.length := by
  refine List.filter_eq_self.mpr fun i member => ?_
  have inside := List.mem_range.mp member
  simp [List.getElem?_eq_getElem inside, all _ (List.getElem_mem inside)]

theorem class_indices_none {items : List PlanItem} {planClass : PlanClass}
    (other : ∀ item ∈ items, item.planClass ≠ planClass) : classIndices items planClass = [] := by
  refine List.filter_eq_nil_iff.mpr fun i member => ?_
  have inside := List.mem_range.mp member
  simp [List.getElem?_eq_getElem inside, other _ (List.getElem_mem inside)]

theorem item_sizes_shift (first second : List PlanItem) (indices : List Nat) :
    itemSizes (first ++ second) (indices.map (first.length + ·)) = itemSizes second indices := by
  simp only [itemSizes, List.map_map]
  refine List.map_congr_left fun i _ => ?_
  simp only [Function.comp_apply]
  rw [List.getElem?_append_right (Nat.le_add_right _ _), Nat.add_sub_cancel_left]

theorem item_sizes_left {first second : List PlanItem} {indices : List Nat}
    (inside : ∀ i ∈ indices, i < first.length) :
    itemSizes (first ++ second) indices = itemSizes first indices := by
  refine List.map_congr_left fun i member => ?_
  rw [List.getElem?_append_left (inside i member)]

variable (items : List PlanItem)

theorem item_sizes_range :
    itemSizes items (List.range items.length) = items.map PlanItem.bytes := by
  refine List.ext_getElem (by simp) fun i first second => ?_
  have inside : i < items.length := by simpa using second
  simp [itemSizes, List.getElem?_eq_getElem inside]

section Grouped

variable {owed whole spannable : List PlanItem}
  (allOwed : ∀ item ∈ owed, item.planClass = .owed)
  (allWhole : ∀ item ∈ whole, item.planClass = .whole)
  (allSpannable : ∀ item ∈ spannable, item.planClass = .spannable)

include allOwed allWhole allSpannable

/-- A list grouped by class in plan order: its indices run through the classes in turn. -/
theorem class_indices_grouped :
    classIndices (owed ++ (whole ++ spannable)) .owed = List.range owed.length ∧
      classIndices (owed ++ (whole ++ spannable)) .whole =
        (List.range whole.length).map (owed.length + ·) ∧
      classIndices (owed ++ (whole ++ spannable)) .spannable =
        ((List.range spannable.length).map (whole.length + ·)).map (owed.length + ·) := by
  have other : ∀ {items : List PlanItem} {one planClass : PlanClass},
      (∀ item ∈ items, item.planClass = one) → one ≠ planClass →
        classIndices items planClass = [] := by
    intro items one planClass all differ
    exact class_indices_none fun item member same => differ ((all item member).symm.trans same)
  simp only [class_indices_append]
  refine ⟨?_, ?_, ?_⟩
  · rw [class_indices_all allOwed, other allWhole (by decide), other allSpannable (by decide)]
    simp
  · rw [other allOwed (by decide), class_indices_all allWhole, other allSpannable (by decide)]
    simp
  · rw [other allOwed (by decide), other allWhole (by decide), class_indices_all allSpannable]
    simp

theorem class_sizes_grouped :
    itemSizes (owed ++ (whole ++ spannable))
        (classIndices (owed ++ (whole ++ spannable)) .owed) = owed.map PlanItem.bytes ∧
      itemSizes (owed ++ (whole ++ spannable))
        (classIndices (owed ++ (whole ++ spannable)) .whole) = whole.map PlanItem.bytes ∧
      itemSizes (owed ++ (whole ++ spannable))
        (classIndices (owed ++ (whole ++ spannable)) .spannable) =
          spannable.map PlanItem.bytes := by
  obtain ⟨first, second, third⟩ := class_indices_grouped allOwed allWhole allSpannable
  rw [first, second, third, item_sizes_shift, item_sizes_shift, item_sizes_shift,
    item_sizes_left (by simp), item_sizes_left (by simp)]
  exact ⟨item_sizes_range _, item_sizes_range _, item_sizes_range _⟩

end Grouped

def itemsAt (indices : List Nat) : List PlanItem :=
  indices.filterMap fun i => items[i]?

theorem items_at_append (first second : List Nat) :
    itemsAt items (first ++ second) = itemsAt items first ++ itemsAt items second :=
  List.filterMap_append

theorem items_at_class (planClass : PlanClass) (count : Nat) :
    (∀ item ∈ itemsAt items ((classIndices items planClass).take count),
        item.planClass = planClass) ∧
      (itemsAt items ((classIndices items planClass).take count)).map PlanItem.bytes =
        (itemSizes items (classIndices items planClass)).take count := by
  constructor
  · intro item member
    obtain ⟨i, listed, there⟩ := List.mem_filterMap.mp member
    obtain ⟨same, also, planned⟩ := mem_class_indices.mp (List.mem_of_mem_take listed)
    rw [← planned, Option.some.inj (there.symm.trans also)]
  · rw [itemSizes, ← List.map_take]
    have known : ∀ i ∈ (classIndices items planClass).take count, i ∈ classIndices items planClass :=
      fun i => List.mem_of_mem_take
    generalize (classIndices items planClass).take count = indices at known
    induction indices with
    | nil => rfl
    | cons i rest ih =>
      obtain ⟨item, there, _⟩ := mem_class_indices.mp (known i List.mem_cons_self)
      have later := ih fun j member => known j (List.mem_cons_of_mem i member)
      simp only [itemsAt, List.filterMap_cons, there, List.map_cons] at later ⊢
      rw [later]
      rfl

end Regrouped

def placementIsThePlan (placement : Placement) (units : Nat) : Bool :=
  placement.errors.isEmpty && placement.order = List.range units &&
    ((List.range units).zip placement.placed).all fun unit => unit.2.planned

namespace CapacityBudget

variable (budget : CapacityBudget) (fixedBytes : Nat) (items : List PlanItem)

theorem place_accepted (accepted : (budget.place fixedBytes items).errors = []) :
    (budget.planCut fixedBytes items).held = (classIndices items .whole).length ∧
      (budget.planCut fixedBytes items).owed.errors = [] ∧
      (budget.planCut fixedBytes items).spans.errors = [] := by
  simp only [place, List.append_eq_nil_iff] at accepted
  obtain ⟨⟨baseline, owed⟩, spans⟩ := accepted
  refine ⟨le_antisymm ?_ ?_, owed, spans⟩
  · rw [← length_item_sizes items]
    exact budget.cut_held_le _ _ _ _
  · by_contra short
    rw [baselineErrors, if_pos (by simpa using short)] at baseline
    cases baseline

theorem place_order (accepted : (budget.planCut fixedBytes items).owed.errors = []) :
    (budget.place fixedBytes items).order =
      (classIndices items .owed).take (budget.planCut fixedBytes items).owed.placed.length ++
        ((classIndices items .whole).take (budget.planCut fixedBytes items).kept ++
          (classIndices items .spannable).take
            ((budget.planCut fixedBytes items).spans.placed.filter Placed.planned).length) := by
  obtain ⟨front, rest, parts, planned, left, _⟩ := budget.spans_parts fixedBytes items accepted
  have spanLength := budget.plan_cut_spans_length fixedBytes items
  rw [parts] at spanLength
  simp only [place, parts, filter_planned spanLength.symm planned left, planned_front planned left]
  rw [List.map_fst_zip (List.length_take_le _ _), List.append_assoc]

theorem plan_cut_again (accepted : (budget.place fixedBytes items).errors = []) :
    let cut := budget.planCut fixedBytes items
    let again := budget.planCut fixedBytes (itemsAt items (budget.place fixedBytes items).order)
    again.held = cut.kept ∧ again.owed = cut.owed ∧ again.kept = cut.kept ∧
      min again.committed again.kept = min cut.committed cut.kept ∧
      again.spans.placed = cut.spans.placed.filter Placed.planned ∧ again.spans.errors = [] := by
  obtain ⟨held, owedAccepted, spansAccepted⟩ := budget.place_accepted fixedBytes items accepted
  have owedItems := items_at_class items .owed
    (budget.planCut fixedBytes items).owed.placed.length
  have wholeItems := items_at_class items .whole (budget.planCut fixedBytes items).kept
  have spanItems := items_at_class items .spannable
    ((budget.planCut fixedBytes items).spans.placed.filter Placed.planned).length
  obtain ⟨owed, whole, spannable⟩ :=
    class_sizes_grouped owedItems.1 wholeItems.1 spanItems.1
  rw [owedItems.2] at owed
  rw [wholeItems.2] at whole
  rw [spanItems.2] at spannable
  rw [budget.place_order fixedBytes items owedAccepted, items_at_append, items_at_append]
  have again := budget.cut_again fixedBytes (itemSizes items (classIndices items .owed))
    (itemSizes items (classIndices items .whole)) (itemSizes items (classIndices items .spannable))
    (held.trans (length_item_sizes items _).symm) spansAccepted
  intro cut
  rw [planCut, owed, whole, spannable]
  exact again

theorem planned_counts :
    (budget.planCut fixedBytes items).owed.placed.length ≤ (classIndices items .owed).length ∧
      (budget.planCut fixedBytes items).kept ≤ (classIndices items .whole).length ∧
      ((budget.planCut fixedBytes items).spans.placed.filter Placed.planned).length ≤
        (classIndices items .spannable).length := by
  refine ⟨?_, ?_, ?_⟩
  · rw [← length_item_sizes items]
    exact (budget.plan_cut_owed_ended fixedBytes items).length_le
  · rw [← length_item_sizes items]
    exact (budget.cut_kept_le _ _ _ _).trans (budget.cut_held_le _ _ _ _)
  · rw [← budget.plan_cut_spans_length fixedBytes items]
    exact List.length_filter_le _ _

theorem verdicts_again (accepted : (budget.place fixedBytes items).errors = []) :
    let again := budget.verdicts fixedBytes (itemsAt items (budget.place fixedBytes items).order)
    again.map Prod.fst = List.range (budget.place fixedBytes items).order.length ∧
      again.map Prod.snd =
        ((budget.verdicts fixedBytes items).filter fun unit => unit.2.planned).map Prod.snd := by
  obtain ⟨_, owedAccepted, _⟩ := budget.place_accepted fixedBytes items accepted
  obtain ⟨owedLe, keptLe, spansLe⟩ := budget.planned_counts fixedBytes items
  obtain ⟨held, owed, kept, committed, spans, _⟩ := budget.plan_cut_again fixedBytes items accepted
  have owedItems := items_at_class items .owed
    (budget.planCut fixedBytes items).owed.placed.length
  have wholeItems := items_at_class items .whole (budget.planCut fixedBytes items).kept
  have spanItems := items_at_class items .spannable
    ((budget.planCut fixedBytes items).spans.placed.filter Placed.planned).length
  obtain ⟨first, second, third⟩ := class_indices_grouped owedItems.1 wholeItems.1 spanItems.1
  have owedCount := congrArg List.length owedItems.2
  have wholeCount := congrArg List.length wholeItems.2
  have spanCount := congrArg List.length spanItems.2
  simp only [List.length_map, List.length_take, length_item_sizes, min_eq_left owedLe,
    min_eq_left keptLe, min_eq_left spansLe] at owedCount wholeCount spanCount
  have order := budget.place_order fixedBytes items owedAccepted
  rw [owedCount] at first second third
  rw [wholeCount] at second third
  rw [spanCount] at third
  rw [← items_at_append, ← items_at_append, ← order] at first second third
  refine ⟨?_, ?_⟩
  · rw [verdicts_units, first, second, third, order]
    simp only [List.length_append, List.length_take, min_eq_left owedLe, min_eq_left keptLe,
      min_eq_left spansLe]
    rw [List.range_add, List.range_add, List.map_append, List.append_assoc]
  · rw [verdicts_column, (budget.planned_units fixedBytes items owedAccepted).2, first, second, owed,
      spans]
    have sameVerdicts : (List.range (budget.planCut fixedBytes items).kept).map (budget.planCut
        fixedBytes (itemsAt items (budget.place fixedBytes items).order)).wholeVerdict =
        (List.range (budget.planCut fixedBytes items).kept).map
          (budget.planCut fixedBytes items).wholeVerdict := by
      refine List.map_congr_left fun n member => ?_
      have less := List.mem_range.mp member
      have keptHeld : (budget.planCut fixedBytes items).kept ≤
        (budget.planCut fixedBytes items).held := budget.cut_kept_le _ _ _ _
      rw [kept] at committed
      simp only [Cut.wholeVerdict, held, committed, kept]
      rw [if_neg (Nat.not_le_of_lt less), if_neg (Nat.not_le_of_lt (less.trans_le keptHeld))]
    simp only [List.length_map, List.length_range, SpanRun.fill, Nat.sub_self, List.replicate_zero,
      List.append_nil, sameVerdicts]

/-- Placing the planned items again, alone and in their order, gives the same plan: nothing is
refused or moved, and every unit keeps its verdict. -/
theorem placement_places_itself (accepted : (budget.place fixedBytes items).errors = []) :
    let placement := budget.place fixedBytes items
    let again := budget.place fixedBytes (itemsAt items placement.order)
    again.errors = [] ∧ again.order = List.range placement.order.length ∧
      (∀ k : Nat, again.placed[k]? = placement.order[k]?.bind fun i => placement.placed[i]?) ∧
      placementIsThePlan again placement.order.length = true := by
  intro placement again
  obtain ⟨_, owedAccepted, _⟩ := budget.place_accepted fixedBytes items accepted
  obtain ⟨units, column⟩ := budget.verdicts_again fixedBytes items accepted
  have order := (budget.planned_units fixedBytes items owedAccepted).1
  have planned : ∀ {k : Nat} {placed : Placed}, again.placed[k]? = some placed →
      placed.planned = true := by
    intro k placed verdict
    have member : placed ∈ (budget.verdicts fixedBytes (itemsAt items placement.order)).map
        Prod.snd := List.mem_map.mpr ⟨_, (budget.placed_iff fixedBytes _).mp verdict, rfl⟩
    rw [column] at member
    obtain ⟨unit, kept, rfl⟩ := List.mem_map.mp member
    exact (List.mem_filter.mp kept).2
  have errors : again.errors = [] := by
    rw [errors_iff_refused]
    intro member
    obtain ⟨k, verdict⟩ := List.mem_iff_getElem?.mp member
    exact absurd (planned verdict) (by decide)
  have orderAgain : again.order = List.range placement.order.length := by
    rw [← units, ← (budget.planned_units fixedBytes _
      (budget.place_accepted fixedBytes _ errors).2.1).1, List.filter_eq_self.mpr]
    intro unit member
    exact planned ((budget.placed_iff fixedBytes _).mpr member)
  refine ⟨errors, orderAgain, fun k => ?_, ?_⟩
  · cases there : placement.order[k]? with
    | none =>
      rw [Option.bind_none, Option.eq_none_iff_forall_ne_some]
      intro placed verdict
      have member : k ∈ (budget.verdicts fixedBytes (itemsAt items placement.order)).map Prod.fst :=
        List.mem_map.mpr ⟨_, (budget.placed_iff fixedBytes _).mp verdict, rfl⟩
      rw [units, List.mem_range] at member
      exact absurd (List.getElem?_eq_none_iff.mp there) (Nat.not_le_of_lt member)
    | some i =>
      -- the `k`-th planned unit is `i`, with the verdict the second table has at `k`
      have inside := (List.getElem?_eq_some_iff.mp there).1
      have at_k := there
      rw [← order, List.getElem?_map, Option.map_eq_some_iff] at at_k
      obtain ⟨⟨_, placed⟩, unit, rfl⟩ := at_k
      have key : ((budget.verdicts fixedBytes (itemsAt items placement.order)).map
          Prod.fst)[k]? = some k := by
        rw [units]
        exact List.getElem?_range inside
      have verdict : ((budget.verdicts fixedBytes (itemsAt items placement.order)).map
          Prod.snd)[k]? = some placed := by
        rw [column, List.getElem?_map, unit]
        rfl
      rw [List.getElem?_map, Option.map_eq_some_iff] at key verdict
      obtain ⟨⟨first, second⟩, now, rfl⟩ := key
      obtain ⟨⟨_, _⟩, same, rfl⟩ := verdict
      obtain ⟨_, rfl⟩ := Prod.mk.inj (Option.some.inj (now.symm.trans same))
      rw [Option.bind_some, (budget.placed_iff fixedBytes _).mpr (List.mem_of_getElem? now)]
      exact ((budget.placed_iff fixedBytes items).mpr
        (List.mem_filter.mp (List.mem_of_getElem? unit)).1).symm
  · simp only [placementIsThePlan, errors, orderAgain, List.isEmpty_nil, decide_true, Bool.true_and,
      List.all_eq_true]
    intro unit member
    obtain ⟨k, verdict⟩ := List.mem_iff_getElem?.mp (List.of_mem_zip member).2
    exact planned verdict

/-- A tape of 10 bytes with a plan bound of 20, one unit planned past the ceiling, a tail, and two
units left out. -/
theorem placement_places_itself_seven_units :
    let budget : CapacityBudget := ⟨10, 1, some 20⟩
    let items : List PlanItem := [⟨.spannable, 3⟩, ⟨.whole, 3⟩, ⟨.owed, 2⟩, ⟨.whole, 3⟩, ⟨.whole, 9⟩,
      ⟨.spannable, 20⟩, ⟨.spannable, 20⟩]
    budget.place 0 items = ⟨[2, 1, 3, 0, 5],
        [.pastCeiling, .committed, .committed, .committed, .deferred, .tail, .deferred], []⟩ ∧
      (budget.place 0 (itemsAt items (budget.place 0 items).order)).errors = [] ∧
      (budget.place 0 (itemsAt items (budget.place 0 items).order)).order = List.range 5 := by
  intro budget items
  have placement : budget.place 0 items = ⟨[2, 1, 3, 0, 5],
      [.pastCeiling, .committed, .committed, .committed, .deferred, .tail, .deferred], []⟩ := by
    decide
  have again := budget.placement_places_itself 0 items (by rw [placement])
  refine ⟨placement, again.1, ?_⟩
  rw [again.2.1, placement]
  rfl

end CapacityBudget

end Tapectl.Volume
