import Tapectl.Volume.CapacityGate

/-!
# Whole units: the split, the plan order and the gate

`CapacityBudget::split` scans the units once, `CapacityBudget::place` scans them twice (for the
baseline and after the owed runs), and the gate of a Layout compares two totals. For whole units
the three say the same.
-/

namespace Tapectl.Volume

structure PlanSplit where
  committed : Nat
  planned : Nat
  units : Nat
  deriving DecidableEq, Repr

def PlanSplit.fits (split : PlanSplit) : Bool := split.planned == split.units

/-- The verdict of `place` on the unit `n` of a split. -/
def PlanSplit.verdict (split : PlanSplit) (n : Nat) : Placed :=
  if n < split.committed then .committed
  else if n < split.planned then .pastCeiling
  else .refused

def wholeItem (bytes : Nat) : PlanItem := ⟨.whole, bytes⟩

namespace CapacityBudget

variable (budget : CapacityBudget) (fixedBytes : Nat)

def split (unitBytes : List Nat) : PlanSplit :=
  let run := budget.wholeRun true false fixedBytes unitBytes
  ⟨run.1, run.2, unitBytes.length⟩

section Whole

variable (sizes : List Nat)

theorem whole_indices : classIndices (sizes.map wholeItem) .whole = List.range sizes.length := by
  rw [class_indices_all, List.length_map]
  intro item member
  obtain ⟨bytes, _, rfl⟩ := List.mem_map.mp member
  rfl

theorem whole_sizes : itemSizes (sizes.map wholeItem) (List.range sizes.length) = sizes := by
  have all := item_sizes_range (sizes.map wholeItem)
  rw [List.length_map, List.map_map] at all
  rw [all]
  exact List.map_id _

theorem no_other_indices {planClass : PlanClass} (other : planClass ≠ .whole) :
    classIndices (sizes.map wholeItem) planClass = [] := by
  refine class_indices_none fun item member => ?_
  obtain ⟨bytes, _, rfl⟩ := List.mem_map.mp member
  exact other.symm

theorem cut_whole : budget.cut fixedBytes [] sizes [] =
    ⟨(budget.split fixedBytes sizes).planned, ⟨fixedBytes, [], none, []⟩,
      (budget.split fixedBytes sizes).committed, (budget.split fixedBytes sizes).planned,
      ⟨saturatingAddU64 fixedBytes
        (wrappingSum (sizes.take (budget.split fixedBytes sizes).planned)), [], none, []⟩⟩ := by
  have counts := budget.whole_run_le true false fixedBytes sizes
  have again := budget.whole_run_take true false fixedBytes
    (budget.wholeRun true false fixedBytes sizes).2 sizes
  rw [min_eq_left counts.1, min_self] at again
  simp [cut, split, spanRun, Cut.opened, placeSpans, SpanRun.fill, again, List.take_take]

theorem plan_cut_whole : budget.planCut fixedBytes (sizes.map wholeItem) =
    budget.cut fixedBytes [] sizes [] := by
  rw [planCut, no_other_indices sizes (by decide : PlanClass.owed ≠ .whole),
    no_other_indices sizes (by decide : PlanClass.spannable ≠ .whole), whole_indices, whole_sizes]
  rfl

theorem whole_verdict_of_split : (budget.cut fixedBytes [] sizes []).wholeVerdict =
    (budget.split fixedBytes sizes).verdict := by
  have counts : (budget.split fixedBytes sizes).committed ≤ (budget.split fixedBytes sizes).planned :=
    (budget.whole_run_le true false fixedBytes sizes).1
  funext n
  rw [cut_whole]
  simp only [Cut.wholeVerdict, PlanSplit.verdict, min_eq_left counts]
  split_ifs <;> first | rfl | omega

theorem place_whole : budget.place fixedBytes (sizes.map wholeItem) =
    { order := List.range (budget.split fixedBytes sizes).planned
      placed := (List.range sizes.length).map (budget.split fixedBytes sizes).verdict
      errors := budget.baselineErrors fixedBytes (budget.split fixedBytes sizes).planned sizes } := by
  have planned : (budget.split fixedBytes sizes).planned ≤ sizes.length :=
    (budget.whole_run_le true false fixedBytes sizes).2
  have noOwed := no_other_indices sizes (by decide : PlanClass.owed ≠ .whole)
  have noSets := no_other_indices sizes (by decide : PlanClass.spannable ≠ .whole)
  have verdicts : budget.verdicts fixedBytes (sizes.map wholeItem) =
      (List.range sizes.length).zip
        ((List.range sizes.length).map (budget.split fixedBytes sizes).verdict) := by
    simp only [verdicts, plan_cut_whole, whole_verdict_of_split, whole_indices, List.length_range,
      noOwed, noSets, List.zip_nil_left, List.nil_append, List.append_nil]
  have placed : (budget.place fixedBytes (sizes.map wholeItem)).placed =
      (List.range sizes.length).map (budget.split fixedBytes sizes).verdict := by
    refine List.ext_getElem? fun i => Option.ext fun verdict => ?_
    rw [placed_iff, verdicts, ← List.map_prod_left_eq_zip]
    simp only [List.mem_map, List.mem_range, Prod.mk.injEq, List.getElem?_map,
      Option.map_eq_some_iff, List.getElem?_eq_some_iff, List.getElem_range, List.length_range]
    constructor
    · rintro ⟨_, inside, same, found⟩
      exact ⟨i, ⟨same ▸ inside, rfl⟩, same ▸ found⟩
    · rintro ⟨_, ⟨inside, same⟩, found⟩
      exact ⟨i, inside, rfl, same ▸ found⟩
  have order : (budget.place fixedBytes (sizes.map wholeItem)).order =
      List.range (budget.split fixedBytes sizes).planned := by
    simp only [place, plan_cut_whole, noOwed, noSets, whole_indices, cut_whole, List.zip_nil_left,
      List.take_nil, List.nil_append, List.filter_nil, List.map_nil, List.append_nil,
      List.take_range, min_eq_left planned]
  have errors : (budget.place fixedBytes (sizes.map wholeItem)).errors =
      budget.baselineErrors fixedBytes (budget.split fixedBytes sizes).planned sizes := by
    simp only [place, plan_cut_whole, whole_indices, whole_sizes, cut_whole, List.append_nil]
  rw [← order, ← placed, ← errors]

theorem errors_iff_fits : (budget.place fixedBytes (sizes.map wholeItem)).errors = [] ↔
    (budget.split fixedBytes sizes).fits = true := by
  have planned : (budget.split fixedBytes sizes).planned ≤ sizes.length :=
    (budget.whole_run_le true false fixedBytes sizes).2
  have units : (budget.split fixedBytes sizes).units = sizes.length := rfl
  rw [place_whole, PlanSplit.fits, units, beq_iff_eq, baselineErrors]
  split
  case isTrue short => simp; omega
  case isFalse full => simp; omega

end Whole

theorem exact_add {left right : Nat} (small : left + right < 2 ^ 64) :
    saturatingAddU64 left right = left + right := by
  simp only [saturatingAddU64, maxU64]
  omega

section Totals

variable {sizes : List Nat} {start : Nat}

/-- Past the ceiling the scan takes every unit exactly when the bound holds the last end. -/
theorem crossed_run_fits (small : start + sizes.sum < 2 ^ 64) :
    (budget.wholeRun true true start sizes).2 = sizes.length ↔
      sizes = [] ∨ ∃ bound, budget.planBoundBytes = some bound ∧ start + sizes.sum ≤ bound := by
  induction sizes generalizing start with
  | nil => simp [wholeRun]
  | cons bytes rest ih =>
    rw [List.sum_cons] at small ⊢
    have exact : saturatingAddU64 start bytes = start + bytes := exact_add (by omega)
    have later := @ih (start + bytes) (by omega)
    cases limited : budget.planBoundBytes with
    | none => simp [wholeRun, limited]
    | some bound =>
      by_cases within : start + bytes ≤ bound
      · simp only [wholeRun, limited, exact, within, Bool.not_true, Bool.false_eq_true, false_and,
          if_false, and_self, if_true, List.length_cons, Nat.add_right_cancel_iff, later,
          reduceCtorEq, false_or, Option.some.injEq, exists_eq_left']
        by_cases last : rest = []
        · simp [last, within]
        · simp [last, Nat.add_assoc]
      · have beyond : ¬ start + (bytes + rest.sum) ≤ bound := by omega
        simp [wholeRun, limited, exact, within, beyond]

/-- The scan takes every unit exactly when the last end fits the fill budget or the bound. -/
theorem whole_run_fits (small : start + sizes.sum + budget.reserveBytes < 2 ^ 64) :
    (budget.wholeRun true false start sizes).2 = sizes.length ↔
      sizes = [] ∨ start + sizes.sum + budget.reserveBytes ≤ budget.availableBytes ∨
        ∃ bound, budget.planBoundBytes = some bound ∧ start + sizes.sum ≤ bound := by
  induction sizes generalizing start with
  | nil => simp [wholeRun]
  | cons bytes rest ih =>
    rw [List.sum_cons] at small ⊢
    have exact : saturatingAddU64 start bytes = start + bytes := exact_add (by omega)
    have exactEnd : saturatingAddU64 (start + bytes) budget.reserveBytes =
        start + bytes + budget.reserveBytes := exact_add (by omega)
    by_cases under : start + bytes + budget.reserveBytes ≤ budget.availableBytes
    · have later := @ih (start + bytes) (by omega)
      simp only [wholeRun, exact, exactEnd, under, Bool.not_false, and_self, if_true,
        List.length_cons, Nat.add_right_cancel_iff, later, reduceCtorEq, false_or]
      by_cases last : rest = []
      · simp [last, under]
      · simp [last, Nat.add_assoc]
    · -- the ceiling is crossed here, and no later end comes back under it
      have beyond : ¬ start + (bytes + rest.sum) + budget.reserveBytes ≤ budget.availableBytes := by
        omega
      have same : budget.wholeRun true false start (bytes :: rest) =
          budget.wholeRun true true start (bytes :: rest) := by
        simp [wholeRun, exact, exactEnd, under]
      rw [same, budget.crossed_run_fits (by rw [List.sum_cons]; omega), List.sum_cons]
      simp only [beyond, false_or]

end Totals

/-- The layout holds these units and no other slices: `units` lists each unit's slices in order,
and every file is sized. -/
structure HoldsUnits (layout : Layout) (sizes : List Nat) (units : List (List LayoutEntry)) :
    Prop where
  sized : ∀ entry ∈ layout.entries, entry.sizeBytes.isSome
  fixed : layout.fixedOnTapeBytes = fixedBytes
  slices : layout.entries.filter (fun entry => entry.kind.isSlice) = units.flatten
  sizes : units.map (fun unit => wrappingSum (paddedSizes layout.blockSize unit)) = sizes

theorem HoldsUnits.on_tape_bytes {layout : Layout} {sizes : List Nat}
    {units : List (List LayoutEntry)} (holds : HoldsUnits fixedBytes layout sizes units)
    (small : fixedBytes + sizes.sum < 2 ^ 64) :
    layout.onTapeBytes = .ok (fixedBytes + sizes.sum) := by
  have parts := padded_sizes_parts layout.blockSize layout.entries fun entry => entry.kind.isSlice
  have planned := wrapping_sum_units layout.blockSize units
  have fixed := holds.fixed
  rw [holds.slices] at parts
  rw [holds.sizes] at planned
  rw [Layout.fixedOnTapeBytes, wrappingSum] at fixed
  have noErrors : (layout.entries.filter fun entry =>
      (entry.onTapeBytes layout.blockSize).isNone) = [] := by
    refine List.filter_eq_nil_iff.mpr fun entry member => ?_
    obtain ⟨size, found⟩ := Option.isSome_iff_exists.mp (holds.sized entry member)
    simp [LayoutEntry.onTapeBytes, found]
  simp only [Layout.onTapeBytes, noErrors, List.map_nil, List.isEmpty_nil, if_true, wrappingSum]
  congr 1
  omega

/-- The gate of a Layout of whole units compares the plan's end with the fill budget and the
bound. -/
theorem HoldsUnits.gate_accepts_iff {layout : Layout} {sizes : List Nat}
    {units : List (List LayoutEntry)} (holds : HoldsUnits fixedBytes layout sizes units)
    (room : fixedBytes + budget.reserveBytes ≤ budget.availableBytes)
    (small : fixedBytes + sizes.sum + budget.reserveBytes < 2 ^ 64) :
    layout.capacityErrorsWithTail budget budget.availableBytes none = [] ↔
      fixedBytes + sizes.sum + budget.reserveBytes ≤ budget.availableBytes ∨
        ∃ bound, budget.planBoundBytes = some bound ∧ fixedBytes + sizes.sum ≤ bound := by
  have needed := holds.on_tape_bytes fixedBytes (by omega)
  have total : wrappingAdd (fixedBytes + sizes.sum) budget.reserveBytes =
      fixedBytes + sizes.sum + budget.reserveBytes := Nat.mod_eq_of_lt small
  have noTail : wrappingSub (fixedBytes + sizes.sum) 0 = fixedBytes + sizes.sum := by
    simp only [wrappingSub]
    omega
  have fixed : wrappingAdd fixedBytes budget.reserveBytes = fixedBytes + budget.reserveBytes :=
    Nat.mod_eq_of_lt (by omega)
  simp only [Layout.capacityErrorsWithTail, needed, total, Option.map_none, Option.getD_none, noTail,
    holds.fixed, fixed]
  split
  case isTrue under => simp [under]
  case isFalse beyond =>
    cases limited : budget.planBoundBytes with
    | none => simp [beyond]
    | some bound => simp [beyond, Nat.not_lt_of_le room]

/-- The three planners of whole units agree: `place` is the split, with errors exactly when a unit
is left over, and the gate of a Layout holding the units accepts exactly what the split takes. -/
theorem whole_planners_agree (sizes : List Nat)
    (room : fixedBytes + budget.reserveBytes ≤ budget.availableBytes)
    (small : fixedBytes + sizes.sum + budget.reserveBytes < 2 ^ 64) :
    let split := budget.split fixedBytes sizes
    let placement := budget.place fixedBytes (sizes.map wholeItem)
    placement.order = List.range split.planned ∧
      placement.placed = (List.range sizes.length).map split.verdict ∧
      (placement.errors = [] ↔ split.fits = true) ∧
      ∀ layout units, HoldsUnits fixedBytes layout sizes units →
        (split.fits = true ↔
          layout.capacityErrorsWithTail budget budget.availableBytes none = []) := by
  intro split placement
  have placed := budget.place_whole fixedBytes sizes
  refine ⟨congrArg Placement.order placed, congrArg Placement.placed placed,
    budget.errors_iff_fits fixedBytes sizes, fun layout units holds => ?_⟩
  have fits : split.fits = true ↔
      (budget.wholeRun true false fixedBytes sizes).2 = sizes.length := beq_iff_eq
  rw [fits, budget.whole_run_fits small, holds.gate_accepts_iff budget fixedBytes room small]
  refine or_iff_right_of_imp fun empty => .inl ?_
  rw [empty, List.sum_nil, Nat.add_zero]
  exact room

/-- Three units on a tape of 7 blocks under the fill ceiling and 10 in all: the last one would fit
beside the first, but stays behind the second, past the ceiling. -/
theorem whole_planners_agree_past_ceiling :
    let budget : CapacityBudget := ⟨7, 0, some 10⟩
    let units : List (List LayoutEntry) := [[⟨1, .slice 1, some 4, none⟩],
      [⟨2, .slice 2, some 2, none⟩, ⟨3, .slice 3, some 1, none⟩], [⟨4, .slice 4, some 1, none⟩]]
    let layout : Layout := ⟨"tape", "uuid", 1,
      ⟨0, .idThunk, some 1, none⟩ :: units.flatten ++ [⟨5, .sealMarker, some 1, none⟩]⟩
    budget.split 2 [4, 3, 1] = ⟨1, 3, 3⟩ ∧
      (budget.place 2 ([4, 3, 1].map wholeItem)).order = [0, 1, 2] ∧
      (budget.place 2 ([4, 3, 1].map wholeItem)).placed = [.committed, .pastCeiling, .pastCeiling] ∧
      layout.capacityErrorsWithTail budget 7 none = [] := by
  intro budget units layout
  have split : budget.split 2 [4, 3, 1] = ⟨1, 3, 3⟩ := by decide
  obtain ⟨order, placed, _, gate⟩ := budget.whole_planners_agree 2 [4, 3, 1] (by decide) (by decide)
  rw [split] at order placed gate
  refine ⟨split, order, placed, (gate layout units ?_).mp rfl⟩
  exact ⟨by decide, by decide, by decide, by decide⟩

end CapacityBudget

end Tapectl.Volume
