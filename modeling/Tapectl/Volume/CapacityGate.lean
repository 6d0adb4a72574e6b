import Tapectl.Volume.Placement

/-!
# Planner and capacity gate

`Layout::capacity_errors_with_tail` reads a Layout's totals and one tail position; `place` works unit
by unit. A plan without errors passes the gate.
-/

namespace Tapectl.Volume

namespace CapacityBudget

variable (budget : CapacityBudget)

/-- What a settled unit's end stays within: the plan bound, or the room under the fill ceiling. -/
structure Limit (budget : CapacityBudget) (limit : Nat) : Prop where
  short : limit < maxU64
  ceiling : ∀ finish, saturatingAddU64 finish budget.reserveBytes ≤ budget.availableBytes →
    finish ≤ limit
  bound : ∀ bound, budget.planBoundBytes = some bound → bound ≤ limit

section Within

variable {budget} {limit : Nat} (within : Limit budget limit)

include within

theorem Limit.exact {finish bytes : Nat} (small : saturatingAddU64 finish bytes ≤ limit) :
    saturatingAddU64 finish bytes = finish + bytes ∧ finish + bytes ≤ limit := by
  have short := within.short
  simp only [saturatingAddU64] at small ⊢
  omega

theorem Limit.whole_run (pastCeiling crossed : Bool) (start : Nat) (sizes : List Nat)
    (begins : start ≤ limit) :
    start + (sizes.take (budget.wholeRun pastCeiling crossed start sizes).2).sum ≤ limit := by
  induction sizes generalizing crossed start with
  | nil => simpa [wholeRun] using begins
  | cons bytes rest ih =>
    rcases budget.whole_run_cons pastCeiling crossed start bytes rest with
      stops | ⟨_, under, goes⟩ | ⟨bound, limited, _, inside, goes⟩
    · simpa [stops] using begins
    · obtain ⟨exact, small⟩ := within.exact (within.ceiling _ under)
      have later := ih false (start + bytes) small
      rw [goes, exact, List.take_succ_cons, List.sum_cons]
      omega
    · obtain ⟨exact, small⟩ := within.exact (inside.trans (within.bound _ limited))
      have later := ih true (start + bytes) small
      rw [goes, exact, List.take_succ_cons, List.sum_cons]
      omega

/-- A run of spannable units ends within the limit, its tail apart; only a plan bound lets a unit
be the tail. -/
theorem Limit.span_run (start : Nat) (sizes : List Nat) (begins : start ≤ limit)
    (accepted : (budget.spanRun start sizes).errors = []) :
    ((budget.spanRun start sizes).tailBytes = none ∧
      (budget.spanRun start sizes).placed.length = sizes.length ∧
      (budget.spanRun start sizes).finish = start + sizes.sum ∧ start + sizes.sum ≤ limit) ∨
    ((budget.spanRun start sizes).tailBytes ≠ none ∧ budget.planBoundBytes ≠ none ∧
      ∃ before, (budget.spanRun start sizes).placed.length = before + 1 ∧ before < sizes.length ∧
        start + (sizes.take before).sum ≤ limit) := by
  induction sizes generalizing start with
  | nil => exact .inl ⟨rfl, rfl, rfl, by simpa using begins⟩
  | cons bytes rest ih =>
    rcases budget.span_placed_cases (saturatingAddU64 start bytes) with
      ⟨refused, _⟩ | ⟨tail, bound⟩ | ⟨placed, settled, found, reason⟩
    · rw [budget.span_run_refuses refused] at accepted
      cases accepted
    · rw [budget.span_run_tail tail]
      exact .inr ⟨by simp, bound, 0, rfl, by simp, by simpa using begins⟩
    · have inside : saturatingAddU64 start bytes ≤ limit := by
        rcases reason with under | ⟨bound, limited, small⟩
        · exact within.ceiling _ under
        · exact small.trans (within.bound _ limited)
      obtain ⟨exact, small⟩ := within.exact inside
      rw [budget.span_run_settles settled found] at accepted ⊢
      rw [exact] at accepted ⊢
      simp only [List.length_cons, List.sum_cons] at accepted ⊢
      rcases ih (start + bytes) small accepted with ⟨none, all, ends, fits⟩ |
        ⟨some_tail, bound, before, reached, less, fits⟩
      · exact .inl ⟨none, by rw [all], by rw [ends]; omega, by omega⟩
      · refine .inr ⟨some_tail, bound, before + 1, by rw [reached], by omega, ?_⟩
        rw [List.take_succ_cons, List.sum_cons]
        omega

omit within in
theorem drop_last_take {sizes : List Nat} {count : Nat} (less : count < sizes.length) :
    (sizes.take (count + 1)).dropLast = sizes.take count := by
  rw [List.dropLast_eq_take, List.length_take, min_eq_left less, List.take_take]
  simp

/-- The units `planned` end within the limit, the last of them apart if it is a tail. -/
def Fits (budget : CapacityBudget) (limit fixedBytes : Nat) (planned : List Nat) (spans : Prop) :
    Prop :=
  fixedBytes + planned.sum ≤ limit ∨
    budget.planBoundBytes ≠ none ∧ spans ∧ fixedBytes + planned.dropLast.sum ≤ limit

theorem Limit.place_spans {fixedBytes : Nat} {before spannable : List Nat}
    (begins : fixedBytes + before.sum ≤ limit)
    (accepted : (budget.placeSpans spannable (fixedBytes + before.sum) false).errors = []) :
    Fits budget limit fixedBytes
      (before ++ spannable.take ((budget.placeSpans spannable (fixedBytes + before.sum)
        false).placed.filter Placed.planned).length)
      (0 < ((budget.placeSpans spannable (fixedBytes + before.sum)
        false).placed.filter Placed.planned).length) := by
  rw [budget.place_spans_planned accepted]
  rw [place_spans_opened] at accepted
  rcases within.span_run _ spannable begins accepted with ⟨_, all, _, fits⟩ |
    ⟨_, bound, count, reached, less, fits⟩
  · refine .inl ?_
    rw [all, List.take_length, List.sum_append]
    omega
  · refine .inr ⟨bound, by omega, ?_⟩
    have some_set : spannable.take (count + 1) ≠ [] := by
      rw [← List.length_pos_iff, List.length_take]
      omega
    rw [reached, List.dropLast_append_of_ne_nil some_set, drop_last_take less, List.sum_append]
    omega

theorem Limit.cut {fixedBytes : Nat} {owed whole spannable : List Nat} (begins : fixedBytes ≤ limit)
    (owedAccepted : (budget.cut fixedBytes owed whole spannable).owed.errors = [])
    (spansAccepted : (budget.cut fixedBytes owed whole spannable).spans.errors = []) :
    let cut := budget.cut fixedBytes owed whole spannable
    let sets := (cut.spans.placed.filter Placed.planned).length
    Fits budget limit fixedBytes
      (owed.take cut.owed.placed.length ++ (whole.take cut.kept ++ spannable.take sets))
      (0 < sets ∨ sets = 0 ∧ cut.kept = 0 ∧ 0 < cut.owed.placed.length) := by
  have keptLe := budget.cut_kept_le fixedBytes owed whole spannable
  rw [cut_owed] at owedAccepted
  have owedRun := within.span_run fixedBytes owed begins owedAccepted
  have complete : Cut.opened (budget.spanRun fixedBytes owed) = true →
      (budget.spanRun fixedBytes owed).placed.length = owed.length ∧
        (budget.spanRun fixedBytes owed).finish = fixedBytes + owed.sum ∧
        fixedBytes + owed.sum ≤ limit := by
    intro opened
    refine (owedRun.resolve_right ?_).2
    rintro ⟨tail, _⟩
    simp [Cut.opened, tail] at opened
  rcases budget.cut_cases fixedBytes owed whole spannable with
    ⟨closed, start, same⟩ | ⟨opened, _, _, same⟩ | ⟨opened, _, same⟩
  · rcases owedRun with ⟨none, _⟩ | ⟨_, bound, before, reached, less, fits⟩
    · simp [Cut.opened, none, owedAccepted] at closed
    · rw [same]
      have noSets : ((List.replicate spannable.length Placed.deferred).filter
          Placed.planned).length = 0 := by simp [Placed.planned]
      simp only [place_spans_closed, noSets, List.take_zero, List.append_nil, reached]
      refine .inr ⟨bound, .inr ⟨trivial, trivial, by omega⟩, ?_⟩
      rw [drop_last_take less]
      exact fits
  · obtain ⟨all, ends, small⟩ := complete opened
    rw [same, ends] at spansAccepted
    have sets := within.place_spans small spansAccepted
    rw [same]
    simp only [ends, all, List.take_length, List.take_zero, List.nil_append]
    refine sets.imp_right ?_
    rintro ⟨bound, some_set, fits⟩
    exact ⟨bound, .inl some_set, fits⟩
  · obtain ⟨all, ends, small⟩ := complete opened
    have kept := within.whole_run spannable.isEmpty false (fixedBytes + owed.sum)
      (whole.take (budget.wholeRun true false fixedBytes whole).2) small
    rw [same] at spansAccepted keptLe ⊢
    simp only [ends, all, List.take_length] at spansAccepted keptLe ⊢
    rw [List.take_take, min_eq_left keptLe] at kept spansAccepted ⊢
    generalize (budget.wholeRun spannable.isEmpty false (fixedBytes + owed.sum)
      (whole.take (budget.wholeRun true false fixedBytes whole).2)).2 = count at *
    have begun : saturatingAddU64 (fixedBytes + owed.sum) (wrappingSum (whole.take count)) =
        fixedBytes + (owed ++ whole.take count).sum := by
      have short := within.short
      simp only [saturatingAddU64, wrappingSum, maxU64, List.sum_append] at short ⊢
      omega
    rw [begun] at spansAccepted ⊢
    have sets := within.place_spans (by rw [List.sum_append]; omega) spansAccepted
    rw [← List.append_assoc]
    refine sets.imp_right ?_
    rintro ⟨bound, some_set, fits⟩
    exact ⟨bound, .inl some_set, fits⟩

end Within

end CapacityBudget

def LayoutEntry.onTapeBytes (entry : LayoutEntry) (blockSize : Nat) : Option Nat :=
  entry.sizeBytes.map fun size => padToBlocks size blockSize

/-- The padded sizes of some entries; an unsized one counts nothing. -/
def paddedSizes (blockSize : Nat) (entries : List LayoutEntry) : List Nat :=
  entries.filterMap fun entry => entry.onTapeBytes blockSize

namespace Layout

variable (layout : Layout)

def onTapeBytes : Except (List LayoutError) Nat :=
  let errs := (layout.entries.filter fun entry =>
    (entry.onTapeBytes layout.blockSize).isNone).map fun entry =>
      LayoutError.unsized entry.position entry.kind.typeLabel
  if errs.isEmpty then .ok (wrappingSum (paddedSizes layout.blockSize layout.entries))
  else .error errs

def sliceBytesFrom (start : Int) : Nat :=
  wrappingSum (paddedSizes layout.blockSize
    (layout.entries.filter fun entry => entry.kind.isSlice && decide (start ≤ entry.position)))

def fixedOnTapeBytes : Nat :=
  wrappingSum (paddedSizes layout.blockSize
    (layout.entries.filter fun entry => !entry.kind.isSlice))

/-- The capacity gate for a plan whose last unit may be a span's tail, from `tailFrom` on. -/
def capacityErrorsWithTail (budget : CapacityBudget) (availableBytes : Nat)
    (tailFrom : Option Int) : List LayoutError :=
  match layout.onTapeBytes with
  | .error _ => []
  | .ok needed =>
    let reserve := budget.reserveBytes
    if wrappingAdd needed reserve ≤ availableBytes then []
    else
      let tail := (tailFrom.map layout.sliceBytesFrom).getD 0
      let beforeTail := wrappingSub needed tail
      match budget.planBoundBytes with
      | none =>
        (if tail = 0 ∨ availableBytes < wrappingAdd beforeTail reserve then
          [.capacityExceeded beforeTail reserve availableBytes] else []) ++
        (if 0 < tail then [.spanNeedsPostWarningBytes needed reserve availableBytes] else [])
      | some bound =>
        let fixed := layout.fixedOnTapeBytes
        (if availableBytes < wrappingAdd fixed reserve then
          [.capacityExceeded fixed reserve availableBytes] else []) ++
        (if bound < beforeTail then [.planBoundExceeded beforeTail bound] else [])

end Layout

/-- When the gate reports nothing: the layout fits the fill budget, or a plan bound holds all of it
but the tail. -/
theorem Layout.gate_accepts {layout : Layout} {budget : CapacityBudget} {availableBytes : Nat}
    {tailFrom : Option Int}
    (fits : availableBytes < wrappingAdd
        (wrappingSum (paddedSizes layout.blockSize layout.entries)) budget.reserveBytes →
      ∃ bound, budget.planBoundBytes = some bound ∧
        wrappingAdd layout.fixedOnTapeBytes budget.reserveBytes ≤ availableBytes ∧
        wrappingSub (wrappingSum (paddedSizes layout.blockSize layout.entries))
          ((tailFrom.map layout.sliceBytesFrom).getD 0) ≤ bound) :
    layout.capacityErrorsWithTail budget availableBytes tailFrom = [] := by
  unfold capacityErrorsWithTail onTapeBytes
  by_cases sized : ((layout.entries.filter fun entry =>
      (entry.onTapeBytes layout.blockSize).isNone).map fun entry =>
        LayoutError.unsized entry.position entry.kind.typeLabel).isEmpty = true
  · simp only [sized, if_true]
    split
    · rfl
    · rename_i beyond
      obtain ⟨bound, limited, fixed, before⟩ := fits (Nat.lt_of_not_le beyond)
      simp only [limited, if_neg (Nat.not_lt_of_le fixed), if_neg (Nat.not_lt_of_le before),
        List.append_nil]
  · simp only [sized, Bool.false_eq_true, if_false]

theorem padded_sizes_parts (blockSize : Nat) (entries : List LayoutEntry)
    (slice : LayoutEntry → Bool) :
    (paddedSizes blockSize entries).sum =
      (paddedSizes blockSize (entries.filter fun entry => !slice entry)).sum +
        (paddedSizes blockSize (entries.filter slice)).sum := by
  induction entries with
  | nil => rfl
  | cons entry rest ih =>
    have head : ∀ {others : List LayoutEntry}, (paddedSizes blockSize (entry :: others)).sum =
        (entry.onTapeBytes blockSize).getD 0 + (paddedSizes blockSize others).sum := by
      intro others
      cases size : entry.onTapeBytes blockSize <;> simp [paddedSizes, size]
    cases kind : slice entry <;> simp [kind, head, ih] <;> omega

theorem wrapping_sum_units (blockSize : Nat) (units : List (List LayoutEntry)) :
    (paddedSizes blockSize units.flatten).sum % 2 ^ 64 =
      (units.map fun unit => wrappingSum (paddedSizes blockSize unit)).sum % 2 ^ 64 := by
  induction units with
  | nil => rfl
  | cons unit rest ih =>
    simp only [paddedSizes, List.flatten_cons, List.filterMap_append, List.sum_append, List.map_cons,
      List.sum_cons, wrappingSum] at ih ⊢
    omega

def spanTailFrom (items : List PlanItem) (order : List Nat) (units : List (List LayoutEntry)) :
    Option Int :=
  match (order.zip units).getLast? with
  | none => none
  | some (i, slices) =>
    if (items[i]?.map PlanItem.planClass) = some .whole then none
    else slices.head?.map LayoutEntry.position

/-- The layout holds the planned units: `units` lists each unit's slices, in the order of the plan
and of their positions. -/
structure HoldsPlan (layout : Layout) (fixedBytes : Nat) (items : List PlanItem) (order : List Nat)
    (units : List (List LayoutEntry)) : Prop where
  fixed : layout.fixedOnTapeBytes = fixedBytes
  slices : layout.entries.filter (fun entry => entry.kind.isSlice) = units.flatten
  ordered : units.flatten.Pairwise fun first second => first.position < second.position
  sizes : units.map (fun unit => wrappingSum (paddedSizes layout.blockSize unit)) =
    itemSizes items order

namespace HoldsPlan

variable {layout : Layout} {fixedBytes : Nat} {items : List PlanItem} {order : List Nat}
  {units : List (List LayoutEntry)} (holds : HoldsPlan layout fixedBytes items order units)

include holds

theorem needed : wrappingSum (paddedSizes layout.blockSize layout.entries) =
    (fixedBytes + (itemSizes items order).sum) % 2 ^ 64 := by
  have parts := padded_sizes_parts layout.blockSize layout.entries fun entry => entry.kind.isSlice
  have units := wrapping_sum_units layout.blockSize units
  have fixed := holds.fixed
  rw [holds.slices] at parts
  rw [holds.sizes] at units
  simp only [Layout.fixedOnTapeBytes, wrappingSum] at fixed ⊢
  omega

theorem last_unit {before : List Nat} {last : Nat} (ends : order = before ++ [last]) :
    ∃ earlier slices, units = earlier ++ [slices] ∧ (order.zip units).getLast? = some (last, slices) ∧
      wrappingSum (paddedSizes layout.blockSize slices) = (itemSizes items [last]).sum := by
  have sizes := holds.sizes
  rw [ends, itemSizes, List.map_append] at sizes
  obtain ⟨earlier, final, rfl, same, lastSizes⟩ := List.map_eq_append_iff.mp sizes
  obtain ⟨slices, rfl, bytes⟩ := List.map_eq_singleton_iff.mp lastSizes
  have count : before.length = earlier.length := by
    simpa using (congrArg List.length same).symm
  refine ⟨earlier, slices, rfl, ?_, by simpa [itemSizes] using bytes⟩
  rw [ends, List.zip_append count]
  simp

theorem tail_bytes {before : List Nat} {last : Nat} (ends : order = before ++ [last])
    (spans : (items[last]?.map PlanItem.planClass) ≠ some .whole) :
    ((spanTailFrom items order units).map layout.sliceBytesFrom).getD 0 =
      (itemSizes items [last]).sum := by
  obtain ⟨earlier, slices, rfl, zipped, bytes⟩ := holds.last_unit ends
  rw [spanTailFrom, zipped]
  simp only [if_neg spans]
  cases slices with
  | nil => simpa [paddedSizes, wrappingSum, itemSizes] using bytes
  | cons slice rest =>
    have ordered := holds.ordered
    simp only [List.flatten_append, List.flatten_singleton, List.pairwise_append] at ordered
    have tail : layout.entries.filter (fun entry =>
        entry.kind.isSlice && decide (slice.position ≤ entry.position)) = slice :: rest := by
      rw [show layout.entries.filter (fun entry =>
          entry.kind.isSlice && decide (slice.position ≤ entry.position)) =
          (layout.entries.filter fun entry => entry.kind.isSlice).filter
            (fun entry => decide (slice.position ≤ entry.position)) by
        simp [List.filter_filter, Bool.and_comm]]
      rw [holds.slices, List.flatten_append, List.flatten_singleton, List.filter_append,
        List.filter_eq_nil_iff.mpr, List.filter_eq_self.mpr, List.nil_append]
      · intro entry member
        rcases List.mem_cons.mp member with rfl | later
        · simp
        · simpa using (List.rel_of_pairwise_cons ordered.2.1 later).le
      · intro entry member
        simpa using ordered.2.2 entry member slice List.mem_cons_self
    simp only [List.head?_cons, Option.map_some, Option.getD_some, Layout.sliceBytesFrom, tail]
    exact bytes

/-- What the gate holds against the bound: the plan, less its last unit when that may span. -/
theorem before_tail :
    ∃ planned, wrappingSub (wrappingSum (paddedSizes layout.blockSize layout.entries))
        (((spanTailFrom items order units).map layout.sliceBytesFrom).getD 0) =
          (fixedBytes + planned) % 2 ^ 64 ∧
      planned ≤ (itemSizes items order).sum ∧
      ∀ before last, order = before ++ [last] →
        (items[last]?.map PlanItem.planClass) ≠ some .whole →
        planned = (itemSizes items before).sum := by
  rw [holds.needed]
  rcases List.eq_nil_or_concat order with rfl | ⟨before, last, ends⟩
  · refine ⟨0, ?_, Nat.zero_le _, fun before last ends => by simp at ends⟩
    simp [spanTailFrom, wrappingSub, itemSizes]
  · rw [List.concat_eq_append] at ends
    by_cases spans : (items[last]?.map PlanItem.planClass) = some .whole
    · refine ⟨(itemSizes items order).sum, ?_, le_rfl, ?_⟩
      · obtain ⟨_, _, _, zipped, _⟩ := holds.last_unit ends
        simp only [spanTailFrom, zipped, if_pos spans, Option.map_none, Option.getD_none, wrappingSub]
        omega
      · intro others final same differs
        rw [ends] at same
        obtain ⟨_, same⟩ := List.append_inj' same rfl
        rw [List.singleton_inj.mp same] at spans
        exact absurd spans differs
    · refine ⟨(itemSizes items before).sum, ?_, ?_, ?_⟩
      · obtain ⟨_, _, _, _, bytes⟩ := holds.last_unit ends
        have small : (itemSizes items [last]).sum < 2 ^ 64 := by
          rw [← bytes]
          exact Nat.mod_lt _ (by decide)
        have total : (itemSizes items order).sum =
            (itemSizes items before).sum + (itemSizes items [last]).sum := by
          rw [ends, itemSizes, List.map_append, List.sum_append]
          rfl
        rw [holds.tail_bytes ends spans, total]
        simp only [wrappingSub]
        omega
      · rw [ends, itemSizes, itemSizes, List.map_append, List.sum_append]
        omega
      · intro others final same _
        rw [ends] at same
        rw [(List.append_inj' same rfl).1]

end HoldsPlan

namespace CapacityBudget

variable (budget : CapacityBudget) (fixedBytes : Nat) (items : List PlanItem)

theorem Limit.place {limit : Nat} (within : Limit budget limit) (begins : fixedBytes ≤ limit)
    (accepted : (budget.place fixedBytes items).errors = []) :
    fixedBytes + (itemSizes items (budget.place fixedBytes items).order).sum ≤ limit ∨
      budget.planBoundBytes ≠ none ∧ ∃ before last,
        (budget.place fixedBytes items).order = before ++ [last] ∧
        (items[last]?.map PlanItem.planClass) ≠ some .whole ∧
        fixedBytes + (itemSizes items before).sum ≤ limit := by
  obtain ⟨_, owedAccepted, spansAccepted⟩ := budget.place_accepted fixedBytes items accepted
  have fits := within.cut begins owedAccepted spansAccepted
  have order := budget.place_order fixedBytes items owedAccepted
  have sizes := congrArg (itemSizes items) order
  have split : ∀ first second, itemSizes items (first ++ second) =
      itemSizes items first ++ itemSizes items second := fun _ _ => List.map_append
  have taken : ∀ indices count, itemSizes items (List.take count indices) =
      (itemSizes items indices).take count := fun _ _ => List.map_take
  rw [split, split, taken, taken, taken] at sizes
  refine fits.imp (fun whole => ?_) fun ⟨bound, spans, fits⟩ => ⟨bound, ?_⟩
  · rw [sizes]
    exact whole
  · -- the last unit is the last set planned, or the last owed run of a closed plan
    obtain ⟨last, isLast, notWhole⟩ : ∃ last,
        (budget.place fixedBytes items).order.getLast? = some last ∧
          last ∉ classIndices items .whole := by
      have fromClass : ∀ {planClass : PlanClass} {count : Nat}, planClass ≠ .whole →
          0 < count → count ≤ (classIndices items planClass).length →
          ∃ last, ((classIndices items planClass).take count).getLast? = some last ∧
            last ∉ classIndices items .whole := by
        intro planClass count differs some_unit le
        have found : (classIndices items planClass).take count ≠ [] := by
          rw [← List.length_pos_iff, List.length_take]
          omega
        refine ⟨_, List.getLast?_eq_some_getLast found, fun whole => differs ?_⟩
        exact mem_one_class items (List.mem_of_mem_take (List.getLast_mem found)) whole
      obtain ⟨owedLe, _, spansLe⟩ := budget.planned_counts fixedBytes items
      rw [order]
      change 0 < ((budget.planCut fixedBytes items).spans.placed.filter Placed.planned).length ∨
        ((budget.planCut fixedBytes items).spans.placed.filter Placed.planned).length = 0 ∧
          (budget.planCut fixedBytes items).kept = 0 ∧
            0 < (budget.planCut fixedBytes items).owed.placed.length at spans
      rcases spans with some_set | ⟨noSet, noWhole, some_owed⟩
      · obtain ⟨last, isLast, notWhole⟩ := fromClass (by decide) some_set spansLe
        exact ⟨last, by rw [List.getLast?_append, List.getLast?_append, isLast]; rfl, notWhole⟩
      · obtain ⟨last, isLast, notWhole⟩ := fromClass (by decide) some_owed owedLe
        refine ⟨last, ?_, notWhole⟩
        rw [noSet, noWhole, List.take_zero, List.take_zero, List.append_nil, List.append_nil]
        exact isLast
    obtain ⟨before, ends⟩ := List.getLast?_eq_some_iff.mp isLast
    refine ⟨before, last, ends, fun whole => notWhole ?_, ?_⟩
    · obtain ⟨item, there, same⟩ := Option.map_eq_some_iff.mp whole
      exact mem_class_indices.mpr ⟨item, there, same⟩
    · have dropped : (itemSizes items (budget.place fixedBytes items).order).dropLast =
          itemSizes items before := by
        rw [ends, split]
        exact List.dropLast_concat
      rw [← dropped, sizes]
      exact fits

/-- The capacity gate lets every plan without errors pass. -/
theorem gate_accepts_placement {layout : Layout} {units : List (List LayoutEntry)}
    (room : fixedBytes + budget.reserveBytes ≤ budget.availableBytes)
    (bounded : ∀ bound, budget.planBoundBytes = some bound → budget.availableBytes ≤ bound)
    (accepted : (budget.place fixedBytes items).errors = [])
    (holds : HoldsPlan layout fixedBytes items (budget.place fixedBytes items).order units) :
    layout.capacityErrorsWithTail budget budget.availableBytes
      (spanTailFrom items (budget.place fixedBytes items).order units) = [] := by
  refine Layout.gate_accepts fun beyond => ?_
  have needed := holds.needed
  obtain ⟨planned, tail, planLe, last⟩ := holds.before_tail
  rw [needed] at beyond
  have unsaturated : ∀ finish, saturatingAddU64 finish budget.reserveBytes ≤ budget.availableBytes →
      finish + budget.reserveBytes ≤ budget.availableBytes := by
    intro finish under
    simp only [saturatingAddU64, maxU64, wrappingAdd] at under beyond
    omega
  cases limited : budget.planBoundBytes with
  | none =>
    have within : Limit budget (budget.availableBytes - budget.reserveBytes) := by
      refine ⟨?_, fun finish under => ?_, fun bound found => ?_⟩
      · simp only [maxU64, wrappingAdd] at beyond ⊢
        omega
      · have := unsaturated finish under
        omega
      · rw [limited] at found
        cases found
    rcases within.place budget fixedBytes items (by omega) accepted with fits | ⟨bound, _⟩
    · simp only [wrappingAdd] at beyond
      omega
    · exact absurd limited bound
  | some bound =>
    have above := bounded bound limited
    refine ⟨bound, rfl, ?_, ?_⟩
    · rw [holds.fixed, wrappingAdd]
      exact (Nat.mod_le _ _).trans room
    · rw [tail]
      by_cases short : bound < maxU64
      · have within : Limit budget bound := by
          refine ⟨short, fun finish under => ?_, fun other found => ?_⟩
          · have := unsaturated finish under
            omega
          · rw [limited] at found
            exact (Option.some.inj found).ge
        refine (Nat.mod_le _ _).trans ?_
        rcases within.place budget fixedBytes items (by omega) accepted with
          fits | ⟨_, before, unit, ends, spans, fits⟩
        · omega
        · rw [last before unit ends spans]
          exact fits
      · have := Nat.mod_lt (fixedBytes + planned) (show 0 < 2 ^ 64 by decide)
        simp only [maxU64] at short
        omega

/-- A whole unit of 3 bytes and a set of 17 that crosses the plan bound of 20. -/
theorem gate_accepts_placement_with_tail :
    let budget : CapacityBudget := ⟨10, 1, some 20⟩
    let items : List PlanItem := [⟨.whole, 3⟩, ⟨.spannable, 17⟩]
    let whole : LayoutEntry := ⟨1, .slice 1, some 3, none⟩
    let tail : List LayoutEntry := [⟨2, .slice 2, some 10, none⟩, ⟨3, .slice 3, some 7, none⟩]
    let layout : Layout := ⟨"tape", "uuid", 1,
      ⟨0, .idThunk, some 1, none⟩ :: whole :: tail ++ [⟨4, .sealMarker, some 1, none⟩]⟩
    budget.place 2 items = ⟨[0, 1], [.committed, .tail], []⟩ ∧
      spanTailFrom items (budget.place 2 items).order [[whole], tail] = some 2 ∧
      layout.capacityErrorsWithTail budget 10
        (spanTailFrom items (budget.place 2 items).order [[whole], tail]) = [] := by
  intro budget items whole tail layout
  have placement : budget.place 2 items = ⟨[0, 1], [.committed, .tail], []⟩ := by decide
  refine ⟨placement, by rw [placement]; decide, ?_⟩
  refine gate_accepts_placement budget 2 items (by decide) ?_ (by rw [placement]) ?_
  · intro bound found
    obtain rfl := Option.some.inj found
    decide
  · rw [placement]
    exact ⟨by decide, by decide, by decide, by decide⟩

end CapacityBudget

end Tapectl.Volume
