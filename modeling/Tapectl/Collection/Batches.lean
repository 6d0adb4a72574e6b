import Tapectl.Library.NextFit
import Tapectl.Collection.Selector

/-!
# Batches are next-fit runs

Both loops of the selector are next-fit over the sorted units. The one for spanning tests a batch by
placing it; the one without spanning compares a sum, which for whole units is the same test.
-/

namespace Tapectl.Collection

open Tapectl.Volume Tapectl.Library

section Whole

variable {room : BatchRoom} {sizes : List Nat}

theorem whole_placed_iff_fits (budget : CapacityBudget) (sizes : List Nat) :
    allPlaced (budget.place 0 (sizes.map wholeItem)) = true ↔
      (budget.split 0 sizes).fits = true := by
  have planned : (budget.split 0 sizes).planned ≤ sizes.length :=
    (budget.whole_run_le true false 0 sizes).2
  have counts : (budget.split 0 sizes).committed ≤ (budget.split 0 sizes).planned :=
    (budget.whole_run_le true false 0 sizes).1
  rw [budget.place_whole, PlanSplit.fits, beq_iff_eq]
  simp only [allPlaced, List.all_map, List.all_eq_true, List.mem_range, Function.comp_apply,
    decide_eq_true_eq]
  constructor
  · intro all
    by_contra short
    have inside : (budget.split 0 sizes).planned < sizes.length :=
      lt_of_le_of_ne planned short
    refine (all _ inside).2 ?_
    rw [PlanSplit.verdict, if_neg (by omega), if_neg (by omega)]
  · intro all n inside
    have kept : n < (budget.split 0 sizes).planned := all ▸ inside
    rw [PlanSplit.verdict]
    split_ifs <;> simp

theorem no_tail_of_whole (budget : CapacityBudget) (sizes : List Nat) :
    (budget.place 0 (sizes.map wholeItem)).tail = none := by
  rw [budget.place_whole, Placement.tail, List.findIdx?_eq_none_iff]
  intro placed member
  obtain ⟨n, _, rfl⟩ := List.mem_map.mp member
  simp only [PlanSplit.verdict]
  split_ifs <;> simp

theorem places_whole_iff (bounded : ∀ bound, room.bound = some bound → room.fill ≤ bound)
    (small : sizes.sum < 2 ^ 64) :
    placesAll room.budget (sizes.map wholeItem) = true ↔ sizes.sum ≤ room.wholeBytes := by
  have noTail : afterTheTail room.budget (sizes.map wholeItem)
      (room.budget.place 0 (sizes.map wholeItem)) = none := by
    simp [afterTheTail, CapacityBudget.spanLastRun, no_tail_of_whole]
  rw [placesAll, noTail, Option.isSome_none, Bool.or_false, whole_placed_iff_fits, PlanSplit.fits,
    beq_iff_eq]
  change (room.budget.wholeRun true false 0 sizes).2 = sizes.length ↔ _
  rw [room.budget.whole_run_fits (by simpa [BatchRoom.budget] using small)]
  simp only [Nat.zero_add, BatchRoom.budget, Nat.add_zero, BatchRoom.wholeBytes]
  cases limit : room.bound with
  | none =>
    simp only [reduceCtorEq, false_and, exists_false, or_false, Option.getD_none]
    refine or_iff_right_of_imp fun empty => ?_
    rw [empty, List.sum_nil]
    exact Nat.zero_le _
  | some bound =>
    have le := bounded bound limit
    simp only [Option.some.injEq, exists_eq_left', Option.getD_some]
    constructor
    · rintro (empty | under | within)
      · rw [empty, List.sum_nil]
        exact Nat.zero_le _
      · exact under.trans le
      · exact within
    · exact fun within => .inr (.inr within)

end Whole

theorem place_spannable_alone (budget : CapacityBudget) (bytes : Nat) :
    (budget.place 0 [⟨.spannable, bytes⟩]).placed =
      [(budget.spanPlaced (saturatingAddU64 0 bytes)).getD .refused] := by
  have alone : budget.planCut 0 [⟨.spannable, bytes⟩] =
      ⟨0, ⟨0, [], none, []⟩, 0, 0, budget.placeSpans [bytes] 0 false⟩ := rfl
  have verdict : (budget.placeSpans [bytes] 0 false).placed =
      [(budget.spanPlaced (saturatingAddU64 0 bytes)).getD .refused] := by
    rw [CapacityBudget.place_spans_opened]
    rcases budget.span_placed_cases (saturatingAddU64 0 bytes) with
      ⟨refused, _⟩ | ⟨tail, _⟩ | ⟨placed, settled, found, _⟩
    · rw [budget.span_run_refuses refused, refused]
      rfl
    · rw [budget.span_run_tail tail, tail]
      rfl
    · rw [budget.span_run_settles settled found, found]
      rfl
  have units : budget.verdicts 0 [⟨.spannable, bytes⟩] =
      [0].zip (budget.placeSpans [bytes] 0 false).placed := by
    rw [CapacityBudget.verdicts, alone]
    rfl
  rw [CapacityBudget.place, units, verdict]
  rfl

/-- A spannable unit alone is placed, unless it passes the fill ceiling of a drive with no bound. -/
theorem places_spannable {room : BatchRoom} {bytes : Nat}
    (fits : room.bound = none → bytes ≤ room.fill) :
    placesAll room.budget [⟨.spannable, bytes⟩] = true := by
  have placed : ∃ placed, room.budget.spanPlaced (saturatingAddU64 0 bytes) = some placed ∧
      placed.planned = true := by
    rcases room.budget.span_placed_cases (saturatingAddU64 0 bytes) with
      ⟨_, unlimited, passes⟩ | ⟨tail, _⟩ | ⟨placed, settled, found, _⟩
    · have under := fits unlimited
      simp only [BatchRoom.budget, saturatingAddU64] at passes
      omega
    · exact ⟨_, tail, rfl⟩
    · exact ⟨_, found, settled.planned⟩
  obtain ⟨placed, found, planned⟩ := placed
  have all : allPlaced (room.budget.place 0 [⟨.spannable, bytes⟩]) = true := by
    rw [allPlaced, place_spannable_alone, found]
    cases placed <;> simp_all [Placed.planned]
  rw [placesAll, all, Bool.true_or]

section Loops

variable (spanning : Spanning) (room : BatchRoom) (blockSize : Nat)

def paddedUnits (units : List PendingUnit) : List Nat :=
  units.map fun unit => padToBlocks unit.sizeBytes blockSize

variable (run : List PendingUnit)

def batchOf : Batch :=
  run.foldl (fun batch unit => batch.push unit (padToBlocks unit.sizeBytes blockSize)) Batch.empty

theorem batch_of_concat (unit : PendingUnit) : batchOf blockSize (run ++ [unit]) =
      (batchOf blockSize run).push unit (padToBlocks unit.sizeBytes blockSize) := by
  simp [batchOf]

theorem batch_of_units : (batchOf blockSize run).units = run := by
  induction run using List.reverseRecOn with
  | nil => rfl
  | append_singleton run unit ih => rw [batch_of_concat, Batch.push, ih]

theorem batch_of_padded :
    (batchOf blockSize run).paddedBytes = (paddedUnits blockSize run).sum % 2 ^ 64 := by
  induction run using List.reverseRecOn with
  | nil => rfl
  | append_singleton run unit ih =>
    simp only [batch_of_concat, Batch.push, ih, paddedUnits, List.map_append, List.map_cons,
      List.map_nil, List.sum_append, List.sum_singleton, wrappingAdd]
    omega

/-- The comparison of `next_fit`. -/
def sumFits (budgetBytes : Nat) (run : List PendingUnit) (unit : PendingUnit) : Bool :=
  decide (wrappingAdd (batchOf blockSize run).paddedBytes (padToBlocks unit.sizeBytes blockSize) ≤
    budgetBytes)

theorem fill_next_runs (budgetBytes : Nat) (units : List PendingUnit) :
    fillNext budgetBytes blockSize Batch.empty units =
      (NextFit.runs (sumFits blockSize budgetBytes) [] units).map (batchOf blockSize) := by
  refine NextFit.runs_map (sumFits blockSize budgetBytes) (batchOf blockSize)
    (fun run rest => fillNext budgetBytes blockSize (batchOf blockSize run) rest) ?_ ?_ [] units
  · intro run
    simp only [fillNext, NextFit.runs, batch_of_units]
    split <;> rfl
  · intro run unit rest
    simp only [fillNext, batch_of_units, batch_of_concat, sumFits, ← decide_not, not_le]
    rfl

def fitsBatch (unit : PendingUnit) : Bool :=
  placesAll room.budget ((run ++ [unit]).map (planItem spanning blockSize))

def withItem (unit : PendingUnit) : PendingUnit × PlanItem := (unit, planItem spanning blockSize unit)

theorem fill_spanning_runs (units : List PendingUnit) :
    fillSpanning room.budget [] (units.map (withItem spanning blockSize)) =
      (NextFit.runs (fitsBatch spanning room blockSize) [] units).map fun run =>
        batchInTapeOrder (run.map (withItem spanning blockSize)) := by
  refine NextFit.runs_map (fitsBatch spanning room blockSize)
    (fun run => batchInTapeOrder (run.map (withItem spanning blockSize)))
    (fun run rest => fillSpanning room.budget (run.map (withItem spanning blockSize))
      (rest.map (withItem spanning blockSize))) ?_ ?_ [] units
  · intro run
    simp only [List.map_nil, fillSpanning, NextFit.runs, List.isEmpty_map]
    split <;> rfl
  · intro run unit rest
    have test : everyUnitPlaced room.budget (run.map (withItem spanning blockSize))
        (withItem spanning blockSize unit).2 = fitsBatch spanning room blockSize run unit := by
      simp [everyUnitPlaced, fitsBatch, withItem, Function.comp_def]
    simp only [List.map_cons, fillSpanning, List.isEmpty_map, test, List.map_append, List.map_nil]

def tapeOrder : List PendingUnit :=
  (run.filter fun unit => unit.name ∉ spanning.units) ++
    run.filter fun unit => unit.name ∈ spanning.units

theorem batch_in_tape_order_units :
    (batchInTapeOrder (run.map (withItem spanning blockSize))).units = tapeOrder spanning run := by
  have pushed : ∀ (units : List (PendingUnit × PlanItem)) (batch : Batch),
      (units.foldl (fun batch unit => batch.push unit.1 unit.2.bytes) batch).units =
        batch.units ++ units.map Prod.fst := by
    intro units
    induction units with
    | nil => simp
    | cons unit rest ih =>
      intro batch
      rw [List.foldl_cons, ih, Batch.push, List.append_assoc]
      rfl
  have whole : ∀ unit : PendingUnit, (planItem spanning blockSize unit).planClass = .whole ↔
      unit.name ∉ spanning.units := by
    intro unit
    by_cases allowed : unit.name ∈ spanning.units <;> simp [planItem, allowed]
  simp only [batchInTapeOrder, List.partition_eq_filter_filter, pushed, Batch.empty, List.nil_append,
    List.map_append, List.filter_map, List.map_map, tapeOrder]
  congr 1
  · simp [withItem, Function.comp_def, whole]
  · simp [withItem, Function.comp_def, whole]

theorem fits_batch_eq_sum_fits {units : List PendingUnit}
    (bounded : ∀ bound, room.bound = some bound → room.fill ≤ bound)
    (small : (paddedUnits blockSize units).sum < 2 ^ 64)
    (none : ∀ unit ∈ units, unit.name ∉ spanning.units) {run : List PendingUnit} {unit : PendingUnit}
    (part : run ++ [unit] <:+: units) :
    sumFits blockSize room.wholeBytes run unit = fitsBatch spanning room blockSize run unit := by
  have items : (run ++ [unit]).map (planItem spanning blockSize) =
      (paddedUnits blockSize (run ++ [unit])).map wholeItem := by
    rw [paddedUnits, List.map_map]
    refine List.map_congr_left fun other member => ?_
    simp [planItem, none other (part.subset member), wholeItem]
  have total : (paddedUnits blockSize (run ++ [unit])).sum ≤ (paddedUnits blockSize units).sum :=
    (part.sublist.map _).sum_le_sum fun _ _ => Nat.zero_le _
  have split : (paddedUnits blockSize (run ++ [unit])).sum =
      (paddedUnits blockSize run).sum + padToBlocks unit.sizeBytes blockSize := by
    simp [paddedUnits]
  have test := places_whole_iff bounded (total.trans_lt small)
  rw [fitsBatch, items, Bool.eq_iff_iff, test, sumFits, decide_eq_true_eq, batch_of_padded,
    wrappingAdd, split, Nat.mod_eq_of_lt (by omega), Nat.mod_eq_of_lt (by omega)]

end Loops

section Refusals

variable (spanning : Spanning) (room : BatchRoom) (blockSize : Nat)

/-- The rule of admission: a whole unit above the room of one tape, a spannable one above the fill
ceiling of a drive with no bound, or a spannable one larger than the staging area. -/
def RefusedFor (unit : PendingUnit) : Prop :=
  if unit.name ∈ spanning.units then
    (room.bound = none ∧ room.fill < padToBlocks unit.sizeBytes blockSize) ∨
      ∃ total, spanning.stagingTotal = some total ∧ total < unit.sizeBytes
  else room.wholeBytes < padToBlocks unit.sizeBytes blockSize

theorem oversized_units_iff (units : List PendingUnit) (budgetBytes : Nat) :
    oversizedUnits units budgetBytes blockSize = [] ↔
      ∀ unit ∈ units, ¬ budgetBytes < padToBlocks unit.sizeBytes blockSize := by
  rw [oversizedUnits, List.filterMap_eq_nil_iff]
  refine forall₂_congr fun unit _ => ?_
  by_cases large : budgetBytes < padToBlocks unit.sizeBytes blockSize <;> simp [large]

theorem refused_unit_iff {unit : PendingUnit} (small : padToBlocks unit.sizeBytes blockSize < 2 ^ 64) :
    refusedUnit spanning room blockSize unit = (none, none) ↔
      ¬ RefusedFor spanning room blockSize unit := by
  by_cases allowed : unit.name ∈ spanning.units
  · have notMax : ¬ maxU64 < padToBlocks unit.sizeBytes blockSize := by
      simp only [maxU64]
      omega
    simp only [refusedUnit, RefusedFor, allowed, decide_true, if_true, Prod.mk.injEq]
    cases room.bound <;> cases spanning.stagingTotal <;> simp [notMax, Option.filter]
  · simp only [refusedUnit, RefusedFor, allowed, decide_false, if_false, Prod.mk.injEq]
    cases spanning.stagingTotal <;> simp [Option.filter]

theorem refused_units_iff {units : List PendingUnit}
    (small : ∀ unit ∈ units, padToBlocks unit.sizeBytes blockSize < 2 ^ 64) :
    refusedUnits spanning room blockSize units = ⟨[], []⟩ ↔
      ∀ unit ∈ units, ¬ RefusedFor spanning room blockSize unit := by
  rw [refusedUnits, Refused.mk.injEq, List.filterMap_eq_nil_iff, List.filterMap_eq_nil_iff,
    ← forall₂_and]
  refine forall₂_congr fun unit member => ?_
  rw [← refused_unit_iff spanning room blockSize (small unit member), Prod.ext_iff]

end Refusals

section Plan

variable (spanning : Spanning) (room : BatchRoom) (blockSize : Nat)
  (prioritised : Option (Finset String))

instance : Std.Total (comesFirst prioritised) where
  total a b := by
    cases prioritised with
    | none => exact le_total a.name b.name
    | some first =>
      by_cases one : a.name ∈ first <;> by_cases other : b.name ∈ first <;>
        simp [comesFirst, one, other, le_total]

instance : IsTrans PendingUnit (comesFirst prioritised) where
  trans a b c before after := by
    cases prioritised with
    | none => exact String.le_trans before after
    | some first =>
      by_cases one : a.name ∈ first <;> by_cases two : b.name ∈ first <;>
        by_cases three : c.name ∈ first <;> simp_all [comesFirst]
      · exact before.trans after
      · exact before.trans after

structure NextFitBatches (units : List PendingUnit) (batches : List Batch)
    (runs : List (List PendingUnit)) : Prop where
  /-- the runs are the sorted units, one after the other -/
  covers : runs.flatten = units
  nonempty : [] ∉ runs
  /-- each batch holds its run, in its tape's order -/
  batches : batches.map Batch.units = runs.map (tapeOrder spanning)
  placed : ∀ run ∈ runs, placesAll room.budget (run.map (planItem spanning blockSize)) = true
  /-- the first unit of the next batch would not be placed in this one -/
  full : runs.IsChain fun run next => ∃ first ∈ next.head?,
    placesAll room.budget ((run ++ [first]).map (planItem spanning blockSize)) = false

theorem unit_alone_placed {unit : PendingUnit}
    (bounded : ∀ bound, room.bound = some bound → room.fill ≤ bound)
    (small : padToBlocks unit.sizeBytes blockSize < 2 ^ 64)
    (admitted : ¬ RefusedFor spanning room blockSize unit) :
    placesAll room.budget ([unit].map (planItem spanning blockSize)) = true := by
  by_cases allowed : unit.name ∈ spanning.units
  · simp only [RefusedFor, allowed, if_true, not_or, not_and, not_lt] at admitted
    simp only [List.map_cons, List.map_nil, planItem, allowed, if_true]
    exact places_spannable admitted.1
  · simp only [RefusedFor, allowed, if_false, not_lt] at admitted
    have whole : [unit].map (planItem spanning blockSize) =
        [padToBlocks unit.sizeBytes blockSize].map wholeItem := by
      simp [planItem, allowed, wholeItem]
    rw [whole, places_whole_iff bounded (by simpa using small)]
    simpa using admitted

theorem runs_next_fit {units : List PendingUnit}
    (bounded : ∀ bound, room.bound = some bound → room.fill ≤ bound)
    (small : ∀ unit ∈ units, padToBlocks unit.sizeBytes blockSize < 2 ^ 64)
    (admitted : ∀ unit ∈ units, ¬ RefusedFor spanning room blockSize unit) {batches : List Batch}
    (same : batches.map Batch.units = (NextFit.runs (fitsBatch spanning room blockSize) [] units).map
      (tapeOrder spanning)) :
    NextFitBatches spanning room blockSize units batches
      (NextFit.runs (fitsBatch spanning room blockSize) [] units) := by
  refine ⟨NextFit.runs_flatten _ [] units, NextFit.runs_nonempty _ [] units, same, ?_,
    NextFit.runs_closed _ [] units⟩
  refine NextFit.runs_all _ (fun _ _ _ accepted => accepted) [] units (.inl rfl) ?_
  intro unit member
  exact unit_alone_placed spanning room blockSize bounded (small unit member) (admitted unit member)

theorem plan_cases (units : List PendingUnit)
    (bounded : ∀ bound, room.bound = some bound → room.fill ≤ bound)
    (small : (paddedUnits blockSize (units.insertionSort (comesFirst prioritised))).sum < 2 ^ 64)
    (each : ∀ unit ∈ units.insertionSort (comesFirst prioritised),
      padToBlocks unit.sizeBytes blockSize < 2 ^ 64) :
    ((∃ refused, planBatchesSpanning spanning room blockSize units prioritised = .error refused) ∧
      ∃ unit ∈ units.insertionSort (comesFirst prioritised),
        RefusedFor spanning room blockSize unit) ∨
    (∃ batches, planBatchesSpanning spanning room blockSize units prioritised = .ok batches ∧
      (∀ unit ∈ units.insertionSort (comesFirst prioritised),
        ¬ RefusedFor spanning room blockSize unit) ∧
      batches.map Batch.units = (NextFit.runs (fitsBatch spanning room blockSize) []
        (units.insertionSort (comesFirst prioritised))).map (tapeOrder spanning)) := by
  rw [planBatchesSpanning]
  generalize units.insertionSort (comesFirst prioritised) = sorted at small each ⊢
  dsimp only
  split
  case isTrue none =>
    -- no unit spans: the sum is the same test, and the tape's order is the order taken
    have whole : ∀ unit ∈ sorted, unit.name ∉ spanning.units := by
      simpa using none
    have admission : oversizedUnits sorted room.wholeBytes blockSize = [] ↔
        ∀ unit ∈ sorted, ¬ RefusedFor spanning room blockSize unit := by
      rw [oversized_units_iff]
      refine forall₂_congr fun unit member => ?_
      rw [RefusedFor, if_neg (whole unit member)]
    by_cases admitted : oversizedUnits sorted room.wholeBytes blockSize = []
    · refine .inr ⟨fillNext room.wholeBytes blockSize Batch.empty sorted, ?_, admission.mp admitted, ?_⟩
      · simp [nextFit, admitted, Except.mapError]
      · rw [fill_next_runs, NextFit.runs_congr (sumFits blockSize room.wholeBytes) [] sorted
          fun front unit _ part => fits_batch_eq_sum_fits spanning room blockSize bounded small whole part,
          List.map_map]
        refine List.map_congr_left fun run member => ?_
        have inside : ∀ unit ∈ run, unit ∈ sorted := by
          intro unit found
          have listed := List.mem_flatten_of_mem member found
          rwa [NextFit.runs_flatten, List.nil_append] at listed
        rw [Function.comp_apply, batch_of_units, tapeOrder, List.filter_eq_self.mpr,
          List.filter_eq_nil_iff.mpr, List.append_nil]
        · intro unit found
          simpa using whole unit (inside unit found)
        · intro unit found
          simpa using whole unit (inside unit found)
    · refine .inl ⟨⟨⟨oversizedUnits sorted room.wholeBytes blockSize, []⟩, ?_⟩, ?_⟩
      · simp [nextFit, admitted, Except.mapError]
      · by_contra all
        push Not at all
        exact admitted (admission.mpr all)
  case isFalse =>
    have admission := refused_units_iff spanning room blockSize each
    by_cases admitted : refusedUnits spanning room blockSize sorted = ⟨[], []⟩
    · refine .inr ⟨_, if_neg (not_not.mpr admitted), admission.mp admitted, ?_⟩
      change (fillSpanning room.budget [] (sorted.map (withItem spanning blockSize))).map Batch.units = _
      rw [fill_spanning_runs, List.map_map]
      exact List.map_congr_left fun run _ => batch_in_tape_order_units spanning blockSize run
    · refine .inl ⟨⟨_, if_pos admitted⟩, ?_⟩
      by_contra all
      push Not at all
      exact admitted (admission.mpr all)

/-- Batch planning refuses exactly the units the admission names, and otherwise cuts the sorted
units into batches that each place every unit and could not take the next one. -/
theorem batches_are_next_fit (units : List PendingUnit) (_positive : 0 < blockSize)
    (bounded : ∀ bound, room.bound = some bound → room.fill ≤ bound)
    (small : (paddedUnits blockSize units).sum < 2 ^ 64) :
    let sorted := units.insertionSort (comesFirst prioritised)
    let planned := planBatchesSpanning spanning room blockSize units prioritised
    sorted.Perm units ∧ sorted.Pairwise (comesFirst prioritised) ∧
      ((∃ refused, planned = .error refused) ↔
        ∃ unit ∈ units, RefusedFor spanning room blockSize unit) ∧
      ∀ batches, planned = .ok batches →
        ∃ runs, NextFitBatches spanning room blockSize sorted batches runs := by
  intro sorted planned
  have perm : sorted.Perm units := units.perm_insertionSort (comesFirst prioritised)
  have total : (paddedUnits blockSize sorted).sum = (paddedUnits blockSize units).sum :=
    (perm.map _).sum_eq
  have each : ∀ unit ∈ sorted, padToBlocks unit.sizeBytes blockSize < 2 ^ 64 := by
    intro unit member
    refine lt_of_le_of_lt ?_ (total.trans_lt small)
    exact List.le_sum_of_mem (List.mem_map_of_mem member)
  refine ⟨perm, units.pairwise_insertionSort (comesFirst prioritised), ?_⟩
  rcases plan_cases spanning room blockSize prioritised units bounded (total.trans_lt small) each with
    ⟨⟨refused, failed⟩, unit, member, reason⟩ | ⟨batches, made, admitted, same⟩
  · refine ⟨⟨fun _ => ⟨unit, perm.mem_iff.mp member, reason⟩, fun _ => ⟨refused, failed⟩⟩, ?_⟩
    intro batches made
    cases failed.symm.trans made
  · refine ⟨⟨fun ⟨refused, failed⟩ => ?_, fun ⟨unit, member, reason⟩ => ?_⟩, ?_⟩
    · cases made.symm.trans failed
    · exact absurd reason (admitted unit (perm.mem_iff.mpr member))
    · intro others same'
      obtain rfl := Except.ok.inj (made.symm.trans same')
      exact ⟨_, runs_next_fit spanning room blockSize bounded each admitted same⟩

/-- A set larger than one tape with the whole unit it displaces, then a unit its last tape has no
room for. -/
theorem batches_are_next_fit_span :
    let spanning : Spanning := ⟨{"b"}, some 100⟩
    let units : List PendingUnit := [⟨"c", 4⟩, ⟨"b", 30⟩, ⟨"a", 3⟩]
    ∃ batches, planBatchesSpanning spanning ⟨10, some 12⟩ 1 units none = .ok batches ∧
      batches.map Batch.units = [[⟨"a", 3⟩, ⟨"b", 30⟩], [⟨"c", 4⟩]] ∧
      ∃ runs, NextFitBatches spanning ⟨10, some 12⟩ 1
        (units.insertionSort (comesFirst none)) batches runs := by
  intro spanning units
  have made : (planBatchesSpanning spanning ⟨10, some 12⟩ 1 units none).toOption.any (fun batches =>
      batches.map Batch.units = [[⟨"a", 3⟩, ⟨"b", 30⟩], [⟨"c", 4⟩]]) = true := by decide +kernel
  obtain ⟨_, _, _, valid⟩ := batches_are_next_fit spanning ⟨10, some 12⟩ 1 none units (by decide)
    (fun bound found => by obtain rfl := Option.some.inj found; decide) (by decide)
  cases planned : planBatchesSpanning spanning ⟨10, some 12⟩ 1 units none with
  | error refused => simp [planned, Except.toOption] at made
  | ok batches =>
    refine ⟨batches, rfl, ?_, valid batches planned⟩
    simpa [planned, Except.toOption] using made

/-- Two units of half the range of `u64` on a tape of almost all of it: their sum wraps to zero, and
one batch takes both although its tape cannot hold them. -/
theorem wrapped_sum_joins_batch :
    let spanning : Spanning := ⟨∅, none⟩
    let room : BatchRoom := ⟨2 ^ 64 - 2, none⟩
    let units : List PendingUnit := [⟨"a", 2 ^ 63⟩, ⟨"b", 2 ^ 63⟩]
    ∃ batches, planBatchesSpanning spanning room 1 units none = .ok batches ∧
      ∀ runs, ¬ NextFitBatches spanning room 1 (units.insertionSort (comesFirst none)) batches runs := by
  intro spanning room units
  have made : (planBatchesSpanning spanning room 1 units none).toOption.any (fun batches =>
      batches.map Batch.units = [units]) = true := by decide +kernel
  have sorted : units.insertionSort (comesFirst none) = units := by decide +kernel
  have notPlaced : placesAll room.budget (units.map (planItem spanning 1)) = false := by
    decide +kernel
  cases planned : planBatchesSpanning spanning room 1 units none with
  | error refused => simp [planned, Except.toOption] at made
  | ok batches =>
    have one : batches.map Batch.units = [units] := by
      simpa [planned, Except.toOption] using made
    refine ⟨batches, rfl, fun runs valid => ?_⟩
    have same := valid.batches
    rw [one] at same
    obtain ⟨run, rfl, _⟩ := List.map_eq_singleton_iff.mp same.symm
    have covers := valid.covers
    rw [sorted, List.flatten_singleton] at covers
    have placed := valid.placed run (by simp)
    rw [covers, notPlaced] at placed
    cases placed

end Plan

end Tapectl.Collection
