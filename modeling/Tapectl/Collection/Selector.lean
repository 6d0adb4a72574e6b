import Tapectl.Volume.SpanLastRun

/-!
# Packing pending units into batches

`collection/selector.rs`: the refusals, the next-fit fill and the acceptance test of one batch, which
is the per-tape plan order (`CapacityBudget::place`) and, for a unit larger than one tape, a second
placement of what its last tape holds. Sums of sizes wrap as in a release build. Rust compares
strings by their UTF-8 bytes, which is the order of their code points.
-/

namespace Tapectl.Collection

open Tapectl.Volume

structure PendingUnit where
  name : String
  sizeBytes : Nat
  deriving DecidableEq, Repr

structure Batch where
  units : List PendingUnit
  totalBytes : Nat
  paddedBytes : Nat
  deriving DecidableEq, Repr

structure OversizedUnit where
  name : String
  sizeBytes : Nat
  paddedBytes : Nat
  budgetBytes : Nat
  allowsSpanning : Bool
  deriving DecidableEq, Repr

structure LargerThanStaging where
  name : String
  sizeBytes : Nat
  stagingTotal : Nat
  deriving DecidableEq, Repr

structure Refused where
  oversized : List OversizedUnit
  largerThanStaging : List LargerThanStaging
  deriving DecidableEq, Repr

/-- The room of one tape: under the fill ceiling, and to the plan bound. -/
structure BatchRoom where
  fill : Nat
  bound : Option Nat
  deriving DecidableEq, Repr

namespace BatchRoom

def wholeBytes (room : BatchRoom) : Nat := room.bound.getD room.fill

def budget (room : BatchRoom) : CapacityBudget := ⟨room.fill, 0, room.bound⟩

end BatchRoom

/-- The units that allow spanning, by name, and the size of the staging filesystem. -/
structure Spanning where
  units : Finset String
  stagingTotal : Option Nat

def Batch.empty : Batch := ⟨[], 0, 0⟩

def Batch.push (batch : Batch) (unit : PendingUnit) (padded : Nat) : Batch :=
  ⟨batch.units ++ [unit], wrappingAdd batch.totalBytes unit.sizeBytes,
    wrappingAdd batch.paddedBytes padded⟩

/-- The units of `next_fit` that no batch can hold. -/
def oversizedUnits (units : List PendingUnit) (budgetBytes blockSize : Nat) : List OversizedUnit :=
  units.filterMap fun unit =>
    let padded := padToBlocks unit.sizeBytes blockSize
    if budgetBytes < padded then some ⟨unit.name, unit.sizeBytes, padded, budgetBytes, false⟩
    else none

/-- The loop of `next_fit`. -/
def fillNext (budgetBytes blockSize : Nat) (current : Batch) : List PendingUnit → List Batch
  | [] => if current.units.isEmpty then [] else [current]
  | unit :: rest =>
    let padded := padToBlocks unit.sizeBytes blockSize
    if !current.units.isEmpty && decide (budgetBytes < wrappingAdd current.paddedBytes padded) then
      current :: fillNext budgetBytes blockSize (Batch.empty.push unit padded) rest
    else fillNext budgetBytes blockSize (current.push unit padded) rest

def nextFit (units : List PendingUnit) (budgetBytes blockSize : Nat) :
    Except (List OversizedUnit) (List Batch) :=
  let oversized := oversizedUnits units budgetBytes blockSize
  if oversized.isEmpty then .ok (fillNext budgetBytes blockSize Batch.empty units)
  else .error oversized

/-- The order of the pending units: by name, the prioritised ones first. -/
def comesFirst (prioritised : Option (Finset String)) (a b : PendingUnit) : Prop :=
  match prioritised with
  | none => a.name ≤ b.name
  | some first =>
    if (a.name ∈ first) = (b.name ∈ first) then a.name ≤ b.name else a.name ∈ first

instance (prioritised : Option (Finset String)) : DecidableRel (comesFirst prioritised) :=
  fun a b => match prioritised with
    | none => inferInstanceAs (Decidable (a.name ≤ b.name))
    | some first => inferInstanceAs (Decidable
        (if (a.name ∈ first) = (b.name ∈ first) then a.name ≤ b.name else a.name ∈ first))

def allPlaced (placement : Placement) : Bool :=
  placement.placed.all fun placed => placed ≠ .deferred ∧ placed ≠ .refused

/-- The whole units a large set displaces; `none` when any other unit waits or is refused. -/
def displacedWhole (items : List PlanItem) (first : Placement) : Option (List Nat) :=
  let waits := (List.range items.length).filter fun i =>
    first.placed[i]? = some .deferred ∨ first.placed[i]? = some .refused
  if waits.all fun i =>
    (items[i]?.map PlanItem.planClass = some .whole) ∧ first.placed[i]? = some .deferred then
    some waits
  else none

/-- Where the displaced whole units sit on the last tape of a span, when all of them fit there. -/
def afterTheTail (budget : CapacityBudget) (items : List PlanItem) (first : Placement) :
    Option (List (Nat × Placed)) := do
  let run ← budget.spanLastRun 0 items first
  let displaced ← displacedWhole items first
  let lastTape : List PlanItem := ⟨.owed, run⟩ :: itemsAt items displaced
  let last := budget.place 0 lastTape
  if allPlaced last then some (displaced.zip (last.placed.drop 1)) else none

/-- The test of one batch: every unit is placed, on its tape or after the tail. -/
def placesAll (budget : CapacityBudget) (items : List PlanItem) : Bool :=
  let first := budget.place 0 items
  allPlaced first || (afterTheTail budget items first).isSome

def everyUnitPlaced (budget : CapacityBudget) (current : List (PendingUnit × PlanItem))
    (next : PlanItem) : Bool :=
  placesAll budget (current.map Prod.snd ++ [next])

def batchInTapeOrder (units : List (PendingUnit × PlanItem)) : Batch :=
  let (whole, spannable) := units.partition fun unit => unit.2.planClass = .whole
  (whole ++ spannable).foldl (fun batch unit => batch.push unit.1 unit.2.bytes) Batch.empty

/-- The loop of `plan_batches_spanning`. -/
def fillSpanning (budget : CapacityBudget) (current : List (PendingUnit × PlanItem)) :
    List (PendingUnit × PlanItem) → List Batch
  | [] => if current.isEmpty then [] else [batchInTapeOrder current]
  | unit :: rest =>
    if !current.isEmpty && !everyUnitPlaced budget current unit.2 then
      batchInTapeOrder current :: fillSpanning budget [unit] rest
    else fillSpanning budget (current ++ [unit]) rest

section Plan

variable (spanning : Spanning) (room : BatchRoom) (blockSize : Nat)

def refusedUnit (unit : PendingUnit) : Option OversizedUnit × Option LargerThanStaging :=
  let padded := padToBlocks unit.sizeBytes blockSize
  let allowsSpanning := decide (unit.name ∈ spanning.units)
  let budgetBytes := match allowsSpanning, room.bound with
    | true, some _ => maxU64
    | true, none => room.fill
    | false, _ => room.wholeBytes
  (if budgetBytes < padded then
      some ⟨unit.name, unit.sizeBytes, padded, budgetBytes, allowsSpanning⟩ else none,
    match spanning.stagingTotal.filter fun _ => allowsSpanning with
    | some total => if total < unit.sizeBytes then some ⟨unit.name, unit.sizeBytes, total⟩ else none
    | none => none)

def refusedUnits (units : List PendingUnit) : Refused :=
  ⟨units.filterMap fun unit => (refusedUnit spanning room blockSize unit).1,
    units.filterMap fun unit => (refusedUnit spanning room blockSize unit).2⟩

def planItem (unit : PendingUnit) : PlanItem :=
  ⟨if unit.name ∈ spanning.units then .spannable else .whole, padToBlocks unit.sizeBytes blockSize⟩

def planBatchesSpanning (units : List PendingUnit) (prioritised : Option (Finset String)) :
    Except Refused (List Batch) :=
  let units := units.insertionSort (comesFirst prioritised)
  if !units.any fun unit => decide (unit.name ∈ spanning.units) then
    (nextFit units room.wholeBytes blockSize).mapError fun oversized => ⟨oversized, []⟩
  else
    let refused := refusedUnits spanning room blockSize units
    if refused ≠ ⟨[], []⟩ then .error refused
    else .ok (fillSpanning room.budget []
      (units.map fun unit => (unit, planItem spanning blockSize unit)))

end Plan

end Tapectl.Collection
