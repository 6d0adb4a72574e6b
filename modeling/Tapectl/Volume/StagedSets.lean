import Tapectl.Library.Effects
import Tapectl.Staging.Release
import Tapectl.Volume.Build
import Tapectl.Volume.Placement

/-!
# How a write plans the staged sets

`volume/write.rs`, `find_staged_data` and `plan_span_set`: the staged sets as units to write, each
with the slices this tape plans of it; and `for_location.rs`, `staged_set_plan`: the same from the
catalog, as the planner of a location sees it. The columns of `stage_slices` that only these read are
given beside the tables, by the slice's id. The dar columns and the tenant of a unit are left out.
-/

namespace Tapectl.Volume.Staged

open Tapectl.Db Tapectl.Policy Tapectl.Staging
open Tapectl.Volume.Build (BuildSlice SpanSlice)

structure SliceColumns where
  sizeBytes : Int
  encryptedBytes : Int
  sha256Plain : String
  sha256Encrypted : String
  deriving DecidableEq, Repr

/-- What the plans read outside the tables. `allowSpanning` is the resolved policy's. -/
structure PlanWorld (File : Type) extends Surroundings File where
  allowSpanning : UnitRow → Bool
  columns : Int → SliceColumns
  incompleteSetRemedy : UnitRow → Int → String

structure StagedSlice where
  slice : BuildSlice
  stagingPath : String
  deriving DecidableEq, Repr

structure StagedUnit where
  stageSetId : Int
  snapshotId : Int
  unitName : String
  unitUuid : String
  snapshotVersion : Int
  slices : List StagedSlice
  span : Option (List SpanSlice)
  deriving DecidableEq, Repr

inductive Spanning where
  | byPolicy
  | never
  deriving DecidableEq, Repr

variable {File : Type} (world : PlanWorld File) (tables : Tables)

def inService (volume : VolumeRow) : Bool :=
  (volume.status = .active || volume.status = .sealed) && volume.observedCondition = .ok

/-- The set's rows, `ORDER BY slice_number`. -/
def stageSlicesOf (set : Int) : List StageSliceRow :=
  (tables.stageSlices.filter fun slice => slice.stageSetId = set).insertionSort
    fun one other => one.sliceNumber ≤ other.sliceNumber

def spanSlice (row : StageSliceRow) : SpanSlice :=
  let columns := world.columns row.id
  ⟨row.id, row.sliceNumber, columns.sizeBytes, columns.encryptedBytes, columns.sha256Plain,
    columns.sha256Encrypted⟩

def buildSlice (row : StageSliceRow) : BuildSlice :=
  let columns := world.columns row.id
  ⟨row.id, row.sliceNumber, columns.sizeBytes, columns.encryptedBytes, columns.sha256Plain,
    columns.sha256Encrypted⟩

def hasRange (set : Int) : Bool :=
  tables.writes.any fun write => write.stageSetId = set && write.status = .range

def spanInProgress (set : Int) : Bool :=
  tables.writes.any fun write => tables.volumes.any fun volume =>
    volume.id = write.volumeId && write.stageSetId = set && write.status = .range &&
      volume.status = .sealed

def owedSlices (set floor : Int) : List Int :=
  if spanInProgress tables set then
    ((sliceCopies tables set).filter fun slice => (slice.copies : Int) < floor).map
      SliceCopies.sliceNumber
  else []

def owedRun (owed : List Int) : PlanClass × Option (Int × Int) :=
  match owed.min?, owed.max? with
  | some first, some last => (.owed, some (first, last))
  | _, _ => (.spannable, none)

def inRun (run : Option (Int × Int)) (number : Int) : Bool :=
  run.all fun ends => ends.1 ≤ number && number ≤ ends.2

/-- The volume the slice can be read back from: of the newest write that has it. -/
def readableFrom (slice : Int) : Option String :=
  let rows := tables.positions.flatMap fun position =>
    (tables.writes.filter fun write => write.id = position.writeId).flatMap fun write =>
      (tables.volumes.filter fun volume => volume.id = write.volumeId).filterMap fun volume =>
        if position.stageSliceId = slice ∧ position.status = .written ∧
            (write.status = .completed ∨ write.status = .range) ∧ inService volume = true ∧
            (volume.endedAfter.all fun endedAfter => position.position ≤ endedAfter) = true
        then some (write.id, volume.label) else none
  (rows.insertionSort fun one other => other.1 ≤ one.1).head?.map Prod.snd

def releasedSliceRefusal (unit : UnitRow) (version stageSetId : Int) (row : StageSliceRow) : String :=
  let name := unit.name
  let remedy := match readableFrom tables row.id with
    | some volume => s!"tapectl volume read-slices {name} --from {volume} --version {version}"
    | none => world.incompleteSetRemedy unit version
  let number := row.sliceNumber
  s!"refusing to write: \"{name}\" v{version} (stage set {stageSetId}) may span, and this " ++
    s!"tape plans its slice {number}, whose staged file was released from staging. A range is one " ++
    "unbroken run of a unit's slices, so the slice is never skipped. Nothing was written " ++
    s!"and the drive was not touched. Stage it again, then write: {remedy}"

def planSlice (unit : UnitRow) (version stageSetId : Int) (row : StageSliceRow) :
    Except String StagedSlice :=
  match row.stagingPath with
  | none => .error (releasedSliceRefusal world tables unit version stageSetId row)
  | some path => .ok ⟨buildSlice world row, path⟩

def planSpanSet (stageSetId : Int) (unit : UnitRow) (minCopies version : Int) :
    Except String (List StagedSlice × List SpanSlice × PlanClass) := do
  let rows := stageSlicesOf tables stageSetId
  let floor := copyFloor world.toSurroundings minCopies unit.status
  let run := owedRun (owedSlices tables stageSetId floor)
  let planned ← (rows.filter fun row => inRun run.2 row.sliceNumber).mapM
    (planSlice world tables unit version stageSetId)
  return (planned, rows.map (spanSlice world), run.1)

/-- A `staged` set with its version and unit. -/
structure SetRow where
  set : StageSetRow
  snapshot : SnapshotRow
  unit : UnitRow
  deriving DecidableEq, Repr

/-- The `staged` sets, `ORDER BY u.name`. -/
def stagedSets : List SetRow :=
  ((tables.stageSets.filter fun set => set.status = .staged).flatMap fun set =>
    (tables.snapshots.filter fun snapshot => snapshot.id = set.snapshotId).flatMap fun snapshot =>
      (tables.units.filter fun unit => unit.id = snapshot.unitId).map fun unit =>
        (⟨set, snapshot, unit⟩ : SetRow)).insertionSort fun one other => one.unit.name ≤ other.unit.name

def liveSlices (set : Int) : List StagedSlice :=
  (stageSlicesOf tables set).filterMap fun row =>
    row.stagingPath.map fun path => ⟨buildSlice world row, path⟩

def unitOf (row : SetRow) (slices : List StagedSlice) (span : Option (List SpanSlice)) : StagedUnit :=
  ⟨row.set.id, row.set.snapshotId, row.unit.name, row.unit.uuid, row.snapshot.version, slices, span⟩

/-- One turn of the loop: the unit and its class, or nothing for a set that plans no slice. -/
def planStagedSet (spanning : Spanning) (row : SetRow) :
    Except String (Option (StagedUnit × PlanClass)) := do
  let wanted (slices : List StagedSlice) (span : Option (List SpanSlice)) (planClass : PlanClass) :=
    if slices = [] then none else some (unitOf row slices span, planClass)
  let whole := wanted (liveSlices world tables row.set.id) none .whole
  match spanning with
  | .never => return whole
  | .byPolicy =>
    match tables.units.find? fun unit => unit.uuid = row.unit.uuid with
    | none =>
      let name := row.unit.name
      .error s!"unit not found: {name}"
    | some unit => do
      let policy ← world.resolve unit
      if world.allowSpanning unit = true ∨ hasRange tables row.set.id = true then do
        let (slices, span, planClass) ← planSpanSet world tables row.set.id unit policy.copyFloorBase
          row.snapshot.version
        return wanted slices (some span) planClass
      else return whole

/-- `only` narrows the selection to those stage sets. -/
def selectedSets (only : Option (List Int)) : List SetRow :=
  (stagedSets tables).filter fun row => only.all fun ids => ids.contains row.set.id

def findStagedData (spanning : Spanning) (only : Option (List Int)) :
    Except String (List (StagedUnit × PlanClass)) := do
  let planned ← (selectedSets tables only).mapM (planStagedSet world tables spanning)
  return planned.filterMap id

def paddedSliceBytes (unit : StagedUnit) (blockSize : Nat) : Nat :=
  wrappingSum (unit.slices.map fun staged =>
    padToBlocks (max staged.slice.encryptedBytes 0).toNat blockSize)

def blockSize : Nat := 512 * 1024

/-- The set's slices, block-padded: all of them, those still on disk, or those within the run. -/
def paddedSlices (stageSetId : Int) (live : Bool) (run : Option (Int × Int)) : Nat :=
  wrappingSum (((tables.stageSlices.filter fun slice => slice.stageSetId = stageSetId).filter
    fun row => (!live || row.stagingPath.isSome) && inRun run row.sliceNumber).map fun row =>
      padToBlocks (max (world.columns row.id).encryptedBytes 0).toNat blockSize)

def stagedSetPlan (unit : UnitRow) (resolved : ResolvedPolicy) (stageSetId : Int) :
    PlanClass × Option (Int × Int) × Nat :=
  if ¬ (world.allowSpanning unit = true ∨ hasRange tables stageSetId = true) then
    (.whole, none, paddedSlices world tables stageSetId true none)
  else
    let floor := copyFloor world.toSurroundings resolved.copyFloorBase unit.status
    match owedRun (owedSlices tables stageSetId floor) with
    | (planClass, run) => (planClass, run, paddedSlices world tables stageSetId false run)

section Rows

theorem mem_stage_slices_of {tables : Tables} {set : Int} {row : StageSliceRow} :
    row ∈ stageSlicesOf tables set ↔ row ∈ tables.stageSlices ∧ row.stageSetId = set := by
  simp [stageSlicesOf]

theorem stage_slices_of_perm (set : Int) :
    (stageSlicesOf tables set).Perm (tables.stageSlices.filter fun slice => slice.stageSetId = set) :=
  List.perm_insertionSort _ _

theorem owed_run_cases (owed : List Int) :
    (∃ first ∈ owed, ∃ last ∈ owed, owedRun owed = (.owed, some (first, last)) ∧
      ∀ number ∈ owed, first ≤ number ∧ number ≤ last) ∨
    owed = [] ∧ owedRun owed = (.spannable, none) := by
  cases owed with
  | nil => exact .inr ⟨rfl, rfl⟩
  | cons number rest =>
    left
    obtain ⟨first, least⟩ := Option.ne_none_iff_exists'.mp
      (mt List.min?_eq_none_iff.mp (List.cons_ne_nil number rest))
    obtain ⟨last, most⟩ := Option.ne_none_iff_exists'.mp
      (mt List.max?_eq_none_iff.mp (List.cons_ne_nil number rest))
    obtain ⟨firstIn, below⟩ := List.min?_eq_some_iff.mp least
    obtain ⟨lastIn, above⟩ := List.max?_eq_some_iff.mp most
    refine ⟨first, firstIn, last, lastIn, by rw [owedRun, least, most], ?_⟩
    exact fun number member => ⟨below number member, above number member⟩

theorem mem_owed_slices {tables : Tables} {set floor number : Int}
    (owed : number ∈ owedSlices tables set floor) :
    ∃ row ∈ stageSlicesOf tables set, row.sliceNumber = number := by
  unfold owedSlices at owed
  split at owed
  · obtain ⟨copies, listed, rfl⟩ := List.mem_map.mp owed
    have member := (List.mem_filter.mp listed).1
    obtain ⟨row, inSets, counted⟩ := List.mem_flatMap.mp ((List.mem_insertionSort _).mp member)
    obtain ⟨slice, inSlices, rfl⟩ := List.mem_map.mp counted
    obtain ⟨known, inSet⟩ := List.mem_filter.mp inSlices
    have same : row.id = set := by simpa using (List.mem_filter.mp inSets).2
    refine ⟨slice, mem_stage_slices_of.mpr ⟨known, ?_⟩, rfl⟩
    exact (by simpa using inSet : slice.stageSetId = row.id).trans same
  · cases owed

end Rows

section Plan

variable {world tables}

variable {unit : UnitRow} {version : Int}

theorem plan_slice_ok {set : Int} {row : StageSliceRow} {planned : StagedSlice}
    (ok : planSlice world tables unit version set row = .ok planned) :
    planned.slice = buildSlice world row := by
  unfold planSlice at ok
  split at ok
  · cases ok
  · cases ok
    rfl

theorem planned_slices {set : Int} {rows : List StageSliceRow} {planned : List StagedSlice}
    (each : List.Forall₂ (fun row slice => planSlice world tables unit version set row = .ok slice)
      rows planned) : planned.map StagedSlice.slice = rows.map (buildSlice world) := by
  induction each with
  | nil => rfl
  | cons first _ ih => rw [List.map_cons, List.map_cons, plan_slice_ok first, ih]

/-- What a plan of a spanning set plans: the rows of the run, each as the build takes it. -/
theorem plan_span_set_ok {set : Int} {base : Int} {planned : List StagedSlice}
    {span : List SpanSlice} {planClass : PlanClass}
    (ok : planSpanSet world tables set unit base version = .ok (planned, span, planClass)) :
    let run := owedRun (owedSlices tables set (copyFloor world.toSurroundings base unit.status))
    planClass = run.1 ∧ planned.map StagedSlice.slice =
      ((stageSlicesOf tables set).filter fun row => inRun run.2 row.sliceNumber).map
        (buildSlice world) := by
  obtain ⟨slices, mapped, same⟩ := Effects.bind_ok ok
  cases same
  refine ⟨rfl, ?_⟩
  exact planned_slices (Effects.map_m_ok mapped)

/-- The sizes of the planned slices add up as the rows' do, whatever order either reads them in. -/
theorem padded_of_rows (unit : StagedUnit) {set : Int} {kept : StageSliceRow → Bool}
    (planned : unit.slices.map StagedSlice.slice =
      ((stageSlicesOf tables set).filter kept).map (buildSlice world)) :
    paddedSliceBytes unit blockSize =
      wrappingSum (((tables.stageSlices.filter fun slice => slice.stageSetId = set).filter kept).map
        fun row => padToBlocks (max (world.columns row.id).encryptedBytes 0).toNat blockSize) := by
  have sizes : (unit.slices.map fun staged =>
      padToBlocks (max staged.slice.encryptedBytes 0).toNat blockSize) =
        ((stageSlicesOf tables set).filter kept).map fun row =>
          padToBlocks (max (world.columns row.id).encryptedBytes 0).toNat blockSize := by
    have sized := congrArg (List.map fun slice : BuildSlice =>
      padToBlocks (max slice.encryptedBytes 0).toNat blockSize) planned
    rw [List.map_map, List.map_map] at sized
    exact sized
  rw [paddedSliceBytes, sizes, wrappingSum, wrappingSum,
    (((stage_slices_of_perm tables set).filter kept).map _).sum_eq]

end Plan

def StagedUnit.plannedNumbers (unit : StagedUnit) : List Int :=
  unit.slices.map fun staged => staged.slice.sliceNumber

/-- The location's plan of the stage set and the write's entry for it say the same. -/
structure SeenAlike (set : Int) (entry : StagedUnit × PlanClass)
    (plan : PlanClass × Option (Int × Int) × Nat) : Prop where
  planClass : plan.1 = entry.2
  bytes : plan.2.2 = paddedSliceBytes entry.1 blockSize
  owed : entry.2 = .owed → ∃ first ∈ entry.1.plannedNumbers, ∃ last ∈ entry.1.plannedNumbers,
    plan.2.1 = some (first, last) ∧ entry.1.plannedNumbers =
      ((stageSlicesOf tables set).map StageSliceRow.sliceNumber).filter
        fun number => first ≤ number ∧ number ≤ last
  otherwise : entry.2 ≠ .owed → plan.2.1 = none

section Alike

variable {world tables} {row : SetRow} {policy : ResolvedPolicy}

theorem whole_seen_alike
    (whole : ¬ (world.allowSpanning row.unit = true ∨ hasRange tables row.set.id = true)) :
    SeenAlike tables row.set.id (unitOf row (liveSlices world tables row.set.id) none, .whole)
      (stagedSetPlan world tables row.unit policy row.set.id) := by
  rw [stagedSetPlan, if_pos whole]
  have planned : (liveSlices world tables row.set.id).map StagedSlice.slice =
      ((stageSlicesOf tables row.set.id).filter fun slice => slice.stagingPath.isSome).map
        (buildSlice world) := by
    unfold liveSlices
    induction stageSlicesOf tables row.set.id with
    | nil => rfl
    | cons slice rest ih => cases staged : slice.stagingPath <;> simp [staged, ih]
  refine ⟨rfl, ?_, nofun, fun _ => rfl⟩
  refine Eq.trans ?_ (padded_of_rows (unitOf row _ none) planned).symm
  simp [paddedSlices, inRun]

theorem staged_set_plan_span
    (spans : world.allowSpanning row.unit = true ∨ hasRange tables row.set.id = true) :
    stagedSetPlan world tables row.unit policy row.set.id =
      let run := owedRun (owedSlices tables row.set.id
        (copyFloor world.toSurroundings policy.copyFloorBase row.unit.status))
      (run.1, run.2, paddedSlices world tables row.set.id false run.2) := by
  rw [stagedSetPlan, if_neg (not_not.mpr spans)]

theorem span_seen_alike {planned : List StagedSlice} {span : List SpanSlice} {planClass : PlanClass}
    (spans : world.allowSpanning row.unit = true ∨ hasRange tables row.set.id = true)
    (ok : planSpanSet world tables row.set.id row.unit policy.copyFloorBase row.snapshot.version =
      .ok (planned, span, planClass)) :
    SeenAlike tables row.set.id (unitOf row planned (some span), planClass)
      (stagedSetPlan world tables row.unit policy row.set.id) := by
  obtain ⟨rfl, slices⟩ := plan_span_set_ok ok
  rw [staged_set_plan_span spans]
  have known : ∀ number ∈ owedSlices tables row.set.id (copyFloor world.toSurroundings
      policy.copyFloorBase row.unit.status), number ∈
        (stageSlicesOf tables row.set.id).map StageSliceRow.sliceNumber :=
    fun number owed => List.mem_map.mpr (mem_owed_slices owed)
  generalize owedSlices tables row.set.id _ = owed at slices known ⊢
  have bytes := padded_of_rows (unitOf row planned (some span)) slices
  have numbers : (unitOf row planned (some span)).plannedNumbers =
      ((stageSlicesOf tables row.set.id).map StageSliceRow.sliceNumber).filter
        (inRun (owedRun owed).2) := by
    have named := congrArg (List.map BuildSlice.sliceNumber) slices
    rw [List.map_map, List.map_map] at named
    rw [List.filter_map]
    exact named
  obtain ⟨first, firstOwed, last, lastOwed, run, between⟩ | ⟨-, run⟩ := owed_run_cases owed
  · rw [run] at bytes numbers ⊢
    have inside : ∀ number ∈ owed, number ∈ (unitOf row planned (some span)).plannedNumbers := by
      intro number member
      rw [numbers]
      exact List.mem_filter.mpr ⟨known number member, by simpa [inRun] using between number member⟩
    refine ⟨rfl, ?_, fun _ => ⟨first, inside first firstOwed, last, inside last lastOwed, rfl, ?_⟩,
      fun other => absurd rfl other⟩
    · simpa [paddedSlices] using bytes.symm
    · rw [numbers]
      exact List.filter_congr fun number _ => by simp [inRun]
  · rw [run] at bytes ⊢
    refine ⟨rfl, ?_, nofun, fun _ => rfl⟩
    simpa [paddedSlices] using bytes.symm

theorem slice_on_disk_planned (staged : ∃ slice ∈ stageSlicesOf tables row.set.id,
    slice.stagingPath.isSome = true) : liveSlices world tables row.set.id ≠ [] := by
  obtain ⟨slice, member, named⟩ := staged
  obtain ⟨path, named⟩ := Option.isSome_iff_exists.mp named
  have live : (⟨buildSlice world slice, path⟩ : StagedSlice) ∈ liveSlices world tables row.set.id :=
    List.mem_filterMap.mpr ⟨slice, member, by rw [named]; rfl⟩
  exact List.ne_nil_of_mem live

theorem span_planned {planned : List StagedSlice} {span : List SpanSlice} {planClass : PlanClass}
    {base version : Int} {slice : StageSliceRow} (member : slice ∈ stageSlicesOf tables row.set.id)
    (ok : planSpanSet world tables row.set.id row.unit base version = .ok (planned, span, planClass)) :
    planned ≠ [] := by
  obtain ⟨-, slices⟩ := plan_span_set_ok ok
  rintro rfl
  have none := List.map_eq_nil_iff.mp slices.symm
  rw [List.filter_eq_nil_iff] at none
  obtain ⟨first, firstOwed, last, -, run, between⟩ | ⟨-, run⟩ := owed_run_cases
    (owedSlices tables row.set.id (copyFloor world.toSurroundings base row.unit.status))
  · obtain ⟨lowest, known, rfl⟩ := mem_owed_slices firstOwed
    exact none lowest known (by rw [run]; simpa [inRun] using (between _ firstOwed).2)
  · exact none slice member (by rw [run]; rfl)

/-- A set with a slice on disk gets an entry, and the entry says what the location's plan says. -/
theorem plan_staged_set_ok (uuids : (tables.units.map UnitRow.uuid).Nodup)
    (member : row.unit ∈ tables.units) (resolved : world.resolve row.unit = .ok policy)
    (staged : ∃ slice ∈ stageSlicesOf tables row.set.id, slice.stagingPath.isSome = true)
    {planned : Option (StagedUnit × PlanClass)}
    (ok : planStagedSet world tables .byPolicy row = .ok planned) :
    ∃ entry, planned = some entry ∧ entry.1.stageSetId = row.set.id ∧
      SeenAlike tables row.set.id entry (stagedSetPlan world tables row.unit policy row.set.id) := by
  simp only [planStagedSet, find_key uuids member, resolved] at ok
  obtain ⟨_, ⟨⟩, ok⟩ := Effects.bind_ok ok
  by_cases spans : world.allowSpanning row.unit = true ∨ hasRange tables row.set.id = true
  · rw [if_pos spans] at ok
    obtain ⟨⟨slices, span, planClass⟩, plan, ok⟩ := Effects.bind_ok ok
    obtain ⟨slice, known, -⟩ := staged
    cases ok
    exact ⟨_, if_neg (span_planned known plan), rfl, span_seen_alike spans plan⟩
  · rw [if_neg spans] at ok
    cases ok
    exact ⟨_, if_neg (slice_on_disk_planned staged), rfl, whole_seen_alike spans⟩

end Alike

def writeItem (entry : StagedUnit × PlanClass) : PlanItem :=
  ⟨entry.2, paddedSliceBytes entry.1 blockSize⟩

def locationItem (row : SetRow) : Except String PlanItem := do
  let policy ← world.resolve row.unit
  let plan := stagedSetPlan world tables row.unit policy row.set.id
  return ⟨plan.1, plan.2.2⟩

/-- A catalog whose units have distinct uuids, as the schema has them. -/
structure UnitCatalog extends Catalog where
  uuids : (tables.units.map UnitRow.uuid).Nodup

section Batch

variable {tables}

variable {row : SetRow}

theorem mem_staged_sets (member : row ∈ stagedSets tables) :
    (row.set ∈ tables.stageSets ∧ row.set.status = .staged) ∧
      (row.snapshot ∈ tables.snapshots ∧ row.snapshot.id = row.set.snapshotId) ∧
        row.unit ∈ tables.units ∧ row.unit.id = row.snapshot.unitId := by
  simp only [stagedSets, List.mem_insertionSort, List.mem_flatMap, List.mem_filter, List.mem_map,
    decide_eq_true_eq] at member
  obtain ⟨set, isSet, snapshot, isSnapshot, unit, isUnit, rfl⟩ := member
  exact ⟨isSet, isSnapshot, isUnit⟩

theorem staged_sets_inj (schema : tables.Schema) {other : SetRow}
    (member : row ∈ stagedSets tables) (otherMember : other ∈ stagedSets tables)
    (same : other.set.id = row.set.id) : other = row := by
  obtain ⟨⟨isSet, -⟩, ⟨isSnapshot, ofSet⟩, isUnit, ofSnapshot⟩ := mem_staged_sets member
  obtain ⟨⟨isSet', -⟩, ⟨isSnapshot', ofSet'⟩, isUnit', ofSnapshot'⟩ := mem_staged_sets otherMember
  obtain ⟨set, snapshot, unit⟩ := row
  obtain ⟨set', snapshot', unit'⟩ := other
  obtain rfl : set' = set := List.inj_on_of_nodup_map schema.stage_set_keys isSet' isSet same
  obtain rfl : snapshot' = snapshot :=
    List.inj_on_of_nodup_map schema.snapshot_keys isSnapshot' isSnapshot (ofSet'.trans ofSet.symm)
  obtain rfl : unit' = unit :=
    List.inj_on_of_nodup_map schema.unit_keys isUnit' isUnit (ofSnapshot'.trans ofSnapshot.symm)
  rfl

theorem wanted_id {slices : List StagedSlice} {span : Option (List SpanSlice)}
    {planClass : PlanClass} {entry : StagedUnit × PlanClass}
    (wanted : (if slices = [] then none else some (unitOf row slices span, planClass)) = some entry) :
    entry.1.stageSetId = row.set.id := by
  split at wanted
  · cases wanted
  · cases wanted
    rfl

theorem plan_staged_set_id {entry : StagedUnit × PlanClass}
    (ok : planStagedSet world tables .byPolicy row = .ok (some entry)) :
    entry.1.stageSetId = row.set.id := by
  simp only [planStagedSet] at ok
  split at ok
  · cases ok
  · obtain ⟨policy, -, ok⟩ := Effects.bind_ok ok
    split at ok
    · obtain ⟨plan, -, ok⟩ := Effects.bind_ok ok
      exact wanted_id (Except.ok.inj ok)
    · exact wanted_id (Except.ok.inj ok)

/-- The entries of a batch: one for each selected set with a slice on disk, and no other entry has
the set's id. -/
theorem find_staged_data_ok (catalog : UnitCatalog) {only : Option (List Int)}
    {batch : List (StagedUnit × PlanClass)}
    (found : findStagedData world catalog.tables .byPolicy only = .ok batch)
    (selected : row ∈ selectedSets catalog.tables only)
    (staged : ∃ slice ∈ stageSlicesOf catalog.tables row.set.id, slice.stagingPath.isSome = true)
    {policy : ResolvedPolicy} (resolved : world.resolve row.unit = .ok policy) :
    (∃ entry ∈ batch, entry.1.stageSetId = row.set.id) ∧
      ∀ entry ∈ batch, entry.1.stageSetId = row.set.id → SeenAlike catalog.tables row.set.id entry
        (stagedSetPlan world catalog.tables row.unit policy row.set.id) := by
  obtain ⟨planned, mapped, same⟩ := Effects.bind_ok found
  cases same
  obtain ⟨each, back⟩ := Effects.map_m_mem mapped
  have member := (List.mem_filter.mp selected).1
  have isUnit := (mem_staged_sets member).2.2.1
  refine ⟨?_, ?_⟩
  · obtain ⟨result, known, ok⟩ := each row selected
    obtain ⟨entry, rfl, same, -⟩ := plan_staged_set_ok catalog.uuids isUnit resolved staged ok
    exact ⟨entry, List.mem_filterMap.mpr ⟨_, known, rfl⟩, same⟩
  · intro entry listed same
    obtain ⟨result, known, rfl⟩ := List.mem_filterMap.mp listed
    obtain ⟨other, otherSelected, ok⟩ := back _ known
    obtain rfl := staged_sets_inj catalog.schema member (List.mem_filter.mp otherSelected).1
      ((plan_staged_set_id world ok).symm.trans same)
    obtain ⟨_, ⟨⟩, -, alike⟩ := plan_staged_set_ok catalog.uuids isUnit resolved staged ok
    exact alike

theorem location_items_ok (catalog : UnitCatalog) {only : Option (List Int)}
    {batch : List (StagedUnit × PlanClass)}
    (resolves : ∀ unit ∈ catalog.tables.units, ∃ policy, world.resolve unit = .ok policy)
    (found : findStagedData world catalog.tables .byPolicy only = .ok batch)
    (sets : List SetRow) (selected : ∀ row ∈ sets, row ∈ selectedSets catalog.tables only ∧
      ∃ slice ∈ stageSlicesOf catalog.tables row.set.id, slice.stagingPath.isSome = true)
    (entries : List (StagedUnit × PlanClass)) (inBatch : entries ⊆ batch)
    (same : entries.map (fun entry => entry.1.stageSetId) = sets.map fun row => row.set.id) :
    sets.mapM (locationItem world catalog.tables) = .ok (entries.map writeItem) := by
  induction sets generalizing entries with
  | nil =>
    obtain rfl := List.map_eq_nil_iff.mp same
    rfl
  | cons row rest ih =>
    obtain ⟨entry, later, rfl, sameSet, sameLater⟩ := List.map_eq_cons_iff.mp same
    obtain ⟨⟨isSelected, staged⟩, others⟩ := List.forall_mem_cons.mp selected
    obtain ⟨known, inLater⟩ := List.cons_subset.mp inBatch
    obtain ⟨policy, resolved⟩ := resolves row.unit
      (mem_staged_sets (List.mem_filter.mp isSelected).1).2.2.1
    have alike := (find_staged_data_ok world catalog found isSelected staged resolved).2 entry known
      sameSet
    have item : locationItem world catalog.tables row = .ok (writeItem entry) := by
      rw [locationItem, resolved, writeItem, ← alike.planClass, ← alike.bytes]
      rfl
    rw [List.mapM_cons, item, ih others later inLater sameLater]
    rfl

end Batch

/-- The location's planner sees each staged set as the write plans it: the entry the batch has for
the set has its class, its owed run and its bytes. So any list of the sets and the list of their
entries are one list of items to `place`. -/
theorem staged_set_plan_is_write_plan (world : PlanWorld File) (catalog : UnitCatalog)
    (resolves : ∀ unit ∈ catalog.tables.units, ∃ policy, world.resolve unit = .ok policy)
    (only : Option (List Int)) (batch : List (StagedUnit × PlanClass))
    (found : findStagedData world catalog.tables .byPolicy only = .ok batch) :
    (∀ row ∈ selectedSets catalog.tables only,
      (∃ slice ∈ stageSlicesOf catalog.tables row.set.id, slice.stagingPath.isSome = true) →
      ∀ policy, world.resolve row.unit = .ok policy →
        (∃ entry ∈ batch, entry.1.stageSetId = row.set.id) ∧
        ∀ entry ∈ batch, entry.1.stageSetId = row.set.id →
          SeenAlike catalog.tables row.set.id entry
            (stagedSetPlan world catalog.tables row.unit policy row.set.id)) ∧
    ∀ sets : List SetRow, (∀ row ∈ sets, row ∈ selectedSets catalog.tables only ∧
        ∃ slice ∈ stageSlicesOf catalog.tables row.set.id, slice.stagingPath.isSome = true) →
      ∀ entries ⊆ batch,
        entries.map (fun entry => entry.1.stageSetId) = sets.map (fun row => row.set.id) →
        ∃ items, sets.mapM (locationItem world catalog.tables) = .ok items ∧
          ∀ (budget : CapacityBudget) (fixedBytes : Nat),
            budget.place fixedBytes items = budget.place fixedBytes (entries.map writeItem) := by
  refine ⟨fun row selected staged policy resolved => ?_, fun sets selected entries inBatch same => ?_⟩
  · exact find_staged_data_ok world catalog found selected staged resolved
  · exact ⟨_, location_items_ok world catalog resolves found sets selected entries inBatch same,
      fun _ _ => rfl⟩

def floorOfOneCopy : PlanWorld Unit where
  fileOf := fun _ => ()
  listing := fun _ => []
  removal := fun _ => .absent
  now := "2026-01-01 00:00:00"
  volumeSessionLive := fun _ => false
  rewriteHolds := .ok []
  resolve := fun _ => .ok ⟨1, []⟩
  locations := []
  tapeOnlySafetyMultiplier := 2
  allowSpanning := fun _ => false
  columns := fun slice => ⟨700, 700 * slice, "plain", "encrypted"⟩
  incompleteSetRemedy := fun _ _ => "tapectl stage create"

/-- Tape 1 has the first slice of set 1, which was released; set 2 has never been written. -/
def rangeBehind : UnitCatalog where
  tables := {
    units := [⟨1, "unit-1", "photos", .active⟩, ⟨2, "unit-2", "music", .active⟩]
    snapshots := [⟨1, 1, 1, .staged⟩, ⟨2, 2, 1, .staged⟩]
    stageSets := [⟨1, 1, .staged⟩, ⟨2, 2, .staged⟩]
    stageSlices := [⟨1, 1, 1, none, some "2025-01-01 00:00:00"⟩, ⟨2, 1, 2, some "a.2.dar.age", none⟩,
      ⟨3, 1, 3, some "a.3.dar.age", none⟩, ⟨4, 2, 1, some "b.1.dar.age", none⟩]
    volumes := [⟨1, "L1", .sealed, .ok, none, none, none⟩]
    deposits := []
    writes := [⟨1, 1, 1, 1, .range, true, true⟩]
    positions := [⟨1, 1, 4, .written⟩] }
  schema := by constructor <;> decide
  uuids := by decide

/-- The batch of both sets: the whole unit first, and of the span the two slices owed. -/
def rangeBehindBatch : List (StagedUnit × PlanClass) :=
  [(⟨2, 2, "music", "unit-2", 1, [⟨⟨4, 1, 700, 2800, "plain", "encrypted"⟩, "b.1.dar.age"⟩], none⟩,
      .whole),
    (⟨1, 1, "photos", "unit-1", 1, [⟨⟨2, 2, 700, 1400, "plain", "encrypted"⟩, "a.2.dar.age"⟩,
        ⟨⟨3, 3, 700, 2100, "plain", "encrypted"⟩, "a.3.dar.age"⟩],
      some [⟨1, 1, 700, 700, "plain", "encrypted"⟩, ⟨2, 2, 700, 1400, "plain", "encrypted"⟩,
        ⟨3, 3, 700, 2100, "plain", "encrypted"⟩]⟩, .owed)]

theorem staged_set_plan_is_write_plan_range_behind :
    findStagedData floorOfOneCopy rangeBehind.tables .byPolicy none = .ok rangeBehindBatch ∧
      ∀ row ∈ selectedSets rangeBehind.tables none,
        (∃ slice ∈ stageSlicesOf rangeBehind.tables row.set.id, slice.stagingPath.isSome = true) →
        ∀ policy, floorOfOneCopy.resolve row.unit = .ok policy →
          (∃ entry ∈ rangeBehindBatch, entry.1.stageSetId = row.set.id) ∧
          ∀ entry ∈ rangeBehindBatch, entry.1.stageSetId = row.set.id →
            SeenAlike rangeBehind.tables row.set.id entry
              (stagedSetPlan floorOfOneCopy rangeBehind.tables row.unit policy row.set.id) := by
  have found : findStagedData floorOfOneCopy rangeBehind.tables .byPolicy none =
      .ok rangeBehindBatch := by decide +kernel
  exact ⟨found, (staged_set_plan_is_write_plan floorOfOneCopy rangeBehind (fun _ _ => ⟨_, rfl⟩) none
    rangeBehindBatch found).1⟩

end Tapectl.Volume.Staged

