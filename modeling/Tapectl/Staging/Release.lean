import Tapectl.Policy.FaultTolerance

/-!
# Releasing staging

`staging/release.rs` and `staging/clean.rs`: the release after a write, over the catalog and the
staging directory. A run is the catalog as last committed with what was done in order: each commit,
and each file unlinked. Outside the catalog stand the directory, the session locks, the pending
rewrites' holds and the resolved policy, which no release changes. Audit rows are left out.
-/

namespace Tapectl.Staging

open Tapectl.Db Tapectl.Policy

variable {File : Type} [DecidableEq File]

structure ResolvedPolicy where
  minCopies : Int
  copiesAt : List (String × Int)
  deriving DecidableEq, Repr

inductive Removal where
  | absent
  | removed (bytes : Int)
  | failed
  deriving DecidableEq, Repr

/-- What a release reads outside the tables. `fileOf` is the file a `staging_path` names, `listing`
the staging directory when a stage set's leftovers are looked for. -/
structure Surroundings (File : Type) where
  fileOf : String → File
  listing : Int → List (String × File)
  removal : File → Removal
  now : String
  volumeSessionLive : Int → Bool
  rewriteHolds : Except String (List Int)
  resolve : UnitRow → Except String ResolvedPolicy
  locations : List (Int × String)
  tapeOnlySafetyMultiplier : Int

inductive Effect (File : Type) where
  | commit (tables : Tables)
  | unlink (file : File)
  deriving DecidableEq, Repr

structure Run (File : Type) where
  tables : Tables
  effects : List (Effect File)
  deriving DecidableEq, Repr

def Run.commit (run : Run File) (tables : Tables) : Run File :=
  ⟨tables, run.effects ++ [.commit tables]⟩

structure CleanReport (File : Type) where
  setsCleaned : Nat := 0
  filesRemoved : Nat := 0
  bytesFreed : Int := 0
  errors : Nat := 0
  stranded : List File := []
  heldByLiveSession : List (Int × List String) := []
  heldByPendingRewrite : List Int := []
  slicesReleased : List (Int × List Int) := []
  slicesShort : List (Int × List Int) := []
  deriving DecidableEq, Repr

def CleanReport.absorb (report other : CleanReport File) : CleanReport File where
  setsCleaned := report.setsCleaned + other.setsCleaned
  filesRemoved := report.filesRemoved + other.filesRemoved
  bytesFreed := report.bytesFreed + other.bytesFreed
  errors := report.errors + other.errors
  stranded := report.stranded ++ other.stranded
  heldByLiveSession := report.heldByLiveSession ++ other.heldByLiveSession
  heldByPendingRewrite := report.heldByPendingRewrite ++ other.heldByPendingRewrite
  slicesReleased := report.slicesReleased ++ other.slicesReleased
  slicesShort := report.slicesShort ++ other.slicesShort

section Floors

variable (world : Surroundings File)

def maxI64 : Int := 2 ^ 63 - 1

def minI64 : Int := -2 ^ 63

def saturatingAddI64 (sum count : Int) : Int := max minI64 (min maxI64 (sum + count))

def ResolvedPolicy.copyFloorBase (policy : ResolvedPolicy) : Int :=
  max policy.minCopies
    (policy.copiesAt.foldl (fun sum target => saturatingAddI64 sum target.2) 0)

def tapeOnlyMultiplier (status : UnitStatus) : Int :=
  if status = .tapeOnly then world.tapeOnlySafetyMultiplier else 1

/-- The product is an `i64`: in a release build it wraps. -/
def copyFloor (base : Int) (status : UnitStatus) : Int :=
  (base * tapeOnlyMultiplier world status).bmod (2 ^ 64)

def tapeOnlyNote (status : UnitStatus) : String :=
  let multiplier := tapeOnlyMultiplier world status
  if multiplier = 1 then "" else s!" (tape-only {multiplier}x)"

structure LocationShort where
  location : String
  copies : Int
  target : Int
  deriving DecidableEq, Repr

variable (tables : Tables)

/-- The copies of the scope at each location with a target above 0. -/
def copiesAtTargets (scope : CoverageScope) (policy : ResolvedPolicy) : List (String × Int) :=
  let names := (policy.copiesAt.filter fun target => 0 < target.2).map Prod.fst
  (world.locations.filter fun location => names.contains location.2).map fun location =>
    (location.2, (copiesAtExpr tables ⟨scope, none⟩ location.1 : Int))

def judgeCopiesAt (policy : ResolvedPolicy) (status : UnitStatus) (held : List (String × Int)) :
    List LocationShort :=
  policy.copiesAt.filterMap fun entry =>
    let target := copyFloor world ((policy.copiesAt.lookup entry.1).getD 0) status
    let copies := (held.lookup entry.1).getD 0
    if copies < target then some ⟨entry.1, copies, target⟩ else none

def shortOfCopiesAt (scope : CoverageScope) (policy : ResolvedPolicy)
    (status : UnitStatus) : List LocationShort :=
  judgeCopiesAt world policy status (copiesAtTargets world tables scope policy)

def unitAndPolicy (unitId : Int) : Except String (UnitRow × ResolvedPolicy) :=
  match tables.units.find? fun unit => unit.id = unitId with
  | none => .error (s!"releasing staging: unit id {unitId} is missing from the catalog — " ++
      "the catalog is inconsistent")
  | some named =>
    match tables.units.find? fun unit => unit.name = named.name with
    | none =>
      let name := named.name
      .error (s!"releasing staging: unit \"{name}\" is missing from the catalog — " ++
        "the catalog is inconsistent")
    | some unit => (world.resolve unit).map fun policy => (unit, policy)

def unitCopyFloor (unitId : Int) : Except String Int :=
  (unitAndPolicy world tables unitId).map fun found =>
    copyFloor world found.2.copyFloorBase found.1.status

end Floors

inductive CleanScope where
  | whole
  | units (ids : List Int)
  | unitVersion (unitId version : Int)
  deriving DecidableEq, Repr

variable (tables : Tables)

def CleanScope.covers (scope : CleanScope) (set : StageSetRow) : Bool :=
  match scope with
  | .whole => true
  | .units ids => tables.snapshots.any fun snapshot =>
    snapshot.id = set.snapshotId && ids.contains snapshot.unitId
  | .unitVersion unitId version => tables.snapshots.any fun snapshot =>
    snapshot.id = set.snapshotId && snapshot.unitId = unitId && snapshot.version = version

def writesFinished (set : Int) : Bool :=
  !tables.writes.any fun write => write.stageSetId = set &&
    !(write.status = .completed || write.status = .cut || write.status = .range)

def holdsARange (set : Int) : Bool :=
  tables.writes.any fun write => write.stageSetId = set && write.status = .range

def releaseCandidate (set : Int) : Bool :=
  (tables.writes.any fun write => write.stageSetId = set && write.status = .completed) &&
    writesFinished tables set && !holdsARange tables set

def sliceReleaseCandidate (set : Int) : Bool :=
  holdsARange tables set && writesFinished tables set

/-- The first `count` bytes, when they end on a character. -/
def firstBytes : List Char → Nat → Option (List Char)
  | _, 0 => some []
  | [], _ + 1 => none
  | char :: rest, count + 1 =>
    if char.utf8Size ≤ count + 1 then
      (firstBytes rest (count + 1 - char.utf8Size)).map fun taken => char :: taken
    else none

def archiveBaseName (unitUuid : String) (version stageSetId : Int) : String :=
  let stem := match firstBytes (unitUuid.toList.filter fun char => char ≠ '-') 12 with
    | some taken => String.ofList taken
    | none => unitUuid
  s!"{stem}_v{version}_s{stageSetId}"

def archiveBasePrefix (unitUuid : String) (version stageSetId : Int) : String :=
  archiveBaseName unitUuid version stageSetId ++ "."

section Clean

variable (world : Surroundings File)

variable (tables : Tables)

/-- The files in the staging directory that are named for the stage set. -/
def findPrefixOrphans (stageSetId : Int) : List File :=
  match tables.stageSets.find? fun set => set.id = stageSetId with
  | none => []
  | some set =>
    match tables.snapshots.find? fun snapshot => snapshot.id = set.snapshotId with
    | none => []
    | some snapshot =>
      match tables.units.find? fun unit => unit.id = snapshot.unitId with
      | none => []
      | some unit =>
        let base := (archiveBasePrefix unit.uuid snapshot.version stageSetId).toList
        ((world.listing stageSetId).filter fun entry =>
          base.isPrefixOf entry.1.toList &&
            (".dar".toList.isSuffixOf entry.1.toList || ".sha512".toList.isSuffixOf entry.1.toList ||
              ".dar.age".toList.isSuffixOf entry.1.toList)).map Prod.snd

def removeAndAccount (done : Run File × CleanReport File) (file : File) :
    Run File × CleanReport File :=
  match world.removal file with
  | .absent => done
  | .removed bytes => ({ done.1 with effects := done.1.effects ++ [.unlink file] },
      { done.2 with filesRemoved := done.2.filesRemoved + 1, bytesFreed := done.2.bytesFreed + bytes })
  | .failed => ({ done.1 with effects := done.1.effects ++ [.unlink file] },
      { done.2 with errors := done.2.errors + 1, stranded := done.2.stranded ++ [file] })

/-- The labels of the volumes the set is written to whose session is live. -/
def liveSessions (stageSetId : Int) : List String :=
  (((tables.writes.filter fun write => write.stageSetId = stageSetId).flatMap fun write =>
    (tables.volumes.filter fun volume => volume.id = write.volumeId).map fun volume =>
      (volume.id, volume.label)).dedup.filter fun volume => world.volumeSessionLive volume.1).map
        Prod.snd

def dropHeld (candidates : List Int) (report : CleanReport File) :
    Except String (List Int × CleanReport File) := do
  let free := candidates.filter fun set => (liveSessions world tables set).isEmpty
  let live := candidates.filter fun set => !(liveSessions world tables set).isEmpty
  let held ← if free.isEmpty then pure [] else world.rewriteHolds
  return (free.filter fun set => !held.contains set,
    { report with
      heldByLiveSession := report.heldByLiveSession ++
        live.map fun set => (set, liveSessions world tables set)
      heldByPendingRewrite := report.heldByPendingRewrite ++
        free.filter fun set => held.contains set })

/-- `UPDATE stage_slices SET staging_path = NULL WHERE id = ?`. -/
def clearPath (sliceId : Int) : Tables :=
  { tables with stageSlices := tables.stageSlices.map fun slice =>
      if slice.id = sliceId then { slice with stagingPath := none } else slice }

/-- `UPDATE stage_sets SET status = 'cleaned' WHERE id = ?`. -/
def cleanSet (stageSetId : Int) : Tables :=
  { tables with stageSets := tables.stageSets.map fun set =>
      if set.id = stageSetId then { set with status := .cleaned } else set }

structure SetPlan (File : Type) where
  stageSetId : Int
  ageFiles : List (Int × String)
  plaintextOrphans : List File

def setPlan (stageSetId : Int) : SetPlan File :=
  let ageFiles := (tables.stageSlices.filter fun slice => slice.stageSetId = stageSetId).filterMap
    fun slice => slice.stagingPath.map fun path => (slice.id, path)
  ⟨stageSetId, ageFiles, (findPrefixOrphans world tables stageSetId).filter fun file =>
    !ageFiles.any fun staged => world.fileOf staged.2 = file⟩

def releaseSet (plan : SetPlan File) : Tables :=
  cleanSet (plan.ageFiles.foldl (fun tables staged => clearPath tables staged.1) tables)
    plan.stageSetId

def cleanCandidates (force : Bool) (scope : CleanScope) : List Int :=
  (tables.stageSets.filter fun set =>
    (scope = .whole || tables.snapshots.any fun snapshot => snapshot.id = set.snapshotId) &&
      (set.status = .failed ||
        (set.status = .staged && (force || releaseCandidate tables set.id) &&
          scope.covers tables set))).map StageSetRow.id

def cleanStaging (force : Bool) (scope : CleanScope) (run : Run File) :
    Run File × Except String (CleanReport File) :=
  match dropHeld world run.tables (cleanCandidates run.tables force scope) {} with
  | .error failed => (run, .error failed)
  | .ok (free, report) =>
    if free.isEmpty then (run, .ok report)
    else
      let plans := free.map (setPlan world run.tables)
      let committed := run.commit (plans.foldl releaseSet run.tables)
      let files := plans.flatMap fun plan =>
        plan.ageFiles.map (fun staged => world.fileOf staged.2) ++ plan.plaintextOrphans
      let done := files.foldl (removeAndAccount world)
        (committed, { report with setsCleaned := report.setsCleaned + plans.length })
      (done.1, .ok done.2)

def stagedSetsHoldingARange (scope : CleanScope) : List (Int × Int) :=
  let rows := tables.stageSets.flatMap fun set =>
    (tables.snapshots.filter fun snapshot => snapshot.id = set.snapshotId && set.status = .staged &&
      holdsARange tables set.id && (match scope with
        | .whole => true
        | .units ids => ids.contains snapshot.unitId
        | .unitVersion unitId version => snapshot.unitId = unitId && snapshot.version = version)).map
      fun snapshot => (set.id, snapshot.unitId)
  rows.insertionSort fun one other => one.1 ≤ other.1

def releasedSliceIds (stageSetId : Int) : List Int :=
  (tables.stageSlices.filter fun slice =>
    slice.stageSetId = stageSetId && slice.releasedAt.isSome).map StageSliceRow.id

/-- `UPDATE stage_slices SET staging_path = NULL, released_at = datetime('now') WHERE id = ?`. -/
def markReleased (now : String) (sliceId : Int) : Tables :=
  { tables with stageSlices := tables.stageSlices.map fun slice =>
      if slice.id = sliceId then { slice with stagingPath := none, releasedAt := some now }
      else slice }

structure SliceRelease where
  tables : Tables
  released : List (Int × Option String)
  short : List Int
  deriving DecidableEq, Repr

def releaseSlice (now : String) (floor : Int) (done : SliceRelease) (slice : SliceCopies) :
    SliceRelease :=
  if (slice.copies : Int) < floor then { done with short := done.short ++ [slice.sliceNumber] }
  else
    let path := (done.tables.stageSlices.find? fun row => row.id = slice.stageSliceId).bind
      StageSliceRow.stagingPath
    { done with
      tables := markReleased done.tables now slice.stageSliceId
      released := done.released ++ [(slice.sliceNumber, path)] }

def releaseCoveredSlices (stageSetId floor : Int) (run : Run File) :
    Run File × Except String (CleanReport File) :=
  if (run.tables.stageSets.any fun set => set.id = stageSetId && set.status = .staged &&
      sliceReleaseCandidate run.tables stageSetId) = false then (run, .ok {})
  else match dropHeld world run.tables [stageSetId] {} with
  | .error failed => (run, .error failed)
  | .ok (free, report) =>
    if free.isEmpty then (run, .ok report)
    else
      let already := releasedSliceIds run.tables stageSetId
      let all := sliceCopies run.tables stageSetId
      let slices := all.filter fun slice => !already.contains slice.stageSliceId
      let loop := slices.foldl (releaseSlice world.now (max floor 1)) ⟨run.tables, [], []⟩
      let cleaned := !all.isEmpty && loop.short.isEmpty
      let tables := if cleaned then cleanSet loop.tables stageSetId else loop.tables
      let report := { report with
        slicesReleased := report.slicesReleased ++
          if loop.released.isEmpty then [] else [(stageSetId, loop.released.map Prod.fst)]
        slicesShort := report.slicesShort ++
          if loop.short.isEmpty then [] else [(stageSetId, loop.short)]
        setsCleaned := report.setsCleaned + if cleaned then 1 else 0 }
      let files := loop.released.filterMap fun slice => slice.2.map world.fileOf
      let orphans := if cleaned then
        (findPrefixOrphans world tables stageSetId).filter fun file => !files.contains file
        else []
      let done := (files ++ orphans).foldl (removeAndAccount world) (run.commit tables, report)
      (done.1, .ok done.2)

inductive Hold where
  | copyFloor
  | everyLocation
  deriving DecidableEq, Repr

structure CopyProgress where
  unitName : String
  copies : Nat
  minCopies : Int
  floorNote : String
  shortAt : List LocationShort
  deriving DecidableEq, Repr

structure ReleaseOutcome (File : Type) where
  cleaned : Option (CleanReport File)
  releasedUnits : List String
  underCopied : List CopyProgress
  slices : CleanReport File
  deriving DecidableEq, Repr

def wholeSetStaged (unitId : Int) : Bool :=
  tables.stageSets.any fun set => tables.snapshots.any fun snapshot =>
    snapshot.id = set.snapshotId && snapshot.unitId = unitId && set.status = .staged &&
      !holdsARange tables set.id

def unitsJudgedWhole (unitIds : List Int) : List Int :=
  let spanning := (match unitIds with
    | [] => []
    | ids => stagedSetsHoldingARange tables (.units ids)).map Prod.snd
  unitIds.filter fun unitId => !spanning.contains unitId || wholeSetStaged tables unitId

structure Judged where
  underCopied : List CopyProgress := []
  keptIds : List Int := []
  heldForLocations : List Int := []
  deriving DecidableEq, Repr

def waitedShort (hold : Hold) (unitId : Int) (unit : UnitRow)
    (policy : ResolvedPolicy) : List LocationShort :=
  match hold with
  | .copyFloor => []
  | .everyLocation => shortOfCopiesAt world tables (.unit unitId true) policy unit.status

def judgeUnit (hold : Hold) (gateIds : List Int) (judged : Judged)
    (unitId : Int) : Except String Judged :=
  let whole := gateIds.contains unitId
  if !whole && hold ≠ .everyLocation then .ok judged
  else do
    let (unit, policy) ← unitAndPolicy world tables unitId
    let shortAt := waitedShort world tables hold unitId unit policy
    let judged := if hold = .everyLocation && !shortAt.isEmpty then
        { judged with heldForLocations := judged.heldForLocations ++ [unitId] }
      else judged
    if !whole then return judged
    let copies := copyCountExpr tables ⟨.unit unitId true, none⟩
    let floor := copyFloor world policy.copyFloorBase unit.status
    if (copies : Int) < floor || !shortAt.isEmpty then
      return { judged with
        keptIds := judged.keptIds ++ [unitId]
        underCopied := judged.underCopied ++
          [⟨unit.name, copies, floor, tapeOnlyNote world unit.status, shortAt⟩] }
    else return judged

/-- The staged sets of the units that hold no range, in the units' order. -/
def stagedWholeSets (unitIds : List Int) : List (Int × Int × String) :=
  let rows := tables.stageSets.flatMap fun set =>
    (tables.snapshots.filter fun snapshot => snapshot.id = set.snapshotId).flatMap fun snapshot =>
      (tables.units.filter fun unit => unit.id = snapshot.unitId && set.status = .staged &&
        unitIds.contains unit.id && !holdsARange tables set.id).map fun unit =>
          (set.id, unit.id, unit.name)
  rows.insertionSort fun one other =>
    unitIds.idxOf one.2.1 < unitIds.idxOf other.2.1 ∨
      unitIds.idxOf one.2.1 = unitIds.idxOf other.2.1 ∧ one.1 ≤ other.1

def unitsReleased (tables : Tables) : List String → List (Int × Int × String) →
    Except String (List String)
  | names, [] => .ok names
  | names, (set, _, name) :: rest =>
    if names.contains name then unitsReleased tables names rest
    else match tables.stageSets.find? fun row => row.id = set with
      | none => .error "Query returned no rows"
      | some row => unitsReleased tables
          (if row.status = .cleaned then names ++ [name] else names) rest

/-- `release_ranges` over the sets it selected. -/
def releaseRangesOf : List (Int × Int) → Run File → CleanReport File →
    Run File × Except String (CleanReport File)
  | [], run, report => (run, .ok report)
  | (stageSetId, unitId) :: rest, run, report =>
    match unitCopyFloor world run.tables unitId with
    | .error failed => (run, .error failed)
    | .ok floor =>
      match releaseCoveredSlices world stageSetId floor run with
      | (run, .error failed) => (run, .error failed)
      | (run, .ok more) => releaseRangesOf rest run (report.absorb more)

def releaseRanges (scope : CleanScope) (run : Run File) :
    Run File × Except String (CleanReport File) :=
  match scope with
  | .units [] => (run, .ok {})
  | scope => releaseRangesOf world (stagedSetsHoldingARange run.tables scope) run {}

/-- The whole-set half: over every unit when none is short, else over the covered ones. -/
def releaseWholeSets (unitIds gateIds : List Int) (judged : Judged) (run : Run File) :
    Run File × Except String (Option (CleanReport File) × List String) :=
  let covered := gateIds.filter fun unitId => !judged.keptIds.contains unitId
  let scope := if judged.keptIds.isEmpty then unitIds else covered
  if scope.isEmpty && !judged.keptIds.isEmpty then (run, .ok (none, []))
  else
    let before := stagedWholeSets run.tables covered
    match cleanStaging world false (.units scope) run with
    | (run, .error failed) => (run, .error failed)
    | (run, .ok report) =>
      match unitsReleased run.tables [] before with
      | .error failed => (run, .error failed)
      | .ok names => (run, .ok (some report, names))

def releaseIfCoveredHolding (unitIds : List Int) (hold : Hold) (run : Run File) :
    Run File × Except String (ReleaseOutcome File) :=
  let gateIds := unitsJudgedWhole run.tables unitIds
  match unitIds.foldlM (judgeUnit world run.tables hold gateIds) {} with
  | .error failed => (run, .error failed)
  | .ok judged =>
    match releaseWholeSets world unitIds gateIds judged run with
    | (run, .error failed) => (run, .error failed)
    | (run, .ok (cleaned, releasedUnits)) =>
      let released := unitIds.filter fun unitId => !judged.heldForLocations.contains unitId
      match releaseRanges world (.units released) run with
      | (run, .error failed) => (run, .error failed)
      | (run, .ok slices) => (run, .ok ⟨cleaned, releasedUnits, judged.underCopied, slices⟩)

end Clean

end Tapectl.Staging
