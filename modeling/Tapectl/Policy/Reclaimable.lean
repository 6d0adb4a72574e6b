import Tapectl.Library.Effects
import Tapectl.Library.Grouping
import Tapectl.Staging.Release

/-!
# The reclaim gate and its report

`policy/reclaimable.rs`: `assess` judges one version for `snapshot mark-reclaimable`, `candidates` lists
every superseded version with its verdict. The gate finds the superseding version by an ordered query and
the report by a join; the report asks the policy once per unit and gives each version its own bytes.
`encryptedBytes` is that column of `stage_slices`, the sizes of files; the policy is resolved, and the
other settings are, in `world`.
-/

namespace Tapectl.Policy

open Tapectl.Db Tapectl.Staging

inductive ReclaimVerdict where
  | releasable (supersedingVersion freeableBytes : Int)
  | blocked (supersedingVersion : Option Int) (freeableBytes : Int) (reason : String)
  deriving DecidableEq, Repr

def ReclaimVerdict.withFreeable (bytes : Int) : ReclaimVerdict → ReclaimVerdict
  | .releasable supersedingVersion _ => .releasable supersedingVersion bytes
  | .blocked supersedingVersion _ reason => .blocked supersedingVersion bytes reason

structure Candidate where
  unitName : String
  version : Int
  verdict : ReclaimVerdict
  deriving DecidableEq, Repr

structure Reclaim (File : Type) where
  world : Surroundings File
  minLocations : Nat
  encryptedBytes : Int → Nat
  tables : Tables

namespace Reclaim

variable {File : Type} (gate : Reclaim File)

def locationsWithoutACopy (short : List LocationShort) : List String :=
  (short.filter fun place => place.copies = 0).map LocationShort.location

def plural (count : Int) (singular several : String) : String :=
  s!"{count} {if count = 1 then singular else several}"

def LocationShort.held (short : LocationShort) : String :=
  plural short.copies "copy" "copies" ++ " at required location " ++ short.location

def describeShortLocations (short : List LocationShort) : String :=
  let apart := "; ".intercalate (short.map fun place => s!"{LocationShort.held place}, needs {place.target}")
  match short with
  | [] => apart
  | first :: _ =>
    if short.all fun place => place.target = first.target then
      let each := if short.length = 1 then "" else " at each"
      ", ".intercalate (short.map LocationShort.held) ++ s!", needs {first.target}{each}"
    else apart

def describeTargets (copiesAt : List (String × Int)) : String :=
  let targets := copiesAt.filter fun target => 0 < target.2
  if targets.all fun target => target.2 = 1 then ", ".intercalate (targets.map Prod.fst)
  else ", ".intercalate (targets.map fun target => s!"{target.2} at {target.1}")

structure PlaceShortfall where
  places : Int
  floor : Int
  deriving DecidableEq, Repr

def locationFloor (status : UnitStatus) : Int := if status = .tapeOnly then gate.minLocations else 0

def PlaceShortfall.judge (status : UnitStatus) (places : Int) : Option PlaceShortfall :=
  let floor := gate.locationFloor status
  if places < floor then some ⟨places, floor⟩ else none

def PlaceShortfall.describe (short : PlaceShortfall) : String :=
  let places := plural short.places "location" "locations"
  s!"copies in {places}, needs {short.floor} ([defaults] min_locations)"

def shortOfLocationFloor (snapshot : Int) (status : UnitStatus) : Option PlaceShortfall :=
  if gate.locationFloor status ≤ 0 then none
  else PlaceShortfall.judge gate status (locationCountExpr gate.tables ⟨.snapshot snapshot, none⟩)

/-- Sizes only of the sets a completed write holds on an eligible volume; `writes` does not fan out. -/
def freeableSizes (snapshot : Int) : List Nat :=
  (gate.tables.stageSets.filter fun set => set.snapshotId = snapshot &&
      gate.tables.writes.any fun write => write.stageSetId = set.id && write.status = .completed &&
        gate.tables.volumes.any fun volume => volume.id = write.volumeId && eligible volume).flatMap fun set =>
    (gate.tables.stageSlices.filter fun slice => slice.stageSetId = set.id).map fun slice =>
      gate.encryptedBytes slice.id

/-- SQLite's `SUM` of integers fails when it passes the range of an `i64`. -/
def sumI64 (sizes : List Nat) : Except String Int :=
  if maxI64 < sizes.sum then .error "integer overflow" else .ok sizes.sum

def freeableBytes (snapshot : Int) : Except String Int := sumI64 (gate.freeableSizes snapshot)

/-- The blocker of a superseding version, where one stands; the checks in the order they are made. -/
def supersedingBlocker (policy : ResolvedPolicy) (status : UnitStatus) (superseding : Int × Int) :
    Option String :=
  let version := superseding.2
  let required := copyFloor gate.world policy.copyFloorBase status
  let note := tapeOnlyNote gate.world status
  let copyCount : Int := copyCountExpr gate.tables ⟨.snapshot superseding.1, none⟩
  if copyCount < required then
    some s!"superseding v{version} has {copyCount} copies, needs {required}{note}"
  else
    let short := shortOfCopiesAt gate.world gate.tables (.snapshot superseding.1) policy status
    let missing := locationsWithoutACopy short
    if missing ≠ [] then
      let noun := if missing.length = 1 then "location" else "locations"
      let names := ", ".intercalate missing
      some (s!"superseding v{version} has no copy at required {noun} {names} " ++
        s!"(policy requires {describeTargets policy.copiesAt})")
    else if short ≠ [] then
      some s!"superseding v{version} has {describeShortLocations short}{note}"
    else
      (gate.shortOfLocationFloor superseding.1 status).map fun short =>
        s!"superseding v{version} has {short.describe}"

def supersedingVerdict (unit : UnitRow) (superseding : Int × Int) (freeable : Int) :
    Except String ReclaimVerdict := do
  let policy ← gate.world.resolve unit
  match gate.supersedingBlocker policy unit.status superseding with
  | some reason => return .blocked (some superseding.2) freeable reason
  | none => return .releasable superseding.2 freeable

/-- `ORDER BY version DESC LIMIT 1`. -/
def supersedingOf (unit version : Int) : Option SnapshotRow :=
  ((gate.tables.snapshots.filter fun snapshot =>
    snapshot.unitId = unit && version < snapshot.version && snapshot.status = .current).insertionSort
      fun first second => second.version ≤ first.version).head?

def assess (unit : UnitRow) (version : Int) : Except String ReclaimVerdict := do
  let freeable ←
    match gate.tables.snapshots.find? fun snapshot =>
      snapshot.unitId = unit.id && snapshot.version = version with
    | some snapshot => gate.freeableBytes snapshot.id
    | none => pure 0
  match gate.supersedingOf unit.id version with
  | some superseding => gate.supersedingVerdict unit (superseding.id, superseding.version) freeable
  | none => return .blocked none freeable s!"no superseding current snapshot exists for v{version}"

structure CandidateRow where
  unit : UnitRow
  snapshotId : Int
  version : Int
  superseding : Int × Int
  deriving DecidableEq, Repr

def currentOf (unit : Int) : List SnapshotRow :=
  gate.tables.snapshots.filter fun snapshot => snapshot.unitId = unit && snapshot.status = .current

/-- The unit's current snapshots at the highest version any of them has. -/
def topOf (unit : Int) : List SnapshotRow :=
  (gate.currentOf unit).filter fun top =>
    some top.version = ((gate.currentOf unit).map SnapshotRow.version).max?

def candidateJoin : List CandidateRow :=
  gate.tables.units.flatMap fun unit => (gate.currentOf unit.id).flatMap fun snapshot =>
    ((gate.topOf unit.id).filter fun top => snapshot.version < top.version).map fun top =>
      ⟨unit, snapshot.id, snapshot.version, (top.id, top.version)⟩

/-- `ORDER BY u.name, s.version`; the order of the names' bytes is the order of the names. -/
def candidateRows : List CandidateRow :=
  Grouping.sortBy (fun row : CandidateRow => toLex (row.unit.name, row.version))
    (gate.candidateJoin)

/-- `asked` is the unit whose verdict was last asked, with the verdict. -/
def verdictOfRow (asked : Option (Int × ReclaimVerdict)) (row : CandidateRow) :
    Except String ReclaimVerdict :=
  match asked.filter fun last => last.1 = row.unit.id with
  | some last => .ok last.2
  | none => gate.supersedingVerdict row.unit row.superseding 0

def judgeRows (asked : Option (Int × ReclaimVerdict)) :
    List (CandidateRow × Int) → Except String (List Candidate)
  | [] => return []
  | (row, freeable) :: rest => do
    let verdict ← gate.verdictOfRow asked row
    let later ← judgeRows (some (row.unit.id, verdict)) rest
    return ⟨row.unit.name, row.version, verdict.withFreeable freeable⟩ :: later

/-- The statement's rows, each with its bytes. -/
def readRows : Except String (List (CandidateRow × Int)) :=
  gate.candidateRows.mapM fun row => (gate.freeableBytes row.snapshotId).map fun bytes => (row, bytes)

def candidates : Except String (List Candidate) := do
  let rows ← gate.readRows
  gate.judgeRows none rows

variable {gate}

theorem superseding_verdict_freeable (unit : UnitRow) (superseding : Int × Int) (freeable : Int) :
    gate.supersedingVerdict unit superseding freeable =
      (gate.supersedingVerdict unit superseding 0).map (ReclaimVerdict.withFreeable freeable) := by
  unfold supersedingVerdict
  cases gate.world.resolve unit with
  | error failed => rfl
  | ok policy =>
    simp only [bind, Except.bind]
    cases gate.supersedingBlocker policy unit.status superseding with
    | none => rfl
    | some reason => rfl

/-- A verdict depends on the unit and what supersedes it, so the verdict kept from the last row is the
one this row would get. -/
theorem judge_rows_eq {rows : List (CandidateRow × Int)} {asked : Option (Int × ReclaimVerdict)}
    (alike : ∀ first ∈ rows, ∀ second ∈ rows, first.1.unit.id = second.1.unit.id →
      first.1.unit = second.1.unit ∧ first.1.superseding = second.1.superseding)
    (kept : ∀ last ∈ asked, ∀ row ∈ rows, last.1 = row.1.unit.id →
      gate.supersedingVerdict row.1.unit row.1.superseding 0 = .ok last.2) :
    gate.judgeRows asked rows = rows.mapM fun row =>
      (gate.supersedingVerdict row.1.unit row.1.superseding row.2).map
        (Candidate.mk row.1.unit.name row.1.version) := by
  induction rows generalizing asked with
  | nil => rfl
  | cons read rest hyp =>
    obtain ⟨row, freeable⟩ := read
    have head : gate.verdictOfRow asked row =
        gate.supersedingVerdict row.unit row.superseding 0 := by
      unfold verdictOfRow
      cases found : asked.filter fun last => last.1 = row.unit.id with
      | none => rfl
      | some last =>
        obtain ⟨member, same⟩ := Option.filter_eq_some_iff.mp found
        exact (kept last member (row, freeable) (by simp) (of_decide_eq_true same)).symm
    rw [judgeRows, head, List.mapM_cons, superseding_verdict_freeable row.unit row.superseding freeable]
    cases asks : gate.supersedingVerdict row.unit row.superseding 0 with
    | error failed => rfl
    | ok verdict =>
      have later := @hyp (some (row.unit.id, verdict))
        (fun first inFirst second inSecond => alike first (by simp [inFirst]) second (by simp [inSecond]))
        (by
          intro last member other inRest same
          cases Option.mem_some_iff.mp member
          obtain ⟨unit, superseding⟩ := alike (row, freeable) (by simp) other (by simp [inRest]) same
          rw [← unit, ← superseding, asks])
      simp only [Except.map, bind, Except.bind, later]

theorem mem_current_of {unit : Int} {snapshot : SnapshotRow} : snapshot ∈ gate.currentOf unit ↔
      snapshot ∈ gate.tables.snapshots ∧ snapshot.unitId = unit ∧ snapshot.status = .current := by
  simp [currentOf]

theorem mem_top_of {unit : Int} {top : SnapshotRow} : top ∈ gate.topOf unit ↔
      top ∈ gate.currentOf unit ∧ ∀ other ∈ gate.currentOf unit, other.version ≤ top.version := by
  unfold topOf
  rw [List.mem_filter, decide_eq_true_iff, eq_comm, List.max?_eq_some_iff]
  constructor
  · rintro ⟨current, -, highest⟩
    exact ⟨current, fun other member => highest _ (List.mem_map_of_mem member)⟩
  · rintro ⟨current, highest⟩
    refine ⟨current, List.mem_map_of_mem current, ?_⟩
    intro version member
    obtain ⟨other, listed, rfl⟩ := List.mem_map.mp member
    exact highest other listed

theorem mem_candidate_rows {row : CandidateRow} : row ∈ gate.candidateRows ↔
      row.unit ∈ gate.tables.units ∧ ∃ snapshot ∈ gate.currentOf row.unit.id,
        ∃ top ∈ gate.topOf row.unit.id, snapshot.version < top.version ∧
          row.version = snapshot.version ∧ row.superseding = (top.id, top.version) ∧
          row.snapshotId = snapshot.id := by
  unfold candidateRows
  rw [(Grouping.sort_by_perm _ _).mem_iff]
  simp only [candidateJoin, List.mem_flatMap, List.mem_map, List.mem_filter, decide_eq_true_iff]
  constructor
  · rintro ⟨unit, listed, snapshot, current, top, ⟨highest, below⟩, rfl⟩
    exact ⟨listed, snapshot, current, top, highest, below, rfl, rfl, rfl⟩
  · rintro ⟨listed, snapshot, current, top, highest, below, version, superseding, id⟩
    refine ⟨row.unit, listed, snapshot, current, top, ⟨highest, below⟩, ?_⟩
    rw [← version, ← superseding, ← id]

section Keys

variable (versions : (gate.tables.snapshots.map fun snapshot => (snapshot.unitId, snapshot.version)).Nodup)

include versions

theorem version_once {first second : SnapshotRow} (inFirst : first ∈ gate.tables.snapshots)
    (inSecond : second ∈ gate.tables.snapshots) (unit : first.unitId = second.unitId)
    (version : first.version = second.version) : first = second :=
  List.inj_on_of_nodup_map versions inFirst inSecond (Prod.ext unit version)

theorem top_once {unit : Int} {first second : SnapshotRow} (inFirst : first ∈ gate.topOf unit)
    (inSecond : second ∈ gate.topOf unit) : first = second := by
  obtain ⟨current, highest⟩ := mem_top_of.mp inFirst
  obtain ⟨current', highest'⟩ := mem_top_of.mp inSecond
  obtain ⟨listed, ofUnit, -⟩ := mem_current_of.mp current
  obtain ⟨listed', ofUnit', -⟩ := mem_current_of.mp current'
  exact version_once versions listed listed' (ofUnit.trans ofUnit'.symm)
    (le_antisymm (highest' first current) (highest second current'))

theorem superseding_of_top {unit version : Int} {top : SnapshotRow} (highest : top ∈ gate.topOf unit)
    (below : version < top.version) : gate.supersedingOf unit version = some top := by
  obtain ⟨current, above⟩ := mem_top_of.mp highest
  obtain ⟨listed, ofUnit, status⟩ := mem_current_of.mp current
  unfold supersedingOf
  generalize rows_eq : (gate.tables.snapshots.filter fun snapshot =>
    snapshot.unitId = unit && version < snapshot.version && snapshot.status = .current) = rows
  have member : top ∈ rows := by
    rw [← rows_eq, List.mem_filter]
    simp [listed, ofUnit, status, below]
  have perm := List.perm_insertionSort (fun first second : SnapshotRow => second.version ≤ first.version) rows
  cases sorted : rows.insertionSort fun first second => second.version ≤ first.version with
  | nil =>
    rw [sorted] at perm
    rw [← perm.mem_iff] at member
    cases member
  | cons head rest =>
    rw [sorted] at perm
    have inRows : head ∈ rows := perm.mem_iff.mp (by simp)
    rw [← rows_eq, List.mem_filter] at inRows
    obtain ⟨inTable, facts⟩ := inRows
    simp only [Bool.and_eq_true, decide_eq_true_iff] at facts
    have first : head ∈ gate.currentOf unit := mem_current_of.mpr ⟨inTable, facts.1.1, facts.2⟩
    have order := Grouping.sort_by_sorted (fun row : SnapshotRow => OrderDual.toDual row.version) rows
    have ahead : top.version ≤ head.version := by
      cases List.mem_cons.mp (perm.mem_iff.mpr member) with
      | inl same => rw [same]
      | inr later =>
        have shape : Grouping.sortBy (fun row : SnapshotRow => OrderDual.toDual row.version) rows =
          head :: rest := sorted
        rw [shape] at order
        exact (List.pairwise_cons.mp order).1 top later
    rw [version_once versions inTable listed (facts.1.1.trans ofUnit.symm)
      (le_antisymm (above head first) ahead)]
    rfl

variable {row : CandidateRow}

theorem assess_of_row (listed : row ∈ gate.candidateRows) :
    gate.assess row.unit row.version = gate.freeableBytes row.snapshotId >>=
      gate.supersedingVerdict row.unit row.superseding := by
  obtain ⟨-, snapshot, current, top, highest, below, version, superseding, id⟩ :=
    mem_candidate_rows.mp listed
  obtain ⟨inTable, ofUnit, -⟩ := mem_current_of.mp current
  have found : (gate.tables.snapshots.find? fun other =>
      other.unitId = row.unit.id && other.version = row.version) = some snapshot := by
    have key := find_key versions inTable
    simp only [Prod.mk.injEq, Bool.decide_and] at key
    rw [version, ← ofUnit]
    exact key
  have above := superseding_of_top versions highest (version ▸ below)
  unfold assess
  rw [found, above, superseding, id]

theorem rows_alike (units : (gate.tables.units.map UnitRow.id).Nodup) {first second : CandidateRow}
    (inFirst : first ∈ gate.candidateRows)
    (inSecond : second ∈ gate.candidateRows) (same : first.unit.id = second.unit.id) :
    first.unit = second.unit ∧ first.superseding = second.superseding := by
  obtain ⟨listed, _, _, top, highest, _, _, superseding, _⟩ := mem_candidate_rows.mp inFirst
  obtain ⟨listed', _, _, top', highest', _, _, superseding', _⟩ := mem_candidate_rows.mp inSecond
  rw [← same] at highest'
  rw [superseding, superseding', top_once versions highest highest']
  exact ⟨List.inj_on_of_nodup_map units listed listed' same, rfl⟩

/-- Once every figure is read, the report is the gate asked row by row. -/
theorem candidates_eq_assess (units : (gate.tables.units.map UnitRow.id).Nodup)
    (fits : ∀ row ∈ gate.candidateRows, (gate.freeableSizes row.snapshotId).sum ≤ maxI64) :
    gate.candidates = gate.candidateRows.mapM fun row =>
      (gate.assess row.unit row.version).map (Candidate.mk row.unit.name row.version) := by
  have figure : ∀ row ∈ gate.candidateRows, gate.freeableBytes row.snapshotId =
      .ok ((gate.freeableSizes row.snapshotId).sum : Int) := fun row listed =>
    if_neg (not_lt.mpr (fits row listed))
  have read : gate.readRows = .ok (gate.candidateRows.map fun row =>
      (row, ((gate.freeableSizes row.snapshotId).sum : Int))) := by
    apply Effects.map_m_eq_ok
    intro row listed
    rw [figure row listed]
    rfl
  unfold candidates
  rw [read]
  refine (judge_rows_eq ?_ (by simp)).trans ?_
  · simp only [List.forall_mem_map]
    exact fun first inFirst second inSecond => rows_alike versions units inFirst inSecond
  · rw [List.mapM_map]
    apply Effects.map_m_congr
    intro row listed
    rw [Function.comp_apply, assess_of_row versions listed, figure row listed]
    rfl

theorem row_keys_nodup (names : (gate.tables.units.map UnitRow.name).Nodup) :
    ((gate.candidateRows).map fun row => (row.unit.name, row.version)).Nodup := by
  have perm := (Grouping.sort_by_perm (fun row : CandidateRow => toLex (row.unit.name, row.version))
    (gate.candidateJoin)).map fun row => (row.unit.name, row.version)
  apply perm.nodup_iff.mpr
  unfold candidateJoin
  rw [List.map_flatMap, List.nodup_flatMap]
  have snapshots : gate.tables.snapshots.Nodup := versions.of_map _
  constructor
  · intro unit _
    rw [List.map_flatMap, List.nodup_flatMap]
    constructor
    · intro snapshot _
      rw [List.map_map]
      apply List.Nodup.map_on
      · intro first inFirst second inSecond _
        exact top_once versions (List.mem_of_mem_filter inFirst) (List.mem_of_mem_filter inSecond)
      · exact ((snapshots.filter _).filter _).filter _
    · apply (snapshots.filter _).pairwise_of_forall_ne
      intro first inFirst second inSecond apart key inKeys inKeys'
      simp only [List.map_map, List.mem_map, Function.comp_apply] at inKeys inKeys'
      obtain ⟨_, _, rfl⟩ := inKeys
      obtain ⟨_, _, same⟩ := inKeys'
      obtain ⟨listed, ofUnit, -⟩ := mem_current_of.mp inFirst
      obtain ⟨listed', ofUnit', -⟩ := mem_current_of.mp inSecond
      exact apart (version_once versions listed listed' (ofUnit.trans ofUnit'.symm)
        (congrArg Prod.snd same).symm)
  · apply (names.of_map _).pairwise_of_forall_ne
    intro first inFirst second inSecond apart key inKeys inKeys'
    simp only [List.map_flatMap, List.map_map, List.mem_flatMap, List.mem_map,
      Function.comp_apply] at inKeys inKeys'
    obtain ⟨_, _, _, _, rfl⟩ := inKeys
    obtain ⟨_, _, _, _, same⟩ := inKeys'
    exact apart (List.inj_on_of_nodup_map names inFirst inSecond (congrArg Prod.fst same).symm)

theorem assess_overflow (listed : row ∈ gate.candidateRows)
    (past : maxI64 < (gate.freeableSizes row.snapshotId).sum) :
    gate.assess row.unit row.version = .error "integer overflow" := by
  rw [assess_of_row versions listed, freeableBytes, sumI64, if_pos past]
  rfl

theorem assess_error_iff (listed : row ∈ gate.candidateRows)
    (fits : (gate.freeableSizes row.snapshotId).sum ≤ maxI64) {failed : String} :
    gate.assess row.unit row.version = .error failed ↔
      gate.world.resolve row.unit = .error failed := by
  rw [assess_of_row versions listed, freeableBytes, sumI64, if_neg (not_lt.mpr fits)]
  change gate.supersedingVerdict row.unit row.superseding _ = _ ↔ _
  unfold supersedingVerdict
  cases gate.world.resolve row.unit with
  | error other => simp [bind, Except.bind]
  | ok policy =>
    simp only [bind, Except.bind]
    cases gate.supersedingBlocker policy row.unit.status row.superseding with
    | none => simp [pure, Except.pure]
    | some reason => simp [pure, Except.pure]

end Keys

/-- The version is current, and below another current version of its unit. -/
def Superseded (unit : UnitRow) (version : Int) : Prop :=
  (∃ snapshot ∈ gate.tables.snapshots, snapshot.unitId = unit.id ∧ snapshot.version = version ∧
    snapshot.status = .current) ∧
  ∃ other ∈ gate.tables.snapshots, other.unitId = unit.id ∧ other.status = .current ∧ version < other.version

/-- The bytes the version would free are more than `SUM` gives. -/
def Overflows (unit : UnitRow) (version : Int) : Prop :=
  ∃ snapshot ∈ gate.tables.snapshots, snapshot.unitId = unit.id ∧ snapshot.version = version ∧
    maxI64 < (gate.freeableSizes snapshot.id).sum

theorem top_exists {unit : Int} {snapshot : SnapshotRow} (current : snapshot ∈ gate.currentOf unit) :
    ∃ top ∈ gate.topOf unit, snapshot.version ≤ top.version := by
  obtain ⟨top, member, highest⟩ := (gate.currentOf unit).toFinset.exists_max_image SnapshotRow.version
    ⟨snapshot, List.mem_toFinset.mpr current⟩
  simp only [List.mem_toFinset] at member highest
  exact ⟨top, mem_top_of.mpr ⟨member, highest⟩, highest snapshot current⟩

theorem superseded_iff_row {unit : UnitRow} {version : Int} (listed : unit ∈ gate.tables.units) :
    gate.Superseded unit version ↔
      ∃ row ∈ gate.candidateRows, row.unit = unit ∧ row.version = version := by
  constructor
  · rintro ⟨⟨snapshot, inTable, ofUnit, rfl, status⟩, other, inTable', ofUnit', status', below⟩
    obtain ⟨top, highest, above⟩ := top_exists (mem_current_of.mpr ⟨inTable', ofUnit', status'⟩)
    exact ⟨⟨unit, snapshot.id, snapshot.version, (top.id, top.version)⟩,
      mem_candidate_rows.mpr ⟨listed, snapshot, mem_current_of.mpr ⟨inTable, ofUnit, status⟩, top, highest,
        below.trans_le above, rfl, rfl, rfl⟩, rfl, rfl⟩
  · rintro ⟨row, member, rfl, rfl⟩
    obtain ⟨-, snapshot, current, top, highest, below, version, -⟩ := mem_candidate_rows.mp member
    obtain ⟨inTable, ofUnit, status⟩ := mem_current_of.mp current
    obtain ⟨inTable', ofUnit', status'⟩ := mem_current_of.mp (mem_top_of.mp highest).1
    exact ⟨⟨snapshot, inTable, ofUnit, version.symm, status⟩, top, inTable', ofUnit', status',
      version ▸ below⟩

theorem candidate_of_assess {verdict : Except String ReclaimVerdict} {name : String} {version : Int}
    {candidate : Candidate} (judged : verdict.map (Candidate.mk name version) = .ok candidate) :
    candidate.unitName = name ∧ candidate.version = version ∧ verdict = .ok candidate.verdict := by
  cases verdict with
  | error failed => cases judged
  | ok found =>
    cases judged
    exact ⟨rfl, rfl, rfl⟩

theorem candidates_ok_fits {listed : List Candidate} (ran : gate.candidates = .ok listed) :
    ∀ row ∈ gate.candidateRows, (gate.freeableSizes row.snapshotId).sum ≤ maxI64 := by
  intro row member
  by_contra past
  obtain ⟨read, isRead, -⟩ := Effects.bind_ok ran
  obtain ⟨entry, -, given⟩ := (Effects.map_m_mem isRead).1 row member
  rw [freeableBytes, sumI64, if_pos (not_le.mp past)] at given
  cases given

section Report

variable (versions : (gate.tables.snapshots.map fun snapshot => (snapshot.unitId, snapshot.version)).Nodup)

include versions

theorem overflows_of_row {row : CandidateRow} (listed : row ∈ gate.candidateRows) :
    gate.Overflows row.unit row.version ↔ maxI64 < (gate.freeableSizes row.snapshotId).sum := by
  obtain ⟨-, snapshot, current, _, _, _, version, _, id⟩ := mem_candidate_rows.mp listed
  obtain ⟨inTable, ofUnit, -⟩ := mem_current_of.mp current
  constructor
  · rintro ⟨other, inTable', ofUnit', version', past⟩
    rw [id, version_once versions inTable inTable' (ofUnit.trans ofUnit'.symm)
      (version.symm.trans version'.symm)]
    exact past
  · intro past
    exact ⟨snapshot, inTable, ofUnit, version.symm, id ▸ past⟩

theorem candidates_error_iff (units : (gate.tables.units.map UnitRow.id).Nodup) :
    (∃ failed, gate.candidates = .error failed) ↔
      ∃ row ∈ gate.candidateRows, (∃ failed, gate.world.resolve row.unit = .error failed) ∨
        maxI64 < (gate.freeableSizes row.snapshotId).sum := by
  constructor
  · rintro ⟨failed, ran⟩
    by_contra sound
    push Not at sound
    have fits : ∀ row ∈ gate.candidateRows, (gate.freeableSizes row.snapshotId).sum ≤ maxI64 :=
      fun row member => (sound row member).2
    have each : ∀ row ∈ gate.candidateRows, ∃ candidate, (gate.assess row.unit row.version).map
          (Candidate.mk row.unit.name row.version) = .ok candidate := by
      intro row member
      cases judged : gate.assess row.unit row.version with
      | error other =>
        exact absurd ((assess_error_iff versions member (fits row member)).mp judged)
          ((sound row member).1 other)
      | ok verdict => exact ⟨_, rfl⟩
    obtain ⟨listed, ok⟩ := Effects.map_m_total each
    rw [candidates_eq_assess versions units fits, ok] at ran
    cases ran
  · rintro ⟨row, member, fails⟩
    cases ran : gate.candidates with
    | error other => exact ⟨other, rfl⟩
    | ok listed =>
      have fits := candidates_ok_fits ran
      obtain ⟨failed, unresolved⟩ := fails.resolve_right (not_lt.mpr (fits row member))
      rw [candidates_eq_assess versions units fits] at ran
      obtain ⟨candidate, -, judged⟩ := (Effects.map_m_mem ran).1 row member
      rw [(assess_error_iff versions member (fits row member)).mpr unresolved] at judged
      cases judged

end Report

theorem reclaim_report_is_the_gate (gate : Reclaim File) (schema : gate.tables.Schema)
    (names : (gate.tables.units.map UnitRow.name).Nodup)
    (versions : (gate.tables.snapshots.map fun snapshot =>
      (snapshot.unitId, snapshot.version)).Nodup) :
    (∀ listed, gate.candidates = .ok listed →
      (listed.map fun candidate => (candidate.unitName, candidate.version)).Nodup ∧
      (∀ name version, (name, version) ∈
          (listed.map fun candidate => (candidate.unitName, candidate.version)) ↔
        ∃ unit ∈ gate.tables.units, unit.name = name ∧ gate.Superseded unit version) ∧
      ∀ candidate ∈ listed, ∀ unit ∈ gate.tables.units, unit.name = candidate.unitName →
        gate.assess unit candidate.version = .ok candidate.verdict) ∧
    ((∃ failed, gate.candidates = .error failed) ↔
      ∃ unit ∈ gate.tables.units, ∃ version, gate.Superseded unit version ∧
        ((∃ failed, gate.world.resolve unit = .error failed) ∨ gate.Overflows unit version)) ∧
    ∀ unit ∈ gate.tables.units, ∀ version, gate.Superseded unit version →
      (gate.Overflows unit version → gate.assess unit version = .error "integer overflow") ∧
      (¬ gate.Overflows unit version → ∀ failed,
        (gate.assess unit version = .error failed ↔ gate.world.resolve unit = .error failed)) := by
  refine ⟨?_, ?_, ?_⟩
  · intro listed ran
    rw [candidates_eq_assess versions schema.unit_keys (candidates_ok_fits ran)] at ran
    have keys := Effects.map_m_shows (fun row => (row.unit.name, row.version))
      (fun candidate => (candidate.unitName, candidate.version)) ran
      fun row candidate judged => Prod.ext (candidate_of_assess judged).1 (candidate_of_assess judged).2.1
    refine ⟨keys ▸ row_keys_nodup versions names, ?_, ?_⟩
    · intro name version
      rw [keys, List.mem_map]
      constructor
      · rintro ⟨row, member, same⟩
        cases same
        obtain ⟨inUnits, _⟩ := mem_candidate_rows.mp member
        exact ⟨row.unit, inUnits, rfl, (superseded_iff_row inUnits).mpr ⟨row, member, rfl, rfl⟩⟩
      · rintro ⟨unit, inUnits, rfl, superseded⟩
        obtain ⟨row, member, rfl, rfl⟩ := (superseded_iff_row inUnits).mp superseded
        exact ⟨row, member, rfl⟩
    · intro candidate member unit inUnits named
      obtain ⟨row, inRows, judged⟩ := (Effects.map_m_mem ran).2 candidate member
      obtain ⟨sameName, version, judged⟩ := candidate_of_assess judged
      have same : row.unit = unit := List.inj_on_of_nodup_map names (mem_candidate_rows.mp inRows).1
        inUnits (named.trans sameName).symm
      rw [← same, version, judged]
  · rw [candidates_error_iff versions schema.unit_keys]
    constructor
    · rintro ⟨row, member, fails⟩
      have inUnits := (mem_candidate_rows.mp member).1
      exact ⟨row.unit, inUnits, row.version, (superseded_iff_row inUnits).mpr ⟨row, member, rfl, rfl⟩,
        fails.imp_right (overflows_of_row versions member).mpr⟩
    · rintro ⟨unit, inUnits, version, superseded, fails⟩
      obtain ⟨row, member, rfl, rfl⟩ := (superseded_iff_row inUnits).mp superseded
      exact ⟨row, member, fails.imp_right (overflows_of_row versions member).mp⟩
  · intro unit inUnits version superseded
    obtain ⟨row, member, rfl, rfl⟩ := (superseded_iff_row inUnits).mp superseded
    rw [overflows_of_row versions member]
    exact ⟨assess_overflow versions member, fun fits failed =>
      assess_error_iff versions member (not_lt.mp fits)⟩

end Reclaim

/-- One unit, its first two versions below the third; each version one set on one sealed tape, the
first of them of two slices. -/
def supersededTwice : Tables where
  units := [⟨1, "u-1", "photos", .active⟩]
  snapshots := [⟨11, 1, 1, .current⟩, ⟨12, 1, 2, .current⟩, ⟨13, 1, 3, .current⟩]
  stageSets := [⟨21, 11, .cleaned⟩, ⟨22, 12, .cleaned⟩, ⟨23, 13, .cleaned⟩]
  stageSlices := [⟨31, 21, 1, none, none⟩, ⟨34, 21, 2, none, none⟩, ⟨32, 22, 1, none, none⟩,
    ⟨33, 23, 1, none, none⟩]
  volumes := [⟨41, "L6-0001", .sealed, .ok, some 51, some "2026-01-01", none⟩]
  deposits := []
  writes := [⟨61, 21, 11, 41, .completed, false, false⟩, ⟨62, 22, 12, 41, .completed, false, false⟩,
    ⟨63, 23, 13, 41, .completed, false, false⟩]
  positions := [⟨61, 31, 3, .written⟩, ⟨61, 34, 4, .written⟩, ⟨62, 32, 5, .written⟩,
    ⟨63, 33, 6, .written⟩]

/-- One copy at home is asked for, and every slice has `size` bytes. -/
def oneCopyAtHome (size : Nat) : Reclaim String where
  world :=
    { fileOf := id
      listing := fun _ => []
      removal := fun _ => .absent
      now := "2026-01-02"
      volumeSessionLive := fun _ => false
      rewriteHolds := .ok []
      resolve := fun _ => .ok ⟨1, [("home", 1)]⟩
      locations := [(51, "home")]
      tapeOnlySafetyMultiplier := 2 }
  minLocations := 1
  encryptedBytes := fun _ => size
  tables := supersededTwice

/-- The report lists both lower versions with their bytes, as the gate judges them. -/
theorem reclaim_report_is_the_gate_twice :
    let listed : List Candidate :=
      [⟨"photos", 1, .releasable 3 20⟩, ⟨"photos", 2, .releasable 3 10⟩]
    (oneCopyAtHome 10).candidates = .ok listed ∧
      ∀ candidate ∈ listed, ∀ unit ∈ supersededTwice.units, unit.name = candidate.unitName →
        (oneCopyAtHome 10).assess unit candidate.version = .ok candidate.verdict := by
  have schema : supersededTwice.Schema := by constructor <;> decide
  have ran : (oneCopyAtHome 10).candidates =
      .ok [⟨"photos", 1, .releasable 3 20⟩, ⟨"photos", 2, .releasable 3 10⟩] := by decide +kernel
  exact ⟨ran, (((oneCopyAtHome 10).reclaim_report_is_the_gate schema (by decide) (by decide)).1 _ ran).2.2⟩

/-- Every policy resolves and every size is an `i64`, and the report fails for their sum. -/
theorem reclaim_report_overflows :
    (oneCopyAtHome (2 ^ 62)).candidates = .error "integer overflow" ∧
      (∀ slice, (oneCopyAtHome (2 ^ 62)).encryptedBytes slice ≤ maxI64) ∧
      ∀ unit, ∃ policy, (oneCopyAtHome (2 ^ 62)).world.resolve unit = .ok policy :=
  ⟨by decide +kernel, fun _ => (by decide : ((2 ^ 62 : Nat) : Int) ≤ maxI64), fun _ => ⟨_, rfl⟩⟩

end Tapectl.Policy
