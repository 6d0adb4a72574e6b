import Tapectl.Db.Catalog
import Tapectl.Library.Grouping
import Tapectl.Volume.CrossIndex

/-!
# What a tenant's index shows

`volume/index.rs::generate` and `coverage::index_versions_for_runs`: one pair of statements for every
tenant, sorted and deduplicated together, split into files afterwards. A tenant's two files depend on the
volumes, the cartridges and the tenant's own rows.

A statement without ORDER BY returns its rows in an order SQLite chooses; `Engine` is that choice.
-/

namespace Tapectl.Volume.Index

open StoredText Db Grouping

structure TenantRow where
  id : Int
  name : Text
  deriving DecidableEq

structure UnitRow where
  id : Int
  uuid : Text
  name : Text
  tenantId : Int
  deriving DecidableEq

structure SliceRow where
  id : Int
  stageSetId : Int
  sliceNumber : Int
  encryptedBytes : Int
  deriving DecidableEq

structure VolumeRow where
  id : Int
  label : Text
  uuid : Option Text
  mediaType : Option Text
  status : VolumeStatus
  observedCondition : Condition
  sealedAt : Option Text
  deriving DecidableEq

/-- A row of `cartridge_volumes`. -/
structure MountRow where
  volumeId : Int
  cartridgeId : Int
  deriving DecidableEq

structure CartridgeRow where
  id : Int
  serialNumber : Option Text
  deriving DecidableEq

structure PathRow where
  id : Int
  unitId : Int
  path : Text
  deriving DecidableEq

structure FileVersionRow where
  snapshotId : Int
  pathId : Int
  kind : Int64
  sizeBytes : Int64
  sha256 : Option Bytes
  deriving DecidableEq

structure Tables where
  tenants : List TenantRow
  units : List UnitRow
  snapshots : List SnapshotRow
  stageSets : List StageSetRow
  slices : List SliceRow
  writes : List WriteRow
  positions : List PositionRow
  volumes : List VolumeRow
  mounts : List MountRow
  cartridges : List CartridgeRow
  paths : List PathRow
  fileVersions : List FileVersionRow

/-- The keys and UNIQUE columns of the schema that the index leans on. -/
structure Tables.Schema (tables : Tables) : Prop where
  tenant_keys : (tables.tenants.map TenantRow.id).Nodup
  unit_keys : (tables.units.map UnitRow.id).Nodup
  snapshot_keys : (tables.snapshots.map SnapshotRow.id).Nodup
  stage_set_keys : (tables.stageSets.map StageSetRow.id).Nodup
  volume_keys : (tables.volumes.map VolumeRow.id).Nodup
  volume_labels : (tables.volumes.map VolumeRow.label).Nodup
  write_once : (tables.writes.map fun write => (write.stageSetId, write.volumeId)).Nodup

structure IndexThisTape where
  label : Text
  uuid : Text
  cartridgeSerial : Text
  generation : Text

structure IndexRun where
  stageSetId : Int
  slices : Option (Int64 × Int64)

def wholeRun (numSlices : Int64) : Int64 × Int64 := if 0 < numSlices then (1, numSlices) else (0, 0)

/-- `planned.get(&id).copied().flatten()`: of two runs of one set the last. -/
def plannedRun (runs : List IndexRun) (stageSet : Int) : Option (Int64 × Int64) :=
  (runs.filter (·.stageSetId = stageSet)).getLast?.bind IndexRun.slices

def carries (runs : List IndexRun) (stageSet : Int) : Bool := runs.any (·.stageSetId = stageSet)

section Statements

variable (tables : Tables) (this : IndexThisTape) (runs : List IndexRun)

def sliceCount (stageSet : Int) : Int64 :=
  Int64.ofNat (tables.slices.filter (·.stageSetId = stageSet)).length

def sliceBytes (stageSet : Int) : Int64 :=
  Int64.ofInt ((tables.slices.filter (·.stageSetId = stageSet)).map SliceRow.encryptedBytes).sum

/-- The slice numbers a write has `written`. -/
def writtenSlices (write : Int) : List Int :=
  (tables.positions.filter fun position => position.writeId = write ∧ position.status = .written).flatMap
    fun position => (tables.slices.filter (·.id = position.stageSliceId)).map SliceRow.sliceNumber

structure SetJoin where
  tenant : TenantRow
  unit : UnitRow
  snapshot : SnapshotRow
  stageSet : StageSetRow

def setJoins : List SetJoin :=
  tables.tenants.flatMap fun tenant =>
    (tables.units.filter (·.tenantId = tenant.id)).flatMap fun unit =>
      (tables.snapshots.filter (·.unitId = unit.id)).flatMap fun snapshot =>
        (tables.stageSets.filter (·.snapshotId = snapshot.id)).map fun stageSet =>
          ⟨tenant, unit, snapshot, stageSet⟩

/-- `s.id IN (SELECT snapshot_id FROM stage_sets WHERE id IN (..))`. -/
def carriedVersion (snapshot : Int) : Bool :=
  tables.stageSets.any fun stageSet => stageSet.snapshotId = snapshot && carries runs stageSet.id

/-- `cartridge_volumes` has one row a volume, so the outer joins add no rows. -/
def serialOf (volume : Int) : Text :=
  (((tables.mounts.find? (·.volumeId = volume)).bind fun mount =>
    tables.cartridges.find? (·.id = mount.cartridgeId)).bind CartridgeRow.serialNumber).getD []

def listed (join : SetJoin) (write : WriteRow) (volume : VolumeRow) : Bool :=
  (write.status = .completed || write.status = .range) && volume.status = .sealed &&
    volume.label ≠ this.label &&
    (join.snapshot.status = .current || carriedVersion tables runs join.snapshot.id)

def holderRun (write : WriteRow) : Int64 × Int64 :=
  if write.status = .range then
    (Int64.ofInt ((writtenSlices tables write.id).min?.getD 0),
      Int64.ofInt ((writtenSlices tables write.id).max?.getD 0))
  else wholeRun (sliceCount tables write.stageSetId)

def holderRow (join : SetJoin) (write : WriteRow) (volume : VolumeRow) : IndexVersionRow where
  tenantId := join.tenant.id
  tenant := join.tenant.name
  unitId := join.unit.id
  unit := join.unit.name
  unitUuid := join.unit.uuid
  snapshotId := join.snapshot.id
  version := Int64.ofInt join.snapshot.version
  numSlices := sliceCount tables write.stageSetId
  versionBytes := sliceBytes tables write.stageSetId
  firstSlice := (holderRun tables write).1
  lastSlice := (holderRun tables write).2
  volume := volume.label
  volumeUuid := volume.uuid.getD []
  cartridgeSerial := serialOf tables volume.id
  generation := volume.mediaType.getD []
  state := if volume.observedCondition = .ok then .sealed else .quarantined
  sealedAt := volume.sealedAt.getD []

abbrev SetRow := IndexVersionRow × Int

/-- The rows of `holders_sql` for one stage set. -/
def holdersOf (join : SetJoin) : List SetRow :=
  (tables.writes.filter (·.stageSetId = join.stageSet.id)).flatMap fun write =>
    ((tables.volumes.filter (·.id = write.volumeId)).filter (listed tables this runs join write)).map
      fun volume => (holderRow tables join write volume, write.stageSetId)

def thisRun (stageSet : Int) : Int64 × Int64 :=
  (plannedRun runs stageSet).getD (wholeRun (sliceCount tables stageSet))

def thisRow (join : SetJoin) : IndexVersionRow where
  tenantId := join.tenant.id
  tenant := join.tenant.name
  unitId := join.unit.id
  unit := join.unit.name
  unitUuid := join.unit.uuid
  snapshotId := join.snapshot.id
  version := Int64.ofInt join.snapshot.version
  numSlices := sliceCount tables join.stageSet.id
  versionBytes := sliceBytes tables join.stageSet.id
  firstSlice := (thisRun tables runs join.stageSet.id).1
  lastSlice := (thisRun tables runs join.stageSet.id).2
  volume := this.label
  volumeUuid := this.uuid
  cartridgeSerial := this.cartridgeSerial
  generation := this.generation
  state := .thisTape
  sealedAt := []

end Statements

variable (tables : Tables)

section Lists

variable {Item Result : Type}

variable {items : List Item}

end Lists

section Restriction

variable {tables : Tables} {tenant : Int}

variable {this : IndexThisTape} {runs : List IndexRun} {join : SetJoin}

end Restriction

section Keys

variable {tables : Tables} {this : IndexThisTape} {runs : List IndexRun}

inductive Comes (tables : Tables) (this : IndexThisTape) (runs : List IndexRun) : SetRow → Prop where
  | holder (join : SetJoin) (write : WriteRow) (volume : VolumeRow) (joined : join ∈ setJoins tables)
      (wrote : write ∈ tables.writes) (onSet : write.stageSetId = join.stageSet.id)
      (placed : volume ∈ tables.volumes) (onVolume : volume.id = write.volumeId)
      (other : volume.label ≠ this.label) :
      Comes tables this runs (holderRow tables join write volume, write.stageSetId)
  | thisTape (join : SetJoin) (joined : join ∈ setJoins tables) :
      Comes tables this runs (thisRow tables this runs join, join.stageSet.id)

variable {row : SetRow}

theorem Comes.join (comes : Comes tables this runs row) :
    ∃ join ∈ setJoins tables, row.1.tenantId = join.tenant.id ∧ row.1.unitId = join.unit.id ∧
      row.1.snapshotId = join.snapshot.id := by
  cases comes with
  | holder join write volume joined => exact ⟨join, joined, rfl, rfl, rfl⟩
  | thisTape join joined => exact ⟨join, joined, rfl, rfl, rfl⟩

end Keys

section Part

variable {tables : Tables} {this : IndexThisTape} {runs : List IndexRun} {tenant : Int}

end Part

section Files

variable {read : Text → Option Text} {debug : Text → String} {tables : Tables} {tenant : Int}

end Files

end Tapectl.Volume.Index
