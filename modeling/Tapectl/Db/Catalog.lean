import Mathlib

/-!
# The catalog's tables

The rows of `db/migrations` the modelled queries read, with the CHECKed status columns as
enumerations. A table is the list of its rows. `Schema` holds the keys, the UNIQUE constraints and
the references the schema declares; a `Catalog` is tables that meet it. Ids are `INTEGER` columns.
-/

namespace Tapectl.Db

inductive UnitStatus where
  | active
  | tapeOnly
  | missing
  deriving DecidableEq, Repr

structure UnitRow where
  id : Int
  uuid : String
  name : String
  status : UnitStatus
  deriving DecidableEq, Repr

inductive SnapshotStatus where
  | created
  | staged
  | current
  | reclaimable
  | purged
  deriving DecidableEq, Repr

structure SnapshotRow where
  id : Int
  unitId : Int
  version : Int
  status : SnapshotStatus
  deriving DecidableEq, Repr

inductive StageSetStatus where
  | staging
  | staged
  | failed
  | cleaned
  deriving DecidableEq, Repr

structure StageSetRow where
  id : Int
  snapshotId : Int
  status : StageSetStatus
  deriving DecidableEq, Repr

structure StageSliceRow where
  id : Int
  stageSetId : Int
  sliceNumber : Int
  stagingPath : Option String
  releasedAt : Option String
  deriving DecidableEq, Repr

inductive VolumeStatus where
  | initialized
  | active
  | retired
  | erased
  | sealed
  deriving DecidableEq, Repr

inductive Condition where
  | ok
  | quarantined
  deriving DecidableEq, Repr

structure VolumeRow where
  id : Int
  label : String
  status : VolumeStatus
  observedCondition : Condition
  locationId : Option Int
  sealedAt : Option String
  endedAfter : Option Int
  deriving DecidableEq, Repr

structure DepositRow where
  volumeId : Int
  locationId : Int
  deriving DecidableEq, Repr

inductive WriteStatus where
  | planned
  | inProgress
  | completed
  | failed
  | aborted
  | interrupted
  | cut
  | range
  deriving DecidableEq, Repr

structure WriteRow where
  id : Int
  stageSetId : Int
  snapshotId : Int
  volumeId : Int
  status : WriteStatus
  writeVerified : Bool
  maySpan : Bool
  deriving DecidableEq, Repr

inductive PositionStatus where
  | pending
  | writing
  | written
  | verified
  | failed
  | sacrificed
  deriving DecidableEq, Repr

/-- `position` is the column cast to an integer, as every query reads it. -/
structure PositionRow where
  writeId : Int
  stageSliceId : Int
  position : Int
  status : PositionStatus
  deriving DecidableEq, Repr

structure Tables where
  units : List UnitRow
  snapshots : List SnapshotRow
  stageSets : List StageSetRow
  stageSlices : List StageSliceRow
  volumes : List VolumeRow
  deposits : List DepositRow
  writes : List WriteRow
  positions : List PositionRow
  deriving DecidableEq, Repr

structure Tables.Schema (tables : Tables) : Prop where
  unit_keys : (tables.units.map UnitRow.id).Nodup
  snapshot_keys : (tables.snapshots.map SnapshotRow.id).Nodup
  stage_set_keys : (tables.stageSets.map StageSetRow.id).Nodup
  stage_slice_keys : (tables.stageSlices.map StageSliceRow.id).Nodup
  slice_numbers : (tables.stageSlices.map fun slice =>
    (slice.stageSetId, slice.sliceNumber)).Nodup
  volume_keys : (tables.volumes.map VolumeRow.id).Nodup
  deposit_once : tables.deposits.Nodup
  write_keys : (tables.writes.map WriteRow.id).Nodup
  write_once : (tables.writes.map fun write => (write.stageSetId, write.volumeId)).Nodup
  position_once : (tables.positions.map fun position =>
    (position.writeId, position.stageSliceId)).Nodup
  snapshot_unit : ∀ snapshot ∈ tables.snapshots, ∃ unit ∈ tables.units, unit.id = snapshot.unitId
  stage_set_snapshot : ∀ set ∈ tables.stageSets, ∃ snapshot ∈ tables.snapshots,
    snapshot.id = set.snapshotId
  stage_slice_set : ∀ slice ∈ tables.stageSlices, ∃ set ∈ tables.stageSets,
    set.id = slice.stageSetId
  write_set : ∀ write ∈ tables.writes, ∃ set ∈ tables.stageSets, set.id = write.stageSetId
  write_volume : ∀ write ∈ tables.writes, ∃ volume ∈ tables.volumes, volume.id = write.volumeId
  deposit_volume : ∀ deposit ∈ tables.deposits, ∃ volume ∈ tables.volumes,
    volume.id = deposit.volumeId
  position_write : ∀ position ∈ tables.positions, ∃ write ∈ tables.writes,
    write.id = position.writeId
  position_slice : ∀ position ∈ tables.positions, ∃ slice ∈ tables.stageSlices,
    slice.id = position.stageSliceId
  range_spans : ∀ write ∈ tables.writes, write.status = .range → write.maySpan = true

structure Catalog where
  tables : Tables
  schema : tables.Schema

/-! A lookup by key finds the one row. -/

section Keys

variable {Row Key : Type*} [DecidableEq Key] {key : Row → Key} {rows : List Row} {row : Row}

theorem filter_key (nodup : (rows.map key).Nodup) (member : row ∈ rows) :
    (rows.filter fun other => key other = key row) = [row] := by
  induction rows with
  | nil => cases member
  | cons first rest ih =>
    obtain ⟨fresh, nodup⟩ := List.nodup_cons.mp nodup
    rcases List.mem_cons.mp member with rfl | listed
    · rw [List.filter_cons_of_pos (by simp), List.filter_eq_nil_iff.mpr]
      intro other listed same
      rw [← of_decide_eq_true same] at fresh
      exact fresh (List.mem_map_of_mem listed)
    · rw [List.filter_cons_of_neg, ih nodup listed]
      intro same
      rw [of_decide_eq_true same] at fresh
      exact fresh (List.mem_map_of_mem listed)

theorem find_key (nodup : (rows.map key).Nodup) (member : row ∈ rows) :
    (rows.find? fun other => key other = key row) = some row := by
  rw [← List.head?_filter, filter_key nodup member]
  rfl

end Keys

end Tapectl.Db
