import Tapectl.Policy.FaultTolerance

/-!
# The retire floor

`versions_at_stake` of `policy/coverage.rs` with `retire_impacts` and `refuse_last_eligible_copy` of
`cli/operations.rs`. A retirement the floor lets through leaves every current version that was fully
held fully held, and every slice of a span in progress on another tape. The floor's error is the
values its text is written from.
-/

namespace Tapectl.Policy

open Tapectl.Db

def conditionOk (volume : VolumeRow) : Bool := volume.observedCondition = .ok

def writeReachesTape (write : WriteRow) : Bool :=
  write.status = .completed || write.status = .range || write.status = .inProgress ||
    write.status = .interrupted

def holdsSealedBytes (volume : VolumeRow) : Bool :=
  (volume.status = .sealed || volume.sealedAt.isSome) &&
    !(volume.status = .retired || volume.status = .erased) && conditionOk volume

variable (tables : Tables)

/-- A written position of the slice in a write that holds slices, on an eligible volume other than
`volume`. -/
def heldElsewhere (slice volume : Int) : Bool :=
  tables.positions.any fun position =>
    tables.writes.any fun write =>
      tables.volumes.any fun row =>
        write.id = position.writeId && row.id = write.volumeId && position.stageSliceId = slice &&
          write.volumeId ≠ volume && holdsSlices write && position.status = .written && eligible row

structure VersionAtStake where
  snapshotId : Int
  volumeId : Int
  version : Int
  copiesAfter : Nat
  locationsAfter : Nat
  deriving DecidableEq, Repr

/-- The write on `row` puts the version at stake: a current version's bytes, or slices of a span in
progress that no other tape has. -/
def atStake (snapshot : SnapshotRow) (write : WriteRow) (row : VolumeRow) : Bool :=
  (snapshot.status = .current && writeReachesTape write && holdsSealedBytes row) ||
    (!(snapshot.status = .current || snapshot.status = .reclaimable || snapshot.status = .purged) &&
      write.status = .range && eligible row &&
      tables.positions.any fun position =>
        position.writeId = write.id && position.status = .written &&
          !heldElsewhere tables position.stageSliceId write.volumeId)

def versionAfter (volume : Int) (snapshot : SnapshotRow) : VersionAtStake :=
  ⟨snapshot.id, volume, snapshot.version,
    copyCountExpr tables ⟨.snapshot snapshot.id, some volume⟩,
    locationCountExpr tables ⟨.snapshot snapshot.id, some volume⟩⟩

def versionsAtStake (unit volume : Int) : List VersionAtStake :=
  let rows := tables.snapshots.flatMap fun snapshot =>
    (tables.stageSets.filter fun set => set.snapshotId = snapshot.id).flatMap fun set =>
      (tables.writes.filter fun write => write.stageSetId = set.id).flatMap fun write =>
        (tables.volumes.filter fun row => row.id = write.volumeId &&
          snapshot.unitId = unit && write.volumeId = volume &&
          atStake tables snapshot write row).map fun _ => versionAfter tables volume snapshot
  rows.dedup.insertionSort fun one other => one.version ≤ other.version

structure RetireImpact where
  unitName : String
  unitStatus : UnitStatus
  otherCopies : Nat
  atStake : List VersionAtStake
  deriving DecidableEq, Repr

/-- One impact for each unit with a write on the volume that reached the tape. -/
def retireImpacts (volume : Int) : List RetireImpact :=
  let units := tables.units.flatMap fun unit =>
    (tables.snapshots.filter fun snapshot => snapshot.unitId = unit.id).flatMap fun snapshot =>
      (tables.stageSets.filter fun set => set.snapshotId = snapshot.id).flatMap fun set =>
        (tables.writes.filter fun write => write.stageSetId = set.id && write.volumeId = volume &&
          writeReachesTape write).map fun _ => unit
  (units.dedup.insertionSort fun one other => one.name ≤ other.name).map fun unit =>
    ⟨unit.name, unit.status, copyCountExpr tables ⟨.unit unit.id false, some volume⟩,
      versionsAtStake tables unit.id volume⟩

def stageSetHasLiveSlices (status : StageSetStatus) : Bool := status = .staging || status = .staged

def versionHasLiveStageSet (unit : String) (version : Int) : Bool :=
  tables.stageSets.any fun set => tables.snapshots.any fun snapshot => tables.units.any fun row =>
    snapshot.id = set.snapshotId && row.id = snapshot.unitId && row.name = unit &&
      snapshot.version = version && stageSetHasLiveSlices set.status

def isSealedButUnconfirmed (label : String) : Bool :=
  tables.volumes.any fun row =>
    row.label = label && row.status ≠ .sealed && row.sealedAt.isSome

structure LastEligibleCopy where
  act : String
  volumeLabel : String
  whole : List (String × Int)
  spans : List (String × Int)
  restage : List (String × Int)
  alreadyStaged : List (String × Int)
  sealedButUnconfirmed : Bool
  deriving DecidableEq, Repr

inductive RetireError where
  | queryReturnedNoRows
  | lastEligibleCopy (refusal : LastEligibleCopy)
  deriving DecidableEq, Repr

def doomedVersion (row : String × VersionAtStake) : Except RetireError ((String × Int) × Bool) :=
  match tables.snapshots.find? fun snapshot => snapshot.id = row.2.snapshotId with
  | none => .error .queryReturnedNoRows
  | some snapshot => .ok ((row.1, row.2.version), snapshot.status = .current)

def refuseLastEligibleCopy (act volumeLabel : String)
    (impacts : List RetireImpact) : Except RetireError Unit := do
  let doomed ← (impacts.flatMap fun impact =>
    (impact.atStake.filter fun version => version.copiesAfter = 0).map fun version =>
      (impact.unitName, version)).mapM (doomedVersion tables)
  let whole := (doomed.filter fun row => row.2).map Prod.fst
  let spans := (doomed.filter fun row => !row.2).map Prod.fst
  if (whole ++ spans).isEmpty then return ()
  throw (.lastEligibleCopy ⟨act, volumeLabel, whole, spans,
    whole.filter fun row => !versionHasLiveStageSet tables row.1 row.2,
    whole.filter fun row => versionHasLiveStageSet tables row.1 row.2,
    isSealedButUnconfirmed tables volumeLabel⟩)

theorem refuse_ok {tables : Tables} {act volumeLabel : String} {impacts : List RetireImpact}
    (passed : refuseLastEligibleCopy tables act volumeLabel impacts = .ok ()) :
    ∀ impact ∈ impacts, ∀ version ∈ impact.atStake, 0 < version.copiesAfter := by
  intro impact member version listed
  by_contra none
  have doomed : (impact.unitName, version) ∈ impacts.flatMap fun impact =>
      (impact.atStake.filter fun version => version.copiesAfter = 0).map fun version =>
        (impact.unitName, version) :=
    List.mem_flatMap.mpr ⟨impact, member, List.mem_map.mpr
      ⟨version, List.mem_filter.mpr ⟨listed, by simpa using none⟩, rfl⟩⟩
  unfold refuseLastEligibleCopy at passed
  revert doomed passed
  generalize (impacts.flatMap fun impact =>
    (impact.atStake.filter fun version => version.copiesAfter = 0).map fun version =>
      (impact.unitName, version)) = rows
  intro passed doomed
  cases rows with
  | nil => cases doomed
  | cons first rest =>
    rw [List.mapM_cons] at passed
    cases head : doomedVersion tables first with
    | error => simp [head, bind, Except.bind] at passed
    | ok row =>
      cases tail : rest.mapM (doomedVersion tables) with
      | error => simp [head, tail, bind, Except.bind] at passed
      | ok rows =>
        obtain ⟨named, current⟩ := row
        cases current <;>
          simp [head, tail, bind, Except.bind, pure, Except.pure, throw, throwThe,
            MonadExceptOf.throw] at passed

variable {set : StageSetRow} {row : VolumeRow} {volume : Int}

/-- A write of the version that puts it at stake on its volume. -/
structure Staked (tables : Tables) (snapshot : SnapshotRow) (set : StageSetRow) (write : WriteRow)
    (row : VolumeRow) : Prop where
  inSnapshots : snapshot ∈ tables.snapshots
  inSets : set ∈ versionSets tables snapshot.id
  inWrites : write ∈ tables.writes
  ofSet : write.stageSetId = set.id
  inVolumes : row ∈ tables.volumes
  onVolume : row.id = write.volumeId
  reaches : writeReachesTape write = true
  stake : atStake tables snapshot write row = true

theorem mem_retire_impacts {catalog : Catalog} {snapshot : SnapshotRow} {write : WriteRow}
    (staked : Staked catalog.tables snapshot set write row) :
    ∃ impact ∈ retireImpacts catalog.tables write.volumeId,
      versionAfter catalog.tables write.volumeId snapshot ∈ impact.atStake := by
  obtain ⟨inSnapshots, inSets, inWrites, ofSet, inVolumes, onVolume, reaches, stake⟩ := staked
  obtain ⟨unit, inUnits, ofUnit⟩ := catalog.schema.snapshot_unit snapshot inSnapshots
  refine ⟨⟨unit.name, unit.status, _, versionsAtStake catalog.tables unit.id write.volumeId⟩,
    List.mem_map.mpr ⟨unit, ?_, rfl⟩, ?_⟩
  · rw [List.mem_insertionSort, List.mem_dedup]
    refine List.mem_flatMap.mpr ⟨unit, inUnits, List.mem_flatMap.mpr ⟨snapshot, ?_,
      List.mem_flatMap.mpr ⟨set, inSets, List.mem_map.mpr ⟨write, ?_, rfl⟩⟩⟩⟩
    · exact List.mem_filter.mpr ⟨inSnapshots, by simpa using ofUnit.symm⟩
    · exact List.mem_filter.mpr ⟨inWrites, by simp [ofSet, reaches]⟩
  · rw [versionsAtStake, List.mem_insertionSort, List.mem_dedup]
    refine List.mem_flatMap.mpr ⟨snapshot, inSnapshots, List.mem_flatMap.mpr ⟨set, inSets,
      List.mem_flatMap.mpr ⟨write, ?_, List.mem_map.mpr ⟨row, ?_, rfl⟩⟩⟩⟩
    · exact List.mem_filter.mpr ⟨inWrites, by simpa using ofSet⟩
    · exact List.mem_filter.mpr ⟨inVolumes, by simp [onVolume, ofUnit, stake]⟩

/-- The volume's status becomes `retired`. -/
def retire (volume : Int) : Tables :=
  { tables with volumes := tables.volumes.map fun row =>
      if row.id = volume then { row with status := .retired } else row }

theorem mem_retire_volumes {tables : Tables} :
    row ∈ (retire tables volume).volumes ↔ (row ∈ tables.volumes ∧ row.id ≠ volume) ∨
      ∃ old ∈ tables.volumes, old.id = volume ∧ row = { old with status := .retired } := by
  rw [retire, List.mem_map]
  constructor
  · rintro ⟨old, member, rfl⟩
    by_cases same : old.id = volume
    · exact .inr ⟨old, member, same, by rw [if_pos same]⟩
    · rw [if_neg same]
      exact .inl ⟨member, same⟩
  · rintro (⟨member, differ⟩ | ⟨old, member, same, rfl⟩)
    · exact ⟨row, member, if_neg differ⟩
    · exact ⟨old, member, if_pos same⟩

theorem sealed_after_retire {tables : Tables} (member : row ∈ (retire tables volume).volumes)
    (sealed : row.status = .sealed) :
    row ∈ tables.volumes ∧ row.id ≠ volume := by
  rcases mem_retire_volumes.mp member with kept | ⟨old, _, _, rfl⟩
  · exact kept
  · cases sealed

theorem retire_volume_ids (volume : Int) :
    (retire tables volume).volumes.map VolumeRow.id = tables.volumes.map VolumeRow.id := by
  rw [retire, List.map_map]
  refine List.map_congr_left fun row _ => ?_
  rw [Function.comp_apply]
  split <;> rfl

def retireVolume (catalog : Catalog) (volume : Int) : Catalog where
  tables := retire catalog.tables volume
  schema := by
    have listed : ∀ {id : Int}, (∃ row ∈ catalog.tables.volumes, row.id = id) →
        ∃ row ∈ (retire catalog.tables volume).volumes, row.id = id := by
      intro id known
      have ids : id ∈ (retire catalog.tables volume).volumes.map VolumeRow.id := by
        rw [retire_volume_ids]
        exact List.mem_map.mpr known
      exact List.mem_map.mp ids
    exact { catalog.schema with
      volume_keys := by
        rw [retire_volume_ids]
        exact catalog.schema.volume_keys
      write_volume := fun write member => listed (catalog.schema.write_volume write member)
      deposit_volume := fun deposit member => listed (catalog.schema.deposit_volume deposit member) }

theorem Holds.after_retire {tables : Tables} {set slice : Int} {holder : Holder}
    (holds : Holds tables set slice holder) (other : holder.volumeId ≠ volume) :
    Holds (retire tables volume) set slice holder := by
  obtain ⟨row, member, same, sealed⟩ := holds.volume
  exact ⟨⟨row, mem_retire_volumes.mpr (.inl ⟨member, same ▸ other⟩), same, sealed⟩,
    holds.deposited, holds.write⟩

/-- Every slice of the set is on an eligible volume other than `exclude`, or a deposit of one; a set
without slices has a completed write there. -/
structure SetHeld (tables : Tables) (set : Int) (exclude : Option Int) : Prop where
  every : ∀ slice ∈ tables.stageSlices, slice.stageSetId = set →
    ∃ holder, Holds tables set slice.id holder ∧ exclude ≠ some holder.volumeId
  whole : (∃ slice ∈ tables.stageSlices, slice.stageSetId = set) ∨
    ∃ write ∈ tables.writes, ∃ row ∈ tables.volumes, write.stageSetId = set ∧
      row.id = write.volumeId ∧ eligible row = true ∧ write.status = .completed ∧
      exclude ≠ some write.volumeId

theorem SetHeld.after_retire {tables : Tables} {set : Int} (held : SetHeld tables set (some volume)) :
    SetHeld (retire tables volume) set none := by
  refine ⟨fun slice known inSet => ?_, held.whole.imp_right ?_⟩
  · obtain ⟨holder, holds, other⟩ := held.every slice known inSet
    exact ⟨holder, holds.after_retire fun same => other (congrArg _ same.symm), nofun⟩
  · rintro ⟨write, inWrites, row, inVolumes, ofSet, same, counts, completed, other⟩
    exact ⟨write, inWrites, row, mem_retire_volumes.mpr (.inl ⟨inVolumes, fun gone =>
      other (congrArg _ (gone.symm.trans same))⟩), ofSet, same, counts, completed, nofun⟩

/-- Some stage set of the version is held. -/
def FullyHeld (snapshot : Int) : Prop :=
  ∃ set ∈ versionSets tables snapshot, SetHeld tables set.id none

/-- A range write of the version on an eligible volume has the slice. -/
def RangeHeld (snapshot slice : Int) : Prop :=
  ∃ set ∈ versionSets tables snapshot, ∃ write ∈ tables.writes, ∃ row ∈ tables.volumes,
    write.stageSetId = set.id ∧ row.id = write.volumeId ∧ write.status = .range ∧
      eligible row = true ∧ rangeHolds tables write slice = true

/-- A completed or range write on an eligible volume has the slice. -/
def SliceHeld (slice : Int) : Prop :=
  ∃ write ∈ tables.writes, ∃ row ∈ tables.volumes, row.id = write.volumeId ∧
    holdsSlices write = true ∧ eligible row = true ∧ rangeHolds tables write slice = true

/-- Every slice of the set is in a completed or range write of it on a sealed volume; a set without
slices is on one when a completed write is. -/
structure OnSealed (tables : Tables) (set : Int) : Prop where
  every : ∀ slice ∈ tables.stageSlices, slice.stageSetId = set →
    ∃ write ∈ tables.writes, ∃ row ∈ tables.volumes, write.stageSetId = set ∧
      row.id = write.volumeId ∧ row.status = .sealed ∧ writeHolds tables write slice.id = true
  some : (∃ slice ∈ tables.stageSlices, slice.stageSetId = set) ∨
    ∃ write ∈ tables.writes, ∃ row ∈ tables.volumes, write.stageSetId = set ∧
      row.id = write.volumeId ∧ row.status = .sealed ∧ write.status = .completed

def promotedStatus (status : SnapshotStatus) : Bool :=
  status = .current || status = .reclaimable || status = .purged

/-- A version with a stage set on sealed volumes has been promoted. -/
def Promoted : Prop :=
  ∀ snapshot ∈ tables.snapshots, ∀ set ∈ versionSets tables snapshot.id,
    OnSealed tables set.id → promotedStatus snapshot.status = true

theorem OnSealed.before_retire {tables : Tables} {set : Int}
    (sealed : OnSealed (retire tables volume) set) : OnSealed tables set := by
  refine ⟨fun slice member inSet => ?_, sealed.some.imp_right ?_⟩
  · obtain ⟨write, listed, row, known, ofSet, same, status, holds⟩ := sealed.every slice member inSet
    exact ⟨write, listed, row, (sealed_after_retire known status).1, ofSet, same, status, holds⟩
  · rintro ⟨write, listed, row, known, ofSet, same, status, completed⟩
    exact ⟨write, listed, row, (sealed_after_retire known status).1, ofSet, same, status, completed⟩

theorem Promoted.after_retire {tables : Tables} (promoted : Promoted tables) (volume : Int) :
    Promoted (retire tables volume) :=
  fun snapshot member set inSets sealed => promoted snapshot member set inSets sealed.before_retire

theorem write_holds_slices {tables : Tables} {write : WriteRow} {slice : Int}
    (holds : writeHolds tables write slice = true) : holdsSlices write = true := by
  simp only [writeHolds, holdsSlices, Bool.or_eq_true, Bool.and_eq_true] at holds ⊢
  exact holds.imp_right And.left

theorem holds_reaches_tape {write : WriteRow} (holds : holdsSlices write = true) :
    writeReachesTape write = true := by
  simp only [holdsSlices, Bool.or_eq_true] at holds
  simp only [writeReachesTape, Bool.or_eq_true]
  exact .inl (.inl holds)

theorem eligible_status (counts : eligible row = true) :
    row.status = .sealed := by
  simp only [eligible, Bool.and_eq_true, decide_eq_true_eq] at counts
  exact counts.1

theorem eligible_holds_sealed_bytes (counts : eligible row = true) :
    holdsSealedBytes row = true := by
  simp only [eligible, Bool.and_eq_true, decide_eq_true_eq] at counts
  simp [holdsSealedBytes, conditionOk, counts.1, counts.2]

theorem set_held_of_counted {catalog : Catalog} {snapshot : Int} {exclude : Option Int}
    (counted : 0 < (versionCount snapshot exclude set).leastCopies catalog.tables .copies)
    (every : ∀ slice ∈ catalog.tables.stageSlices, slice.stageSetId = set.id →
      ∃ holder, Holds catalog.tables set.id slice.id holder ∧ exclude ≠ some holder.volumeId) :
    SetHeld catalog.tables set.id exclude := by
  refine ⟨every, ?_⟩
  by_contra nowhere
  push Not at nowhere
  obtain ⟨none, noWhole⟩ := nowhere
  have whole : (versionCount snapshot exclude set).writes catalog.tables .completed = [] := by
    refine List.eq_nil_iff_forall_not_mem.mpr fun row listed => ?_
    obtain ⟨inWrites, inVolumes, same, ofSet, status, counts, other⟩ :=
      SliceCount.mem_writes.mp listed
    exact other (noWhole row.1 inWrites row.2 inVolumes ofSet same counts status)
  have noSlices : (catalog.tables.stageSlices.filter fun slice =>
      slice.stageSetId = (versionCount snapshot exclude set).set) = [] :=
    List.filter_eq_nil_iff.mpr fun slice known found => none slice known (of_decide_eq_true found)
  simp [SliceCount.leastCopies, SliceCount.leastCovered, SliceCount.whole, whole, noSlices] at counted

theorem SetHeld.on_sealed {tables : Tables} {set : Int} {exclude : Option Int}
    (held : SetHeld tables set exclude) : OnSealed tables set := by
  refine ⟨fun slice known inSet => ?_, held.whole.imp_right ?_⟩
  · obtain ⟨holder, holds, _⟩ := held.every slice known inSet
    obtain ⟨row, inVolumes, same, counts⟩ := holds.volume
    obtain ⟨write, inWrites, ofSet, volumeId, has⟩ := holds.write
    exact ⟨write, inWrites, row, inVolumes, ofSet, same.trans volumeId.symm,
      eligible_status counts, has⟩
  · rintro ⟨write, inWrites, row, inVolumes, ofSet, same, counts, completed, _⟩
    exact ⟨write, inWrites, row, inVolumes, ofSet, same, eligible_status counts, completed⟩

section Floor

variable {catalog : Catalog} {volume : Int} {act volumeLabel : String}
  (passed : refuseLastEligibleCopy catalog.tables act volumeLabel
    (retireImpacts catalog.tables volume) = .ok ())

include passed

variable {snapshot : SnapshotRow}

theorem held_without_volume {set : StageSetRow} {write : WriteRow} {row : VolumeRow}
    (staked : Staked catalog.tables snapshot set write row) (same : write.volumeId = volume) :
    ∃ kept ∈ versionSets catalog.tables snapshot.id, SetHeld catalog.tables kept.id (some volume) := by
  subst same
  obtain ⟨impact, listed, atStake⟩ := mem_retire_impacts staked
  have copies : 0 < copyCountExpr catalog.tables ⟨.snapshot snapshot.id, some write.volumeId⟩ :=
    refuse_ok passed impact listed _ atStake
  obtain ⟨kept, member, counted, held⟩ :=
    copies_survive catalog snapshot.id (some write.volumeId) ∅ (by simpa using copies)
  refine ⟨kept, member, set_held_of_counted counted fun slice known inKept => ?_⟩
  obtain ⟨holder, _, kept⟩ := held slice known inKept
  exact ⟨holder, kept⟩

theorem current_kept (member : snapshot ∈ catalog.tables.snapshots)
    (current : snapshot.status = .current) (held : FullyHeld catalog.tables snapshot.id) :
    FullyHeld (retire catalog.tables volume) snapshot.id := by
  obtain ⟨set, inSets, held⟩ := held
  by_cases elsewhere : SetHeld catalog.tables set.id (some volume)
  · exact ⟨set, inSets, elsewhere.after_retire⟩
  · -- the set rests on a write to the volume, so the version is at stake
    obtain ⟨write, inWrites, ofSet, onVolume, row, inVolumes, same, holds, counts⟩ :
        ∃ write ∈ catalog.tables.writes, write.stageSetId = set.id ∧ write.volumeId = volume ∧
          ∃ row ∈ catalog.tables.volumes, row.id = write.volumeId ∧ holdsSlices write = true ∧
            eligible row = true := by
      by_contra none
      refine elsewhere ⟨fun slice known inSet => ?_, held.whole.imp_right ?_⟩
      · obtain ⟨holder, holds, _⟩ := held.every slice known inSet
        obtain ⟨row, inVolumes, same, counts⟩ := holds.volume
        obtain ⟨write, inWrites, ofSet, volumeId, has⟩ := holds.write
        exact ⟨holder, holds, fun gone => none ⟨write, inWrites, ofSet,
          volumeId.trans (Option.some.inj gone).symm, row, inVolumes, same.trans volumeId.symm,
          write_holds_slices has, counts⟩⟩
      · rintro ⟨write, inWrites, row, inVolumes, ofSet, same, counts, completed, _⟩
        exact ⟨write, inWrites, row, inVolumes, ofSet, same, counts, completed, fun gone =>
          none ⟨write, inWrites, ofSet, (Option.some.inj gone).symm, row, inVolumes, same,
            by simp [holdsSlices, completed], counts⟩⟩
    have reaches := holds_reaches_tape holds
    obtain ⟨kept, inKept, remains⟩ := held_without_volume passed ⟨member, inSets, inWrites, ofSet,
      inVolumes, same, reaches,
      by simp [atStake, current, reaches, eligible_holds_sealed_bytes counts]⟩ onVolume
    exact ⟨kept, inKept, remains.after_retire⟩

theorem span_kept (promoted : Promoted catalog.tables)
    (member : snapshot ∈ catalog.tables.snapshots)
    (inProgress : promotedStatus snapshot.status = false) {slice : Int}
    (held : RangeHeld catalog.tables snapshot.id slice) :
    SliceHeld (retire catalog.tables volume) slice := by
  obtain ⟨set, inSets, write, inWrites, row, inVolumes, ofSet, same, range, counts, has⟩ := held
  have holds : holdsSlices write = true := by simp [holdsSlices, range]
  by_cases onVolume : write.volumeId = volume
  case neg =>
    exact ⟨write, inWrites, row, mem_retire_volumes.mpr (.inl ⟨inVolumes, same ▸ onVolume⟩), same,
      holds, counts, has⟩
  case pos =>
    obtain ⟨position, listed, found⟩ := List.any_eq_true.mp has
    simp only [Bool.and_eq_true, decide_eq_true_eq] at found
    obtain ⟨⟨ofWrite, rfl⟩, written⟩ := found
    by_cases elsewhere : heldElsewhere catalog.tables position.stageSliceId volume = true
    · obtain ⟨other, listed', found⟩ := List.any_eq_true.mp elsewhere
      obtain ⟨write', inWrites', found⟩ := List.any_eq_true.mp found
      obtain ⟨row', inVolumes', found⟩ := List.any_eq_true.mp found
      simp only [Bool.and_eq_true, decide_eq_true_eq] at found
      obtain ⟨⟨⟨⟨⟨⟨ofWrite', same'⟩, slice'⟩, differ⟩, holds'⟩, written'⟩, counts'⟩ := found
      refine ⟨write', inWrites', row', mem_retire_volumes.mpr (.inl ⟨inVolumes', same' ▸ differ⟩),
        same', holds', counts', List.any_eq_true.mpr ⟨other, listed', ?_⟩⟩
      simp [ofWrite'.symm, slice', written']
    · -- the sole holder: the version would be on sealed volumes without this one, and promoted
      refine absurd inProgress ?_
      have sole : catalog.tables.positions.any (fun position => position.writeId = write.id &&
          position.status = .written &&
          !heldElsewhere catalog.tables position.stageSliceId write.volumeId) = true :=
        List.any_eq_true.mpr ⟨position, listed, by simp [ofWrite, written, onVolume, elsewhere]⟩
      have stake : atStake catalog.tables snapshot write row = true := by
        simp only [atStake, sole, range, counts]
        simpa [promotedStatus] using Or.inr inProgress
      obtain ⟨kept, inKept, remains⟩ := held_without_volume passed ⟨member, inSets, inWrites, ofSet,
        inVolumes, same, holds_reaches_tape holds, stake⟩ onVolume
      rw [promoted snapshot member kept inKept remains.on_sealed]
      decide

end Floor

def CurrentKept (before after : Tables) : Prop :=
  ∀ snapshot ∈ before.snapshots, snapshot.status = .current →
    FullyHeld before snapshot.id → FullyHeld after snapshot.id

def SpansKept (before after : Tables) : Prop :=
  ∀ snapshot ∈ before.snapshots, promotedStatus snapshot.status = false →
    ∀ slice, RangeHeld before snapshot.id slice → SliceHeld after slice

inductive Retirements (first : Catalog) : Catalog → Prop
  | none : Retirements first first
  | next {catalog : Catalog} (before : Retirements first catalog) (volume : Int)
    (act volumeLabel : String)
    (passed : refuseLastEligibleCopy catalog.tables act volumeLabel
      (retireImpacts catalog.tables volume) = .ok ()) :
    Retirements first (retireVolume catalog volume)

def OwnSlices : Prop :=
  ∀ position ∈ tables.positions, ∀ write ∈ tables.writes, write.id = position.writeId →
    ∀ slice ∈ tables.stageSlices, slice.id = position.stageSliceId →
      slice.stageSetId = write.stageSetId

namespace Retirements

variable {first last : Catalog} (run : Retirements first last)

include run

theorem snapshots : last.tables.snapshots = first.tables.snapshots := by
  induction run with
  | none => rfl
  | next _ _ _ _ _ ih => exact ih

theorem promoted (start : Promoted first.tables) : Promoted last.tables := by
  induction run with
  | none => exact start
  | next _ volume _ _ _ ih => exact ih.after_retire volume

theorem own_slices (start : OwnSlices first.tables) : OwnSlices last.tables := by
  induction run with
  | none => exact start
  | next _ _ _ _ _ ih => exact ih

theorem current_kept : CurrentKept first.tables last.tables := by
  induction run with
  | none => exact fun _ _ _ held => held
  | next before volume _ _ passed ih =>
    intro snapshot member current held
    exact Policy.current_kept passed (before.snapshots ▸ member) current (ih snapshot member current held)

end Retirements

/-- A slice of a span in progress is held in its own set's range, since a completed write would have
promoted the version. -/
theorem range_held_of_slice_held {catalog : Catalog} (promoted : Promoted catalog.tables)
    (own : OwnSlices catalog.tables) {snapshot : SnapshotRow}
    (member : snapshot ∈ catalog.tables.snapshots)
    (inProgress : promotedStatus snapshot.status = false)
    (inSets : set ∈ versionSets catalog.tables snapshot.id) {slice : StageSliceRow}
    (known : slice ∈ catalog.tables.stageSlices) (inSet : slice.stageSetId = set.id)
    (held : SliceHeld catalog.tables slice.id) :
    RangeHeld catalog.tables snapshot.id slice.id := by
  obtain ⟨write, inWrites, row, inVolumes, same, holds, counts, has⟩ := held
  obtain ⟨position, listed, found⟩ := List.any_eq_true.mp has
  simp only [Bool.and_eq_true, decide_eq_true_eq] at found
  have ofSet : write.stageSetId = set.id :=
    (own position listed write inWrites found.1.1.symm slice known found.1.2.symm).symm.trans inSet
  simp only [holdsSlices, Bool.or_eq_true, decide_eq_true_eq] at holds
  rcases holds with completed | range
  · have sealed : OnSealed catalog.tables set.id :=
      ⟨fun _ _ _ => ⟨write, inWrites, row, inVolumes, ofSet, same, eligible_status counts,
        by simp [writeHolds, completed]⟩, .inl ⟨slice, known, inSet⟩⟩
    rw [promoted snapshot member set inSets sealed] at inProgress
    cases inProgress
  · exact ⟨set, inSets, write, inWrites, row, inVolumes, ofSet, same, range, counts, has⟩

namespace Retirements

variable {first last : Catalog} (run : Retirements first last)

include run

theorem range_kept (start : Promoted first.tables) (own : OwnSlices first.tables)
    {snapshot : SnapshotRow} (member : snapshot ∈ first.tables.snapshots)
    (inProgress : promotedStatus snapshot.status = false) {slice : Int}
    (held : RangeHeld first.tables snapshot.id slice) : RangeHeld last.tables snapshot.id slice := by
  induction run with
  | none => exact held
  | @next catalog before volume act volumeLabel passed ih =>
    have step := Retirements.next before volume act volumeLabel passed
    have here := span_kept passed (before.promoted start) (before.snapshots ▸ member) inProgress ih
    obtain ⟨set, inSets, write, inWrites, _, _, ofSet, _, _, _, has⟩ := ih
    obtain ⟨position, listed, found⟩ := List.any_eq_true.mp has
    simp only [Bool.and_eq_true, decide_eq_true_eq] at found
    obtain ⟨row, known, same⟩ := catalog.schema.position_slice position listed
    obtain rfl : row.id = slice := same.trans found.1.2
    refine range_held_of_slice_held (step.promoted start) (step.own_slices own)
      (step.snapshots ▸ member) inProgress inSets known ?_ here
    exact (before.own_slices own position listed write inWrites found.1.1.symm row known same).trans
      ofSet

theorem spans_kept (start : Promoted first.tables) (own : OwnSlices first.tables) :
    SpansKept first.tables last.tables := by
  intro snapshot member inProgress slice held
  obtain ⟨_, _, write, inWrites, row, inVolumes, _, same, range, counts, has⟩ :=
    run.range_kept start own member inProgress held
  exact ⟨write, inWrites, row, inVolumes, same, by simp [holdsSlices, range], counts, has⟩

end Retirements

/-- The floor never loses the last copy. Along any retirements it lets through, from a catalog where
every version on sealed volumes has been promoted, each one keeps the current versions' fully held
stage sets and the slices of the spans in progress, and so do all of them together. -/
theorem retire_floor_keeps_copies (first : Catalog) (promoted : Promoted first.tables)
    (last : Catalog) (run : Retirements first last) :
    (∀ (volume : Int) (act volumeLabel : String),
      refuseLastEligibleCopy last.tables act volumeLabel (retireImpacts last.tables volume) = .ok () →
      CurrentKept last.tables (retireVolume last volume).tables ∧
        SpansKept last.tables (retireVolume last volume).tables) ∧
      CurrentKept first.tables last.tables ∧
      (OwnSlices first.tables → SpansKept first.tables last.tables) := by
  refine ⟨fun volume act volumeLabel passed => ⟨?_, ?_⟩, run.current_kept, run.spans_kept promoted⟩
  · exact fun snapshot member current held => current_kept passed member current held
  · exact fun snapshot member inProgress slice held =>
      span_kept passed (run.promoted promoted) member inProgress held

/-- Version 1 is whole on tapes 1 and 2. Version 2 is a span in progress: its first slice is on tapes
1 and 3, its second on none. -/
def spanInProgress : Catalog where
  tables := {
    units := [⟨1, "unit-1", "photos", .active⟩]
    snapshots := [⟨1, 1, 1, .current⟩, ⟨2, 1, 2, .staged⟩]
    stageSets := [⟨1, 1, .cleaned⟩, ⟨2, 2, .staged⟩]
    stageSlices := [⟨1, 1, 1, none, none⟩, ⟨2, 2, 1, none, none⟩, ⟨3, 2, 2, none, none⟩]
    volumes := [⟨1, "L1", .sealed, .ok, some 10, none, none⟩,
      ⟨2, "L2", .sealed, .ok, some 10, none, none⟩, ⟨3, "L3", .sealed, .ok, some 10, none, none⟩]
    deposits := []
    writes := [⟨1, 1, 1, 1, .completed, true, false⟩, ⟨2, 1, 1, 2, .completed, true, false⟩,
      ⟨3, 2, 2, 1, .range, true, true⟩, ⟨4, 2, 2, 3, .range, true, true⟩]
    positions := [⟨1, 1, 4, .written⟩, ⟨2, 1, 4, .written⟩, ⟨3, 2, 5, .written⟩,
      ⟨4, 2, 4, .written⟩, ⟨4, 3, 5, .pending⟩] }
  schema := by constructor <;> decide

theorem span_in_progress_promoted : Promoted spanInProgress.tables := by
  intro snapshot member set inSets sealed
  have cases : snapshot = ⟨1, 1, 1, .current⟩ ∨ snapshot = ⟨2, 1, 2, .staged⟩ := by
    simpa [spanInProgress] using member
  rcases cases with rfl | rfl
  · rfl
  · obtain rfl : set = ⟨2, 2, .staged⟩ := by simpa [spanInProgress, versionSets] using inSets
    -- no write has the second slice
    have nowhere : ∀ write ∈ spanInProgress.tables.writes, write.stageSetId = 2 →
        writeHolds spanInProgress.tables write 3 = false := by decide
    obtain ⟨write, inWrites, _, _, ofSet, _, _, has⟩ :=
      sealed.every ⟨3, 2, 2, none, none⟩ (by decide) rfl
    rw [nowhere write inWrites ofSet] at has
    cases has

/-- Tape 1 may be retired, and tape 3 then may not. -/
theorem retire_floor_keeps_copies_span :
    refuseLastEligibleCopy spanInProgress.tables "retire volume" "L1"
        (retireImpacts spanInProgress.tables 1) = .ok () ∧
      refuseLastEligibleCopy (retireVolume spanInProgress 1).tables "retire volume" "L3"
        (retireImpacts (retireVolume spanInProgress 1).tables 3) ≠ .ok () ∧
      FullyHeld (retireVolume spanInProgress 1).tables 1 ∧
      SliceHeld (retireVolume spanInProgress 1).tables 2 := by
  have passed : refuseLastEligibleCopy spanInProgress.tables "retire volume" "L1"
      (retireImpacts spanInProgress.tables 1) = .ok () := by decide +kernel
  have kept := (retire_floor_keeps_copies spanInProgress span_in_progress_promoted _ .none).1 1 _ _
    passed
  refine ⟨passed, by decide +kernel, kept.1 ⟨1, 1, 1, .current⟩ (by decide) rfl ?_,
    kept.2 ⟨2, 1, 2, .staged⟩ (by decide) rfl 2 ?_⟩
  · refine ⟨⟨1, 1, .cleaned⟩, by decide, fun slice known inSet => ⟨.volume 2, ?_, nofun⟩,
      .inl ⟨⟨1, 1, 1, none, none⟩, by decide, rfl⟩⟩
    exact ⟨⟨⟨2, "L2", .sealed, .ok, some 10, none, none⟩, by decide, rfl, rfl⟩, by simp,
      ⟨⟨2, 1, 1, 2, .completed, true, false⟩, by decide, rfl, rfl, rfl⟩⟩
  · exact ⟨⟨2, 2, .staged⟩, by decide, ⟨3, 2, 2, 1, .range, true, true⟩, by decide,
      ⟨1, "L1", .sealed, .ok, some 10, none, none⟩, by decide, rfl, rfl, rfl, rfl, by decide⟩

end Tapectl.Policy
