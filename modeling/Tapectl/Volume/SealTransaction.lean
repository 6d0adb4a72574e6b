import Tapectl.Policy.RetireFloor
import Tapectl.Store.Confirm
import Tapectl.Volume.Sealing

/-!
# The seal transaction

What a passing confirm records, from `session.rs`: the split of each of the session's `writes` rows,
the promotions, and the volume's `sealed`, in one transaction that an `Err` rolls back. The columns
`completed_at`, `written_at` and `sha256_on_volume` are read by nothing here and are left out, and
so is the tenant a promotion's audit row names.
-/

namespace Tapectl.Session

open Tapectl.Db Tapectl.Volume Tapectl.Policy
open Tapectl.Confirm (Tier)
open Tapectl.Volume.Session (Ending)

inductive Split where
  | completed
  | range (firstSlice lastSlice : Int)
  | cut
  deriving DecidableEq, Repr

structure RangeUnit where
  unit : String
  firstSlice : Int
  lastSlice : Int
  deriving DecidableEq, Repr

def writeStatusText : WriteStatus → String
  | .planned => "planned"
  | .inProgress => "in_progress"
  | .completed => "completed"
  | .failed => "failed"
  | .aborted => "aborted"
  | .interrupted => "interrupted"
  | .cut => "cut"
  | .range => "range"

def volumeStatusText : VolumeStatus → String
  | .initialized => "initialized"
  | .active => "active"
  | .retired => "retired"
  | .erased => "erased"
  | .sealed => "sealed"

def plannedSealPosition (layout : Layout) : Except String Nat :=
  match layout.entries.find? fun entry => entry.kind = .sealMarker with
  | some entry => .ok (entry.position % 2 ^ 32).toNat
  | none => .error "layout has no seal_marker entry"

variable (tables : Tables)

def lastSlicePosition (writeId : Int) : Option Int :=
  ((tables.positions.filter fun position => position.writeId = writeId).map
    PositionRow.position).max?

/-- The write has the slice written here, at or before `endedAfter`. -/
def heldHere (writeId : Int) (slice : StageSliceRow) (endedAfter : Nat) : Bool :=
  tables.positions.any fun position =>
    position.writeId = writeId && position.stageSliceId = slice.id &&
      position.status = .written && position.position ≤ endedAfter

def slicesOfWrite (writeId : Int) : List StageSliceRow :=
  (tables.writes.filter fun write => write.id = writeId).flatMap fun write =>
    tables.stageSlices.filter fun slice => slice.stageSetId = write.stageSetId

def spanSplit (writeId : Int) (endedAfter : Nat) : Split :=
  let rows := slicesOfWrite tables writeId
  let here := rows.filter fun slice => heldHere tables writeId slice endedAfter
  let slices := (rows.map StageSliceRow.id).dedup.length
  let held := (here.map StageSliceRow.id).dedup.length
  if held = slices then .completed
  else match (here.map StageSliceRow.sliceNumber).min?, (here.map StageSliceRow.sliceNumber).max? with
    | some firstSlice, some lastSlice => .range firstSlice lastSlice
    | _, _ => .cut

structure SealedPending where
  volumeId : Int
  layout : Layout
  writeIds : List (Int × Int)
  ending : Ending
  deriving DecidableEq, Repr

variable (session : SealedPending)

/-- The last position a split counts: K on a short seal, M-1 on a full one. -/
def countedThrough : Except String Nat :=
  match session.ending with
  | .short endedAfter => .ok endedAfter
  | .full => do
    let planned ← plannedSealPosition session.layout
    return planned - 1

/-- One of the session's writes, with the status and `may_span` its row had when confirm began. -/
structure Entered where
  writeId : Int
  snapshotId : Int
  entered : WriteStatus
  maySpan : Bool
  deriving DecidableEq, Repr

/-- The statuses and `may_span` read when confirm begins. -/
def readEntryStatuses : Except String (List (WriteStatus × Bool)) :=
  session.writeIds.mapM fun ids =>
    match tables.writes.find? fun write => write.id = ids.1 with
    | none => .error "Query returned no rows"
    | some write => .ok (write.status, write.maySpan)

def enteredRows (entryStatuses : List (WriteStatus × Bool)) : List Entered :=
  (session.writeIds.zip entryStatuses).map fun row => ⟨row.1.1, row.1.2, row.2.1, row.2.2⟩

def splitWrite (ending : Ending) (through : Nat) (row : Entered) : Split :=
  if row.maySpan then spanSplit tables row.writeId through
  else
    let whole := match ending with
      | .full => true
      | .short endedAfter =>
        match lastSlicePosition tables row.writeId with
        | none => true
        | some last => decide (last ≤ endedAfter)
    if whole then .completed else .cut

def Split.record (verified : Bool) : Split → WriteRow → WriteRow
  | .completed, write => { write with status := .completed, writeVerified := verified }
  | .range _ _, write => { write with status := .range, writeVerified := verified }
  | .cut, write => { write with status := .cut }

/-- `UPDATE writes .. WHERE id = ? AND status = ?`, with the rows it changed. -/
def updateWrites (writeId : Int) (entered : WriteStatus)
    (change : WriteRow → WriteRow) : Tables × Nat :=
  ({ tables with writes := tables.writes.map fun write =>
      if write.id = writeId ∧ write.status = entered then change write else write },
    tables.writes.countP fun write => write.id = writeId ∧ write.status = entered)

/-- A range's positions past the tape's end go back to `pending`. -/
def demoteAfter (writeId : Int) (through : Nat) : Tables :=
  { tables with positions := tables.positions.map fun position =>
      if position.writeId = writeId ∧ position.status = .written ∧ (through : Int) < position.position
      then { position with status := .pending } else position }

def unitName (snapshotId : Int) : String :=
  match tables.snapshots.find? fun snapshot => snapshot.id = snapshotId with
  | none => s!"snapshot {snapshotId}"
  | some snapshot =>
    match tables.units.find? fun unit => unit.id = snapshot.unitId with
    | none => s!"snapshot {snapshotId}"
    | some unit => unit.name

structure Recording where
  tables : Tables
  wholeSnapshots : List Int
  cutUnits : List String
  rangeUnits : List RangeUnit
  rangeWrites : List (Int × Int)
  deriving DecidableEq, Repr

def writeChanged (label : String) (row : Entered) (now : Option WriteStatus) : String :=
  let gone := (now.map writeStatusText).getD "gone"
  let was := writeStatusText row.entered
  let id := row.writeId
  s!"volume \"{label}\": the confirm readback passed, but write session " ++
    s!"{id} changed while it ran (entered confirm `{was}`, now " ++
    s!"`{gone}`) — most likely `tapectl volume abort`. The catalog was NOT " ++
    "updated to sealed over it: the volume stays `initialized` and " ++
    "does not count as a copy. The tape itself is sealed; see `tapectl " ++
    "volume resume` for re-confirming an aborted session."

def volumeChanged (label : String) (now : Option VolumeStatus) : String :=
  let gone := (now.map volumeStatusText).getD "gone"
  s!"volume \"{label}\": the confirm readback passed, but the volume changed " ++
    s!"while it ran (it was `initialized` when the session began, now `{gone}`) — " ++
    "most likely `tapectl volume retire` or `cartridge retire`. The catalog " ++
    "was NOT updated to sealed over it: the volume keeps the status it was " ++
    "given and does not count as a copy. The tape itself is sealed."

def recordWrite (tier : Tier) (through : Nat) (done : Recording)
    (row : Entered) : Except String Recording :=
  let split := splitWrite done.tables session.ending through row
  let tables := match split with
    | .range _ _ => demoteAfter done.tables row.writeId through
    | _ => done.tables
  let update := updateWrites tables row.writeId row.entered (split.record (tier = .integrity))
  let updated := update.1
  if update.2 = 0 then
    .error (writeChanged session.layout.label row
      ((updated.writes.find? fun write => write.id = row.writeId).map WriteRow.status))
  else match split with
    | .completed => .ok { done with
        tables := updated, wholeSnapshots := done.wholeSnapshots ++ [row.snapshotId] }
    | .range firstSlice lastSlice => .ok { done with
        tables := updated
        rangeUnits := done.rangeUnits ++ [⟨unitName updated row.snapshotId, firstSlice, lastSlice⟩]
        rangeWrites := done.rangeWrites ++ [(row.writeId, row.snapshotId)] }
    | .cut => .ok { done with
        tables := updated, cutUnits := done.cutUnits ++ [unitName updated row.snapshotId] }

/-- The ranges whose stage set is now whole on sealed volumes, this one counted. -/
def rangesEverywhere (tables : Tables) (volumeId : Int) :
    List (Int × Int) → Except String (List Int)
  | [] => .ok []
  | (writeId, snapshotId) :: rest =>
    match tables.writes.find? fun write => write.id = writeId with
    | none => .error "Query returned no rows"
    | some write => do
      let more ← rangesEverywhere tables volumeId rest
      return if everySliceOnSealedVolume tables write.stageSetId (some volumeId)
        then snapshotId :: more else more

structure Promoted where
  snapshotId : Int
  oldStatus : SnapshotStatus
  unitName : String
  deriving DecidableEq, Repr

def promotable (status : SnapshotStatus) : Bool := status = .created || status = .staged

/-- One snapshot promoted to `current`, with the row its audit event needs. -/
def promote (done : Tables × List Promoted) (snapshotId : Int) : Tables × List Promoted :=
  let before := (done.1.snapshots.find? fun snapshot => snapshot.id = snapshotId).bind
    fun snapshot => (done.1.units.find? fun unit => unit.id = snapshot.unitId).map fun unit =>
      (⟨snapshotId, snapshot.status, unit.name⟩ : Promoted)
  let changed := done.1.snapshots.countP fun snapshot =>
    snapshot.id = snapshotId && promotable snapshot.status
  ({ done.1 with snapshots := done.1.snapshots.map fun snapshot =>
      if snapshot.id = snapshotId ∧ promotable snapshot.status = true
      then { snapshot with status := .current } else snapshot },
    if 0 < changed then done.2 ++ before.toList else done.2)

/-- `UPDATE volumes SET status = 'sealed', ended_after = ? WHERE id = ? AND status = 'initialized'`. -/
def sealVolume (volumeId : Int) (endedAfter : Option Int) : Tables × Nat :=
  ({ tables with volumes := tables.volumes.map fun volume =>
      if volume.id = volumeId ∧ volume.status = .initialized
      then { volume with status := .sealed, endedAfter := endedAfter } else volume },
    tables.volumes.countP fun volume => volume.id = volumeId ∧ volume.status = .initialized)

structure SealRecord where
  promoted : List Promoted
  cutUnits : List String
  rangeUnits : List RangeUnit
  deriving DecidableEq, Repr

def sealTransaction (entryStatuses : List (WriteStatus × Bool)) (tier : Tier) (through : Nat) :
    Except String (Tables × SealRecord) := do
  let done ← (enteredRows session entryStatuses).foldlM (recordWrite session tier through)
    ⟨tables, [], [], [], []⟩
  let ranges ← rangesEverywhere done.tables session.volumeId done.rangeWrites
  let promotions := (done.wholeSnapshots ++ ranges).foldl promote (done.tables, [])
  let update := sealVolume promotions.1 session.volumeId session.ending.recordedEndedAfter
  if update.2 = 0 then
    .error (volumeChanged session.layout.label
      ((update.1.volumes.find? fun volume => volume.id = session.volumeId).map VolumeRow.status))
  else return (update.1, ⟨promotions.2, done.cutUnits, done.rangeUnits⟩)

/-- The passing confirm's record: the transaction committed, or dropped and rolled back. -/
def recordSeal
    (entryStatuses : List (WriteStatus × Bool)) (tier : Tier) : Tables × Except String SealRecord :=
  match countedThrough session with
  | .error failed => (tables, .error failed)
  | .ok through =>
    match sealTransaction tables session entryStatuses tier through with
    | .error failed => (tables, .error failed)
    | .ok (updated, record) => (updated, .ok record)

@[simp] theorem Split.record_id (split : Split) (verified : Bool) (write : WriteRow) :
    (split.record verified write).id = write.id := by cases split <;> rfl

@[simp] theorem Split.record_stage_set (split : Split) (verified : Bool) (write : WriteRow) :
    (split.record verified write).stageSetId = write.stageSetId := by cases split <;> rfl

@[simp] theorem Split.record_volume (split : Split) (verified : Bool) (write : WriteRow) :
    (split.record verified write).volumeId = write.volumeId := by cases split <;> rfl

@[simp] theorem Split.record_may_span (split : Split) (verified : Bool) (write : WriteRow) :
    (split.record verified write).maySpan = write.maySpan := by cases split <;> rfl

section Loop

variable (tables : Tables) (session : SealedPending) (tier : Tier) (through : Nat)

/-- The row as the transaction leaves it once it has been through `rows`. -/
def recordedRow (rows : List Entered) (write : WriteRow) : WriteRow :=
  match rows.find? fun row => row.writeId = write.id with
  | some row => (splitWrite tables session.ending through row).record (tier = .integrity) write
  | none => write

/-- The transaction's state once it has been through `rows`, with nothing changed under it. -/
def recordingAfter (rows : List Entered) : Recording where
  tables := { tables with writes := tables.writes.map (recordedRow tables session tier through rows) }
  wholeSnapshots := rows.filterMap fun row =>
    match splitWrite tables session.ending through row with
    | .completed => some row.snapshotId
    | _ => none
  cutUnits := rows.filterMap fun row =>
    match splitWrite tables session.ending through row with
    | .cut => some (unitName tables row.snapshotId)
    | _ => none
  rangeUnits := rows.filterMap fun row =>
    match splitWrite tables session.ending through row with
    | .range firstSlice lastSlice => some ⟨unitName tables row.snapshotId, firstSlice, lastSlice⟩
    | _ => none
  rangeWrites := rows.filterMap fun row =>
    match splitWrite tables session.ending through row with
    | .range _ _ => some (row.writeId, row.snapshotId)
    | _ => none

@[simp] theorem recorded_row_id (rows : List Entered) (write : WriteRow) :
    (recordedRow tables session tier through rows write).id = write.id := by
  unfold recordedRow
  split <;> simp

@[simp] theorem recorded_row_stage_set (rows : List Entered) (write : WriteRow) :
    (recordedRow tables session tier through rows write).stageSetId = write.stageSetId := by
  unfold recordedRow
  split <;> simp

@[simp] theorem recorded_row_volume (rows : List Entered) (write : WriteRow) :
    (recordedRow tables session tier through rows write).volumeId = write.volumeId := by
  unfold recordedRow
  split <;> simp

variable {tables session tier through}

def AsEntered (tables : Tables) (row : Entered) : Prop :=
  ∃ write ∈ tables.writes, write.id = row.writeId ∧ write.status = row.entered

theorem split_write_recorded (rows : List Entered) (row : Entered) :
    splitWrite (recordingAfter tables session tier through rows).tables session.ending through row =
      splitWrite tables session.ending through row := by
  have slices : ∀ id, slicesOfWrite (recordingAfter tables session tier through rows).tables id =
      slicesOfWrite tables id := by
    intro id
    simp only [slicesOfWrite, recordingAfter, List.filter_map, List.flatMap_map, Function.comp_def,
      recorded_row_id, recorded_row_stage_set]
  have held : ∀ id slice, heldHere (recordingAfter tables session tier through rows).tables id slice
      through = heldHere tables id slice through := fun _ _ => rfl
  simp only [splitWrite, spanSplit, slices, held]
  rfl

theorem demote_after_eq {writeId : Int}
    (written : ∀ position ∈ tables.positions, position.writeId = writeId →
      position.status = .written → position.position ≤ through) :
    demoteAfter tables writeId through = tables := by
  have same : (tables.positions.map fun position => if position.writeId = writeId ∧
      position.status = .written ∧ (through : Int) < position.position
      then { position with status := .pending } else position) = tables.positions := by
    conv_rhs => rw [← List.map_id tables.positions]
    refine List.map_congr_left fun position member => if_neg ?_
    rintro ⟨ofWrite, status, past⟩
    have := written position member ofWrite status
    omega
  rw [demoteAfter, same]

theorem recorded_row_fresh {rows : List Entered} {write : WriteRow}
    (fresh : ∀ row ∈ rows, row.writeId ≠ write.id) :
    recordedRow tables session tier through rows write = write := by
  rw [recordedRow, List.find?_eq_none.mpr fun row member => by simpa using fresh row member]

theorem recorded_row_append {rows : List Entered} {row : Entered} (write : WriteRow)
    (fresh : ∀ prior ∈ rows, prior.writeId ≠ row.writeId) :
    recordedRow tables session tier through (rows ++ [row]) write =
      if write.id = row.writeId
      then (splitWrite tables session.ending through row).record (tier = .integrity) write
      else recordedRow tables session tier through rows write := by
  unfold recordedRow
  rw [List.find?_append]
  split_ifs with same
  · rw [List.find?_eq_none.mpr fun prior member => by simpa [same] using fresh prior member]
    simp [same]
  · have other : ([row].find? fun row => row.writeId = write.id) = none := by
      simp [Ne.symm same]
    rw [other, Option.or_none]

theorem update_writes_recorded (schema : tables.Schema) {rows : List Entered} {row : Entered}
    (fresh : ∀ prior ∈ rows, prior.writeId ≠ row.writeId) (same : AsEntered tables row) :
    (updateWrites (recordingAfter tables session tier through rows).tables row.writeId row.entered
        ((splitWrite tables session.ending through row).record (tier = .integrity))).1 =
      (recordingAfter tables session tier through (rows ++ [row])).tables := by
  obtain ⟨entered, member, id, status⟩ := same
  simp only [updateWrites, recordingAfter, List.map_map]
  congr 1
  refine List.map_congr_left fun write listed => ?_
  rw [Function.comp_apply, recorded_row_append write fresh, recorded_row_id]
  by_cases here : write.id = row.writeId
  · obtain rfl : write = entered :=
      List.inj_on_of_nodup_map schema.write_keys listed member (here.trans id.symm)
    rw [recorded_row_fresh fun prior inRows => here ▸ fresh prior inRows]
    rw [if_pos ⟨here, status⟩, if_pos here]
  · rw [if_neg fun both => here both.1, if_neg here]

theorem update_writes_count {rows : List Entered} {row : Entered}
    (fresh : ∀ prior ∈ rows, prior.writeId ≠ row.writeId) (change : WriteRow → WriteRow) :
    (updateWrites (recordingAfter tables session tier through rows).tables row.writeId row.entered
        change).2 = 0 ↔ ¬ AsEntered tables row := by
  simp only [updateWrites, recordingAfter, List.countP_eq_zero, List.mem_map, decide_eq_true_eq,
    AsEntered]
  constructor
  · rintro none ⟨write, member, id, status⟩
    refine none _ ⟨write, member, rfl⟩ ?_
    rw [recorded_row_fresh fun prior inRows => id ▸ fresh prior inRows]
    exact ⟨id, status⟩
  · rintro changed _ ⟨write, member, rfl⟩ ⟨id, status⟩
    rw [recorded_row_id] at id
    rw [recorded_row_fresh fun prior inRows => id ▸ fresh prior inRows] at status
    exact changed ⟨write, member, id, status⟩

theorem record_write_eq (schema : tables.Schema) {rows : List Entered} {row : Entered}
    (fresh : ∀ prior ∈ rows, prior.writeId ≠ row.writeId)
    (written : ∀ position ∈ tables.positions, position.writeId = row.writeId →
      position.status = .written → position.position ≤ through) :
    (AsEntered tables row → recordWrite session tier through
        (recordingAfter tables session tier through rows) row =
      .ok (recordingAfter tables session tier through (rows ++ [row]))) ∧
    (¬ AsEntered tables row → ∃ failed, recordWrite session tier through
        (recordingAfter tables session tier through rows) row = .error failed) := by
  have undemoted : demoteAfter (recordingAfter tables session tier through rows).tables row.writeId
      through = (recordingAfter tables session tier through rows).tables := demote_after_eq written
  have unnamed : ∀ snapshotId, unitName (recordingAfter tables session tier through
      (rows ++ [row])).tables snapshotId = unitName tables snapshotId := fun _ => rfl
  have count := @update_writes_count tables session tier through rows row fresh
  constructor
  · intro same
    have updated := @update_writes_recorded tables session tier through schema rows row fresh same
    have changed := fun change => (not_congr (count change)).mpr (not_not.mpr same)
    cases kind : splitWrite tables session.ending through row with
    | completed | range | cut =>
      rw [kind] at updated
      simp only [recordWrite, split_write_recorded, kind, undemoted, changed, if_false, updated,
        unnamed]
      simp [recordingAfter, kind, List.filterMap_append]
  · intro moved
    have unchanged := fun change => (count change).mpr moved
    cases kind : splitWrite tables session.ending through row with
    | completed | range | cut =>
      simp only [recordWrite, split_write_recorded, kind, undemoted, unchanged, if_true]
      exact ⟨_, rfl⟩

/-- The whole loop: it goes through when every row is as it entered confirm, and fails otherwise. -/
theorem record_writes_eq (schema : tables.Schema) {prior rows : List Entered}
    (distinct : ((prior ++ rows).map Entered.writeId).Nodup)
    (written : ∀ row ∈ rows, ∀ position ∈ tables.positions, position.writeId = row.writeId →
      position.status = .written → position.position ≤ through) :
    ((∀ row ∈ rows, AsEntered tables row) → rows.foldlM (recordWrite session tier through)
        (recordingAfter tables session tier through prior) =
      .ok (recordingAfter tables session tier through (prior ++ rows))) ∧
    ((∃ row ∈ rows, ¬ AsEntered tables row) → ∃ failed,
      rows.foldlM (recordWrite session tier through)
        (recordingAfter tables session tier through prior) = .error failed) := by
  induction rows generalizing prior with
  | nil => exact ⟨fun _ => by simp [pure, Except.pure], by simp⟩
  | cons row rest ih =>
    have shift : prior ++ row :: rest = prior ++ [row] ++ rest := by simp
    rw [shift] at distinct ⊢
    have fresh : ∀ earlier ∈ prior, earlier.writeId ≠ row.writeId := by
      intro earlier member same
      rw [List.append_assoc, List.map_append, List.nodup_append] at distinct
      exact distinct.2.2 _ (List.mem_map_of_mem member) _ (by simp) same
    obtain ⟨goes, fails⟩ := @record_write_eq tables session tier through schema prior row fresh
      (written row List.mem_cons_self)
    obtain ⟨goOn, failLater⟩ := ih distinct fun later member =>
      written later (List.mem_cons_of_mem _ member)
    rw [List.foldlM_cons]
    by_cases same : AsEntered tables row
    · rw [goes same]
      refine ⟨fun all => goOn fun later member => all later (List.mem_cons_of_mem _ member), ?_⟩
      rintro ⟨moved, member, changed⟩
      rcases List.mem_cons.mp member with rfl | member
      · exact absurd same changed
      · exact failLater ⟨moved, member, changed⟩
    · obtain ⟨failed, error⟩ := fails same
      rw [error]
      exact ⟨fun all => absurd (all row List.mem_cons_self) same, fun _ => ⟨failed, rfl⟩⟩

end Loop

theorem ranges_everywhere_ok {tables : Tables} {volumeId : Int} {ranges : List (Int × Int)}
    (known : ∀ range ∈ ranges, ∃ write ∈ tables.writes, write.id = range.1) :
    ∃ snapshots, rangesEverywhere tables volumeId ranges = .ok snapshots ∧
      ∀ snapshotId ∈ snapshots, ∃ write ∈ tables.writes, (write.id, snapshotId) ∈ ranges ∧
        everySliceOnSealedVolume tables write.stageSetId (some volumeId) = true := by
  induction ranges with
  | nil => exact ⟨[], rfl, by simp⟩
  | cons range rest ih =>
    obtain ⟨snapshots, found, inside⟩ := ih fun other member => known other (List.mem_cons_of_mem _ member)
    obtain ⟨writeId, snapshotId⟩ := range
    have later : ∀ id ∈ snapshots, ∃ write ∈ tables.writes,
        (write.id, id) ∈ (writeId, snapshotId) :: rest ∧
          everySliceOnSealedVolume tables write.stageSetId (some volumeId) = true := by
      intro id member
      obtain ⟨write, listed, ofRange, everywhere⟩ := inside id member
      exact ⟨write, listed, List.mem_cons_of_mem _ ofRange, everywhere⟩
    cases row : tables.writes.find? fun write => write.id = writeId with
    | none =>
      obtain ⟨write, listed, same⟩ := known _ List.mem_cons_self
      exact absurd (by simpa using same) (List.find?_eq_none.mp row write listed)
    | some write =>
      have same : write.id = writeId := by simpa using List.find?_some row
      simp only [rangesEverywhere, row, found, bind, Except.bind, pure, Except.pure]
      split
      case isFalse => exact ⟨snapshots, rfl, later⟩
      case isTrue everywhere =>
        refine ⟨snapshotId :: snapshots, rfl, fun id member => ?_⟩
        rcases List.mem_cons.mp member with rfl | member
        · exact ⟨write, List.mem_of_find?_eq_some row, by simp [same], everywhere⟩
        · exact later id member

theorem foldl_promote (ids : List Int) (done : Tables × List Promoted) :
    ∃ snapshots, (ids.foldl promote done).1 = { done.1 with snapshots := snapshots } ∧
      (∀ snapshot ∈ snapshots, snapshot ∈ done.1.snapshots ∨ snapshot.id ∈ ids) ∧
      ∀ entry ∈ (ids.foldl promote done).2, entry ∈ done.2 ∨ entry.snapshotId ∈ ids := by
  induction ids generalizing done with
  | nil => exact ⟨done.1.snapshots, rfl, fun _ member => .inl member, fun _ member => .inl member⟩
  | cons id rest ih =>
    obtain ⟨snapshots, changed, kept, listed⟩ := ih (promote done id)
    rw [List.foldl_cons]
    refine ⟨snapshots, changed, fun snapshot member => ?_, fun entry member => ?_⟩
    · rcases kept snapshot member with old | named
      · obtain ⟨before, known, rfl⟩ := List.mem_map.mp old
        split_ifs with promoted
        · exact .inr (List.mem_cons.mpr (.inl promoted.1))
        · exact .inl known
      · exact .inr (List.mem_cons_of_mem _ named)
    · rcases listed entry member with old | named
      · simp only [promote] at old
        split at old
        · rcases List.mem_append.mp old with earlier | new
          · exact .inl earlier
          · refine .inr (List.mem_cons.mpr (.inl ?_))
            simp only [Option.mem_toList, Option.bind_eq_some_iff,
              Option.map_eq_some_iff] at new
            obtain ⟨_, _, _, _, rfl⟩ := new
            rfl
        · exact .inl old
      · exact .inr (List.mem_cons_of_mem _ named)

def Initialized (volumeId : Int) : Prop :=
  ∃ volume ∈ tables.volumes, volume.id = volumeId ∧ volume.status = .initialized

theorem seal_volume_count (volumeId : Int) (endedAfter : Option Int) :
    (sealVolume tables volumeId endedAfter).2 = 0 ↔ ¬ Initialized tables volumeId := by
  simp [sealVolume, Initialized, List.countP_eq_zero]

theorem sealed_after {tables : Tables} (schema : tables.Schema) {volumeId : Int}
    {endedAfter : Option Int} (initialized : Initialized tables volumeId) {volume : VolumeRow}
    (member : volume ∈ tables.volumes) (sealed : volume.status = .sealed ∨ volumeId = volume.id) :
    ∃ after ∈ (sealVolume tables volumeId endedAfter).1.volumes,
      after.id = volume.id ∧ after.status = .sealed := by
  refine ⟨_, List.mem_map_of_mem member, ?_⟩
  obtain ⟨row, listed, id, status⟩ := initialized
  by_cases same : volume.id = volumeId
  · obtain rfl : volume = row :=
      List.inj_on_of_nodup_map schema.volume_keys member listed (same.trans id.symm)
    rw [if_pos ⟨same, status⟩]
    exact ⟨rfl, rfl⟩
  · rw [if_neg fun both => same both.1]
    exact ⟨rfl, sealed.resolve_right fun other => same other.symm⟩
/-- The session's rows as `plan` inserts them and the ending leaves them: each write's planned slices
in slice order at their Layout positions before the seal, all of the set or one unbroken run of it,
`written` up to the last position the ending counts. -/
structure PlannedRows (tables : Tables) (session : SealedPending) (rows : List Entered)
    (through : Nat) : Prop where
  distinct : (rows.map Entered.writeId).Nodup
  known : ∀ row ∈ rows, ∃ write ∈ tables.writes, write.id = row.writeId ∧
    write.snapshotId = row.snapshotId ∧ write.volumeId = session.volumeId ∧
    write.maySpan = row.maySpan
  version : ∀ row ∈ rows, ∀ write ∈ tables.writes, write.id = row.writeId →
    ∃ set ∈ tables.stageSets, set.id = write.stageSetId ∧ set.snapshotId = row.snapshotId
  own : ∀ row ∈ rows, ∀ write ∈ tables.writes, write.id = row.writeId →
    ∀ position ∈ tables.positions, position.writeId = write.id →
      ∃ slice ∈ tables.stageSlices, slice.id = position.stageSliceId ∧
        slice.stageSetId = write.stageSetId
  laid : ∀ row ∈ rows, ∀ position ∈ tables.positions, position.writeId = row.writeId →
    ∃ entry ∈ session.layout.entries, entry.kind = .slice position.stageSliceId ∧
      entry.position = position.position
  sealed_last : ∀ entry ∈ session.layout.entries, entry.kind.isSlice = true →
    ∀ planned, plannedSealPosition session.layout = .ok planned → entry.position < planned
  whole : ∀ row ∈ rows, row.maySpan = false → ∀ write ∈ tables.writes, write.id = row.writeId →
    ∀ slice ∈ tables.stageSlices, slice.stageSetId = write.stageSetId →
      ∃ position ∈ tables.positions, position.writeId = write.id ∧ position.stageSliceId = slice.id
  run : ∀ row ∈ rows, row.maySpan = true → ∀ write ∈ tables.writes, write.id = row.writeId →
    ∃ start stop : Int,
      (∀ slice ∈ tables.stageSlices, slice.stageSetId = write.stageSetId →
        ((∃ position ∈ tables.positions, position.writeId = write.id ∧
          position.stageSliceId = slice.id) ↔ start ≤ slice.sliceNumber ∧ slice.sliceNumber ≤ stop)) ∧
      ∀ number, start ≤ number → number ≤ stop → ∃ slice ∈ tables.stageSlices,
        slice.stageSetId = write.stageSetId ∧ slice.sliceNumber = number
  ordered : ∀ row ∈ rows, ∀ one ∈ tables.positions, ∀ other ∈ tables.positions,
    one.writeId = row.writeId → other.writeId = row.writeId →
    ∀ slice ∈ tables.stageSlices, ∀ next ∈ tables.stageSlices, slice.id = one.stageSliceId →
      next.id = other.stageSliceId → slice.sliceNumber < next.sliceNumber →
      one.position < other.position
  written : ∀ row ∈ rows, ∀ position ∈ tables.positions, position.writeId = row.writeId →
    (position.status = .written ↔ position.position ≤ through)

theorem held_here_iff {tables : Tables} {writeId : Int} {slice : StageSliceRow} {through : Nat} :
    heldHere tables writeId slice through = true ↔
      ∃ position ∈ tables.positions, position.writeId = writeId ∧
        position.stageSliceId = slice.id ∧ position.status = .written ∧
        position.position ≤ through := by
  simp [heldHere, and_assoc]

section Split

variable {catalog : Catalog} {session : SealedPending} {rows : List Entered} {through : Nat}
  {row : Entered} {write : WriteRow}

theorem slices_of_write (member : write ∈ catalog.tables.writes) :
    slicesOfWrite catalog.tables write.id =
      catalog.tables.stageSlices.filter fun slice => slice.stageSetId = write.stageSetId := by
  have one := filter_key catalog.schema.write_keys member
  simp only [slicesOfWrite, one, List.flatMap_cons, List.flatMap_nil, List.append_nil]

def AllHeld (tables : Tables) (write : WriteRow) (through : Nat) : Prop :=
  ∀ slice ∈ tables.stageSlices, slice.stageSetId = write.stageSetId →
    heldHere tables write.id slice through = true

def heldNumbers (tables : Tables) (write : WriteRow) (through : Nat) : List Int :=
  (((tables.stageSlices.filter fun slice => slice.stageSetId = write.stageSetId).filter fun slice =>
    heldHere tables write.id slice through).map StageSliceRow.sliceNumber)

theorem mem_held_numbers {tables : Tables} {number : Int} :
    number ∈ heldNumbers tables write through ↔ ∃ slice ∈ tables.stageSlices,
      slice.stageSetId = write.stageSetId ∧ heldHere tables write.id slice through = true ∧
        slice.sliceNumber = number := by
  simp only [heldNumbers, List.mem_map, List.mem_filter, decide_eq_true_eq, and_assoc]

theorem span_split_cases (member : write ∈ catalog.tables.writes) :
    spanSplit catalog.tables write.id through = .completed ∧
        AllHeld catalog.tables write through ∨
      ¬ AllHeld catalog.tables write through ∧
        ((∃ firstSlice lastSlice,
            spanSplit catalog.tables write.id through = .range firstSlice lastSlice ∧
              (heldNumbers catalog.tables write through).min? = some firstSlice ∧
              (heldNumbers catalog.tables write through).max? = some lastSlice) ∨
          spanSplit catalog.tables write.id through = .cut ∧
            heldNumbers catalog.tables write through = []) := by
  have keys : ((catalog.tables.stageSlices.filter fun slice =>
      slice.stageSetId = write.stageSetId).map StageSliceRow.id).Nodup :=
    catalog.schema.stage_slice_keys.sublist (List.filter_sublist.map _)
  have keys' : (((catalog.tables.stageSlices.filter fun slice =>
      slice.stageSetId = write.stageSetId).filter fun slice =>
        heldHere catalog.tables write.id slice through).map StageSliceRow.id).Nodup :=
    keys.sublist (List.filter_sublist.map _)
  have counts : ((((catalog.tables.stageSlices.filter fun slice =>
      slice.stageSetId = write.stageSetId).filter fun slice =>
        heldHere catalog.tables write.id slice through).map StageSliceRow.id).dedup.length =
      ((catalog.tables.stageSlices.filter fun slice =>
        slice.stageSetId = write.stageSetId).map StageSliceRow.id).dedup.length) ↔
      AllHeld catalog.tables write through := by
    rw [keys.dedup, keys'.dedup, List.length_map, List.length_map, List.length_filter_eq_length_iff]
    simp [AllHeld]
  unfold spanSplit
  rw [slices_of_write member]
  by_cases all : AllHeld catalog.tables write through
  · exact .inl ⟨if_pos (counts.mpr all), all⟩
  · refine .inr ⟨all, ?_⟩
    simp only [if_neg (mt counts.mp all)]
    cases least : (heldNumbers catalog.tables write through).min? with
    | none =>
      have none := List.min?_eq_none_iff.mp least
      refine .inr ⟨?_, none⟩
      simp only [heldNumbers] at none
      rw [none]
      rfl
    | some firstSlice =>
      cases greatest : (heldNumbers catalog.tables write through).max? with
      | none =>
        rw [List.max?_eq_none_iff.mp greatest] at least
        cases least
      | some lastSlice =>
        refine .inl ⟨firstSlice, lastSlice, ?_, rfl, rfl⟩
        simp only [heldNumbers] at least greatest
        rw [least, greatest]

variable (planned : PlannedRows catalog.tables session rows through)
  (counted : countedThrough session = .ok through) (inRows : row ∈ rows)
  (member : write ∈ catalog.tables.writes) (id : write.id = row.writeId)

include planned inRows member id

omit member in
theorem held_of_position {position : PositionRow} (listed : position ∈ catalog.tables.positions)
    (ofWrite : position.writeId = write.id) {slice : StageSliceRow}
    (ofSlice : position.stageSliceId = slice.id) :
    heldHere catalog.tables write.id slice through = true ↔ position.position ≤ through := by
  rw [held_here_iff]
  constructor
  · rintro ⟨other, listed', ofWrite', ofSlice', _, past⟩
    obtain rfl : other = position := List.inj_on_of_nodup_map catalog.schema.position_once listed'
      listed (Prod.ext (ofWrite'.trans ofWrite.symm) (ofSlice'.trans ofSlice.symm))
    exact past
  · intro past
    exact ⟨position, listed, ofWrite, ofSlice,
      (planned.written row inRows position listed (ofWrite.trans id)).mpr past, past⟩

include counted in
theorem split_write_whole (may_not : row.maySpan = false) :
    splitWrite catalog.tables session.ending through row = .completed ∧
        AllHeld catalog.tables write through ∨
      splitWrite catalog.tables session.ending through row = .cut ∧
        ¬ AllHeld catalog.tables write through := by
  have every : (∀ position ∈ catalog.tables.positions, position.writeId = write.id →
      position.position ≤ through) ↔ AllHeld catalog.tables write through := by
    constructor
    · intro past slice known inSet
      obtain ⟨position, listed, ofWrite, ofSlice⟩ :=
        planned.whole row inRows may_not write member id slice known inSet
      exact (held_of_position planned inRows id listed ofWrite ofSlice).mpr
        (past position listed ofWrite)
    · intro all position listed ofWrite
      obtain ⟨slice, known, ofSlice, inSet⟩ :=
        planned.own row inRows write member id position listed ofWrite
      exact (held_of_position planned inRows id listed ofWrite ofSlice.symm).mp
        (all slice known inSet)
  rw [← every]
  simp only [splitWrite, may_not, Bool.false_eq_true, if_false]
  cases ending : session.ending with
  | full =>
    refine .inl ⟨rfl, fun position listed ofWrite => ?_⟩
    simp only [countedThrough, ending] at counted
    cases marker : plannedSealPosition session.layout with
    | error => 
      rw [marker] at counted
      cases counted
    | ok last =>
      rw [marker] at counted
      obtain rfl : last - 1 = through := Except.ok.inj counted
      obtain ⟨entry, inLayout, kind, same⟩ := planned.laid row inRows position listed (ofWrite.trans id)
      have before := planned.sealed_last entry inLayout (by rw [kind]; rfl) last marker
      omega
  | short endedAfter =>
    simp only [countedThrough, ending] at counted
    obtain rfl : endedAfter = through := Except.ok.inj counted
    rw [← id]
    cases last : lastSlicePosition catalog.tables write.id with
    | none =>
      refine .inl ⟨rfl, fun position listed ofWrite => ?_⟩
      have none := List.max?_eq_none_iff.mp last
      rw [List.map_eq_nil_iff, List.filter_eq_nil_iff] at none
      exact absurd (by simpa using ofWrite) (none position listed)
    | some greatest =>
      obtain ⟨attained, bound⟩ := List.max?_eq_some_iff.mp last
      obtain ⟨position, inWrite, rfl⟩ := List.mem_map.mp attained
      obtain ⟨listed, ofWrite⟩ := List.mem_filter.mp inWrite
      by_cases past : position.position ≤ endedAfter
      · refine .inl ⟨by simp [past], fun other listed' ofWrite' => ?_⟩
        refine (bound other.position (List.mem_map_of_mem ?_)).trans past
        exact List.mem_filter.mpr ⟨listed', by simpa using ofWrite'⟩
      · exact .inr ⟨by simp [past], fun all => past (all position listed (by simpa using ofWrite))⟩

/-- The slices of a run that are on the tape are the numbers from the lowest to the highest of them:
the ending cuts the run once, in slice order. -/
theorem held_run (may : row.maySpan = true) {firstSlice lastSlice : Int}
    (least : (heldNumbers catalog.tables write through).min? = some firstSlice)
    (greatest : (heldNumbers catalog.tables write through).max? = some lastSlice) :
    (∀ slice ∈ catalog.tables.stageSlices, slice.stageSetId = write.stageSetId →
      (heldHere catalog.tables write.id slice through = true ↔
        firstSlice ≤ slice.sliceNumber ∧ slice.sliceNumber ≤ lastSlice)) ∧
      ∀ number, firstSlice ≤ number → number ≤ lastSlice →
        ∃ slice ∈ catalog.tables.stageSlices, slice.stageSetId = write.stageSetId ∧
          slice.sliceNumber = number := by
  obtain ⟨start, stop, inRun, unbroken⟩ := planned.run row inRows may write member id
  obtain ⟨lowest, below⟩ := List.min?_eq_some_iff.mp least
  obtain ⟨highest, above⟩ := List.max?_eq_some_iff.mp greatest
  obtain ⟨low, lowKnown, lowSet, lowHeld, rfl⟩ := mem_held_numbers.mp lowest
  obtain ⟨high, highKnown, highSet, highHeld, rfl⟩ := mem_held_numbers.mp highest
  have inside : ∀ slice ∈ catalog.tables.stageSlices, slice.stageSetId = write.stageSetId →
      heldHere catalog.tables write.id slice through = true →
      start ≤ slice.sliceNumber ∧ slice.sliceNumber ≤ stop := by
    intro slice known inSet held
    obtain ⟨position, listed, ofWrite, ofSlice, _⟩ := held_here_iff.mp held
    exact (inRun slice known inSet).mp ⟨position, listed, ofWrite, ofSlice⟩
  have from_start := (inside low lowKnown lowSet lowHeld).1
  have to_stop := (inside high highKnown highSet highHeld).2
  refine ⟨fun slice known inSet => ⟨fun held => ?_, fun between => ?_⟩, fun number after before => ?_⟩
  · have number : slice.sliceNumber ∈ heldNumbers catalog.tables write through :=
      mem_held_numbers.mpr ⟨slice, known, inSet, held, rfl⟩
    exact ⟨below _ number, above _ number⟩
  · obtain ⟨position, listed, ofWrite, ofSlice⟩ :=
      (inRun slice known inSet).mpr ⟨by omega, by omega⟩
    rcases eq_or_lt_of_le between.2 with same | less
    · obtain rfl : slice = high := List.inj_on_of_nodup_map catalog.schema.slice_numbers known
        highKnown (Prod.ext (inSet.trans highSet.symm) same)
      exact highHeld
    · obtain ⟨other, listed', ofWrite', ofSlice', _, past⟩ := held_here_iff.mp highHeld
      have order := planned.ordered row inRows position listed other listed' (ofWrite.trans id)
        (ofWrite'.trans id) slice known high highKnown ofSlice.symm ofSlice'.symm less
      exact (held_of_position planned inRows id listed ofWrite ofSlice).mpr (by omega)
  · exact unbroken number (by omega) (by omega)

include counted in
theorem split_write_cases :
    splitWrite catalog.tables session.ending through row = .completed ∧
        AllHeld catalog.tables write through ∨
      ¬ AllHeld catalog.tables write through ∧
        ((∃ firstSlice lastSlice, splitWrite catalog.tables session.ending through row =
              .range firstSlice lastSlice ∧ row.maySpan = true ∧
            (heldNumbers catalog.tables write through).min? = some firstSlice ∧
            (heldNumbers catalog.tables write through).max? = some lastSlice) ∨
          splitWrite catalog.tables session.ending through row = .cut ∧
            (row.maySpan = true → heldNumbers catalog.tables write through = [])) := by
  cases may : row.maySpan with
  | false =>
    rcases split_write_whole planned counted inRows member id may with whole | ⟨cut, part⟩
    · exact .inl whole
    · exact .inr ⟨part, .inr ⟨cut, fun spans => by cases spans⟩⟩
  | true =>
    have same : splitWrite catalog.tables session.ending through row =
        spanSplit catalog.tables write.id through := by
      simp only [splitWrite, may, if_true, id]
    rw [same]
    rcases @span_split_cases catalog through write member with
      whole | ⟨part, ⟨firstSlice, lastSlice, range, least, greatest⟩ | ⟨cut, none⟩⟩
    · exact .inl whole
    · exact .inr ⟨part, .inl ⟨firstSlice, lastSlice, range, rfl, least, greatest⟩⟩
    · exact .inr ⟨part, .inr ⟨cut, fun _ => none⟩⟩

end Split

section Transaction

variable {catalog : Catalog} {session : SealedPending} {tier : Tier} {through : Nat}

theorem recording_after_nil : recordingAfter catalog.tables session tier through [] =
    ⟨catalog.tables, [], [], [], []⟩ := by
  have same : catalog.tables.writes.map (recordedRow catalog.tables session tier through []) =
      catalog.tables.writes := by
    conv_rhs => rw [← List.map_id catalog.tables.writes]
    exact List.map_congr_left fun write _ => rfl
  simp only [recordingAfter, same, List.filterMap_nil]

/-- What a committed transaction leaves: the recorded rows, the named snapshots promoted, the volume
sealed. -/
structure Committed (tables : Tables) (session : SealedPending) (tier : Tier) (through : Nat)
    (rows : List Entered) (after : Tables) (record : SealRecord) : Prop where
  left : ∃ snapshots, after = (sealVolume { (recordingAfter tables session tier through rows).tables
    with snapshots := snapshots } session.volumeId session.ending.recordedEndedAfter).1
  ranges : record.rangeUnits = (recordingAfter tables session tier through rows).rangeUnits
  promoted : ∃ ids : List Int,
    (∀ snapshot ∈ after.snapshots, snapshot ∈ tables.snapshots ∨ snapshot.id ∈ ids) ∧
    (∀ entry ∈ record.promoted, entry.snapshotId ∈ ids) ∧
    ∀ id ∈ ids,
      (∃ row ∈ rows, row.snapshotId = id ∧
        splitWrite tables session.ending through row = .completed) ∨
      ∃ row ∈ rows, row.snapshotId = id ∧
        ∃ write ∈ (recordingAfter tables session tier through rows).tables.writes,
          write.id = row.writeId ∧
          everySliceOnSealedVolume (recordingAfter tables session tier through rows).tables
            write.stageSetId (some session.volumeId) = true

variable {entryStatuses : List (WriteStatus × Bool)}
  (planned : PlannedRows catalog.tables session (enteredRows session entryStatuses) through)

include planned

theorem seal_transaction_cases :
    ((∃ row ∈ enteredRows session entryStatuses, ¬ AsEntered catalog.tables row) ∨
        ¬ Initialized catalog.tables session.volumeId → ∃ failed,
      sealTransaction catalog.tables session entryStatuses tier through = .error failed) ∧
    ((∀ row ∈ enteredRows session entryStatuses, AsEntered catalog.tables row) →
        Initialized catalog.tables session.volumeId → ∃ after record,
      sealTransaction catalog.tables session entryStatuses tier through = .ok (after, record) ∧
        Committed catalog.tables session tier through (enteredRows session entryStatuses) after
          record) := by
  obtain ⟨goes, fails⟩ := @record_writes_eq catalog.tables session tier through catalog.schema []
    (enteredRows session entryStatuses) planned.distinct fun row member position listed ofWrite =>
      (planned.written row member position listed ofWrite).mp
  rw [recording_after_nil, List.nil_append] at goes
  rw [recording_after_nil] at fails
  by_cases same : ∀ row ∈ enteredRows session entryStatuses, AsEntered catalog.tables row
  case neg =>
    push Not at same
    obtain ⟨failed, error⟩ := fails same
    refine ⟨fun _ => ⟨failed, ?_⟩, fun all => absurd same (by simpa using all)⟩
    simp only [sealTransaction, error, bind, Except.bind]
  case pos =>
    have loop := goes same
    set done := recordingAfter catalog.tables session tier through (enteredRows session entryStatuses)
    have known : ∀ range ∈ done.rangeWrites,
        ∃ row ∈ enteredRows session entryStatuses, range = (row.writeId, row.snapshotId) := by
      intro range member
      obtain ⟨row, listed, split⟩ := List.mem_filterMap.mp member
      refine ⟨row, listed, ?_⟩
      split at split
      · exact (Option.some.inj split).symm
      · cases split
    have recorded : ∀ range ∈ done.rangeWrites, ∃ write ∈ done.tables.writes, write.id = range.1 := by
      intro range member
      obtain ⟨row, listed, rfl⟩ := known range member
      obtain ⟨write, inWrites, id, _⟩ := planned.known row listed
      exact ⟨_, List.mem_map_of_mem inWrites, by simpa using id⟩
    obtain ⟨snapshots, everywhere, inRanges⟩ :=
      @ranges_everywhere_ok done.tables session.volumeId done.rangeWrites recorded
    obtain ⟨promotedRows, changed, kept, entries⟩ :=
      foldl_promote (done.wholeSnapshots ++ snapshots) (done.tables, [])
    have count : (sealVolume { done.tables with snapshots := promotedRows } session.volumeId
        session.ending.recordedEndedAfter).2 = 0 ↔ ¬ Initialized catalog.tables session.volumeId :=
      seal_volume_count _ _ _
    constructor
    · intro moved
      have uninitialized := moved.resolve_left fun ⟨row, member, other⟩ => other (same row member)
      simp only [sealTransaction, loop, everywhere, bind, Except.bind, changed,
        count.mpr uninitialized, if_true]
      exact ⟨_, rfl⟩
    · intro _ initialized
      refine ⟨(sealVolume { done.tables with snapshots := promotedRows } session.volumeId
          session.ending.recordedEndedAfter).1,
        ⟨((done.wholeSnapshots ++ snapshots).foldl promote (done.tables, [])).2, done.cutUnits,
          done.rangeUnits⟩, ?_,
        ⟨promotedRows, rfl⟩, rfl, _, kept, fun entry member => ?_, fun id member => ?_⟩
      · simp only [sealTransaction, loop, everywhere, bind, Except.bind, changed, pure, Except.pure,
          if_neg fun none => count.mp none initialized]
      · exact (entries entry member).resolve_left (by simp)
      · rcases List.mem_append.mp member with whole | range
        · obtain ⟨row, listed, split⟩ := List.mem_filterMap.mp whole
          refine .inl ⟨row, listed, ?_⟩
          split at split
          case h_1 completed => exact ⟨Option.some.inj split, completed⟩
          case h_2 => cases split
        · obtain ⟨write, inWrites, ofRange, sealed⟩ := inRanges id range
          obtain ⟨row, listed, pair⟩ := known _ ofRange
          obtain ⟨writeId, snapshotId⟩ := Prod.mk.inj pair
          exact .inr ⟨row, listed, snapshotId.symm, write, inWrites, writeId, sealed⟩

end Transaction

theorem every_slice_on_sealed_volume {tables : Tables} {set : Int} {alsoSealed : Option Int}
    (everywhere : everySliceOnSealedVolume tables set alsoSealed = true) :
    (∃ slice ∈ tables.stageSlices, slice.stageSetId = set) ∧
      ∀ slice ∈ tables.stageSlices, slice.stageSetId = set → ∃ write ∈ tables.writes,
        ∃ volume ∈ tables.volumes, volume.id = write.volumeId ∧ write.stageSetId = set ∧
          (volume.status = .sealed ∨ alsoSealed = some volume.id) ∧
          writeHolds tables write slice.id = true := by
  simp only [everySliceOnSealedVolume, Bool.and_eq_true, List.any_eq_true, decide_eq_true_eq,
    Bool.not_eq_true', List.any_eq_false, Bool.or_eq_true] at everywhere
  refine ⟨everywhere.1, fun slice known inSet => ?_⟩
  by_contra nowhere
  refine everywhere.2 slice known ⟨inSet, fun write listed found => nowhere ?_⟩
  obtain ⟨volume, inVolumes, ⟨⟨onVolume, ofSet⟩, sealed⟩, holds⟩ := found
  exact ⟨write, listed, volume, inVolumes, onVolume, ofSet, sealed,
    by simpa [writeHolds] using holds⟩

/-- What a passing confirm has recorded of the session's writes, against what is on the tape. -/
structure SealRecorded (before : Tables) (session : SealedPending) (through : Nat) (after : Tables)
    (record : SealRecord) : Prop where
  completed : ∀ write ∈ after.writes, ∀ snapshotId, (write.id, snapshotId) ∈ session.writeIds →
    (write.status = .completed ↔ AllHeld after write through)
  range : ∀ write ∈ after.writes, ∀ snapshotId, (write.id, snapshotId) ∈ session.writeIds →
    (write.status = .range ↔ write.maySpan = true ∧ ¬ AllHeld after write through ∧
      ∃ slice ∈ after.stageSlices, slice.stageSetId = write.stageSetId ∧
        heldHere after write.id slice through = true)
  cut : ∀ write ∈ after.writes, ∀ snapshotId, (write.id, snapshotId) ∈ session.writeIds →
    write.status ≠ .completed → write.status ≠ .range → write.status = .cut
  run : ∀ write ∈ after.writes, ∀ snapshotId, (write.id, snapshotId) ∈ session.writeIds →
    write.status = .range → ∃ unit ∈ record.rangeUnits, unit.unit = unitName before snapshotId ∧
      (∀ slice ∈ after.stageSlices, slice.stageSetId = write.stageSetId →
        (heldHere after write.id slice through = true ↔
          unit.firstSlice ≤ slice.sliceNumber ∧ slice.sliceNumber ≤ unit.lastSlice)) ∧
      ∀ number, unit.firstSlice ≤ number → number ≤ unit.lastSlice →
        ∃ slice ∈ after.stageSlices, slice.stageSetId = write.stageSetId ∧
          slice.sliceNumber = number
  written : ∀ write ∈ after.writes, ∀ snapshotId, (write.id, snapshotId) ∈ session.writeIds →
    holdsSlices write = true → ∀ position ∈ after.positions, position.writeId = write.id →
      position.status = .written → position.position ≤ through
  promoted : ∀ snapshot ∈ after.snapshots, snapshot ∉ before.snapshots →
    ∃ set ∈ versionSets after snapshot.id, OnSealed after set.id
  reported : ∀ entry ∈ record.promoted,
    ∃ set ∈ versionSets after entry.snapshotId, OnSealed after set.id
  sealed : ∃ volume ∈ after.volumes, volume.id = session.volumeId ∧ volume.status = .sealed

section Recorded

variable {catalog : Catalog} {session : SealedPending} {tier : Tier} {through : Nat}
  {rows : List Entered} {after : Tables} {record : SealRecord}
  (planned : PlannedRows catalog.tables session rows through)
  (counted : countedThrough session = .ok through)
  (initialized : Initialized catalog.tables session.volumeId)
  (committed : Committed catalog.tables session tier through rows after record)

include planned in
theorem recorded_row_of {row : Entered} (inRows : row ∈ rows) {write : WriteRow}
    (id : write.id = row.writeId) : recordedRow catalog.tables session tier through rows write =
      (splitWrite catalog.tables session.ending through row).record (tier = .integrity) write := by
  rw [recordedRow, id, find_key planned.distinct inRows]

include initialized committed in
theorem committed_sealed {volume : VolumeRow} (member : volume ∈ catalog.tables.volumes)
    (sealed : volume.status = .sealed ∨ session.volumeId = volume.id) :
    ∃ row ∈ after.volumes, row.id = volume.id ∧ row.status = .sealed := by
  obtain ⟨snapshots, rfl⟩ := committed.left
  exact sealed_after catalog.schema initialized member sealed

include planned initialized committed in
theorem committed_on_sealed {id : Int} (named : (∃ row ∈ rows, row.snapshotId = id ∧
        splitWrite catalog.tables session.ending through row = .completed) ∨
      ∃ row ∈ rows, row.snapshotId = id ∧
        ∃ write ∈ (recordingAfter catalog.tables session tier through rows).tables.writes,
          write.id = row.writeId ∧
          everySliceOnSealedVolume (recordingAfter catalog.tables session tier through rows).tables
            write.stageSetId (some session.volumeId) = true) :
    ∃ set ∈ versionSets after id, OnSealed after set.id := by
  have sealed := fun volume => @committed_sealed catalog session tier through rows after record
    initialized committed volume
  obtain ⟨snapshots, rfl⟩ := committed.left
  rcases named with ⟨row, inRows, rfl, completed⟩ | ⟨row, inRows, rfl, write, inWrites, id, everywhere⟩
  · obtain ⟨write, member, id, _, onVolume, _⟩ := planned.known row inRows
    obtain ⟨set, inSets, ofSet, version⟩ := planned.version row inRows write member id
    obtain ⟨volume, inVolumes, same⟩ := catalog.schema.write_volume write member
    obtain ⟨volume', inAfter, same', status⟩ :=
      sealed volume inVolumes (.inr (onVolume.symm.trans same.symm))
    have recorded := @recorded_row_of catalog session tier through rows planned row inRows write id
    rw [completed] at recorded
    refine ⟨set, mem_version_sets.mpr ⟨inSets, version⟩, fun slice _ _ => ?_, .inr ?_⟩
    · exact ⟨_, List.mem_map_of_mem member, volume', inAfter, by simp [ofSet],
        by simp [same', same], status, by rw [recorded]; rfl⟩
    · exact ⟨_, List.mem_map_of_mem member, volume', inAfter, by simp [ofSet],
        by simp [same', same], status, by rw [recorded]; rfl⟩
  · obtain ⟨old, member, rfl⟩ := List.mem_map.mp inWrites
    rw [recorded_row_id] at id
    rw [recorded_row_stage_set] at everywhere
    obtain ⟨set, inSets, ofSet, version⟩ := planned.version row inRows old member id
    rw [← ofSet] at everywhere
    obtain ⟨some_slice, every⟩ := every_slice_on_sealed_volume everywhere
    refine ⟨set, mem_version_sets.mpr ⟨inSets, version⟩, fun slice known inSet => ?_, .inl some_slice⟩
    obtain ⟨write, listed, volume, inVolumes, onVolume, inWrite, status, holds⟩ :=
      every slice known inSet
    obtain ⟨volume', inAfter, same', status'⟩ :=
      sealed volume inVolumes (status.imp_right Option.some.inj)
    exact ⟨write, listed, volume', inAfter, inWrite, same'.trans onVolume, status', holds⟩

include planned committed in
theorem committed_write
    (covers : ∀ ids ∈ session.writeIds, ∃ row ∈ rows, row.writeId = ids.1 ∧ row.snapshotId = ids.2)
    {write : WriteRow} (member : write ∈ after.writes) {snapshotId : Int}
    (listed : (write.id, snapshotId) ∈ session.writeIds) :
    ∃ row ∈ rows, row.snapshotId = snapshotId ∧ ∃ old ∈ catalog.tables.writes,
      old.id = row.writeId ∧ old.maySpan = row.maySpan ∧
      write = (splitWrite catalog.tables session.ending through row).record (tier = .integrity)
        old := by
  obtain ⟨row, inRows, writeId, version⟩ := covers _ listed
  obtain ⟨snapshots, rfl⟩ := committed.left
  obtain ⟨old, inWrites, rfl⟩ := List.mem_map.mp member
  rw [recorded_row_id] at writeId
  obtain ⟨known, inWrites', id, _, _, spans⟩ := planned.known row inRows
  obtain rfl : old = known := List.inj_on_of_nodup_map catalog.schema.write_keys inWrites inWrites'
    (writeId.symm.trans id.symm)
  exact ⟨row, inRows, version, old, inWrites, id, spans,
    recorded_row_of planned inRows id⟩

include planned counted initialized committed in
theorem committed_recorded
    (covers : ∀ ids ∈ session.writeIds, ∃ row ∈ rows, row.writeId = ids.1 ∧ row.snapshotId = ids.2) :
    SealRecorded catalog.tables session through after record := by
  have slices : after.stageSlices = catalog.tables.stageSlices := by
    obtain ⟨snapshots, rfl⟩ := committed.left
    rfl
  have positions : after.positions = catalog.tables.positions := by
    obtain ⟨snapshots, rfl⟩ := committed.left
    rfl
  have held : ∀ writeId slice, heldHere after writeId slice through =
      heldHere catalog.tables writeId slice through := by
    intro writeId slice
    rw [heldHere, heldHere, positions]
  have all : ∀ (split : Split) (verified : Bool) (old : WriteRow),
      AllHeld after (split.record verified old) through ↔ AllHeld catalog.tables old through := by
    intro split verified old
    simp only [AllHeld, slices, held, Split.record_stage_set, Split.record_id]
  obtain ⟨ids, changed, entries, named⟩ := committed.promoted
  have onSealed := fun id member => committed_on_sealed planned initialized committed (named id member)
  refine ⟨?_, ?_, ?_, ?_, ?_, ?_, fun entry member => onSealed _ (entries entry member), ?_⟩
  case refine_1 =>
    intro write member snapshotId listed
    obtain ⟨row, inRows, _, old, inWrites, id, _, rfl⟩ :=
      committed_write planned committed covers member listed
    rw [all]
    rcases split_write_cases planned counted inRows inWrites id with
      ⟨split, whole⟩ | ⟨part, ⟨_, _, split, _⟩ | ⟨split, _⟩⟩
    · simp [split, whole, Split.record]
    · simp [split, part, Split.record]
    · simp [split, part, Split.record]
  case refine_2 =>
    intro write member snapshotId listed
    obtain ⟨row, inRows, _, old, inWrites, id, spans, rfl⟩ :=
      committed_write planned committed covers member listed
    rw [all, Split.record_may_span, Split.record_stage_set, Split.record_id, slices, spans]
    simp only [held]
    rcases split_write_cases planned counted inRows inWrites id with
      ⟨split, whole⟩ | ⟨part, ⟨_, _, split, may, least, _⟩ | ⟨split, none⟩⟩
    · simp [split, whole, Split.record]
    · obtain ⟨slice, known, inSet, here, _⟩ :=
        mem_held_numbers.mp (List.min?_eq_some_iff.mp least).1
      simp only [split, Split.record, may, part, not_false_eq_true, true_and, true_iff]
      exact ⟨slice, known, inSet, here⟩
    · simp only [split, Split.record, reduceCtorEq, false_iff]
      rintro ⟨may, _, slice, known, inSet, here⟩
      have number := mem_held_numbers.mpr ⟨slice, known, inSet, here, rfl⟩
      rw [none may] at number
      cases number
  case refine_3 =>
    intro write member snapshotId listed notWhole notRange
    obtain ⟨row, _, _, old, _, _, _, rfl⟩ := committed_write planned committed covers member listed
    cases split : splitWrite catalog.tables session.ending through row with
    | completed => exact absurd (by rw [split]; rfl) notWhole
    | range => exact absurd (by rw [split]; rfl) notRange
    | cut => rfl
  case refine_4 =>
    intro write member snapshotId listed isRange
    obtain ⟨row, inRows, rfl, old, inWrites, id, _, rfl⟩ :=
      committed_write planned committed covers member listed
    rcases split_write_cases planned counted inRows inWrites id with
      ⟨split, _⟩ | ⟨_, ⟨firstSlice, lastSlice, split, may, least, greatest⟩ | ⟨split, _⟩⟩
    · rw [split] at isRange
      cases isRange
    · have run := held_run planned inRows inWrites id may least greatest
      refine ⟨⟨unitName catalog.tables row.snapshotId, firstSlice, lastSlice⟩, ?_, rfl, ?_⟩
      · rw [committed.ranges]
        exact List.mem_filterMap.mpr ⟨row, inRows, by rw [split]⟩
      · simpa only [slices, held, Split.record_stage_set, Split.record_id] using run
    · rw [split] at isRange
      cases isRange
  case refine_5 =>
    intro write member snapshotId listed _ position inPositions ofWrite status
    obtain ⟨row, inRows, _, old, _, id, _, rfl⟩ :=
      committed_write planned committed covers member listed
    rw [positions] at inPositions
    rw [Split.record_id, id] at ofWrite
    exact (planned.written row inRows position inPositions ofWrite).mp status
  case refine_6 =>
    intro snapshot member new
    exact onSealed _ ((changed snapshot member).resolve_left new)
  case refine_7 =>
    obtain ⟨volume, inVolumes, id, _⟩ := id initialized
    obtain ⟨row, inAfter, same, status⟩ :=
      committed_sealed initialized committed inVolumes (.inr id.symm)
    exact ⟨row, inAfter, same.trans id, status⟩

end Recorded

theorem entered_rows_cover {tables : Tables} {session : SealedPending}
    {entryStatuses : List (WriteStatus × Bool)}
    (read : readEntryStatuses tables session = .ok entryStatuses) :
    ∀ ids ∈ session.writeIds, ∃ row ∈ enteredRows session entryStatuses,
      row.writeId = ids.1 ∧ row.snapshotId = ids.2 := by
  unfold readEntryStatuses at read
  unfold enteredRows
  generalize session.writeIds = writeIds at read ⊢
  induction writeIds generalizing entryStatuses with
  | nil => simp
  | cons first rest ih =>
    rw [List.mapM_cons] at read
    revert read
    cases tables.writes.find? fun write => write.id = first.1 with
    | none =>
      intro read
      cases read
    | some write =>
      cases later : rest.mapM fun ids =>
          match tables.writes.find? fun write => write.id = ids.1 with
          | none => Except.error "Query returned no rows"
          | some write => .ok (write.status, write.maySpan) with
      | error failed =>
        intro read
        simp only [bind, Except.bind] at read
        cases read
      | ok statuses =>
        intro read
        simp only [bind, Except.bind, pure, Except.pure, Except.ok.injEq] at read
        subst read
        intro ids member
        rcases List.mem_cons.mp member with rfl | member
        · exact ⟨_, List.mem_cons_self, rfl, rfl⟩
        · obtain ⟨row, listed, same⟩ := ih later ids member
          exact ⟨row, List.mem_cons_of_mem _ listed, same⟩

theorem record_seal_committed {catalog : Catalog} {session : SealedPending}
    {entryStatuses : List (WriteStatus × Bool)} {tier : Tier} {through : Nat}
    (counted : countedThrough session = .ok through)
    (planned : PlannedRows catalog.tables session (enteredRows session entryStatuses) through)
    {after : Tables} {record : SealRecord}
    (sealed : recordSeal catalog.tables session entryStatuses tier = (after, .ok record)) :
    Initialized catalog.tables session.volumeId ∧
      Committed catalog.tables session tier through (enteredRows session entryStatuses) after
        record := by
  obtain ⟨fails, commits⟩ := @seal_transaction_cases catalog session tier through entryStatuses planned
  simp only [recordSeal, counted] at sealed
  by_cases moved : (∃ row ∈ enteredRows session entryStatuses, ¬ AsEntered catalog.tables row) ∨
      ¬ Initialized catalog.tables session.volumeId
  · obtain ⟨failed, error⟩ := fails moved
    rw [error] at sealed
    cases (Prod.mk.inj sealed).2
  · push Not at moved
    obtain ⟨after', record', ok, committed⟩ := commits moved.1 moved.2
    rw [ok] at sealed
    obtain ⟨rfl, recorded⟩ := Prod.mk.inj sealed
    obtain rfl := Except.ok.inj recorded
    exact ⟨moved.2, committed⟩

/-- A passing confirm records exactly what the tape holds. It commits when every one of the session's
rows is as it entered confirm and the volume is still `initialized`; otherwise nothing changes. -/
theorem seal_records_the_tape (started catalog : Catalog) (session : SealedPending)
    (entryStatuses : List (WriteStatus × Bool)) (tier : Tier) (through : Nat)
    (read : readEntryStatuses started.tables session = .ok entryStatuses)
    (counted : countedThrough session = .ok through)
    (planned : PlannedRows catalog.tables session (enteredRows session entryStatuses) through) :
    (∀ after record, recordSeal catalog.tables session entryStatuses tier = (after, .ok record) →
      SealRecorded catalog.tables session through after record) ∧
    ((∃ row ∈ enteredRows session entryStatuses, ¬ AsEntered catalog.tables row) ∨
        ¬ Initialized catalog.tables session.volumeId →
      ∃ failed, recordSeal catalog.tables session entryStatuses tier =
        (catalog.tables, .error failed)) ∧
    ((∀ row ∈ enteredRows session entryStatuses, AsEntered catalog.tables row) →
        Initialized catalog.tables session.volumeId →
      ∃ after record, recordSeal catalog.tables session entryStatuses tier = (after, .ok record)) := by
  obtain ⟨fails, commits⟩ := @seal_transaction_cases catalog session tier through entryStatuses planned
  refine ⟨fun after record sealed => ?_, fun moved => ?_, fun same initialized => ?_⟩
  · obtain ⟨initialized, committed⟩ := record_seal_committed counted planned sealed
    exact committed_recorded planned counted initialized committed (entered_rows_cover read)
  · obtain ⟨failed, error⟩ := fails moved
    exact ⟨failed, by simp only [recordSeal, counted, error]⟩
  · obtain ⟨after, record, ok, _⟩ := commits same initialized
    exact ⟨after, record, by simp only [recordSeal, counted, ok]⟩

/-- A tape that ended short, after file 5: the first unit whole, and the first of two slices of a
unit that may span. -/
def shortSession : SealedPending where
  volumeId := 1
  layout := ⟨"L1", "volume-1", 512,
    [⟨0, .idThunk, none, none⟩, ⟨4, .slice 1, none, none⟩, ⟨5, .slice 2, none, none⟩,
      ⟨6, .slice 3, none, none⟩, ⟨7, .sealMarker, none, none⟩]⟩
  writeIds := [(1, 1), (2, 2)]
  ending := .short 5

def shortCatalog : Catalog where
  tables := {
    units := [⟨1, "unit-1", "photos", .active⟩, ⟨2, "unit-2", "films", .active⟩]
    snapshots := [⟨1, 1, 1, .staged⟩, ⟨2, 2, 1, .staged⟩]
    stageSets := [⟨1, 1, .staged⟩, ⟨2, 2, .staged⟩]
    stageSlices := [⟨1, 1, 1, none, none⟩, ⟨2, 2, 1, none, none⟩, ⟨3, 2, 2, none, none⟩]
    volumes := [⟨1, "L1", .initialized, .ok, none, some "now", none⟩]
    deposits := []
    writes := [⟨1, 1, 1, 1, .inProgress, false, false⟩, ⟨2, 2, 2, 1, .inProgress, false, true⟩]
    positions := [⟨1, 1, 4, .written⟩, ⟨2, 2, 5, .written⟩, ⟨2, 3, 6, .pending⟩] }
  schema := by constructor <;> decide

theorem short_session_planned : PlannedRows shortCatalog.tables shortSession
    (enteredRows shortSession [(.inProgress, false), (.inProgress, true)]) 5 where
  distinct := by decide
  known := by decide
  version := by decide
  own := by decide
  laid := by decide
  sealed_last := by
    intro entry member isSlice planned marker
    obtain rfl : 7 = planned := Except.ok.inj marker
    revert entry
    decide
  whole := by decide
  run := by
    intro row inRows may write member id
    have second : ∀ row ∈ enteredRows shortSession [(.inProgress, false), (.inProgress, true)],
        row.maySpan = true → row.writeId = 2 := by decide
    have only : ∀ write ∈ shortCatalog.tables.writes, write.id = 2 →
        write = ⟨2, 2, 2, 1, .inProgress, false, true⟩ := by decide
    obtain rfl := only write member (id.trans (second row inRows may))
    refine ⟨1, 2, by decide, fun number after before => ?_⟩
    obtain rfl | rfl : number = 1 ∨ number = 2 := by omega
    · exact ⟨⟨2, 2, 1, none, none⟩, by decide, rfl, rfl⟩
    · exact ⟨⟨3, 2, 2, none, none⟩, by decide, rfl, rfl⟩
  ordered := by decide
  written := by decide

/-- The first unit is recorded whole and promoted, the second as the range of its first slice. -/
theorem seal_records_the_tape_short :
    ∃ after record, recordSeal shortCatalog.tables shortSession
        [(.inProgress, false), (.inProgress, true)] .integrity = (after, .ok record) ∧
      record.rangeUnits = [⟨"films", 1, 1⟩] ∧
      record.promoted = [⟨1, .staged, "photos"⟩] ∧
      SealRecorded shortCatalog.tables shortSession 5 after record := by
  have recorded := (seal_records_the_tape shortCatalog shortCatalog shortSession
    [(.inProgress, false), (.inProgress, true)] .integrity 5 rfl rfl short_session_planned).1
  exact ⟨_, ⟨[⟨1, .staged, "photos"⟩], [], [⟨"films", 1, 1⟩]⟩, by decide +kernel, rfl, rfl,
    recorded (recordSeal shortCatalog.tables shortSession
      [(.inProgress, false), (.inProgress, true)] .integrity).1 _ (by decide +kernel)⟩

end Tapectl.Session
