import Tapectl.Volume.SealTransaction
import Tapectl.Volume.StagedSets

/-!
# A span finishes

A stage set written tape after tape: `plan_span_set` plans what is owed, the tape is sealed after at
least the first slice it planned, and the confirm records it. The counts of `slice_copies` never fall
and rise at the first slice planned, so what is missing shrinks with every tape.
-/

namespace Tapectl.Volume.Staged

open Tapectl.Db Tapectl.Policy Tapectl.Staging Tapectl.Session
open Tapectl.Confirm (Tier)

variable {File : Type}

def setCount (set : StageSetRow) : SliceCount := ⟨set.id, .version set.snapshotId, none⟩

/-- The copies `slice_copies` counts of a slice. -/
def copiesOf (tables : Tables) (set : StageSetRow) (slice : Int) : Nat :=
  (setCount set).whole tables .copies + (setCount set).rangeAt tables .copies slice

def shortfall (tables : Tables) (set floor : Int) : Nat :=
  ((sliceCopies tables set).map fun slice => (floor - slice.copies).toNat).sum

section Counts

variable {tables : Tables} {set : StageSetRow}

theorem copies_of_rows (slice : Int) : copiesOf tables set slice =
    (((setCount set).rowsAt tables slice).map (SliceCount.weight tables .copies)).sum := by
  rw [SliceCount.rowsAt, List.map_append, List.sum_append]
  rfl

theorem slice_copies_perm (schema : tables.Schema) (member : set ∈ tables.stageSets) :
    (sliceCopies tables set.id).Perm
      ((tables.stageSlices.filter fun slice => slice.stageSetId = set.id).map fun slice =>
        ⟨slice.id, slice.sliceNumber, copiesOf tables set slice.id,
          (setCount set).wholePlaces tables + (setCount set).rangePlacesAt tables slice.id⟩) := by
  have one := filter_key schema.stage_set_keys member
  simp only [sliceCopies, one, List.flatMap_cons, List.flatMap_nil, List.append_nil]
  exact List.perm_insertionSort _ _

theorem mem_slice_copies_of (schema : tables.Schema) (member : set ∈ tables.stageSets)
    {copies : SliceCopies} (counted : copies ∈ sliceCopies tables set.id) :
    ∃ slice ∈ stageSlicesOf tables set.id, copies.sliceNumber = slice.sliceNumber ∧
      copies.copies = copiesOf tables set slice.id := by
  have listed := (slice_copies_perm schema member).mem_iff.mp counted
  obtain ⟨slice, ofSet, rfl⟩ := List.mem_map.mp listed
  exact ⟨slice, (stage_slices_of_perm tables set.id).mem_iff.mpr ofSet, rfl, rfl⟩

theorem slice_counted (schema : tables.Schema) (member : set ∈ tables.stageSets)
    {slice : StageSliceRow} (ofSet : slice ∈ stageSlicesOf tables set.id) :
    ∃ copies ∈ sliceCopies tables set.id, copies.sliceNumber = slice.sliceNumber ∧
      copies.copies = copiesOf tables set slice.id :=
  ⟨_, (slice_copies_perm schema member).mem_iff.mpr
    (List.mem_map_of_mem ((stage_slices_of_perm tables set.id).mem_iff.mp ofSet)), rfl, rfl⟩

theorem shortfall_eq (schema : tables.Schema) (member : set ∈ tables.stageSets) (floor : Int) :
    shortfall tables set.id floor = ((stageSlicesOf tables set.id).map fun slice =>
      (floor - copiesOf tables set slice.id).toNat).sum := by
  rw [shortfall, ((slice_copies_perm schema member).map _).sum_eq, List.map_map,
    ((stage_slices_of_perm tables set.id).map _).sum_eq]
  rfl

theorem mem_owed_iff (schema : tables.Schema) (member : set ∈ tables.stageSets) {floor number : Int} :
    number ∈ owedSlices tables set.id floor ↔ spanInProgress tables set.id = true ∧
      ∃ slice ∈ stageSlicesOf tables set.id, slice.sliceNumber = number ∧
        (copiesOf tables set slice.id : Int) < floor := by
  unfold owedSlices
  split
  case isTrue progress =>
    simp only [progress, true_and, List.mem_map, List.mem_filter, decide_eq_true_eq]
    constructor
    · rintro ⟨copies, ⟨counted, short⟩, rfl⟩
      obtain ⟨slice, ofSet, number, same⟩ := mem_slice_copies_of schema member counted
      exact ⟨slice, ofSet, number.symm, same ▸ short⟩
    · rintro ⟨slice, ofSet, rfl, short⟩
      obtain ⟨copies, counted, number, same⟩ := slice_counted schema member ofSet
      exact ⟨copies, ⟨counted, same ▸ short⟩, number⟩
  case isFalse idle => simp [idle]

end Counts

/-- The only stage set of its version, with slices `1..N`, all of them still staged. -/
structure StagedSpan (tables : Tables) (set : StageSetRow) (slices : Nat) : Prop where
  member : set ∈ tables.stageSets
  only : ∀ other ∈ tables.stageSets, other.snapshotId = set.snapshotId → other = set
  numbers : (stageSlicesOf tables set.id).map StageSliceRow.sliceNumber =
    (List.range slices).map fun number : Nat => (number : Int) + 1
  staged : ∀ slice ∈ stageSlicesOf tables set.id, slice.stagingPath.isSome = true

/-- The unbroken run of slice numbers from `first` to `last`. -/
def unbroken (first last : Int) : List Int :=
  (List.range (last + 1 - first).toNat).map fun number : Nat => first + (number : Int)

theorem mem_unbroken {first last number : Int} :
    number ∈ unbroken first last ↔ first ≤ number ∧ number ≤ last := by
  simp only [unbroken, List.mem_map, List.mem_range]
  constructor
  · rintro ⟨index, bound, rfl⟩
    omega
  · intro between
    exact ⟨(number - first).toNat, by omega, by omega⟩

theorem unbroken_ascends (first last : Int) : (unbroken first last).Pairwise (· < ·) :=
  List.Pairwise.map _ (fun _ _ less => by omega) List.pairwise_lt_range

theorem ascending_ext {one other : List Int} (ascends : one.Pairwise (· < ·))
    (ascends' : other.Pairwise (· < ·)) (same : ∀ number, number ∈ one ↔ number ∈ other) :
    one = other := by
  have perm : one.Perm other := (List.perm_ext_iff_of_nodup (ascends.imp ne_of_lt)
    (ascends'.imp ne_of_lt)).mpr same
  exact perm.eq_of_pairwise (fun _ _ _ _ less greater => absurd less (lt_asymm greater)) ascends
    ascends'

theorem sum_le_of_subset {Row : Type} {rows more : List Row} (nodup : rows.Nodup)
    (subset : rows ⊆ more) (weight : Row → Nat) : (rows.map weight).sum ≤ (more.map weight).sum := by
  obtain ⟨part, perm, sublist⟩ := nodup.subperm subset
  rw [← (perm.map weight).sum_eq]
  exact (sublist.map weight).sum_le_sum fun _ _ => Nat.zero_le _

section Plan

variable {world : PlanWorld File} {tables : Tables} {set : StageSetRow} {slices : Nat}
  {unit : UnitRow} {base version : Int}

theorem plan_rows_ok {rows : List StageSliceRow}
    (staged : ∀ slice ∈ rows, slice.stagingPath.isSome = true) :
    ∃ planned, rows.mapM (planSlice world tables unit version set.id) = .ok planned := by
  induction rows with
  | nil => exact ⟨[], rfl⟩
  | cons row rest ih =>
    obtain ⟨onDisk, others⟩ := List.forall_mem_cons.mp staged
    obtain ⟨path, named⟩ := Option.isSome_iff_exists.mp onDisk
    obtain ⟨planned, ok⟩ := ih others
    refine ⟨⟨buildSlice world row, path⟩ :: planned, ?_⟩
    rw [List.mapM_cons, ok, planSlice, named]
    rfl

theorem plan_span_set_staged (span : StagedSpan tables set slices) :
    ∃ planned all, planSpanSet world tables set.id unit base version = .ok (planned, all,
      (owedRun (owedSlices tables set.id
        (copyFloor world.toSurroundings base unit.status))).1) := by
  obtain ⟨planned, ok⟩ := @plan_rows_ok File world tables set unit version
    ((stageSlicesOf tables set.id).filter fun row => inRun (owedRun (owedSlices tables set.id
      (copyFloor world.toSurroundings base unit.status))).2 row.sliceNumber)
    fun slice member => span.staged slice (List.mem_filter.mp member).1
  exact ⟨planned, _, by rw [planSpanSet, ok]; rfl⟩

theorem number_between (span : StagedSpan tables set slices) {slice : StageSliceRow}
    (ofSet : slice ∈ stageSlicesOf tables set.id) :
    1 ≤ slice.sliceNumber ∧ slice.sliceNumber ≤ slices := by
  have listed : slice.sliceNumber ∈ (stageSlicesOf tables set.id).map StageSliceRow.sliceNumber :=
    List.mem_map_of_mem ofSet
  rw [span.numbers] at listed
  obtain ⟨index, bound, same⟩ := List.mem_map.mp listed
  have := List.mem_range.mp bound
  omega

theorem planned_numbers (span : StagedSpan tables set slices) {first last : Int}
    (low : 1 ≤ first) (high : last ≤ slices) :
    (((stageSlicesOf tables set.id).filter fun row =>
      inRun (some (first, last)) row.sliceNumber).map StageSliceRow.sliceNumber) =
        unbroken first last := by
  have filtered : ((stageSlicesOf tables set.id).filter fun row =>
      inRun (some (first, last)) row.sliceNumber).map StageSliceRow.sliceNumber =
        ((List.range slices).map fun number : Nat => (number : Int) + 1).filter
          (inRun (some (first, last))) := by
    rw [← span.numbers, List.filter_map]
    rfl
  rw [filtered]
  refine ascending_ext ?_ (unbroken_ascends first last) fun number => ?_
  · exact (List.Pairwise.map _ (fun _ _ less => by omega) List.pairwise_lt_range).filter _
  · rw [mem_unbroken, List.mem_filter, List.mem_map]
    simp only [inRun, Option.all_some, Bool.and_eq_true, decide_eq_true_eq, List.mem_range]
    constructor
    · exact fun both => both.2
    · intro between
      exact ⟨⟨(number - 1).toNat, by omega, by omega⟩, between⟩

theorem unbroken_head {first last : Int} (some_number : first ≤ last) :
    (unbroken first last).head? = some first := by
  have count : (last + 1 - first).toNat = (last - first).toNat + 1 := by omega
  simp [unbroken, count, List.range_succ_eq_map]

/-- While a span is in progress and a slice is short, the plan is the unbroken run from the lowest to
the highest short slice. -/
theorem owed_plan (schema : tables.Schema) (span : StagedSpan tables set slices)
    (progress : spanInProgress tables set.id = true)
    (short : ∃ slice ∈ stageSlicesOf tables set.id, (copiesOf tables set slice.id : Int) <
      copyFloor world.toSurroundings base unit.status) :
    ∃ first ∈ owedSlices tables set.id (copyFloor world.toSurroundings base unit.status),
      ∃ last ∈ owedSlices tables set.id (copyFloor world.toSurroundings base unit.status),
        (∀ number ∈ owedSlices tables set.id (copyFloor world.toSurroundings base unit.status),
          first ≤ number ∧ number ≤ last) ∧
        ∃ planned all,
          planSpanSet world tables set.id unit base version = .ok (planned, all, .owed) ∧
          planned.map (fun slice => slice.slice.sliceNumber) = unbroken first last := by
  obtain ⟨planned, all, ok⟩ := @plan_span_set_staged File world tables set slices unit base version
    span
  obtain ⟨slice, ofSet, below⟩ := short
  obtain ⟨first, firstOwed, last, lastOwed, run, between⟩ | ⟨none, -⟩ := owed_run_cases
    (owedSlices tables set.id (copyFloor world.toSurroundings base unit.status))
  · refine ⟨first, firstOwed, last, lastOwed, between, planned, all, by rw [ok, run], ?_⟩
    obtain ⟨lowest, lowKnown, rfl⟩ := mem_owed_slices firstOwed
    obtain ⟨highest, highKnown, rfl⟩ := mem_owed_slices lastOwed
    have numbers := congrArg (List.map Build.BuildSlice.sliceNumber) (plan_span_set_ok ok).2
    rw [run, List.map_map, List.map_map] at numbers
    rw [← planned_numbers span (number_between span lowKnown).1 (number_between span highKnown).2]
    exact numbers
  · have owed := (mem_owed_iff schema span.member).mpr ⟨progress, slice, ofSet, rfl, below⟩
    rw [none] at owed
    cases owed

theorem copies_even (idle : spanInProgress tables set.id = false) (slice : Int) :
    copiesOf tables set slice = (setCount set).whole tables .copies := by
  have none : (setCount set).writes tables .range = [] := by
    refine List.eq_nil_iff_forall_not_mem.mpr fun row member => ?_
    obtain ⟨write, volume, same, ofSet, status, eligible, -⟩ := SliceCount.mem_writes.mp member
    have sealed : row.2.status = .sealed := by simp_all [Policy.eligible]
    have inSet : row.1.stageSetId = set.id := ofSet
    simp only [spanInProgress, List.any_eq_false] at idle
    exact idle row.1 write (List.any_eq_true.mpr ⟨row.2, volume, by
      simp [same, inSet, status, sealed]⟩)
  rw [copiesOf, SliceCount.rangeAt, none]
  rfl

theorem planned_head_short (schema : tables.Schema) (span : StagedSpan tables set slices)
    {planned : List StagedSlice} {all : List Build.SpanSlice} {planClass : PlanClass}
    (ok : planSpanSet world tables set.id unit base version = .ok (planned, all, planClass))
    (short : ∃ slice ∈ stageSlicesOf tables set.id, (copiesOf tables set slice.id : Int) <
      copyFloor world.toSurroundings base unit.status)
    {head : StagedSlice} (leads : planned.head? = some head) :
    (copiesOf tables set head.slice.sliceId : Int) <
      copyFloor world.toSurroundings base unit.status := by
  obtain ⟨slice, ofSet, below⟩ := short
  cases progress : spanInProgress tables set.id with
  | false =>
    rw [copies_even progress] at below ⊢
    exact below
  | true =>
    obtain ⟨first, firstOwed, last, lastOwed, between, planned', all', ok', numbers⟩ :=
      @owed_plan File world tables set slices unit base version schema span progress
        ⟨slice, ofSet, below⟩
    obtain ⟨rfl, -, -⟩ : planned' = planned ∧ all' = all ∧ PlanClass.owed = planClass := by
      simpa using Except.ok.inj (ok'.symm.trans ok)
    have number : head.slice.sliceNumber = first := by
      have heads := congrArg List.head? numbers
      rw [List.head?_map, leads, unbroken_head (between last lastOwed).1] at heads
      exact Option.some.inj heads
    obtain ⟨-, lowest, known, rfl, isShort⟩ := (mem_owed_iff schema span.member).mp firstOwed
    have listed : head.slice ∈ planned'.map StagedSlice.slice :=
      List.mem_map_of_mem (List.mem_of_mem_head? leads)
    rw [(plan_span_set_ok ok).2] at listed
    obtain ⟨row, inRows, same⟩ := List.mem_map.mp listed
    obtain ⟨inTables, ofRow⟩ := mem_stage_slices_of.mp (List.mem_filter.mp inRows).1
    obtain ⟨inTables', ofLowest⟩ := mem_stage_slices_of.mp known
    rw [← same] at number ⊢
    obtain rfl : row = lowest := List.inj_on_of_nodup_map schema.slice_numbers inTables inTables'
      (Prod.ext (ofRow.trans ofLowest.symm) number)
    exact isShort

theorem mem_rows_iff (span : StagedSpan tables set slices) {slice : Int}
    {row : WriteRow × VolumeRow} :
    row ∈ (setCount set).rowsAt tables slice ↔ row.1 ∈ tables.writes ∧ row.2 ∈ tables.volumes ∧
      row.2.id = row.1.volumeId ∧ row.1.stageSetId = set.id ∧ eligible row.2 = true ∧
        writeHolds tables row.1 slice = true := by
  constructor
  · intro member
    obtain ⟨write, volume, same, ofSet, sealed, -, -, -, holds⟩ := SliceCount.mem_rows_at member
    exact ⟨write, volume, same, ofSet, sealed, holds⟩
  · rintro ⟨write, volume, same, ofSet, sealed, holds⟩
    have credited : (setCount set).tapeCredited tables row.1 = true := by
      simp only [SliceCount.tapeCredited, Bool.not_eq_true', List.any_eq_false, Bool.and_eq_true,
        decide_eq_true_eq, List.any_eq_true, not_exists, not_and]
      rintro lower _ other inSets ⟨⟨⟨id, _⟩, less⟩, _⟩ version
      have one := span.only other inSets (by simpa [setCount, Partition.contains] using version)
      rw [← id, one, ofSet] at less
      exact lt_irrefl _ less
    have counted : ∀ status, row.1.status = status → row ∈ (setCount set).writes tables status :=
      fun status has => SliceCount.mem_writes.mpr
        ⟨write, volume, same, ofSet, has, sealed, by rintro ⟨⟩⟩
    simp only [writeHolds, Bool.or_eq_true, Bool.and_eq_true, decide_eq_true_eq] at holds
    rcases holds with whole | ⟨range, held⟩
    · exact List.mem_append_left _ (List.mem_filter.mpr ⟨counted _ whole, credited⟩)
    · exact List.mem_append_right _ (List.mem_filter.mpr ⟨counted _ range, by simp [credited, held]⟩)

end Plan

/-- One write of the set, from the catalog before it to the catalog its confirm leaves. `begun` has
the session's rows: a volume no earlier write is on, the set's write on it with one position for each
slice the plan has, and whatever else the tape was given. -/
structure SpanWrite (world : PlanWorld File) (set : StageSetRow) (unit : UnitRow) (base version : Int)
    (before after : Catalog) where
  planned : List StagedSlice
  all : List Build.SpanSlice
  planClass : PlanClass
  plans : planSpanSet world before.tables set.id unit base version = .ok (planned, all, planClass)
  begun : Catalog
  stageSets : begun.tables.stageSets = before.tables.stageSets
  stageSlices : begun.tables.stageSlices = before.tables.stageSlices
  deposits : begun.tables.deposits = before.tables.deposits
  volumes : ∀ volume ∈ before.tables.volumes, volume.status = .sealed → volume ∈ begun.tables.volumes
  writes : before.tables.writes ⊆ begun.tables.writes
  positions : before.tables.positions ⊆ begun.tables.positions
  session : SealedPending
  entryStatuses : List (WriteStatus × Bool)
  tier : Tier
  through : Nat
  fresh : ∀ write ∈ before.tables.writes, write.volumeId ≠ session.volumeId
  ok_volume : ∀ volume ∈ begun.tables.volumes, volume.id = session.volumeId →
    volume.observedCondition = .ok
  write : WriteRow
  known : write ∈ begun.tables.writes
  of_set : write.stageSetId = set.id
  may_span : write.maySpan = true
  listed : (write.id, write.snapshotId) ∈ session.writeIds
  placed : ((begun.tables.positions.filter fun position => position.writeId = write.id).map
    PositionRow.stageSliceId).Perm (planned.map fun slice => slice.slice.sliceId)
  read : readEntryStatuses begun.tables session = .ok entryStatuses
  counted : countedThrough session = .ok through
  rows : PlannedRows begun.tables session (enteredRows session entryStatuses) through
  head : StagedSlice
  leads : planned.head? = some head
  on_tape : ∃ position ∈ begun.tables.positions, position.writeId = write.id ∧
    position.stageSliceId = head.slice.sliceId ∧ position.position ≤ through
  record : SealRecord
  confirmed : recordSeal begun.tables session entryStatuses tier = (after.tables, .ok record)

/-- What a write leaves: the set and its slices, every copy there was, and one more of the first
slice planned. -/
structure Advanced (set : StageSetRow) (head : Int) (before after : Tables) : Prop where
  stageSets : after.stageSets = before.stageSets
  stageSlices : after.stageSlices = before.stageSlices
  kept : ∀ slice, copiesOf before set slice ≤ copiesOf after set slice
  raised : copiesOf before set head < copiesOf after set head
  progress : spanInProgress before set.id = true → spanInProgress after set.id = true

namespace SpanWrite

variable {world : PlanWorld File} {set : StageSetRow} {unit : UnitRow} {base version : Int}
  {before after : Catalog} (step : SpanWrite world set unit base version before after)

include step

theorem committed : Initialized step.begun.tables step.session.volumeId ∧
    Committed step.begun.tables step.session step.tier step.through
      (enteredRows step.session step.entryStatuses) after.tables step.record :=
  record_seal_committed step.counted step.rows step.confirmed

theorem stage_sets_after : after.tables.stageSets = before.tables.stageSets := by
  obtain ⟨snapshots, left⟩ := step.committed.2.left
  rw [left]
  exact step.stageSets

theorem stage_slices_after : after.tables.stageSlices = before.tables.stageSlices := by
  obtain ⟨snapshots, left⟩ := step.committed.2.left
  rw [left]
  exact step.stageSlices

theorem deposits_after : after.tables.deposits = before.tables.deposits := by
  obtain ⟨snapshots, left⟩ := step.committed.2.left
  rw [left]
  exact step.deposits

theorem positions_after : after.tables.positions = step.begun.tables.positions := by
  obtain ⟨snapshots, left⟩ := step.committed.2.left
  rw [left]
  rfl

theorem volume_kept {volume : VolumeRow} (member : volume ∈ before.tables.volumes)
    (sealed : volume.status = .sealed) : volume ∈ after.tables.volumes := by
  obtain ⟨snapshots, left⟩ := step.committed.2.left
  rw [left]
  refine List.mem_map.mpr ⟨volume, step.volumes volume member sealed, if_neg ?_⟩
  rintro ⟨-, initialized⟩
  rw [sealed] at initialized
  cases initialized

theorem write_kept {write : WriteRow} (member : write ∈ before.tables.writes) :
    write ∈ after.tables.writes := by
  obtain ⟨snapshots, left⟩ := step.committed.2.left
  rw [left]
  refine List.mem_map.mpr ⟨write, step.writes member, recorded_row_fresh fun row inRows same => ?_⟩
  obtain ⟨other, known, id, -, onVolume, -⟩ := step.rows.known row inRows
  obtain rfl : other = write := List.inj_on_of_nodup_map step.begun.schema.write_keys known
    (step.writes member) (id.trans same)
  exact step.fresh other member onVolume

theorem holds_kept {write : WriteRow} {slice : Int}
    (holds : writeHolds before.tables write slice = true) :
    writeHolds after.tables write slice = true := by
  simp only [writeHolds, rangeHolds, Bool.or_eq_true, Bool.and_eq_true, List.any_eq_true,
    step.positions_after] at holds ⊢
  refine holds.imp_right (And.imp_right ?_)
  rintro ⟨position, member, held⟩
  exact ⟨position, step.positions member, held⟩

theorem progress_kept (progress : spanInProgress before.tables set.id = true) :
    spanInProgress after.tables set.id = true := by
  simp only [spanInProgress, List.any_eq_true, Bool.and_eq_true, decide_eq_true_eq] at progress ⊢
  obtain ⟨write, member, volume, inVolumes, range, sealed⟩ := progress
  exact ⟨write, step.write_kept member, volume, step.volume_kept inVolumes sealed, range, sealed⟩

theorem new_volume : ∃ volume ∈ after.tables.volumes, volume.id = step.session.volumeId ∧
    eligible volume = true := by
  obtain ⟨⟨volume, member, id, initialized⟩, committed⟩ := step.committed
  have condition := step.ok_volume volume member id
  obtain ⟨snapshots, left⟩ := committed.left
  rw [left]
  refine ⟨_, List.mem_map_of_mem member, ?_⟩
  rw [if_pos ⟨id, initialized⟩]
  exact ⟨id, by simp [eligible, condition]⟩

theorem new_write : ∃ write ∈ after.tables.writes, write.volumeId = step.session.volumeId ∧
    write.stageSetId = set.id ∧ writeHolds after.tables write step.head.slice.sliceId = true := by
  obtain ⟨initialized, committed⟩ := step.committed
  have covers := entered_rows_cover step.read
  have recorded := committed_recorded step.rows step.counted initialized committed covers
  obtain ⟨row, inRows, sameId, -⟩ := covers _ step.listed
  obtain ⟨known, inWrites, id, -, onVolume, -⟩ := step.rows.known row inRows
  obtain rfl : known = step.write := List.inj_on_of_nodup_map step.begun.schema.write_keys inWrites
    step.known (id.trans sameId)
  have left := @recorded_row_of step.begun step.session step.tier step.through _ step.rows row inRows
    step.write id
  set write := recordedRow step.begun.tables step.session step.tier step.through
    (enteredRows step.session step.entryStatuses) step.write
  have sameWrite : write.id = step.write.id := recorded_row_id ..
  have sameSet : write.stageSetId = step.write.stageSetId := recorded_row_stage_set ..
  have inAfter : write ∈ after.tables.writes := by
    obtain ⟨snapshots, tables⟩ := committed.left
    rw [tables]
    exact List.mem_map_of_mem inWrites
  have listed : (write.id, step.write.snapshotId) ∈ step.session.writeIds := sameWrite ▸ step.listed
  obtain ⟨position, inPositions, ofWrite, ofHead, past⟩ := step.on_tape
  have written := (step.rows.written row inRows position inPositions (ofWrite.trans id)).mpr past
  have held : rangeHolds after.tables write step.head.slice.sliceId = true := by
    rw [rangeHolds, step.positions_after]
    exact List.any_eq_true.mpr ⟨position, inPositions, by simp [sameWrite, ofWrite, ofHead, written]⟩
  refine ⟨write, inAfter, (recorded_row_volume ..).trans onVolume, sameSet.trans step.of_set, ?_⟩
  by_cases all : AllHeld after.tables write step.through
  · simp [writeHolds, (recorded.completed write inAfter _ listed).mpr all]
  · obtain ⟨slice, inSlices, sameSlice, inSet⟩ :=
      step.rows.own row inRows step.write inWrites id position inPositions ofWrite
    have here : heldHere after.tables write.id slice step.through = true := by
      rw [held_here_iff, step.positions_after]
      exact ⟨position, inPositions, ofWrite.trans sameWrite.symm, sameSlice.symm, written, past⟩
    have may : write.maySpan = true := by rw [left, Split.record_may_span, step.may_span]
    have range := (recorded.range write inAfter _ listed).mpr ⟨may, all, slice, by
      rwa [step.stage_slices_after, ← step.stageSlices], inSet.trans sameSet.symm, here⟩
    simp [writeHolds, range, held]

variable {slices : Nat}

theorem span_kept (span : StagedSpan before.tables set slices) :
    StagedSpan after.tables set slices := by
  have same : stageSlicesOf after.tables set.id = stageSlicesOf before.tables set.id := by
    rw [stageSlicesOf, step.stage_slices_after]
    rfl
  constructor
  · rw [step.stage_sets_after]
    exact span.member
  · rw [step.stage_sets_after]
    exact span.only
  · rw [same]
    exact span.numbers
  · rw [same]
    exact span.staged

theorem rows_kept (span : StagedSpan before.tables set slices) (slice : Int) :
    (setCount set).rowsAt before.tables slice ⊆ (setCount set).rowsAt after.tables slice := by
  intro row member
  obtain ⟨write, volume, same, ofSet, sealed, holds⟩ := (mem_rows_iff span).mp member
  have status : row.2.status = .sealed := by
    simp only [eligible, Bool.and_eq_true, decide_eq_true_eq] at sealed
    exact sealed.1
  exact (mem_rows_iff (step.span_kept span)).mpr ⟨step.write_kept write,
    step.volume_kept volume status, same, ofSet, sealed, step.holds_kept holds⟩

theorem advanced (span : StagedSpan before.tables set slices) :
    Advanced set step.head.slice.sliceId before.tables after.tables := by
  have weights : SliceCount.weight after.tables .copies = SliceCount.weight before.tables .copies := by
    funext row
    simp only [SliceCount.weight, step.deposits_after]
  refine ⟨step.stage_sets_after, step.stage_slices_after, fun slice => ?_, ?_, step.progress_kept⟩
  · rw [copies_of_rows, copies_of_rows, weights]
    exact sum_le_of_subset (SliceCount.rows_at_nodup before.schema slice) (step.rows_kept span slice) _
  · obtain ⟨volume, inVolumes, id, sealed⟩ := step.new_volume
    obtain ⟨write, inWrites, onVolume, ofSet, holds⟩ := step.new_write
    have isNew : (write, volume) ∉ (setCount set).rowsAt before.tables step.head.slice.sliceId :=
      fun old => step.fresh write ((mem_rows_iff span).mp old).1 onVolume
    have counted : (write, volume) ∈ (setCount set).rowsAt after.tables step.head.slice.sliceId :=
      (mem_rows_iff (step.span_kept span)).mpr ⟨inWrites, inVolumes, id.trans onVolume.symm, ofSet,
        sealed, holds⟩
    have more := sum_le_of_subset
      (List.nodup_cons.mpr ⟨isNew, SliceCount.rows_at_nodup before.schema _⟩)
      (List.cons_subset.mpr ⟨counted, step.rows_kept span _⟩) (SliceCount.weight before.tables .copies)
    have one : 1 ≤ SliceCount.weight before.tables .copies (write, volume) := Nat.le_add_right ..
    rw [copies_of_rows, copies_of_rows, weights]
    rw [List.map_cons, List.sum_cons] at more
    omega

theorem head_of_set : ∃ slice ∈ stageSlicesOf before.tables set.id,
    slice.id = step.head.slice.sliceId := by
  have listed : step.head.slice ∈ step.planned.map StagedSlice.slice :=
    List.mem_map_of_mem (List.mem_of_mem_head? step.leads)
  rw [(plan_span_set_ok step.plans).2] at listed
  obtain ⟨row, inRows, same⟩ := List.mem_map.mp listed
  exact ⟨row, (List.mem_filter.mp inRows).1, by rw [← same]; rfl⟩

theorem shortfall_kept (span : StagedSpan before.tables set slices) (floor : Int) :
    shortfall after.tables set.id floor ≤ shortfall before.tables set.id floor := by
  have advanced := step.advanced span
  rw [shortfall_eq before.schema span.member, shortfall_eq after.schema (step.span_kept span).member]
  rw [stageSlicesOf, step.stage_slices_after, ← stageSlicesOf]
  refine List.sum_le_sum fun slice _ => ?_
  have kept := advanced.kept slice.id
  omega

theorem shortfall_falls (span : StagedSpan before.tables set slices)
    (short : 0 < shortfall before.tables set.id
      (copyFloor world.toSurroundings base unit.status)) :
    shortfall after.tables set.id (copyFloor world.toSurroundings base unit.status) <
      shortfall before.tables set.id (copyFloor world.toSurroundings base unit.status) := by
  have advanced := step.advanced span
  rw [shortfall_eq before.schema span.member] at short ⊢
  rw [shortfall_eq after.schema (step.span_kept span).member]
  rw [stageSlicesOf, step.stage_slices_after, ← stageSlicesOf]
  obtain ⟨head, inSet, same⟩ := step.head_of_set
  have below : (copiesOf before.tables set head.id : Int) <
      copyFloor world.toSurroundings base unit.status := by
    rw [same]
    refine planned_head_short before.schema span step.plans ?_ step.leads
    by_contra enough
    push Not at enough
    refine absurd short (Nat.not_lt.mpr (Nat.le_zero.mpr (List.sum_eq_zero ?_)))
    intro missing listed
    obtain ⟨slice, ofSet, rfl⟩ := List.mem_map.mp listed
    have := enough slice ofSet
    omega
  refine List.sum_lt_sum _ _ (fun slice _ => ?_) ⟨head, inSet, ?_⟩
  · have kept := advanced.kept slice.id
    omega
  · have raised := advanced.raised
    rw [← same] at raised
    omega

end SpanWrite

section Finish

variable {world : PlanWorld File} {set : StageSetRow} {unit : UnitRow} {base version : Int}

/-- `count` writes of the set, one after another. -/
inductive SpanWrites (world : PlanWorld File) (set : StageSetRow) (unit : UnitRow)
    (base version : Int) (start : Catalog) : Nat → Catalog → Prop where
  | none : SpanWrites world set unit base version start 0 start
  | write {count : Nat} {reached after : Catalog}
      (earlier : SpanWrites world set unit base version start count reached)
      (step : SpanWrite world set unit base version reached after) :
      SpanWrites world set unit base version start (count + 1) after

def shortSlices (tables : Tables) (set floor : Int) : List SliceCopies :=
  (sliceCopies tables set).filter fun slice => (slice.copies : Int) < floor

theorem owed_of_progress {tables : Tables} {set floor : Int}
    (progress : spanInProgress tables set = true) :
    owedSlices tables set floor = (shortSlices tables set floor).map SliceCopies.sliceNumber :=
  if_pos progress

variable {slices : Nat}

theorem span_writes_kept {start reached : Catalog} {count : Nat}
    (span : StagedSpan start.tables set slices)
    (writes : SpanWrites world set unit base version start count reached) :
    StagedSpan reached.tables set slices := by
  induction writes with
  | none => exact span
  | write _ step ih => exact step.span_kept ih

theorem span_writes_shortfall {start reached : Catalog} {count : Nat}
    (span : StagedSpan start.tables set slices)
    (writes : SpanWrites world set unit base version start count reached)
    (short : 0 < shortfall reached.tables set.id
      (copyFloor world.toSurroundings base unit.status)) :
    shortfall reached.tables set.id (copyFloor world.toSurroundings base unit.status) + count ≤
      shortfall start.tables set.id (copyFloor world.toSurroundings base unit.status) := by
  induction writes with
  | none => exact le_refl _
  | write earlier step ih =>
    have spanned := span_writes_kept span earlier
    have missing := lt_of_lt_of_le short (step.shortfall_kept spanned _)
    have falls := step.shortfall_falls spanned missing
    have before := ih missing
    omega

theorem shortfall_bounded {tables : Tables} (schema : tables.Schema)
    (span : StagedSpan tables set slices) (floor : Int) :
    shortfall tables set.id floor ≤ slices * floor.toNat := by
  have count : (stageSlicesOf tables set.id).length = slices := by
    have lengths := congrArg List.length span.numbers
    simpa using lengths
  rw [shortfall_eq schema span.member, ← count]
  have bound := List.sum_le_card_nsmul ((stageSlicesOf tables set.id).map fun slice =>
    (floor - copiesOf tables set slice.id).toNat) floor.toNat fun missing listed => by
      obtain ⟨slice, -, rfl⟩ := List.mem_map.mp listed
      omega
  simpa using bound

theorem short_of_mem {tables : Tables} {set floor : Int} {slice : SliceCopies}
    (short : slice ∈ shortSlices tables set floor) : 0 < shortfall tables set floor := by
  obtain ⟨counted, below⟩ := List.mem_filter.mp short
  have missing : (floor - slice.copies).toNat ≤ shortfall tables set floor :=
    List.single_le_sum (fun _ _ => Nat.zero_le _) _
      (List.mem_map_of_mem (f := fun slice => (floor - slice.copies).toNat) counted)
  have := of_decide_eq_true below
  omega

/-- A span finishes. In every catalog a sequence of writes of the set reaches: while the set has a
range on a sealed volume and some slice has fewer copies than the floor, the plan is the unbroken run
from the lowest to the highest such slice, and the next write leaves fewer copies missing. After as
many writes as there are slices times the floor, no slice is owed. -/
theorem span_finishes (world : PlanWorld File) (set : StageSetRow) (unit : UnitRow)
    (base version : Int) (start : Catalog) (slices : Nat)
    (span : StagedSpan start.tables set slices) (count : Nat) (reached : Catalog)
    (writes : SpanWrites world set unit base version start count reached) :
    let floor := copyFloor world.toSurroundings base unit.status
    (spanInProgress reached.tables set.id = true → shortSlices reached.tables set.id floor ≠ [] →
      (∃ lowest ∈ shortSlices reached.tables set.id floor,
        ∃ highest ∈ shortSlices reached.tables set.id floor,
          (∀ slice ∈ shortSlices reached.tables set.id floor,
            lowest.sliceNumber ≤ slice.sliceNumber ∧ slice.sliceNumber ≤ highest.sliceNumber) ∧
          ∃ planned all,
            planSpanSet world reached.tables set.id unit base version = .ok (planned, all, .owed) ∧
            planned.map (fun slice => slice.slice.sliceNumber) =
              unbroken lowest.sliceNumber highest.sliceNumber) ∧
      ∀ after, SpanWrite world set unit base version reached after →
        shortfall after.tables set.id floor < shortfall reached.tables set.id floor) ∧
    (slices * floor.toNat ≤ count → owedSlices reached.tables set.id floor = []) := by
  intro floor
  have spanned := span_writes_kept span writes
  refine ⟨fun progress some_short => ⟨?_, fun after step => ?_⟩, fun enough => ?_⟩
  · obtain ⟨copies, short⟩ := List.exists_mem_of_ne_nil _ some_short
    obtain ⟨counted, below⟩ := List.mem_filter.mp short
    obtain ⟨slice, ofSet, -, same⟩ := mem_slice_copies_of reached.schema spanned.member counted
    obtain ⟨first, firstOwed, last, lastOwed, between, planned, all, ok, numbers⟩ :=
      @owed_plan File world reached.tables set slices unit base version reached.schema spanned progress
        ⟨slice, ofSet, same ▸ of_decide_eq_true below⟩
    rw [owed_of_progress progress] at firstOwed lastOwed between
    obtain ⟨lowest, isShort, rfl⟩ := List.mem_map.mp firstOwed
    obtain ⟨highest, isShort', rfl⟩ := List.mem_map.mp lastOwed
    exact ⟨lowest, isShort, highest, isShort',
      fun slice member => between _ (List.mem_map_of_mem member), planned, all, ok, numbers⟩
  · obtain ⟨slice, short⟩ := List.exists_mem_of_ne_nil _ some_short
    exact step.shortfall_falls spanned (short_of_mem short)
  · rw [List.eq_nil_iff_forall_not_mem]
    intro number owed
    have progress := ((mem_owed_iff reached.schema spanned.member).mp owed).1
    rw [owed_of_progress progress] at owed
    obtain ⟨slice, short, -⟩ := List.mem_map.mp owed
    have missing := short_of_mem short
    have left : shortfall reached.tables set.id floor + count ≤ shortfall start.tables set.id floor :=
      span_writes_shortfall span writes missing
    have bound := shortfall_bounded start.schema span floor
    omega

end Finish

def firstTapeWritten : Catalog where
  tables := {
    units := [⟨1, "unit-1", "photos", .active⟩]
    snapshots := [⟨1, 1, 1, .staged⟩]
    stageSets := [⟨1, 1, .staged⟩]
    stageSlices := [⟨1, 1, 1, some "a.1.dar.age", none⟩, ⟨2, 1, 2, some "a.2.dar.age", none⟩]
    volumes := [⟨1, "L1", .sealed, .ok, none, none, none⟩]
    deposits := []
    writes := [⟨1, 1, 1, 1, .range, true, true⟩]
    positions := [⟨1, 1, 4, .written⟩] }
  schema := by constructor <;> decide

def secondTapeBegun : Catalog where
  tables := { firstTapeWritten.tables with
    volumes := [⟨1, "L1", .sealed, .ok, none, none, none⟩,
      ⟨2, "L2", .initialized, .ok, none, some "now", none⟩]
    writes := [⟨1, 1, 1, 1, .range, true, true⟩, ⟨2, 1, 1, 2, .inProgress, false, true⟩]
    positions := [⟨1, 1, 4, .written⟩, ⟨2, 2, 4, .written⟩] }
  schema := by constructor <;> decide

def secondTapeSession : SealedPending where
  volumeId := 2
  layout := ⟨"L2", "volume-2", 512,
    [⟨0, .idThunk, none, none⟩, ⟨4, .slice 2, none, none⟩, ⟨5, .sealMarker, none, none⟩]⟩
  writeIds := [(2, 1)]
  ending := .full

def secondTapeSealed : Catalog where
  tables := (recordSeal secondTapeBegun.tables secondTapeSession [(.inProgress, true)] .integrity).1
  schema := by constructor <;> decide +kernel

theorem second_tape_planned : PlannedRows secondTapeBegun.tables secondTapeSession
    (enteredRows secondTapeSession [(.inProgress, true)]) 4 where
  distinct := by decide
  known := by decide
  version := by decide
  own := by decide
  laid := by decide
  sealed_last := by
    intro entry member isSlice planned marker
    obtain rfl : 5 = planned := Except.ok.inj marker
    revert entry
    decide
  whole := by decide
  run := by
    intro row inRows may write member id
    have only : ∀ row ∈ enteredRows secondTapeSession [(.inProgress, true)], row.writeId = 2 := by
      decide
    have one : ∀ write ∈ secondTapeBegun.tables.writes, write.id = 2 →
        write = ⟨2, 1, 1, 2, .inProgress, false, true⟩ := by decide
    obtain rfl := one write member (id.trans (only row inRows))
    refine ⟨2, 2, by decide, fun number after before => ?_⟩
    obtain rfl : number = 2 := by omega
    exact ⟨⟨2, 1, 2, some "a.2.dar.age", none⟩, by decide, rfl, rfl⟩
  ordered := by decide
  written := by decide

def secondTape : SpanWrite floorOfOneCopy ⟨1, 1, .staged⟩ ⟨1, "unit-1", "photos", .active⟩ 1 1
    firstTapeWritten secondTapeSealed where
  planned := [⟨⟨2, 2, 700, 1400, "plain", "encrypted"⟩, "a.2.dar.age"⟩]
  all := [⟨1, 1, 700, 700, "plain", "encrypted"⟩, ⟨2, 2, 700, 1400, "plain", "encrypted"⟩]
  planClass := .owed
  plans := by decide +kernel
  begun := secondTapeBegun
  stageSets := rfl
  stageSlices := rfl
  deposits := rfl
  volumes := by decide
  writes := by decide
  positions := by decide
  session := secondTapeSession
  entryStatuses := [(.inProgress, true)]
  tier := .integrity
  through := 4
  fresh := by decide
  ok_volume := by decide
  write := ⟨2, 1, 1, 2, .inProgress, false, true⟩
  known := by decide
  of_set := rfl
  may_span := rfl
  listed := by decide
  placed := by decide
  read := rfl
  counted := rfl
  rows := second_tape_planned
  head := ⟨⟨2, 2, 700, 1400, "plain", "encrypted"⟩, "a.2.dar.age"⟩
  leads := rfl
  on_tape := by decide
  record := ⟨[⟨1, .staged, "photos"⟩], [], [⟨"photos", 2, 2⟩]⟩
  confirmed := by decide +kernel

/-- The second tape is planned with the slice still owed, and nothing is missing after it. -/
theorem span_finishes_second_tape :
    SpanWrites floorOfOneCopy ⟨1, 1, .staged⟩ ⟨1, "unit-1", "photos", .active⟩ 1 1 firstTapeWritten 1
        secondTapeSealed ∧
      shortfall secondTapeSealed.tables 1 1 < shortfall firstTapeWritten.tables 1 1 := by
  have span : StagedSpan firstTapeWritten.tables ⟨1, 1, .staged⟩ 2 :=
    ⟨by decide, by decide, by decide, by decide⟩
  have falls := (span_finishes floorOfOneCopy ⟨1, 1, .staged⟩ ⟨1, "unit-1", "photos", .active⟩ 1 1
    firstTapeWritten 2 span 0 firstTapeWritten .none).1 (by decide) (by decide +kernel)
  exact ⟨.write .none secondTape, falls.2 secondTapeSealed secondTape⟩

section Covered

variable {set : StageSetRow} {tables : Tables} {slices : Nat}

theorem span_copy_count (schema : tables.Schema) (span : StagedSpan tables set slices)
    (some_slice : 0 < slices) :
    (∃ slice ∈ stageSlicesOf tables set.id,
      copyCountExpr tables ⟨.snapshot set.snapshotId, none⟩ = copiesOf tables set slice.id) ∧
    ∀ slice ∈ stageSlicesOf tables set.id,
      copyCountExpr tables ⟨.snapshot set.snapshotId, none⟩ ≤ copiesOf tables set slice.id := by
  have one : (tables.stageSets.filter fun row => row.snapshotId = set.snapshotId) = [set] := by
    rw [← filter_key schema.stage_set_keys span.member]
    refine List.filter_congr fun row known => decide_eq_decide.mpr ⟨fun same => ?_, fun same => ?_⟩
    · rw [span.only row known same]
    · rw [List.inj_on_of_nodup_map schema.stage_set_keys known span.member same]
  have counted : copyCountExpr tables ⟨.snapshot set.snapshotId, none⟩ =
      (setCount set).leastCopies tables .copies := by
    simp [copyCountExpr, countExpr, scopeSum, CoverageScope.stageSets, CoverageScope.partition, one, setCount]
  rw [counted]
  constructor
  · have idle : (setCount set).writes tables .range = [] →
        ∀ slice, (setCount set).rangeAt tables .copies slice = 0 := by
      intro none slice
      simp [SliceCount.rangeAt, none]
    rcases SliceCount.least_covered_cases idle with ⟨_, absent⟩ | ⟨slice, member, ofSet, least⟩
    · have lengths := congrArg List.length span.numbers
      rw [List.length_map, List.length_map, List.length_range] at lengths
      obtain ⟨slice, member⟩ := List.exists_mem_of_length_pos (lengths ▸ some_slice)
      obtain ⟨known, ofSet⟩ := mem_stage_slices_of.mp member
      exact absurd ofSet (absent slice known)
    · exact ⟨slice, mem_stage_slices_of.mpr ⟨member, ofSet⟩, least⟩
  · intro slice member
    obtain ⟨known, ofSet⟩ := mem_stage_slices_of.mp member
    exact SliceCount.least_covered_le known ofSet

/-- The version's copy count is at the floor exactly when no slice misses a copy; so it is in time; and
then the loss of fewer holders than the floor leaves every slice held. -/
theorem finished_span_survives {world : PlanWorld File} {unit : UnitRow} {base version : Int}
    {start reached : Catalog} {count : Nat} (some_slice : 0 < slices)
    (span : StagedSpan start.tables set slices)
    (writes : SpanWrites world set unit base version start count reached) :
    let floor := copyFloor world.toSurroundings base unit.status
    let copies := copyCountExpr reached.tables ⟨.snapshot set.snapshotId, none⟩
    let missing := shortfall reached.tables set.id floor
    (floor ≤ copies ↔ missing = 0) ∧ (slices * floor.toNat ≤ count → missing = 0) ∧
    (missing = 0 → ∀ lost : Finset Holder, lost.card < floor →
      ∀ slice ∈ reached.tables.stageSlices, slice.stageSetId = set.id →
        ∃ holder, holder ∉ lost ∧ Holds reached.tables set.id slice.id holder) := by
  intro floor copies missing
  have spanned := span_writes_kept span writes
  obtain ⟨⟨slice, member, least⟩, below⟩ := span_copy_count reached.schema spanned some_slice
  have covered : floor ≤ copies ↔ missing = 0 := by
    rw [show missing = _ from shortfall_eq reached.schema spanned.member floor, List.sum_eq_zero_iff]
    constructor
    · intro enough short listed
      obtain ⟨other, inSet, rfl⟩ := List.mem_map.mp listed
      have := below other inSet
      omega
    · intro none
      have := none _ (List.mem_map_of_mem member)
      omega
  refine ⟨covered, fun enough => ?_, fun finished lost few other known ofSet => ?_⟩
  · by_contra short
    have left : missing + count ≤ shortfall start.tables set.id floor :=
      span_writes_shortfall span writes (Nat.pos_of_ne_zero short)
    have bound := shortfall_bounded start.schema span floor
    omega
  · have counted := covered.mpr finished
    obtain ⟨held, inVersion, _, survives⟩ :=
      copies_survive reached set.snapshotId none lost (by omega)
    obtain ⟨isSet, ofVersion⟩ := mem_version_sets.mp inVersion
    obtain rfl := spanned.only held isSet ofVersion
    obtain ⟨holder, kept, holds, _⟩ := survives other known ofSet
    exact ⟨holder, kept, holds⟩

end Covered

/-- Nothing is missing after the second tape; so the version is at its floor and both slices are
held. A third tape could only keep it so. -/
theorem finished_span_survives_second_tape :
    shortfall secondTapeSealed.tables 1 1 = 0 ∧
      1 ≤ copyCountExpr secondTapeSealed.tables ⟨.snapshot 1, none⟩ ∧
      (∀ slice ∈ secondTapeSealed.tables.stageSlices, slice.stageSetId = 1 →
        ∃ holder, Holds secondTapeSealed.tables 1 slice.id holder) ∧
      ∀ reached, SpanWrites floorOfOneCopy ⟨1, 1, .staged⟩ ⟨1, "unit-1", "photos", .active⟩ 1 1
        firstTapeWritten 2 reached → shortfall reached.tables 1 1 = 0 := by
  have span : StagedSpan firstTapeWritten.tables ⟨1, 1, .staged⟩ 2 :=
    ⟨by decide, by decide, by decide, by decide⟩
  have finished : shortfall secondTapeSealed.tables 1 1 = 0 := by decide +kernel
  obtain ⟨covered, _, survives⟩ :=
    finished_span_survives (by decide) span (.write .none secondTape)
  refine ⟨finished, Int.ofNat_le.mp (covered.mpr finished), fun slice known ofSet => ?_,
    fun reached writes => (finished_span_survives (by decide) span writes).2.1 (by decide)⟩
  obtain ⟨holder, _, holds⟩ := survives finished ∅ (by decide) slice known ofSet
  exact ⟨holder, holds⟩

end Tapectl.Volume.Staged
