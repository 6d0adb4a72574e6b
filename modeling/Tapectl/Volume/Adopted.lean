import Tapectl.Library.Effects
import Tapectl.Volume.AdoptLost

/-!
# What an adoption rests on

If `adopt` adopts, the tape is the volume the catalog names and a seal it accepts binds the front index
it read; every `completed` row is wholly on the tape with the hashes the catalog staged; and with the
positions recorded `written` as the tape has them, a `range` is a run of its set on the tape and a
`cut` row's set is not whole on it. Versions are promoted by confirm's rule.
-/

namespace Tapectl.AdoptLost

open StoredText Tapectl.Db Tapectl.Session Tapectl.Policy Tapectl.Seam Tapectl.Volume
open Tapectl.Volume.Format
open Toml (Crate)
open Effects (bind_ok bind_error map_error_ok map_error_error)

section Rows

variable {rows : List Attached}

theorem by_position_ok {found rows map : List Attached}
    (distinct : (found.map Attached.position).Nodup)
    (built : byPosition found rows = .ok map) :
    map = found ++ rows ∧ (map.map Attached.position).Nodup := by
  induction rows generalizing found with
  | nil =>
    cases built
    exact ⟨(List.append_nil _).symm, distinct⟩
  | cons row rest ih =>
    unfold byPosition at built
    split at built
    · cases built
    next fresh =>
    have fresh' : row.position ∉ found.map Attached.position := by
      simpa using fresh
    obtain ⟨isMap, nodup⟩ := ih (by
      rw [List.map_append, List.nodup_append_comm]
      exact List.nodup_cons.mpr ⟨fresh', distinct⟩) built
    exact ⟨by rw [isMap, List.append_assoc]; rfl, nodup⟩

theorem match_slice_ok {slice : Int × Option String} (matched : matchSlice rows slice = .ok ()) :
    ∃ row ∈ rows, row.position = slice.1 ∧ row.origin = .staged ∧ slice.2 = some row.sha256 := by
  unfold matchSlice at matched
  split at matched
  · cases matched
  next tapeSha isSha =>
  split at matched
  · cases matched
  next row found =>
  split at matched
  · cases matched
  next staged =>
  split at matched
  · cases matched
  next same =>
  refine ⟨row, List.mem_of_find?_eq_some found, by simpa using List.find?_some found,
    not_not.mp staged, ?_⟩
  rw [isSha, not_not.mp same]

theorem match_slices_ok {slices : List (Int × Option String)} {matched : Nat}
    (ran : matchSlices rows slices = .ok matched) : ∀ slice ∈ slices, matchSlice rows slice = .ok () := by
  induction slices generalizing matched with
  | nil => simp
  | cons slice rest ih =>
    obtain ⟨_, first, ran⟩ := bind_ok ran
    obtain ⟨_, later, _⟩ := bind_ok ran
    intro other listed
    rcases List.mem_cons.mp listed with rfl | listed
    · exact first
    · exact ih later other listed

theorem rows_match_ok {tables : Tables} {endedAfter : Option Nat} {through : Nat}
    {writes : List WriteRow} (ran : rowsMatch tables endedAfter through writes = .ok ()) :
    ∀ write ∈ writes, rowMatches tables endedAfter through write = .ok () := by
  induction writes with
  | nil => simp
  | cons write rest ih =>
    obtain ⟨_, first, ran⟩ := bind_ok ran
    intro other listed
    rcases List.mem_cons.mp listed with rfl | listed
    · exact first
    · exact ih ran other listed

end Rows

section Matching

variable {catalog : Catalog} {columns : Columns} {volumeId : Int} {entries : List ParsedIndexEntry}
  {endedAfter : Option Nat}

structure Matched (tables : Tables) (columns : Columns) (volumeId : Int)
    (entries : List ParsedIndexEntry) (endedAfter : Option Nat) : Prop where
  distinct : ((attached tables columns volumeId).map Attached.position).Nodup
  listed : ∀ row ∈ attached tables columns volumeId,
    ∃ slice ∈ plannedSlices entries, slice.1 = row.position
  staged : ∀ slice ∈ plannedSlices entries, onTape endedAfter slice.1 = true →
    matchSlice (attached tables columns volumeId) slice = .ok ()
  rows : ∀ write ∈ tables.writes, write.volumeId = volumeId →
    rowMatches tables endedAfter (countedThrough entries endedAfter) write = .ok ()

theorem staged_match_ok {tables : Tables} {matched : Nat}
    (ran : stagedMatch tables columns volumeId entries endedAfter = .ok matched) :
    Matched tables columns volumeId entries endedAfter := by
  unfold stagedMatch at ran
  dsimp only at ran
  split at ran
  · cases ran
  obtain ⟨map, built, ran⟩ := bind_ok ran
  obtain ⟨isMap, distinct⟩ := by_position_ok (by simp) built
  rw [List.nil_append] at isMap
  subst isMap
  obtain ⟨count, compared, ran⟩ := bind_ok ran
  split at ran
  · cases ran
  next noneUnlisted =>
  obtain ⟨_, rowsRan, _⟩ := bind_ok ran
  refine ⟨distinct, ?_, ?_, ?_⟩
  · intro row isRow
    have found := List.find?_eq_none.mp noneUnlisted row ((List.mem_insertionSort _).mpr isRow)
    simpa using found
  · intro slice isSlice here
    exact match_slices_ok compared slice (List.mem_filter.mpr ⟨isSlice, here⟩)
  · intro write isWrite ofVolume
    refine rows_match_ok rowsRan write ((List.mem_insertionSort _).mpr ?_)
    exact List.mem_filter.mpr ⟨isWrite, decide_eq_true ofVolume⟩

def OnVolume (tables : Tables) (volumeId : Int) (position : PositionRow) : Prop :=
  ∃ write ∈ tables.writes, write.id = position.writeId ∧ write.volumeId = volumeId

/-- At this position, at or before the tape's end, the front index lists the slice with the hash the
catalog staged it with. -/
structure Holds (columns : Columns) (entries : List ParsedIndexEntry) (ended : Int)
    (slice : StageSliceRow) (position : Int) : Prop where
  within : position ≤ ended
  listed : ∃ entry ∈ entries, entry.typeLabel = "data_slice" ∧ entry.position = position ∧
    entry.sha256Encrypted = some (columns.sha256Encrypted slice.id)
  staged : columns.origin slice.stageSetId = .staged

/-- The front index of a tape that sealed full lists its slices at or before the last file, and no
seal marker among them. -/
structure ListedWithin (entries : List ParsedIndexEntry) (ended : Int) : Prop where
  slices : ∀ entry ∈ entries, entry.typeLabel = "data_slice" → entry.position ≤ ended
  marker : ended ≤ countedThrough entries none

structure EndsAt (entries : List ParsedIndexEntry) (endedAfter : Option Nat) (ended : Int) : Prop where
  short : ∀ stated, endedAfter = some stated → (stated : Int) = ended
  full : endedAfter = none → ListedWithin entries ended

def OwnSlices (tables : Tables) : Prop :=
  ∀ write ∈ tables.writes, ∀ position ∈ tables.positions, position.writeId = write.id →
    ∃ slice ∈ tables.stageSlices, slice.id = position.stageSliceId ∧
      slice.stageSetId = write.stageSetId

instance (tables : Tables) : Decidable (OwnSlices tables) :=
  inferInstanceAs (Decidable (∀ write ∈ tables.writes, ∀ position ∈ tables.positions,
    position.writeId = write.id → ∃ slice ∈ tables.stageSlices,
      slice.id = position.stageSliceId ∧ slice.stageSetId = write.stageSetId))

theorem attached_of {position : PositionRow} (isPosition : position ∈ catalog.tables.positions)
    (onVolume : OnVolume catalog.tables volumeId position) {slice : StageSliceRow}
    (isSlice : slice ∈ catalog.tables.stageSlices) (ofSlice : position.stageSliceId = slice.id) :
    (⟨position.position, columns.sha256Encrypted slice.id, columns.origin slice.stageSetId,
      slice.stageSetId⟩ : Attached) ∈ attached catalog.tables columns volumeId := by
  obtain ⟨write, isWrite, ofWrite, ofVolume⟩ := onVolume
  obtain ⟨set, isSet, ofSet⟩ := catalog.schema.stage_slice_set slice isSlice
  refine List.mem_filterMap.mpr ⟨position, isPosition, ?_⟩
  have findSlice := find_key catalog.schema.stage_slice_keys isSlice
  have findSet := find_key catalog.schema.stage_set_keys isSet
  have findWrite : (catalog.tables.writes.find? fun write =>
      write.id = position.writeId && write.volumeId = volumeId).isSome = true := by
    rw [List.find?_isSome]
    exact ⟨write, isWrite, by simp [ofWrite, ofVolume]⟩
  obtain ⟨found, isFound⟩ := Option.isSome_iff_exists.mp findWrite
  unfold attachedTo
  rw [isFound, ofSlice, findSlice]
  dsimp only [Option.bind_eq_bind, Option.bind_some]
  rw [← ofSet, findSet]
  rfl

theorem EndsAt.within {ended : Int} (ends : EndsAt entries endedAfter ended) {position : Int}
    (listed : ∃ slice ∈ plannedSlices entries, slice.1 = position)
    (here : onTape endedAfter position = true) : position ≤ ended := by
  cases isEnding : endedAfter with
  | none =>
    obtain ⟨slice, isSlice, rfl⟩ := listed
    obtain ⟨entry, isEntry, rfl⟩ := List.mem_map.mp isSlice
    obtain ⟨isListed, isData⟩ := List.mem_filter.mp isEntry
    exact (ends.full isEnding).slices entry isListed (by simpa using isData)
  | some stated =>
    rw [isEnding] at here
    rw [← ends.short stated isEnding]
    exact of_decide_eq_true here

/-- The last position a split counts cuts the listed slices off where the tape ends. -/
theorem EndsAt.counted_iff {ended : Int} (ends : EndsAt entries endedAfter ended) {position : Int}
    (listed : ∃ slice ∈ plannedSlices entries, slice.1 = position) :
    position ≤ countedThrough entries endedAfter ↔ position ≤ ended := by
  cases isEnding : endedAfter with
  | none =>
    have before := ends.within listed (by rw [isEnding]; rfl)
    exact ⟨fun _ => before, fun _ => before.trans (ends.full isEnding).marker⟩
  | some stated => rw [← ends.short stated isEnding, countedThrough]

theorem Matched.listed_position
    (matched : Matched catalog.tables columns volumeId entries endedAfter) {position : PositionRow}
    (isPosition : position ∈ catalog.tables.positions)
    (onVolume : OnVolume catalog.tables volumeId position) {slice : StageSliceRow}
    (isSlice : slice ∈ catalog.tables.stageSlices) (ofSlice : position.stageSliceId = slice.id) :
    ∃ planned ∈ plannedSlices entries, planned.1 = position.position :=
  matched.listed _ (@attached_of _ columns _ _ isPosition onVolume _ isSlice ofSlice)

theorem Matched.holds (matched : Matched catalog.tables columns volumeId entries endedAfter)
    {ended : Int} (ends : EndsAt entries endedAfter ended)
    {position : PositionRow} (isPosition : position ∈ catalog.tables.positions)
    (onVolume : OnVolume catalog.tables volumeId position)
    (within : onTape endedAfter position.position = true) {slice : StageSliceRow}
    (isSlice : slice ∈ catalog.tables.stageSlices) (ofSlice : position.stageSliceId = slice.id) :
    Holds columns entries ended slice position.position := by
  have isAttached := @attached_of _ columns _ _ isPosition onVolume _ isSlice ofSlice
  obtain ⟨planned, isPlanned, atPosition⟩ := matched.listed _ isAttached
  obtain ⟨row, isRow, samePosition, staged, sha⟩ :=
    match_slice_ok (matched.staged planned isPlanned (atPosition ▸ within))
  have same := List.inj_on_of_nodup_map matched.distinct isRow isAttached
    (samePosition.trans atPosition)
  subst same
  obtain ⟨entry, isEntry, isPair⟩ := List.mem_map.mp isPlanned
  obtain ⟨listed, isData⟩ := List.mem_filter.mp isEntry
  subst isPair
  exact ⟨ends.within (matched.listed _ isAttached) within,
    ⟨entry, listed, by simpa using isData, atPosition, sha⟩, staged⟩

theorem position_of_write (own : OwnSlices catalog.tables) {write : WriteRow}
    (isWrite : write ∈ catalog.tables.writes) (ofVolume : write.volumeId = volumeId)
    {slice : StageSliceRow} (isSlice : slice ∈ catalog.tables.stageSlices)
    (ofSet : slice.stageSetId = write.stageSetId) {position : PositionRow}
    (isPosition : position ∈ catalog.tables.positions)
    (onVolume : OnVolume catalog.tables volumeId position)
    (ofSlice : position.stageSliceId = slice.id) : position.writeId = write.id := by
  obtain ⟨other, isOther, ofOther, otherVolume⟩ := onVolume
  obtain ⟨found, isFound, foundId, foundSet⟩ := own other isOther position isPosition ofOther.symm
  have sameSlice := List.inj_on_of_nodup_map catalog.schema.stage_slice_keys isFound isSlice
    (foundId.trans ofSlice)
  subst sameSlice
  have sameWrite := List.inj_on_of_nodup_map catalog.schema.write_once isOther isWrite
    (Prod.ext (foundSet.symm.trans ofSet) (otherVolume.trans ofVolume.symm))
  rw [← ofOther, sameWrite]

theorem on_tape_mono {one other : Int} (before : one ≤ other)
    (within : onTape endedAfter other = true) : onTape endedAfter one = true := by
  cases endedAfter with
  | none => rfl
  | some ended =>
    have atMost : other ≤ ended := of_decide_eq_true within
    exact decide_eq_true (before.trans atMost)

theorem on_tape_of_counted {position : Int}
    (counted : position ≤ countedThrough entries endedAfter) : onTape endedAfter position = true := by
  cases endedAfter with
  | none => rfl
  | some ended => simpa [onTape, countedThrough] using counted

theorem not_counted_of_off_tape {position : Int} (off : onTape endedAfter position = false) :
    ¬ position ≤ countedThrough entries endedAfter := by
  intro counted
  rw [on_tape_of_counted counted] at off
  cases off

theorem whole_matches_ok {tables : Tables} {write : WriteRow} {staged : Nat}
    (ran : wholeMatches tables write staged endedAfter = .ok ()) :
    (write.status = .cut ∧ ∃ last, lastSlicePosition tables write.id = some last ∧
      onTape endedAfter last = false) ∨
    write.status = .completed ∧
      (∀ last, lastSlicePosition tables write.id = some last → onTape endedAfter last = true) ∧
      staged = (tables.positions.filter fun position => position.writeId = write.id).length := by
  have passed := ran
  unfold wholeMatches at passed
  dsimp only at passed
  split at passed
  · next isCut =>
    cases isLast : lastSlicePosition tables write.id with
    | none => simp [isLast] at isCut
    | some last => exact .inl ⟨isCut.2, last, rfl, by simpa [isLast] using isCut.1⟩
  split at passed
  · next isWhole =>
    split at passed
    · cases passed
    next count =>
    refine .inr ⟨isWhole.2, ?_, not_not.mp count⟩
    intro last isLast
    simpa [isLast] using isWhole.1
  split at passed <;> cases passed

theorem last_position_mem {tables : Tables} {writeId last : Int}
    (isLast : lastSlicePosition tables writeId = some last) :
    (∃ position ∈ tables.positions, position.writeId = writeId ∧ position.position = last) ∧
      ∀ position ∈ tables.positions, position.writeId = writeId → position.position ≤ last := by
  obtain ⟨isMember, isMost⟩ := List.max?_eq_some_iff.mp isLast
  constructor
  · obtain ⟨position, isPosition, same⟩ := List.mem_map.mp isMember
    obtain ⟨listed, ofWrite⟩ := List.mem_filter.mp isPosition
    exact ⟨position, listed, of_decide_eq_true ofWrite, same⟩
  · intro position listed ofWrite
    exact isMost _ (List.mem_map_of_mem (List.mem_filter.mpr ⟨listed, decide_eq_true ofWrite⟩))

theorem every_slice_positioned (own : OwnSlices catalog.tables) {write : WriteRow}
    (isWrite : write ∈ catalog.tables.writes)
    (count : (catalog.tables.stageSlices.filter fun slice =>
        slice.stageSetId = write.stageSetId).length =
      (catalog.tables.positions.filter fun position => position.writeId = write.id).length)
    {slice : StageSliceRow} (isSlice : slice ∈ catalog.tables.stageSlices)
    (ofSet : slice.stageSetId = write.stageSetId) :
    ∃ position ∈ catalog.tables.positions, position.writeId = write.id ∧
      position.stageSliceId = slice.id := by
  set here := catalog.tables.positions.filter fun position => position.writeId = write.id with isHere
  set slices := catalog.tables.stageSlices.filter fun slice =>
    slice.stageSetId = write.stageSetId with isSlices
  have hereOnce : (here.map PositionRow.stageSliceId).Nodup := by
    refine List.Nodup.map_on ?_ (List.Nodup.filter _ (List.Nodup.of_map _ catalog.schema.position_once))
    intro one isOne other isOther same
    obtain ⟨oneListed, oneWrite⟩ := List.mem_filter.mp isOne
    obtain ⟨otherListed, otherWrite⟩ := List.mem_filter.mp isOther
    exact List.inj_on_of_nodup_map catalog.schema.position_once oneListed otherListed
      (Prod.ext ((of_decide_eq_true oneWrite).trans (of_decide_eq_true otherWrite).symm) same)
  have inside : here.map PositionRow.stageSliceId ⊆ slices.map StageSliceRow.id := by
    intro id isId
    obtain ⟨position, isPosition, rfl⟩ := List.mem_map.mp isId
    obtain ⟨listed, ofWrite⟩ := List.mem_filter.mp isPosition
    obtain ⟨found, isFound, foundId, foundSet⟩ :=
      own write isWrite position listed (of_decide_eq_true ofWrite)
    rw [← foundId]
    exact List.mem_map_of_mem (List.mem_filter.mpr ⟨isFound, decide_eq_true foundSet⟩)
  have all := (List.subperm_of_subset hereOnce inside).perm_of_length_le
    (by rw [List.length_map, List.length_map, count])
  have hit : slice.id ∈ here.map PositionRow.stageSliceId :=
    all.mem_iff.mpr (List.mem_map_of_mem (List.mem_filter.mpr ⟨isSlice, decide_eq_true ofSet⟩))
  obtain ⟨position, isPosition, same⟩ := List.mem_map.mp hit
  obtain ⟨listed, ofWrite⟩ := List.mem_filter.mp isPosition
  exact ⟨position, listed, of_decide_eq_true ofWrite, same⟩

theorem span_matches_ok {tables : Tables} {write : WriteRow} {staged through : Nat}
    (ran : spanMatches tables write staged through = .ok ()) :
    brokenRun (plannedRun tables write.id) = none ∧
      write.status = Split.status (spanSplit tables write.id through) := by
  unfold spanMatches at ran
  split at ran
  · cases ran
  next unbroken =>
  dsimp only at ran
  split at ran
  · cases ran
  · next same => exact ⟨unbroken, not_not.mp same⟩

theorem run_of_unbroken {first : Int × Int} {rest : List (Int × Int)}
    (unbroken : brokenRun (first :: rest) = none) {pair : Int × Int}
    (listed : pair ∈ first :: rest) :
    ∃ steps : Nat, pair = (first.1 + steps, first.2 + steps) ∧
      ∀ earlier ≤ steps, (first.1 + (earlier : Int), first.2 + (earlier : Int)) ∈ first :: rest := by
  induction rest generalizing first with
  | nil =>
    rw [List.mem_singleton] at listed
    subst listed
    refine ⟨0, by simp, ?_⟩
    intro earlier least
    rw [Nat.le_zero.mp least]
    simp
  | cons next rest ih =>
    unfold brokenRun at unbroken
    split at unbroken
    · cases unbroken
    next joined =>
    rw [not_or, not_not, not_not] at joined
    rcases List.mem_cons.mp listed with rfl | later
    · refine ⟨0, by simp, ?_⟩
      intro earlier least
      rw [Nat.le_zero.mp least]
      simp
    · obtain ⟨steps, isPair, between⟩ := ih unbroken later
      refine ⟨steps + 1, ?_, ?_⟩
      · rw [isPair, joined.1, joined.2]
        push_cast
        exact Prod.ext (by dsimp only; omega) (by dsimp only; omega)
      · intro earlier most
        cases earlier with
        | zero => simp
        | succ earlier =>
          have inside := between earlier (by omega)
          rw [joined.1, joined.2] at inside
          refine List.mem_cons_of_mem _ ?_
          push_cast
          rwa [show first.1 + ((earlier : Int) + 1) = first.1 + 1 + earlier by omega,
            show first.2 + ((earlier : Int) + 1) = first.2 + 1 + earlier by omega]

theorem run_between {run : List (Int × Int)} (unbroken : brokenRun run = none) {low high : Int × Int}
    (isLow : low ∈ run) (isHigh : high ∈ run) {number : Int} (least : low.1 ≤ number)
    (most : number ≤ high.1) : (number, low.2 + (number - low.1)) ∈ run := by
  cases run with
  | nil => cases isLow
  | cons first rest =>
    obtain ⟨lowSteps, rfl, _⟩ := run_of_unbroken unbroken isLow
    obtain ⟨highSteps, rfl, between⟩ := run_of_unbroken unbroken isHigh
    dsimp only at least most ⊢
    have inside := between (number - first.1).toNat (by omega)
    rw [Int.toNat_of_nonneg (by omega)] at inside
    rwa [show first.1 + (number - first.1) = number by omega,
      show first.2 + (number - first.1) = first.2 + lowSteps + (number - (first.1 + lowSteps)) by omega]
      at inside

theorem run_step {run : List (Int × Int)} (unbroken : brokenRun run = none) {low high : Int × Int}
    (isLow : low ∈ run) (isHigh : high ∈ run) : high.2 - low.2 = high.1 - low.1 := by
  cases run with
  | nil => cases isLow
  | cons first rest =>
    obtain ⟨lowSteps, rfl, _⟩ := run_of_unbroken unbroken isLow
    obtain ⟨highSteps, rfl, _⟩ := run_of_unbroken unbroken isHigh
    dsimp only
    omega

theorem mem_planned_run {writeId : Int} {pair : Int × Int} :
    pair ∈ plannedRun catalog.tables writeId ↔ ∃ position ∈ catalog.tables.positions,
      position.writeId = writeId ∧ ∃ slice ∈ catalog.tables.stageSlices,
        slice.id = position.stageSliceId ∧ pair = (slice.sliceNumber, position.position) := by
  unfold plannedRun
  rw [List.mem_insertionSort, List.mem_filterMap]
  constructor
  · rintro ⟨position, isPosition, isPair⟩
    obtain ⟨listed, ofWrite⟩ := List.mem_filter.mp isPosition
    obtain ⟨slice, found, rfl⟩ := Option.map_eq_some_iff.mp isPair
    exact ⟨position, listed, of_decide_eq_true ofWrite, slice, List.mem_of_find?_eq_some found,
      by simpa using List.find?_some found, rfl⟩
  · rintro ⟨position, listed, ofWrite, slice, isSlice, ofSlice, rfl⟩
    refine ⟨position, List.mem_filter.mpr ⟨listed, decide_eq_true ofWrite⟩, ?_⟩
    rw [← ofSlice, find_key catalog.schema.stage_slice_keys isSlice]
    rfl

/-- The write's positions are recorded `written` as far as the tape goes. -/
def LaidDown (tables : Tables) (writeId through : Int) : Prop :=
  ∀ position ∈ tables.positions, position.writeId = writeId →
    (position.status = .written ↔ position.position ≤ through)

instance (tables : Tables) (writeId through : Int) :
    Decidable (LaidDown tables writeId through) :=
  inferInstanceAs (Decidable (∀ position ∈ tables.positions, position.writeId = writeId →
    (position.status = .written ↔ position.position ≤ through)))

/-- `completed`: every slice of the set has its one position on the volume, and the tape holds it. -/
def CompletedHere (tables : Tables) (columns : Columns) (volumeId : Int)
    (entries : List ParsedIndexEntry) (ended : Int) (write : WriteRow) : Prop :=
  ∀ slice ∈ tables.stageSlices, slice.stageSetId = write.stageSetId →
    ∃ position ∈ tables.positions, OnVolume tables volumeId position ∧
      position.stageSliceId = slice.id ∧ Holds columns entries ended slice position.position ∧
      ∀ other ∈ tables.positions, OnVolume tables volumeId other →
        other.stageSliceId = slice.id → other = position

/-- `range`: the written slices are a proper run of the set, at consecutive positions that hold them. -/
def RangeHere (tables : Tables) (columns : Columns) (entries : List ParsedIndexEntry)
    (ended : Int) (write : WriteRow) : Prop :=
  ∃ first last start : Int, first ≤ last ∧
    (∀ number, first ≤ number → number ≤ last → ∃ slice ∈ tables.stageSlices,
      slice.stageSetId = write.stageSetId ∧ slice.sliceNumber = number) ∧
    (∃ slice ∈ tables.stageSlices, slice.stageSetId = write.stageSetId ∧
      ¬ (first ≤ slice.sliceNumber ∧ slice.sliceNumber ≤ last)) ∧
    ∀ slice ∈ tables.stageSlices, slice.stageSetId = write.stageSetId →
      ((∃ position ∈ tables.positions, position.writeId = write.id ∧
        position.stageSliceId = slice.id ∧ position.status = .written) ↔
          first ≤ slice.sliceNumber ∧ slice.sliceNumber ≤ last) ∧
      ∀ position ∈ tables.positions, position.writeId = write.id →
        position.stageSliceId = slice.id → position.status = .written →
          position.position = start + (slice.sliceNumber - first) ∧
          Holds columns entries ended slice position.position

/-- `cut`: some slice of the set has no place on the volume at or before the tape's end. -/
def CutHere (tables : Tables) (volumeId ended : Int) (write : WriteRow) : Prop :=
  ∃ slice ∈ tables.stageSlices, slice.stageSetId = write.stageSetId ∧
    ∀ position ∈ tables.positions, OnVolume tables volumeId position →
      position.stageSliceId = slice.id → ¬ position.position ≤ ended

theorem held_iff_written {write : WriteRow} {through : Nat}
    (laid : LaidDown catalog.tables write.id through)
    {slice : StageSliceRow} :
    heldHere catalog.tables write.id slice through = true ↔
      ∃ position ∈ catalog.tables.positions, position.writeId = write.id ∧
        position.stageSliceId = slice.id ∧ position.status = .written := by
  rw [held_here_iff]
  constructor
  · rintro ⟨position, listed, ofWrite, ofSlice, written, _⟩
    exact ⟨position, listed, ofWrite, ofSlice, written⟩
  · rintro ⟨position, listed, ofWrite, ofSlice, written⟩
    exact ⟨position, listed, ofWrite, ofSlice, written, (laid position listed ofWrite).mp written⟩

section Write

variable (own : OwnSlices catalog.tables)
  (matched : Matched catalog.tables columns volumeId entries endedAfter) {write : WriteRow}
  (isWrite : write ∈ catalog.tables.writes) (ofVolume : write.volumeId = volumeId) {ended : Int}
  (ends : EndsAt entries endedAfter ended)

include own matched isWrite ofVolume ends

theorem write_counted_iff {position : PositionRow} (isPosition : position ∈ catalog.tables.positions)
    (ofWrite : position.writeId = write.id) :
    position.position ≤ countedThrough entries endedAfter ↔ position.position ≤ ended := by
  obtain ⟨slice, isSlice, ofSlice, _⟩ := own write isWrite position isPosition ofWrite
  exact ends.counted_iff (matched.listed_position isPosition
    ⟨write, isWrite, ofWrite.symm, ofVolume⟩ isSlice ofSlice.symm)

theorem laid_down_counted (laid : LaidDown catalog.tables write.id ended) :
    LaidDown catalog.tables write.id (countedThrough entries endedAfter) := by
  intro position isPosition ofWrite
  exact (laid position isPosition ofWrite).trans
    (write_counted_iff own matched isWrite ofVolume ends isPosition ofWrite).symm

theorem completed_here (completed : write.status = .completed) :
    CompletedHere catalog.tables columns volumeId entries ended write := by
  intro slice isSlice ofSet
  have row := matched.rows write isWrite ofVolume
  -- the slice has a position of this write, at or before the tape's end
  have placed : ∃ position ∈ catalog.tables.positions, position.writeId = write.id ∧
      position.stageSliceId = slice.id ∧ onTape endedAfter position.position = true := by
    unfold rowMatches at row
    dsimp only at row
    split at row
    · obtain ⟨_, status⟩ := span_matches_ok row
      rcases @span_split_cases catalog (countedThrough entries endedAfter) write isWrite with
        ⟨_, all⟩ | ⟨_, ⟨first, last, isSplit, _⟩ | ⟨isSplit, _⟩⟩
      · obtain ⟨position, listed, ofWrite, ofSlice, _, within⟩ :=
          held_here_iff.mp (all slice isSlice ofSet)
        exact ⟨position, listed, ofWrite, ofSlice, on_tape_of_counted within⟩
      · rw [isSplit, completed] at status
        cases status
      · rw [isSplit, completed] at status
        cases status
    · rcases whole_matches_ok row with ⟨isCut, _⟩ | ⟨_, within, count⟩
      · rw [completed] at isCut
        cases isCut
      · obtain ⟨position, listed, ofWrite, ofSlice⟩ :=
          every_slice_positioned own isWrite count isSlice ofSet
        refine ⟨position, listed, ofWrite, ofSlice, ?_⟩
        cases isLast : lastSlicePosition catalog.tables write.id with
        | none =>
          have nothing := List.map_eq_nil_iff.mp (List.max?_eq_none_iff.mp isLast)
          have inside : position ∈ catalog.tables.positions.filter fun position =>
              position.writeId = write.id := List.mem_filter.mpr ⟨listed, decide_eq_true ofWrite⟩
          rw [nothing] at inside
          cases inside
        | some last =>
          exact on_tape_mono ((last_position_mem isLast).2 position listed ofWrite) (within last isLast)
  obtain ⟨position, listed, ofWrite, ofSlice, within⟩ := placed
  have onVolume : OnVolume catalog.tables volumeId position :=
    ⟨write, isWrite, ofWrite.symm, ofVolume⟩
  refine ⟨position, listed, onVolume, ofSlice,
    matched.holds ends listed onVolume within isSlice ofSlice, ?_⟩
  intro other isOther otherOn otherSlice
  have sameWrite := position_of_write own isWrite ofVolume isSlice ofSet isOther otherOn otherSlice
  exact List.inj_on_of_nodup_map catalog.schema.position_once isOther listed
    (Prod.ext (sameWrite.trans ofWrite.symm) (otherSlice.trans ofSlice.symm))

theorem range_here (range : write.status = .range)
    (laidDown : LaidDown catalog.tables write.id ended) :
    RangeHere catalog.tables columns entries ended write := by
  have laid := laid_down_counted own matched isWrite ofVolume ends laidDown
  have row := matched.rows write isWrite ofVolume
  unfold rowMatches at row
  dsimp only at row
  split at row
  swap
  · rcases whole_matches_ok row with ⟨status, _⟩ | ⟨status, _⟩ <;> rw [range] at status <;> cases status
  obtain ⟨unbroken, status⟩ := span_matches_ok row
  rcases @span_split_cases catalog (countedThrough entries endedAfter) write isWrite with
    ⟨isSplit, _⟩ | ⟨notAll, ⟨first, last, _, isFirst, isLast⟩ | ⟨isSplit, _⟩⟩
  · rw [isSplit, range] at status
    cases status
  swap
  · rw [isSplit, range] at status
    cases status
  have atEnd : ∀ {number : Int},
      number ∈ heldNumbers catalog.tables write (countedThrough entries endedAfter) →
      ∃ place, (number, place) ∈ plannedRun catalog.tables write.id ∧
        place ≤ countedThrough entries endedAfter := by
    intro number listed
    obtain ⟨slice, isSlice, _, held, isNumber⟩ := mem_held_numbers.mp listed
    obtain ⟨position, isPosition, ofWrite, ofSlice, _, within⟩ := held_here_iff.mp held
    exact ⟨position.position, mem_planned_run.mpr
      ⟨position, isPosition, ofWrite, slice, isSlice, ofSlice.symm, by rw [isNumber]⟩, within⟩
  obtain ⟨start, isStart, _⟩ := atEnd (List.min?_eq_some_iff.mp isFirst).1
  obtain ⟨stop, isStop, within⟩ := atEnd (List.max?_eq_some_iff.mp isLast).1
  -- a number between the first and the last held one has its place in the run, before the last
  have between : ∀ number, first ≤ number → number ≤ last → ∃ slice ∈ catalog.tables.stageSlices,
      slice.stageSetId = write.stageSetId ∧ slice.sliceNumber = number ∧
        heldHere catalog.tables write.id slice (countedThrough entries endedAfter) = true := by
    intro number least most
    obtain ⟨position, isPosition, ofWrite, slice, isSlice, ofSlice, isPair⟩ :=
      mem_planned_run.mp (run_between unbroken isStart isStop least most)
    obtain ⟨isNumber, isPlace⟩ := Prod.ext_iff.mp isPair
    obtain ⟨found, isFound, foundId, foundSet⟩ := own write isWrite position isPosition ofWrite
    have same := List.inj_on_of_nodup_map catalog.schema.stage_slice_keys isFound isSlice
      (foundId.trans ofSlice.symm)
    subst same
    have steps := run_step unbroken isStart isStop
    dsimp only at isNumber isPlace steps
    refine ⟨found, isFound, foundSet, isNumber.symm, held_here_iff.mpr
      ⟨position, isPosition, ofWrite, ofSlice.symm, ?_, ?_⟩⟩
    · exact (laid position isPosition ofWrite).mpr (by omega)
    · omega
  have held : ∀ slice ∈ catalog.tables.stageSlices, slice.stageSetId = write.stageSetId →
      (heldHere catalog.tables write.id slice (countedThrough entries endedAfter) = true ↔
        first ≤ slice.sliceNumber ∧ slice.sliceNumber ≤ last) := by
    intro slice isSlice ofSet
    constructor
    · intro isHeld
      have listed := mem_held_numbers.mpr ⟨slice, isSlice, ofSet, isHeld, rfl⟩
      exact ⟨(List.min?_eq_some_iff.mp isFirst).2 _ listed, (List.max?_eq_some_iff.mp isLast).2 _ listed⟩
    · rintro ⟨least, most⟩
      obtain ⟨found, isFound, foundSet, isNumber, isHeld⟩ := between _ least most
      have same := List.inj_on_of_nodup_map catalog.schema.slice_numbers isFound isSlice
        (Prod.ext (foundSet.trans ofSet.symm) isNumber)
      exact same ▸ isHeld
  have firstLast : first ≤ last :=
    (List.max?_eq_some_iff.mp isLast).2 first (List.min?_eq_some_iff.mp isFirst).1
  refine ⟨first, last, start, firstLast, ?_, ?_, ?_⟩
  · intro number least most
    obtain ⟨slice, isSlice, ofSet, isNumber, _⟩ := between number least most
    exact ⟨slice, isSlice, ofSet, isNumber⟩
  · unfold AllHeld at notAll
    push Not at notAll
    obtain ⟨slice, isSlice, ofSet, notHeld⟩ := notAll
    exact ⟨slice, isSlice, ofSet, fun inside => notHeld ((held slice isSlice ofSet).mpr inside)⟩
  · intro slice isSlice ofSet
    refine ⟨(held_iff_written laid).symm.trans (held slice isSlice ofSet), ?_⟩
    intro position isPosition ofWrite ofSlice written
    have inRun : (slice.sliceNumber, position.position) ∈ plannedRun catalog.tables write.id :=
      mem_planned_run.mpr ⟨position, isPosition, ofWrite, slice, isSlice, ofSlice.symm, rfl⟩
    have steps := run_step unbroken isStart inRun
    dsimp only at steps
    refine ⟨by omega, matched.holds ends isPosition ⟨write, isWrite, ofWrite.symm, ofVolume⟩
      (on_tape_of_counted ((laid position isPosition ofWrite).mp written)) isSlice ofSlice⟩

theorem cut_here (cut : write.status = .cut)
    (laidDown : write.maySpan = true → LaidDown catalog.tables write.id ended) :
    CutHere catalog.tables volumeId ended write := by
  have row := matched.rows write isWrite ofVolume
  unfold rowMatches at row
  dsimp only at row
  split at row
  · next spans =>
    obtain ⟨_, status⟩ := span_matches_ok row
    rcases @span_split_cases catalog (countedThrough entries endedAfter) write isWrite with
      ⟨isSplit, _⟩ | ⟨notAll, ⟨first, last, isSplit, _⟩ | ⟨_, nothing⟩⟩
    · rw [isSplit, cut] at status
      cases status
    · rw [isSplit, cut] at status
      cases status
    unfold AllHeld at notAll
    push Not at notAll
    obtain ⟨slice, isSlice, ofSet, notHeld⟩ := notAll
    refine ⟨slice, isSlice, ofSet, ?_⟩
    intro position isPosition onVolume ofSlice within
    have ofWrite := position_of_write own isWrite ofVolume isSlice ofSet isPosition onVolume ofSlice
    have written := (laidDown spans position isPosition ofWrite).mpr within
    have laid := laid_down_counted own matched isWrite ofVolume ends (laidDown spans)
    exact notHeld ((held_iff_written laid).mpr ⟨position, isPosition, ofWrite, ofSlice, written⟩)
  · rcases whole_matches_ok row with ⟨_, last, isLast, off⟩ | ⟨status, _⟩
    swap
    · rw [cut] at status
      cases status
    obtain ⟨position, isPosition, ofWrite, isPlace⟩ := (last_position_mem isLast).1
    obtain ⟨slice, isSlice, ofSlice, ofSet⟩ := own write isWrite position isPosition ofWrite
    refine ⟨slice, isSlice, ofSet, ?_⟩
    intro other isOther onVolume otherSlice
    have otherWrite := position_of_write own isWrite ofVolume isSlice ofSet isOther onVolume otherSlice
    have same := List.inj_on_of_nodup_map catalog.schema.position_once isOther isPosition
      (Prod.ext (otherWrite.trans ofWrite.symm) (otherSlice.trans ofSlice))
    rw [same, ← write_counted_iff own matched isWrite ofVolume ends isPosition ofWrite, isPlace]
    exact not_counted_of_off_tape off

end Write

end Matching

section Tape

variable {crate : Crate} {sha256Hex : Bytes → String} {store : Store}

variable {found : ParsedSeal}

theorem judge_seal_binds {sealRead : Except String Bytes} {frontIndex : Bytes}
    {indexAt sealAt : Nat}
    (judged : judgeSeal crate sha256Hex sealRead frontIndex indexAt sealAt = .sealed found) :
    found.frontIndexSha256 = sha256Hex frontIndex := by
  unfold judgeSeal at judged
  split at judged
  · cases judged
  split at judged
  · cases judged
  split at judged
  · cases judged
  dsimp only at judged
  split at judged
  · cases judged
  · next same =>
    cases judged
    exact not_not.mp same

theorem judge_at_planned_sealed {parsed : ParsedSeal} {position planned : Nat}
    (judged : (judgeAtPlanned parsed position planned).verdict = .sealed found) :
    found = parsed ∧ (judgeAtPlanned parsed position planned).position = some position ∧
      (judgeAtPlanned parsed position planned).endedAfter = none := by
  unfold judgeAtPlanned at judged ⊢
  split at judged
  · cases judged
    exact ⟨rfl, rfl, rfl⟩
  · cases judged

theorem judge_before_planned_sealed {file0 : Text} {parsed : ParsedSeal} {position planned : Nat}
    (judged : (judgeBeforePlanned crate file0 parsed position planned).verdict = .sealed found) :
    found = parsed ∧
      (judgeBeforePlanned crate file0 parsed position planned).position = some position ∧
      ∀ stated, (judgeBeforePlanned crate file0 parsed position planned).endedAfter = some stated →
        found.fileCount = stated + 2 := by
  generalize isJudged : judgeBeforePlanned crate file0 parsed position planned = result at judged ⊢
  unfold judgeBeforePlanned at isJudged
  extract_lets requires plain at isJudged
  split at isJudged
  · subst isJudged
    cases judged
  split at isJudged
  · subst isJudged
    cases judged
  next counts =>
  split at isJudged
  · split at isJudged
    · next isBefore =>
      subst isJudged
      cases judged
      refine ⟨rfl, rfl, ?_⟩
      intro stated same
      cases same
      push Not at counts
      omega
    · subst isJudged
      cases judged
  · subst isJudged
    cases judged

theorem locate_and_judge_sealed {file0 : Text} {frontIndex : Bytes} {indexAt planned call : Nat}
    (located : (locateAndJudgeSeal crate sha256Hex store file0 frontIndex indexAt
      planned call).verdict = .sealed found) :
    found.frontIndexSha256 = sha256Hex frontIndex ∧
      (∃ position, (locateAndJudgeSeal crate sha256Hex store file0 frontIndex indexAt
        planned call).position = some position) ∧
      ∀ stated, (locateAndJudgeSeal crate sha256Hex store file0 frontIndex indexAt planned
        call).endedAfter = some stated → found.fileCount = stated + 2 := by
  generalize isLocated : locateAndJudgeSeal crate sha256Hex store file0 frontIndex indexAt planned call =
    result at located ⊢
  unfold locateAndJudgeSeal at isLocated
  split at isLocated
  · subst isLocated
    cases located
  · subst isLocated
    cases located
  · subst isLocated
    cases located
  next position bytes _ =>
  cases judged : judgeSeal crate sha256Hex (.ok bytes) frontIndex indexAt position with
  | unsealed why =>
    rw [judged] at isLocated
    subst isLocated
    cases located
  | refused why =>
    rw [judged] at isLocated
    subst isLocated
    cases located
  | sealed parsed =>
    rw [judged] at isLocated
    dsimp only at isLocated
    have binds := judge_seal_binds judged
    split at isLocated
    · subst isLocated
      obtain ⟨rfl, at_, isFull⟩ := judge_at_planned_sealed located
      refine ⟨binds, ⟨position, at_⟩, ?_⟩
      intro stated isShort
      rw [isFull] at isShort
      cases isShort
    · subst isLocated
      obtain ⟨rfl, at_, counts⟩ := judge_before_planned_sealed located
      exact ⟨binds, ⟨position, at_⟩, counts⟩

/-- The file before the seal, as the seal on the tape counts the files. -/
def sealedThrough (crate : Crate) (sha256Hex : Bytes → String) (store : Store) (file0 : Text)
    (call : Nat) : Option Int :=
  (parseIdThunkLayoutPointers crate file0).toOption.bind fun pointers =>
    match readSmallBytes store pointers.frontIndex.toNat "front index" call with
    | (.error _, _) => none
    | (.ok raw, next) =>
      match (locateAndJudgeSeal crate sha256Hex store file0 (withoutNulPadding raw)
          pointers.frontIndex.toNat pointers.sealMarker.toNat next).verdict with
      | .sealed found => some (found.fileCount - 2)
      | _ => none

structure SealedBy (crate : Crate) (sha256Hex : Bytes → String) (store : Store) (file0 : Text)
    (call : Nat) (tape : SealedIndex) (ended : Int) : Prop where
  read : ∃ pointers raw next found position,
    parseIdThunkLayoutPointers crate file0 = .ok pointers ∧
    readSmallBytes store pointers.frontIndex.toNat "front index" call = (.ok raw, next) ∧
    parseFrontIndex crate (fromUtf8Lossy (withoutNulPadding raw)) = .ok tape.entries ∧
    locateAndJudgeSeal crate sha256Hex store file0 (withoutNulPadding raw)
      pointers.frontIndex.toNat pointers.sealMarker.toNat next =
        ⟨.sealed found, some position, tape.endedAfter⟩ ∧
    found.frontIndexSha256 = sha256Hex (withoutNulPadding raw)
  through : sealedThrough crate sha256Hex store file0 call = some ended
  short : ∀ stated, tape.endedAfter = some stated → (stated : Int) = ended

theorem sealed_front_index_ok {file0 : Text} {call : Nat} {tape : SealedIndex}
    (ran : sealedFrontIndex crate sha256Hex store file0 call = .ok tape) :
    ∃ ended, SealedBy crate sha256Hex store file0 call tape ended := by
  unfold sealedFrontIndex at ran
  obtain ⟨pointers, parsed, ran⟩ := bind_ok ran
  dsimp only at ran
  split at ran
  · cases ran
  split at ran
  · cases ran
  obtain ⟨raw, isRaw, ran⟩ := bind_ok ran
  obtain ⟨entries, isEntries, ran⟩ := bind_ok ran
  split at ran
  · next found isSealed =>
    cases ran
    obtain ⟨binds, ⟨position, at_⟩, counts⟩ := locate_and_judge_sealed isSealed
    have isRead : readSmallBytes store pointers.frontIndex.toNat "front index" call =
        (.ok raw, (readSmallBytes store pointers.frontIndex.toNat "front index" call).2) :=
      Prod.ext (map_error_ok isRaw) rfl
    refine ⟨found.fileCount - 2, ⟨pointers, raw, _, found, position, map_error_ok parsed, isRead,
      map_error_ok isEntries, ?_, binds⟩, ?_, ?_⟩
    · rw [← isSealed, ← at_]
    · rw [sealedThrough, map_error_ok parsed, Except.toOption, Option.bind_some, isRead]
      dsimp only
      rw [isSealed]
    · intro stated isShort
      have count := counts stated isShort
      omega
  · cases ran
  · cases ran

end Tape

theorem foldl_promote_snapshots (ids : List Int) (done : Tables × List Promoted) :
    (ids.foldl promote done).1 = { done.1 with
      snapshots := done.1.snapshots.map fun snapshot =>
        if snapshot.id ∈ ids ∧ promotable snapshot.status = true
        then { snapshot with status := .current } else snapshot } := by
  induction ids generalizing done with
  | nil => simp
  | cons id rest ih =>
    rw [List.foldl_cons, ih]
    simp only [promote, List.map_map]
    congr 1
    refine List.map_congr_left fun snapshot _ => ?_
    simp only [Function.comp_apply, List.mem_cons]
    by_cases named : snapshot.id = id
    · by_cases open_ : promotable snapshot.status = true
      · have closed : promotable .current = false := rfl
        simp [named, open_, closed]
      · simp [named, open_]
    · simp [named]

theorem promote_adopted_ok {ids : List Int} {done after : Tables × List Promoted}
    (ran : ids.foldlM promoteAdopted done = .ok after) : after = ids.foldl promote done := by
  induction ids generalizing done with
  | nil =>
    cases ran
    rfl
  | cons id rest ih =>
    rw [List.foldlM_cons] at ran
    obtain ⟨mid, first, ran⟩ := bind_ok ran
    unfold promoteAdopted at first
    split at first
    · cases first
    split at first
    · cases first
      exact ih ran
    · cases first

theorem every_slice_after_seal (tables : Tables) (volumeId : Int) (sealedAt : String)
    (endedAfter : Option Nat) (set : Int) :
    everySliceOnSealedVolume (sealLost tables volumeId sealedAt endedAfter).1 set (some volumeId) =
      everySliceOnSealedVolume tables set (some volumeId) := by
  unfold everySliceOnSealedVolume sealLost
  dsimp only
  congr 3
  funext slice
  congr 2
  congr 1
  funext write
  rw [List.any_map]
  congr 1
  funext volume
  simp only [Function.comp_apply]
  split
  · next lost =>
    have named : volume.id = volumeId := by
      simp only [lostVolume, Bool.and_eq_true, decide_eq_true_eq] at lost
      exact lost.1.1
    simp [named, rangeHolds]
  · rfl

theorem ranges_everywhere_eq {catalog : Catalog} {volumeId : Int} {writes : List WriteRow}
    (known : ∀ write ∈ writes, write ∈ catalog.tables.writes) :
    rangesEverywhere catalog.tables volumeId (writes.map fun write => (write.id, write.snapshotId)) =
      .ok ((writes.filter fun write =>
        everySliceOnSealedVolume catalog.tables write.stageSetId (some volumeId)).map
          WriteRow.snapshotId) := by
  induction writes with
  | nil => rfl
  | cons write rest ih =>
    have found := find_key catalog.schema.write_keys (known write (List.mem_cons_self ..))
    rw [List.map_cons, rangesEverywhere, found]
    dsimp only
    rw [ih fun other listed => known other (List.mem_cons_of_mem _ listed)]
    by_cases everywhere : everySliceOnSealedVolume catalog.tables write.stageSetId (some volumeId) = true
    · simp [everywhere]
    · simp [everywhere]

def writesOf (tables : Tables) (volumeId : Int) (status : WriteStatus) : List WriteRow :=
  tables.writes.filter fun write => write.volumeId = volumeId && write.status = status

/-- What an adoption records: the volume sealed as its seal says, and the versions confirm's rule
promotes. -/
structure Recorded (before : Tables) (volumeId : Int) (endedAfter : Option Nat) (after : Tables) :
    Prop where
  others : ∃ volumes snapshots, after = { before with volumes, snapshots }
  sealed : ∃ volume ∈ after.volumes, volume.id = volumeId ∧ volume.status = .sealed ∧
    volume.endedAfter = endedAfter.map fun ended => (ended : Int)
  promoted : ∃ ranges,
    rangesEverywhere before volumeId ((writesOf before volumeId .range).map fun write =>
      (write.id, write.snapshotId)) = .ok ranges ∧
    after.snapshots = (((writesOf before volumeId .completed).map WriteRow.snapshotId ++ ranges).foldl
      promote (before, [])).1.snapshots

theorem mem_adopted_snapshots (tables : Tables) (volumeId : Int) (sealedAt : String)
    (endedAfter : Option Nat) (id : Int) :
    id ∈ adoptedSnapshots (sealLost tables volumeId sealedAt endedAfter).1 volumeId ↔
      id ∈ (writesOf tables volumeId .completed).map WriteRow.snapshotId ++
        ((writesOf tables volumeId .range).filter fun write =>
          everySliceOnSealedVolume tables write.stageSetId (some volumeId)).map WriteRow.snapshotId := by
  unfold adoptedSnapshots
  rw [List.mem_insertionSort, List.mem_dedup]
  simp only [every_slice_after_seal, writesOf, List.mem_append, List.mem_map, List.mem_filter,
    Bool.and_eq_true, Bool.or_eq_true, decide_eq_true_eq]
  constructor
  · rintro ⟨write, ⟨listed, ofVolume, completed | ⟨range, everywhere⟩⟩, same⟩
    · exact .inl ⟨write, ⟨listed, ofVolume, completed⟩, same⟩
    · exact .inr ⟨write, ⟨⟨listed, ofVolume, range⟩, everywhere⟩, same⟩
  · rintro (⟨write, ⟨listed, ofVolume, completed⟩, same⟩ |
      ⟨write, ⟨⟨listed, ofVolume, range⟩, everywhere⟩, same⟩)
    · exact ⟨write, ⟨listed, ofVolume, .inl completed⟩, same⟩
    · exact ⟨write, ⟨listed, ofVolume, .inr ⟨range, everywhere⟩⟩, same⟩

theorem record_adoption_ok {catalog : Catalog} {volumeId : Int} {label now : String}
    {utc : String → Option String} {tape : SealedIndex} {after : Tables}
    (ran : recordAdoption catalog.tables volumeId label now utc tape = .ok after) :
    Recorded catalog.tables volumeId tape.endedAfter after := by
  unfold recordAdoption at ran
  dsimp only at ran
  split at ran
  · cases ran
  next counted =>
  obtain ⟨promotions, promoted, ran⟩ := bind_ok ran
  cases ran
  rw [promote_adopted_ok promoted, foldl_promote_snapshots]
  refine ⟨⟨_, _, rfl⟩, ?_, ?_⟩
  · have one : 0 < catalog.tables.volumes.countP (lostVolume volumeId) := by
      rw [show catalog.tables.volumes.countP (lostVolume volumeId) = 1 from not_not.mp counted]
      exact Nat.one_pos
    obtain ⟨volume, listed, lost⟩ := List.countP_pos_iff.mp one
    refine ⟨_, List.mem_map_of_mem listed, ?_⟩
    rw [if_pos lost]
    simp only [lostVolume, Bool.and_eq_true, decide_eq_true_eq] at lost
    exact ⟨lost.1.1, rfl, rfl⟩
  · have known : ∀ write ∈ writesOf catalog.tables volumeId .range, write ∈ catalog.tables.writes :=
      fun write listed => (List.mem_filter.mp listed).1
    refine ⟨_, ranges_everywhere_eq known, ?_⟩
    rw [foldl_promote_snapshots]
    refine List.map_congr_left fun snapshot _ => ?_
    exact if_congr (and_congr_left' (mem_adopted_snapshots ..)) rfl rfl

section Adopt

variable {crate : Crate} {sha256Hex : Bytes → String} {store : Store} {catalog : Catalog}
  {columns : Columns} {volumeId : Int}

/-- File 0 carries the uuid, and the seal the tape ends with after file `ended` binds its front
index. -/
structure Shown (crate : Crate) (sha256Hex : Bytes → String) (store : Store) (uuid : String)
    (tape : SealedIndex) (ended : Int) : Prop where
  read : ∃ bytes identity next, readSmallBytes store 0 "ID thunk" 0 = (.ok bytes, next) ∧
    parseIdThunkIdentity crate (fromUtf8Lossy bytes) = .ok identity ∧ identity.uuid = uuid ∧
    SealedBy crate sha256Hex store (fromUtf8Lossy bytes) next tape ended

theorem check_identity_ok {uuid : String} {file0 : Text} {next : Nat}
    (ran : checkIdentity crate store uuid = .ok (file0, next)) :
    ∃ bytes identity, readSmallBytes store 0 "ID thunk" 0 = (.ok bytes, next) ∧
      file0 = fromUtf8Lossy bytes ∧ parseIdThunkIdentity crate file0 = .ok identity ∧
      identity.uuid = uuid := by
  unfold checkIdentity at ran
  split at ran
  · cases ran
  next bytes calls isRead =>
  dsimp only at ran
  split at ran
  · cases ran
  next identity parsed =>
  split at ran
  · cases ran
  next same =>
  split at ran
  · cases ran
  split at ran
  · cases ran
  cases ran
  exact ⟨bytes, identity, isRead, rfl, parsed, not_not.mp same⟩

theorem conditions_ok {tables : Tables} {tape : SealedIndex} {slices : Nat}
    (ran : conditions crate sha256Hex store tables columns volumeId = .ok (tape, slices)) :
    (∃ ended, Shown crate sha256Hex store ((columns.uuid volumeId).getD "") tape ended) ∧
      Matched tables columns volumeId tape.entries tape.endedAfter := by
  unfold conditions at ran
  obtain ⟨⟨file0, next⟩, checked, ran⟩ := bind_ok ran
  obtain ⟨found, isSealed, ran⟩ := bind_ok ran
  split at ran
  · cases ran
  obtain ⟨count, staged, ran⟩ := bind_ok ran
  cases ran
  obtain ⟨bytes, identity, isRead, rfl, parsed, same⟩ := check_identity_ok checked
  obtain ⟨ended, sealedBy⟩ := sealed_front_index_ok (map_error_ok isSealed)
  exact ⟨⟨ended, bytes, identity, next, isRead, parsed, same, sealedBy⟩,
    staged_match_ok (map_error_ok staged)⟩

theorem Shown.ends_at {uuid : String} {tape : SealedIndex} {ended : Int}
    (shown : Shown crate sha256Hex store uuid tape ended)
    (listed : tape.endedAfter = none → ListedWithin tape.entries ended) :
    EndsAt tape.entries tape.endedAfter ended := by
  obtain ⟨_, _, _, _, _, _, sealedBy⟩ := shown.read
  exact ⟨sealedBy.short, listed⟩

theorem conditions_refuse {tables : Tables} {slices : Nat} :
    conditions crate sha256Hex store tables columns volumeId ≠ .error (.adopted slices) := by
  intro refused
  unfold conditions at refused
  rcases bind_error refused with unnamed | ⟨file0, _, refused⟩
  · unfold checkIdentity at unnamed
    split at unnamed
    · cases unnamed
    dsimp only at unnamed
    split at unnamed
    · cases unnamed
    split at unnamed
    · cases unnamed
    split at unnamed
    · cases unnamed
    split at unnamed <;> cases unnamed
  rcases bind_error refused with unsealed | ⟨tape, _, refused⟩
  · obtain ⟨why, same⟩ := map_error_error unsealed
    cases same
  split at refused
  · next evidence isEvidence =>
    cases refused
    unfold recordedEvidence at isEvidence
    split at isEvidence
    · cases isEvidence
    split at isEvidence <;> cases isEvidence
  rcases bind_error refused with unstaged | ⟨count, _, refused⟩
  · obtain ⟨why, same⟩ := map_error_error unstaged
    cases same
  · cases refused

/-- An adoption rests on a tape that carries the catalog's uuid and whose accepted seal binds the front
index read; every row of the volume says what that tape holds of its set up to the file the seal says
it ended after, if the front index of a tape sealed full lists its slices before the seal, and the
positions of a row that may span are recorded `written` as far as the tape goes; and it records what
confirm would. -/
theorem adopted_as_confirmed (own : OwnSlices catalog.tables) {label now : String}
    {utc : String → Option String} {slices : Nat} {after : Tables}
    (adopted : adopt crate sha256Hex store catalog.tables columns volumeId label now utc =
      .ok (.adopted slices, after)) :
    ∃ tape ended,
      conditions crate sha256Hex store catalog.tables columns volumeId = .ok (tape, slices) ∧
      Shown crate sha256Hex store ((columns.uuid volumeId).getD "") tape ended ∧
      Recorded catalog.tables volumeId tape.endedAfter after ∧
      ((tape.endedAfter = none → ListedWithin tape.entries ended) →
        ∀ write ∈ catalog.tables.writes, write.volumeId = volumeId →
          (write.maySpan = true → LaidDown catalog.tables write.id ended) →
          (write.status = .completed →
            CompletedHere catalog.tables columns volumeId tape.entries ended write) ∧
          (write.status = .range → RangeHere catalog.tables columns tape.entries ended write) ∧
          (write.status = .cut → CutHere catalog.tables volumeId ended write)) := by
  unfold adopt at adopted
  obtain ⟨lost, _, adopted⟩ := bind_ok adopted
  by_cases isLost : lost = false
  · rw [if_pos isLost] at adopted
    cases adopted
  rw [if_neg isLost] at adopted
  dsimp only at adopted
  split at adopted
  · next refused checked =>
    cases adopted
    exact absurd checked conditions_refuse
  next tape count checked =>
  obtain ⟨recorded, ran, adopted⟩ := bind_ok adopted
  cases adopted
  obtain ⟨⟨ended, shown⟩, matched⟩ := conditions_ok checked
  refine ⟨tape, ended, checked, shown, record_adoption_ok ran, ?_⟩
  intro listed write isWrite ofVolume laid
  have ends := shown.ends_at listed
  refine ⟨completed_here own matched isWrite ofVolume ends, ?_, fun cut =>
    cut_here own matched isWrite ofVolume ends cut laid⟩
  intro range
  exact range_here own matched isWrite ofVolume ends range
    (laid (catalog.schema.range_spans write isWrite range))

end Adopt

namespace ThreeSlices

def file0 : Bytes := encodeUtf8 (Toml.Document.render
  [⟨.table, "volume", [("label", .string "V"), ("uuid", .string "U")]⟩,
    ⟨.table, "layout", [("front_index", .integer 3), ("seal_marker", .integer 7),
      ("total_files", .integer 8)]⟩])

/-- The front index of an eight-file tape with slices at files 4 and 5, which lists a third slice and
the seal marker where it is told to. -/
def index (third marker : Int) : Bytes :=
  let slice (position : Int) (hash : String) : Toml.Block :=
    ⟨.arrayOfTables, "files", [("position", .integer position), ("type", .string "data_slice"),
      ("sha256_encrypted", .string hash)]⟩
  encodeUtf8 (Toml.Document.render
    [⟨.table, "index", [("volume", .string "V"), ("layout_version", .integer 2)]⟩,
      slice 4 "1", slice 5 "2", slice third "3",
      ⟨.arrayOfTables, "files", [("position", .integer marker), ("type", .string "seal_marker")]⟩])

def sealMarker (third marker : Int) : Bytes := encodeUtf8 (Toml.Document.render
  [⟨.table, "seal", [("volume", .string "V"), ("layout_version", .integer 2),
    ("file_count", .integer 8), ("sealed_at", .string "T"),
    ("front_index_sha256", .string (toString (index third marker).length))]⟩])

def store (third marker : Int) : Store :=
  steadyStore [file0, [1], [1], index third marker, [1], [1], [1], sealMarker third marker]

def sha256Hex (bytes : Bytes) : String := toString bytes.length

def columns : Columns where
  uuid _ := some "U"
  sha256Encrypted id := if id = 1 then "1" else if id = 2 then "2" else "3"
  origin _ := .staged
  rebuiltAt _ := [1]
  passedFull _ := [2]

/-- A set of these slices, of which the volume's row has three positions. -/
def tables (slices : List StageSliceRow) (second : PositionStatus) (third : Int)
    (status : WriteStatus) (maySpan : Bool) : Tables where
  units := [⟨1, "unit-1", "photos", .active⟩]
  snapshots := [⟨1, 1, 1, .staged⟩]
  stageSets := [⟨1, 1, .staged⟩]
  stageSlices := slices
  volumes := [⟨1, "V", .initialized, .ok, none, none, none⟩]
  deposits := []
  writes := [⟨1, 1, 1, 1, status, false, maySpan⟩]
  positions := [⟨1, 1, 4, .written⟩, ⟨1, 2, 5, second⟩, ⟨1, 3, third, .written⟩]

def three : List StageSliceRow := [⟨1, 1, 1, none, none⟩, ⟨2, 1, 2, none, none⟩, ⟨3, 1, 3, none, none⟩]

def catalog : Catalog where
  tables := tables (three ++ [⟨4, 1, 4, none, none⟩]) .written 6 .range true
  schema := by constructor <;> decide

/-- The middle slice of a range recorded as not written. -/
def gapped : Catalog where
  tables := tables three .pending 6 .range true
  schema := by constructor <;> decide

/-- The third slice of a whole set recorded past the tape's end. -/
def beyond : Catalog where
  tables := tables three .written 99 .completed false
  schema := by constructor <;> decide

/-- Every slice on the tape, and the row recorded `cut`. -/
def early : Catalog where
  tables := tables three .written 6 .cut true
  schema := by constructor <;> decide

def run (third marker : Int) (tables : Tables) : Except String (LostAdoption × Tables) :=
  adopt Toml.plainCrate sha256Hex (store third marker) tables columns 1 "V" "now" (fun _ => none)

theorem adopts {third marker : Int} {tables : Tables}
    (adopted : ((run third marker tables).toOption.any fun result => result.1 == .adopted 3) = true) :
    ∃ after, run third marker tables = .ok (.adopted 3, after) := by
  cases ran : run third marker tables with
  | error why =>
    rw [ran] at adopted
    cases adopted
  | ok result =>
    rw [ran] at adopted
    obtain ⟨verdict, after⟩ := result
    have same : verdict = .adopted 3 := by simpa [Except.toOption] using adopted
    exact ⟨after, by rw [same]⟩

/-- What the seal of each of these tapes says. -/
def through (third marker : Int) : Option Int :=
  match readSmallBytes (store third marker) 0 "ID thunk" 0 with
  | (.ok bytes, next) =>
    sealedThrough Toml.plainCrate sha256Hex (store third marker) (fromUtf8Lossy bytes) next
  | _ => none

end ThreeSlices

open ThreeSlices in
theorem adopted_as_confirmed_run : ∃ after tape,
    run 6 7 catalog.tables = .ok (.adopted 3, after) ∧
      Shown Toml.plainCrate sha256Hex (store 6 7) "U" tape 6 ∧
      Recorded catalog.tables 1 tape.endedAfter after ∧
      ∀ write ∈ catalog.tables.writes, write.status = .range ∧
        RangeHere catalog.tables columns tape.entries 6 write := by
  obtain ⟨after, ran⟩ := @adopts 6 7 catalog.tables (by decide +kernel)
  have own : OwnSlices catalog.tables := by decide
  obtain ⟨tape, ended, checked, shown, recorded, rows⟩ := adopted_as_confirmed own ran
  have isEnd : ended = 6 := by
    obtain ⟨bytes, _, next, isRead, _, _, sealedBy⟩ := shown.read
    have six : through 6 7 = some 6 := by decide +kernel
    rw [through, isRead] at six
    dsimp only at six
    rw [sealedBy.through] at six
    exact Option.some.inj six
  subst isEnd
  have listed : ListedWithin tape.entries 6 := by
    have inside : ((conditions Toml.plainCrate sha256Hex (store 6 7) catalog.tables columns
        1).toOption.any fun found => (found.1.entries.all fun entry =>
          entry.typeLabel != "data_slice" || decide (entry.position ≤ 6)) &&
          decide (6 ≤ countedThrough found.1.entries none)) = true := by decide +kernel
    rw [checked] at inside
    simp only [Except.toOption, Option.any_some, Bool.and_eq_true, List.all_eq_true,
      Bool.or_eq_true, bne_iff_ne, decide_eq_true_iff] at inside
    exact ⟨fun entry isEntry isData => (inside.1 entry isEntry).resolve_left (not_not.mpr isData),
      by exact_mod_cast inside.2⟩
  refine ⟨after, tape, ran, shown, recorded, ?_⟩
  intro write isWrite
  have facts : write.volumeId = 1 ∧ write.status = .range ∧ LaidDown catalog.tables write.id 6 := by
    revert write
    decide
  exact ⟨facts.2.1,
    (rows (fun _ => listed) write isWrite facts.1 fun _ => facts.2.2).2.1 facts.2.1⟩

open ThreeSlices in
/-- Three adoptions that go through: a range whose middle slice is recorded as not written; a
completed row with a slice at file 99 of an eight-file tape, because the front index lists it there;
and a `cut` row all of whose slices are on the tape, because the front index puts the seal marker
among them. -/
theorem ill_recorded_writes_adopted :
    (OwnSlices gapped.tables ∧ (∃ after, run 6 7 gapped.tables = .ok (.adopted 3, after)) ∧
      ∃ write ∈ gapped.tables.writes, write.volumeId = 1 ∧ write.status = .range ∧
        ¬ ∃ first last : Int, ∀ slice ∈ gapped.tables.stageSlices,
          slice.stageSetId = write.stageSetId →
            ((∃ position ∈ gapped.tables.positions, position.writeId = write.id ∧
              position.stageSliceId = slice.id ∧ position.status = .written) ↔
                first ≤ slice.sliceNumber ∧ slice.sliceNumber ≤ last)) ∧
    (OwnSlices beyond.tables ∧ (∃ after, run 99 7 beyond.tables = .ok (.adopted 3, after)) ∧
      through 99 7 = some 6 ∧
      ∃ write ∈ beyond.tables.writes, write.volumeId = 1 ∧ write.status = .completed ∧
        ∃ slice ∈ beyond.tables.stageSlices, slice.stageSetId = write.stageSetId ∧
          ∀ position ∈ beyond.tables.positions, position.stageSliceId = slice.id →
            ¬ position.position ≤ 6) ∧
    OwnSlices early.tables ∧ (∃ after, run 6 4 early.tables = .ok (.adopted 3, after)) ∧
      through 6 4 = some 6 ∧
      ∃ write ∈ early.tables.writes, write.volumeId = 1 ∧ write.status = .cut ∧
        LaidDown early.tables write.id 6 ∧
        ∀ slice ∈ early.tables.stageSlices, slice.stageSetId = write.stageSetId →
          ∃ position ∈ early.tables.positions, position.writeId = write.id ∧
            position.stageSliceId = slice.id ∧ position.position ≤ 6 := by
  refine ⟨⟨by decide, @adopts 6 7 gapped.tables (by decide +kernel),
      ⟨1, 1, 1, 1, .range, false, true⟩, by decide, rfl, rfl, ?_⟩,
    ⟨by decide, @adopts 99 7 beyond.tables (by decide +kernel), by decide +kernel, by decide⟩,
    by decide, @adopts 6 4 early.tables (by decide +kernel), by decide +kernel, by decide⟩
  rintro ⟨first, last, run⟩
  have low := (run ⟨1, 1, 1, none, none⟩ (by decide) rfl).mp (by decide)
  have high := (run ⟨3, 1, 3, none, none⟩ (by decide) rfl).mp (by decide)
  have middle := (run ⟨2, 1, 2, none, none⟩ (by decide) rfl).mpr ⟨by dsimp only at low ⊢; omega,
    by dsimp only at high ⊢; omega⟩
  exact absurd middle (by decide)

end Tapectl.AdoptLost
