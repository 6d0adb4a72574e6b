import Tapectl.Policy.Coverage

/-!
# The counts as fault-tolerance bounds

A holder is an eligible volume or one deposit of an eligible volume. A version's copies are a number
of holders whose loss it survives one short of: with fewer lost, some stage set of the version still
has every slice on a remaining holder. Its places are the same for the loss of places. Each holder
and each place is credited to one stage set, so both are the pigeonhole of `Library.Credit`.
-/

namespace Tapectl.Policy

open Tapectl.Db

inductive Holder where
  | volume (id : Int)
  | deposit (volumeId locationId : Int)
  deriving DecidableEq, Repr

def Holder.volumeId : Holder → Int
  | .volume id => id
  | .deposit volumeId _ => volumeId

def writeHolds (tables : Tables) (write : WriteRow) (slice : Int) : Bool :=
  write.status = .completed || (write.status = .range && rangeHolds tables write slice)

structure Holds (tables : Tables) (set slice : Int) (holder : Holder) : Prop where
  volume : ∃ volume ∈ tables.volumes, volume.id = holder.volumeId ∧ eligible volume = true
  deposited : ∀ volumeId locationId, holder = .deposit volumeId locationId →
    ⟨volumeId, locationId⟩ ∈ tables.deposits
  write : ∃ write ∈ tables.writes, write.stageSetId = set ∧ write.volumeId = holder.volumeId ∧
    writeHolds tables write slice = true

/-- Where the holder is: its volume's shelf, or the place of the deposit. -/
def Holder.AtPlace (tables : Tables) (place : Int) : Holder → Prop
  | .volume id => ∃ volume ∈ tables.volumes, volume.id = id ∧ volume.locationId = some place
  | .deposit _ locationId => locationId = place

namespace SliceCount

variable {tables : Tables} {count : SliceCount}

variable {row : WriteRow × VolumeRow}

theorem mem_writes {status : WriteStatus} :
    row ∈ count.writes tables status ↔
      row.1 ∈ tables.writes ∧ row.2 ∈ tables.volumes ∧ row.2.id = row.1.volumeId ∧
        row.1.stageSetId = count.set ∧ row.1.status = status ∧ eligible row.2 = true ∧
        count.exclude ≠ some row.1.volumeId := by
  obtain ⟨write, volume⟩ := row
  simp only [writes, List.mem_filter, List.mem_flatMap, List.mem_map, Prod.mk.injEq,
    decide_eq_true_eq, Bool.and_eq_true, Bool.not_eq_true', decide_eq_false_iff_not]
  constructor
  · rintro ⟨⟨_, member, _, ⟨known, same⟩, rfl, rfl⟩, ⟨⟨set, status⟩, sealed⟩, other⟩
    exact ⟨member, known, same, set, status, sealed, other⟩
  · rintro ⟨member, known, same, set, status, sealed, other⟩
    exact ⟨⟨write, member, volume, ⟨known, same⟩, rfl, rfl⟩, ⟨⟨set, status⟩, sealed⟩, other⟩

theorem writes_nodup (schema : tables.Schema) (status : WriteStatus) :
    (count.writes tables status).Nodup := by
  refine List.Nodup.filter _ ?_
  rw [List.nodup_flatMap]
  constructor
  · intro write _
    exact (schema.volume_keys.of_map.filter _).map fun one other same => (Prod.mk.inj same).2
  · refine schema.write_keys.of_map.imp fun differ => ?_
    intro row first second
    obtain ⟨_, _, rfl⟩ := List.mem_map.mp first
    obtain ⟨_, _, same⟩ := List.mem_map.mp second
    exact differ (Prod.mk.inj same).1.symm

/-- The credited writes that hold the slice: the whole ones, then the ranges with it. -/
def rowsAt (tables : Tables) (count : SliceCount) (slice : Int) : List (WriteRow × VolumeRow) :=
  (count.writes tables .completed).filter (fun row => count.tapeCredited tables row.1) ++
    (count.writes tables .range).filter fun row =>
      count.tapeCredited tables row.1 && rangeHolds tables row.1 slice

theorem mem_rows_at {slice : Int} (member : row ∈ count.rowsAt tables slice) :
    row.1 ∈ tables.writes ∧ row.2 ∈ tables.volumes ∧ row.2.id = row.1.volumeId ∧
      row.1.stageSetId = count.set ∧ eligible row.2 = true ∧
      count.exclude ≠ some row.1.volumeId ∧ count.tapeCredited tables row.1 = true ∧
      holdsSlices row.1 = true ∧ writeHolds tables row.1 slice = true := by
  rcases List.mem_append.mp member with whole | range
  · obtain ⟨row, credited⟩ := List.mem_filter.mp whole
    obtain ⟨write, volume, same, set, status, sealed, other⟩ := mem_writes.mp row
    exact ⟨write, volume, same, set, sealed, other, credited, by simp [holdsSlices, status],
      by simp [writeHolds, status]⟩
  · obtain ⟨row, credited⟩ := List.mem_filter.mp range
    obtain ⟨write, volume, same, set, status, sealed, other⟩ := mem_writes.mp row
    obtain ⟨credited, held⟩ := Bool.and_eq_true_iff.mp credited
    exact ⟨write, volume, same, set, sealed, other, credited, by simp [holdsSlices, status],
      by simp [writeHolds, status, held]⟩

theorem rows_at_nodup (schema : tables.Schema) (slice : Int) :
    (count.rowsAt tables slice).Nodup := by
  refine List.Nodup.append ((writes_nodup schema _).filter _) ((writes_nodup schema _).filter _) ?_
  intro row whole range
  have completed := (mem_writes.mp (List.mem_filter.mp whole).1).2.2.2.2.1
  have ranged := (mem_writes.mp (List.mem_filter.mp range).1).2.2.2.2.1
  rw [completed] at ranged
  cases ranged

theorem row_of_volume (schema : tables.Schema) {slice other : Int} {next : WriteRow × VolumeRow}
    (first : row ∈ count.rowsAt tables slice) (second : next ∈ count.rowsAt tables other)
    (same : row.1.volumeId = next.1.volumeId) : row = next := by
  obtain ⟨write, volume, id, set, _⟩ := mem_rows_at first
  obtain ⟨write', volume', id', set', _⟩ := mem_rows_at second
  have sameWrite : row.1 = next.1 := List.inj_on_of_nodup_map schema.write_once write write'
    (Prod.ext (set.trans set'.symm) same)
  exact Prod.ext sameWrite (List.inj_on_of_nodup_map schema.volume_keys volume volume'
    (id.trans (same.trans id'.symm)))

def holdersOf (tables : Tables) (row : WriteRow × VolumeRow) : List Holder :=
  .volume row.1.volumeId :: (tables.deposits.filter fun deposit =>
    deposit.volumeId = row.1.volumeId).map fun deposit =>
      .deposit deposit.volumeId deposit.locationId

theorem mem_holders_of {holder : Holder} (member : holder ∈ holdersOf tables row) :
    holder.volumeId = row.1.volumeId ∧
      ∀ volumeId locationId, holder = .deposit volumeId locationId →
        ⟨volumeId, locationId⟩ ∈ tables.deposits := by
  rcases List.mem_cons.mp member with rfl | deposited
  · exact ⟨rfl, by simp⟩
  · obtain ⟨deposit, found, rfl⟩ := List.mem_map.mp deposited
    obtain ⟨known, same⟩ := List.mem_filter.mp found
    refine ⟨by simpa [Holder.volumeId] using same, fun volumeId locationId same => ?_⟩
    obtain ⟨rfl, rfl⟩ := Holder.deposit.inj same
    exact known

theorem holders_of_nodup (schema : tables.Schema) (row : WriteRow × VolumeRow) :
    (holdersOf tables row).Nodup := by
  refine List.nodup_cons.mpr ⟨by simp, ?_⟩
  refine (schema.deposit_once.filter _).map fun one other same => ?_
  obtain ⟨volume, location⟩ := Holder.deposit.inj same
  cases one
  cases other
  simp_all

def holdersAt (tables : Tables) (count : SliceCount) (slice : Int) : List Holder :=
  (count.rowsAt tables slice).flatMap (holdersOf tables)

theorem holders_at_length (slice : Int) :
    (count.holdersAt tables slice).length =
      count.whole tables .copies + count.rangeAt tables .copies slice := by
  have sizes : ∀ rows : List (WriteRow × VolumeRow), (rows.flatMap (holdersOf tables)).length =
      (rows.map (weight tables .copies)).sum := by
    intro rows
    rw [List.length_flatMap]
    congr 1
    refine List.map_congr_left fun row _ => ?_
    simp [holdersOf, weight, List.countP_eq_length_filter, Nat.add_comm]
  rw [holdersAt, sizes, rowsAt, List.map_append, List.sum_append]
  rfl

theorem holders_at_nodup (schema : tables.Schema) (slice : Int) :
    (count.holdersAt tables slice).Nodup := by
  refine List.nodup_flatMap.mpr ⟨fun row _ => holders_of_nodup schema row, ?_⟩
  refine (rows_at_nodup schema slice).imp_of_mem fun first second differ => ?_
  intro holder one other
  refine differ (row_of_volume schema first second ?_)
  exact (mem_holders_of one).1.symm.trans (mem_holders_of other).1

theorem holds_of_mem {slice : Int} {holder : Holder}
    (member : holder ∈ count.holdersAt tables slice) :
    Holds tables count.set slice holder ∧ count.exclude ≠ some holder.volumeId := by
  obtain ⟨row, listed, held⟩ := List.mem_flatMap.mp member
  obtain ⟨write, volume, id, set, sealed, other, _, _, holds⟩ := mem_rows_at listed
  obtain ⟨same, deposited⟩ := mem_holders_of held
  rw [same]
  exact ⟨⟨⟨row.2, volume, by rw [id, same], sealed⟩, deposited,
    ⟨row.1, write, set, same.symm, holds⟩⟩, other⟩

theorem least_covered_le {whole : Nat} {rangeAt : Int → Nat} {slice : StageSliceRow}
    (member : slice ∈ tables.stageSlices) (set : slice.stageSetId = count.set) :
    count.leastCovered tables whole rangeAt ≤ whole + rangeAt slice.id := by
  unfold leastCovered
  split
  · omega
  · have listed : rangeAt slice.id ∈ (tables.stageSlices.filter fun slice =>
        slice.stageSetId = count.set).map fun slice => rangeAt slice.id :=
      List.mem_map.mpr ⟨slice, List.mem_filter.mpr ⟨member, by simpa using set⟩, rfl⟩
    cases least : ((tables.stageSlices.filter fun slice =>
        slice.stageSetId = count.set).map fun slice => rangeAt slice.id).min? with
    | none => simp
    | some value =>
      have := (List.min?_eq_some_iff.mp least).2 _ listed
      simp only [Option.getD_some]
      omega

/-- The least-covered count is that of some slice, or the whole holders' when there is none. -/
theorem least_covered_cases {whole : Nat} {rangeAt : Int → Nat}
    (idle : count.writes tables .range = [] → ∀ slice, rangeAt slice = 0) :
    count.leastCovered tables whole rangeAt = whole ∧
        (∀ slice ∈ tables.stageSlices, slice.stageSetId ≠ count.set) ∨
      ∃ slice ∈ tables.stageSlices, slice.stageSetId = count.set ∧
        count.leastCovered tables whole rangeAt = whole + rangeAt slice.id := by
  by_cases some_slice : ∃ slice ∈ tables.stageSlices, slice.stageSetId = count.set
  · refine .inr ?_
    obtain ⟨slice, member, set⟩ := some_slice
    unfold leastCovered
    split
    case isTrue none =>
      exact ⟨slice, member, set, by rw [idle (List.isEmpty_iff.mp none)]⟩
    case isFalse =>
      cases least : ((tables.stageSlices.filter fun slice =>
          slice.stageSetId = count.set).map fun slice => rangeAt slice.id).min? with
      | none =>
        rw [List.min?_eq_none_iff, List.map_eq_nil_iff, List.filter_eq_nil_iff] at least
        exact absurd (by simpa using set) (least slice member)
      | some value =>
        obtain ⟨lowest, listed, rfl⟩ := List.mem_map.mp (List.min?_eq_some_iff.mp least).1
        obtain ⟨known, same⟩ := List.mem_filter.mp listed
        exact ⟨lowest, known, by simpa using same, rfl⟩
  · refine .inl ⟨?_, fun slice member set => some_slice ⟨slice, member, set⟩⟩
    have none : (tables.stageSlices.filter fun slice => slice.stageSetId = count.set) = [] := by
      rw [List.filter_eq_nil_iff]
      intro slice member set
      exact some_slice ⟨slice, member, by simpa using set⟩
    simp [leastCovered, none]

theorem not_credited {write lower : WriteRow} {set : StageSetRow} (member : lower ∈ tables.writes)
    (known : set ∈ tables.stageSets) (id : set.id = lower.stageSetId)
    (volume : lower.volumeId = write.volumeId) (less : lower.stageSetId < write.stageSetId)
    (holds : holdsSlices lower = true) (inside : count.partition.contains tables set = true) :
    count.tapeCredited tables write = false := by
  simp only [tapeCredited, Bool.not_eq_false']
  refine List.any_eq_true.mpr ⟨lower, member, List.any_eq_true.mpr ⟨set, known, ?_⟩⟩
  simp [id, volume, less, holds, inside]

theorem mem_places_of {rows : List (WriteRow × VolumeRow)} {place : Int} :
    place ∈ placesOf tables rows ↔ ∃ row ∈ rows, row.2.locationId = some place ∨
      ⟨row.1.volumeId, place⟩ ∈ tables.deposits := by
  simp only [placesOf, List.mem_append, List.mem_filterMap, List.mem_flatMap, List.mem_map,
    List.mem_filter, decide_eq_true_eq]
  constructor
  · rintro (⟨row, member, shelved⟩ | ⟨row, member, ⟨_, _⟩, ⟨known, rfl⟩, rfl⟩)
    · exact ⟨row, member, .inl shelved⟩
    · exact ⟨row, member, .inr known⟩
  · rintro ⟨row, member, shelved | known⟩
    · exact .inl ⟨row, member, shelved⟩
    · exact .inr ⟨row, member, _, ⟨known, rfl⟩, rfl⟩

def placesAt (tables : Tables) (count : SliceCount) (slice : Int) : Finset Int :=
  ((placesOf tables (count.writes tables .completed)).filter fun place =>
      count.placeCredited tables place).toFinset ∪
    ((placesOf tables ((count.writes tables .range).filter fun row =>
      rangeHolds tables row.1 slice)).filter fun place =>
        count.placeCredited tables place &&
          !(placesOf tables (count.writes tables .completed)).contains place).toFinset

theorem card_places_at (slice : Int) : (count.placesAt tables slice).card =
    count.wholePlaces tables + count.rangePlacesAt tables slice := by
  rw [placesAt, Finset.card_union_of_disjoint, List.card_toFinset, List.card_toFinset]
  · rfl
  · rw [Finset.disjoint_left]
    intro place whole range
    have known := (List.mem_filter.mp (List.mem_toFinset.mp whole)).1
    have absent := (List.mem_filter.mp (List.mem_toFinset.mp range)).2
    simp [known] at absent

theorem mem_places_at {slice place : Int} (member : place ∈ count.placesAt tables slice) :
    count.placeCredited tables place = true ∧ ∃ row : WriteRow × VolumeRow,
      row.1 ∈ tables.writes ∧ row.2 ∈ tables.volumes ∧ row.2.id = row.1.volumeId ∧
      row.1.stageSetId = count.set ∧ eligible row.2 = true ∧
      count.exclude ≠ some row.1.volumeId ∧ holdsSlices row.1 = true ∧
      writeHolds tables row.1 slice = true ∧
      (row.2.locationId = some place ∨ ⟨row.1.volumeId, place⟩ ∈ tables.deposits) := by
  rcases Finset.mem_union.mp member with whole | range
  · obtain ⟨listed, credited⟩ := List.mem_filter.mp (List.mem_toFinset.mp whole)
    obtain ⟨row, known, there⟩ := mem_places_of.mp listed
    obtain ⟨write, volume, same, set, status, sealed, other⟩ := mem_writes.mp known
    exact ⟨credited, row, write, volume, same, set, sealed, other, by simp [holdsSlices, status],
      by simp [writeHolds, status], there⟩
  · obtain ⟨listed, credited⟩ := List.mem_filter.mp (List.mem_toFinset.mp range)
    obtain ⟨row, known, there⟩ := mem_places_of.mp listed
    obtain ⟨known, held⟩ := List.mem_filter.mp known
    obtain ⟨write, volume, same, set, status, sealed, other⟩ := mem_writes.mp known
    exact ⟨(Bool.and_eq_true_iff.mp credited).1, row, write, volume, same, set, sealed, other,
      by simp [holdsSlices, status], by simp [writeHolds, status, held], there⟩

theorem not_place_credited {place : Int} {set : StageSetRow} (write : row.1 ∈ tables.writes)
    (volume : row.2 ∈ tables.volumes) (same : row.2.id = row.1.volumeId)
    (known : set ∈ tables.stageSets) (id : row.1.stageSetId = set.id)
    (sealed : eligible row.2 = true) (other : count.exclude ≠ some row.1.volumeId)
    (holds : holdsSlices row.1 = true)
    (there : row.2.locationId = some place ∨ ⟨row.1.volumeId, place⟩ ∈ tables.deposits)
    (inside : count.partition.contains tables set = true) (less : set.id < count.set) :
    count.placeCredited tables place = false := by
  simp only [placeCredited, Bool.not_eq_false']
  refine List.any_eq_true.mpr ⟨set, known, List.any_eq_true.mpr ⟨row.1, write,
    List.any_eq_true.mpr ⟨row.2, volume, ?_⟩⟩⟩
  have atPlace : row.2.locationId = some place ∨
      ∃ deposit ∈ tables.deposits, deposit.volumeId = row.1.volumeId ∧
        deposit.locationId = place :=
    there.imp_right fun deposited => ⟨_, deposited, rfl, rfl⟩
  simpa [id, same, inside, less, holds, sealed, other] using atPlace

end SliceCount

section Version

variable (catalog : Catalog) (snapshot : Int) (exclude : Option Int)

def versionSets (tables : Tables) (snapshot : Int) : List StageSetRow :=
  tables.stageSets.filter fun set => set.snapshotId = snapshot

theorem mem_version_sets {tables : Tables} {snapshot : Int} {set : StageSetRow} :
    set ∈ versionSets tables snapshot ↔ set ∈ tables.stageSets ∧ set.snapshotId = snapshot := by
  simp [versionSets]

def sliceIds (tables : Tables) (set : Int) : Finset Int :=
  ((tables.stageSlices.filter fun slice => slice.stageSetId = set).map StageSliceRow.id).toFinset

theorem mem_slice_ids {tables : Tables} {set slice : Int} :
    slice ∈ sliceIds tables set ↔
      ∃ row ∈ tables.stageSlices, row.stageSetId = set ∧ row.id = slice := by
  simp [sliceIds, and_assoc]

def versionCount (set : StageSetRow) : SliceCount := ⟨set.id, .version snapshot, exclude⟩

theorem holder_credited_once {one other : StageSetRow}
    (first : one ∈ versionSets catalog.tables snapshot)
    (second : other ∈ versionSets catalog.tables snapshot) {slice slice' : Int} {holder : Holder}
    (here : holder ∈ (versionCount snapshot exclude one).holdersAt catalog.tables slice)
    (there : holder ∈ (versionCount snapshot exclude other).holdersAt catalog.tables slice') :
    one = other := by
  obtain ⟨row, listed, held⟩ := List.mem_flatMap.mp here
  obtain ⟨row', listed', held'⟩ := List.mem_flatMap.mp there
  obtain ⟨write, _, _, set, _, _, credited, holds, _⟩ := SliceCount.mem_rows_at listed
  obtain ⟨write', _, _, set', _, _, credited', holds', _⟩ := SliceCount.mem_rows_at listed'
  have volume : row.1.volumeId = row'.1.volumeId :=
    (SliceCount.mem_holders_of held).1.symm.trans (SliceCount.mem_holders_of held').1
  obtain ⟨known, version⟩ := mem_version_sets.mp first
  obtain ⟨known', version'⟩ := mem_version_sets.mp second
  refine List.inj_on_of_nodup_map catalog.schema.stage_set_keys known known' ?_
  have setId : row.1.stageSetId = one.id := set
  have setId' : row'.1.stageSetId = other.id := set'
  rcases lt_trichotomy one.id other.id with less | same | less
  · rw [SliceCount.not_credited write known setId.symm volume (by omega) holds
      (by simpa [versionCount, Partition.contains] using version)] at credited'
    cases credited'
  · exact same
  · rw [SliceCount.not_credited write' known' setId'.symm volume.symm (by omega) holds'
      (by simpa [versionCount, Partition.contains] using version')] at credited
    cases credited

def copyLedger : Library.Credit.Ledger StageSetRow Int Holder where
  groups := versionSets catalog.tables snapshot
  parts set := sliceIds catalog.tables set.id
  credited set slice :=
    ((versionCount snapshot exclude set).holdersAt catalog.tables slice).toFinset
  nodup := catalog.schema.stage_set_keys.of_map.filter _
  once := by
    intro one first other second slice _ slice' _ holder here there
    exact holder_credited_once catalog snapshot exclude first second (List.mem_toFinset.mp here)
      (List.mem_toFinset.mp there)

/-- Fewer holders lost than a version's copies: a stage set keeps a holder of every slice. -/
theorem copies_survive (lost : Finset Holder)
    (few : lost.card < copyCountExpr catalog.tables ⟨.snapshot snapshot, exclude⟩) :
    ∃ set ∈ versionSets catalog.tables snapshot,
      0 < (versionCount snapshot exclude set).leastCopies catalog.tables .copies ∧
      ∀ slice ∈ catalog.tables.stageSlices, slice.stageSetId = set.id →
        ∃ holder, holder ∉ lost ∧ Holds catalog.tables set.id slice.id holder ∧
          exclude ≠ some holder.volumeId := by
  obtain ⟨set, member, counted, held⟩ := (copyLedger catalog snapshot exclude).survives
    (fun set => (versionCount snapshot exclude set).leastCopies catalog.tables .copies)
    (by
      intro set _ slice inSet
      obtain ⟨row, known, same, rfl⟩ := mem_slice_ids.mp inSet
      change _ ≤ (List.toFinset _).card
      rw [List.toFinset_card_of_nodup (SliceCount.holders_at_nodup catalog.schema row.id),
        SliceCount.holders_at_length]
      exact SliceCount.least_covered_le known same)
    lost few
  refine ⟨set, member, counted, fun slice known same => ?_⟩
  obtain ⟨holder, credited, remains⟩ := held slice.id (mem_slice_ids.mpr ⟨slice, known, same, rfl⟩)
  exact ⟨holder, remains, SliceCount.holds_of_mem (List.mem_toFinset.mp credited)⟩

theorem place_credited_once {one other : StageSetRow}
    (first : one ∈ versionSets catalog.tables snapshot)
    (second : other ∈ versionSets catalog.tables snapshot) {slice slice' place : Int}
    (here : place ∈ (versionCount snapshot exclude one).placesAt catalog.tables slice)
    (there : place ∈ (versionCount snapshot exclude other).placesAt catalog.tables slice') :
    one = other := by
  obtain ⟨credited, row, write, volume, same, set, sealed, notExcluded, holds, _, atPlace⟩ :=
    SliceCount.mem_places_at here
  obtain ⟨credited', row', write', volume', same', set', sealed', notExcluded', holds', _,
    atPlace'⟩ := SliceCount.mem_places_at there
  obtain ⟨known, version⟩ := mem_version_sets.mp first
  obtain ⟨known', version'⟩ := mem_version_sets.mp second
  refine List.inj_on_of_nodup_map catalog.schema.stage_set_keys known known' ?_
  have counted : (versionCount snapshot exclude other).exclude ≠ some row.1.volumeId := notExcluded
  have counted' : (versionCount snapshot exclude one).exclude ≠ some row'.1.volumeId := notExcluded'
  rcases lt_trichotomy one.id other.id with less | same | less
  · rw [SliceCount.not_place_credited write volume same known set sealed counted holds atPlace
      (by simpa [versionCount, Partition.contains] using version) less] at credited'
    cases credited'
  · exact same
  · rw [SliceCount.not_place_credited write' volume' same' known' set' sealed' counted' holds'
      atPlace' (by simpa [versionCount, Partition.contains] using version') less] at credited
    cases credited

def placeLedger : Library.Credit.Ledger StageSetRow Int Int where
  groups := versionSets catalog.tables snapshot
  parts set := sliceIds catalog.tables set.id
  credited set slice := (versionCount snapshot exclude set).placesAt catalog.tables slice
  nodup := catalog.schema.stage_set_keys.of_map.filter _
  once := by
    intro one first other second slice _ slice' _ place here there
    exact place_credited_once catalog snapshot exclude first second here there

/-- Fewer places lost than a version's locations: a stage set keeps a holder elsewhere of every
slice. -/
theorem places_survive (lost : Finset Int)
    (few : lost.card < locationCountExpr catalog.tables ⟨.snapshot snapshot, exclude⟩) :
    ∃ set ∈ versionSets catalog.tables snapshot,
      0 < (versionCount snapshot exclude set).leastPlaces catalog.tables ∧
      ∀ slice ∈ catalog.tables.stageSlices, slice.stageSetId = set.id →
        ∃ holder place, Holds catalog.tables set.id slice.id holder ∧
          holder.AtPlace catalog.tables place ∧ place ∉ lost := by
  obtain ⟨set, member, counted, held⟩ := (placeLedger catalog snapshot exclude).survives
    (fun set => (versionCount snapshot exclude set).leastPlaces catalog.tables)
    (by
      intro set _ slice inSet
      obtain ⟨row, known, same, rfl⟩ := mem_slice_ids.mp inSet
      change _ ≤ ((versionCount snapshot exclude set).placesAt catalog.tables row.id).card
      rw [SliceCount.card_places_at]
      exact SliceCount.least_covered_le known same)
    lost few
  refine ⟨set, member, counted, fun slice known same => ?_⟩
  obtain ⟨place, credited, remains⟩ := held slice.id (mem_slice_ids.mpr ⟨slice, known, same, rfl⟩)
  obtain ⟨_, row, write, volume, id, inSet, sealed, _, _, holds, shelved | deposited⟩ :=
    SliceCount.mem_places_at credited
  · exact ⟨.volume row.1.volumeId, place, ⟨⟨row.2, volume, id, sealed⟩, by simp,
      ⟨row.1, write, inSet, rfl, holds⟩⟩, ⟨row.2, volume, id, shelved⟩, remains⟩
  · refine ⟨.deposit row.1.volumeId place, place, ⟨⟨row.2, volume, id, sealed⟩, ?_,
      ⟨row.1, write, inSet, rfl, holds⟩⟩, rfl, remains⟩
    intro volumeId locationId same
    obtain ⟨rfl, rfl⟩ := Holder.deposit.inj same
    exact deposited

end Version

theorem at_place_unique (catalog : Catalog) {holder : Holder} {one other : Int}
    (first : holder.AtPlace catalog.tables one) (second : holder.AtPlace catalog.tables other) :
    one = other := by
  cases holder with
  | volume id =>
    obtain ⟨volume, known, same, shelved⟩ := first
    obtain ⟨volume', known', same', shelved'⟩ := second
    have row : volume = volume' := List.inj_on_of_nodup_map catalog.schema.volume_keys known known'
      (same.trans same'.symm)
    rw [row, shelved'] at shelved
    exact (Option.some.inj shelved).symm
  | deposit volumeId locationId => exact first.symm.trans second

/-- The copy count and the location count of a version are losses it survives one short of: of
holders, and of places with every holder there. -/
theorem counts_bound_losses (catalog : Catalog) (snapshot : Int) :
    (∀ lost : Finset Holder,
      lost.card < copyCountExpr catalog.tables ⟨.snapshot snapshot, none⟩ →
      ∃ set ∈ catalog.tables.stageSets, set.snapshotId = snapshot ∧
        0 < (versionCount snapshot none set).leastCopies catalog.tables .copies ∧
        ∀ slice ∈ catalog.tables.stageSlices, slice.stageSetId = set.id →
          ∃ holder, holder ∉ lost ∧ Holds catalog.tables set.id slice.id holder) ∧
    (∀ lost : Finset Int,
      lost.card < locationCountExpr catalog.tables ⟨.snapshot snapshot, none⟩ →
      ∃ set ∈ catalog.tables.stageSets, set.snapshotId = snapshot ∧
        0 < (versionCount snapshot none set).leastPlaces catalog.tables ∧
        ∀ slice ∈ catalog.tables.stageSlices, slice.stageSetId = set.id →
          ∃ holder, Holds catalog.tables set.id slice.id holder ∧
            ∀ place ∈ lost, ¬ holder.AtPlace catalog.tables place) := by
  constructor
  · intro lost few
    obtain ⟨set, member, counted, held⟩ := copies_survive catalog snapshot none lost few
    obtain ⟨known, version⟩ := mem_version_sets.mp member
    refine ⟨set, known, version, counted, fun slice inSlices same => ?_⟩
    obtain ⟨holder, remains, holds, _⟩ := held slice inSlices same
    exact ⟨holder, remains, holds⟩
  · intro lost few
    obtain ⟨set, member, counted, held⟩ := places_survive catalog snapshot none lost few
    obtain ⟨known, version⟩ := mem_version_sets.mp member
    refine ⟨set, known, version, counted, fun slice inSlices same => ?_⟩
    obtain ⟨holder, place, holds, there, remains⟩ := held slice inSlices same
    refine ⟨holder, holds, fun gone member there' => ?_⟩
    rw [at_place_unique catalog there there'] at remains
    exact remains member

/-- A version of two slices: whole on tape 1, deposited once, and its slices on tapes 2 and 3. -/
def spanningTables : Tables where
  units := [⟨1, "unit-1", "photos", .active⟩]
  snapshots := [⟨1, 1, 1, .current⟩]
  stageSets := [⟨1, 1, .cleaned⟩]
  stageSlices := [⟨1, 1, 1, none, none⟩, ⟨2, 1, 2, none, none⟩]
  volumes := [⟨1, "L1", .sealed, .ok, some 10, none, none⟩,
    ⟨2, "L2", .sealed, .ok, some 11, none, none⟩, ⟨3, "L3", .sealed, .ok, some 11, none, none⟩]
  deposits := [⟨1, 20⟩]
  writes := [⟨1, 1, 1, 1, .completed, true, true⟩, ⟨2, 1, 1, 2, .range, true, true⟩,
    ⟨3, 1, 1, 3, .range, true, true⟩]
  positions := [⟨1, 1, 4, .written⟩, ⟨1, 2, 5, .written⟩, ⟨2, 1, 4, .written⟩, ⟨3, 2, 4, .written⟩]

def spanningCatalog : Catalog where
  tables := spanningTables
  schema := by constructor <;> decide

/-- Three copies at three places: the loss of tape 1 with its deposit, or of both their places,
leaves tapes 2 and 3. -/
theorem counts_bound_losses_spanning :
    copyCountExpr spanningCatalog.tables ⟨.snapshot 1, none⟩ = 3 ∧
      locationCountExpr spanningCatalog.tables ⟨.snapshot 1, none⟩ = 3 ∧
      (∃ set ∈ spanningCatalog.tables.stageSets, set.snapshotId = 1 ∧
        0 < (versionCount 1 none set).leastCopies spanningCatalog.tables .copies ∧
        ∀ slice ∈ spanningCatalog.tables.stageSlices, slice.stageSetId = set.id →
          ∃ holder, holder ∉ ({.volume 1, .deposit 1 20} : Finset Holder) ∧
            Holds spanningCatalog.tables set.id slice.id holder) ∧
      (∃ set ∈ spanningCatalog.tables.stageSets, set.snapshotId = 1 ∧
        0 < (versionCount 1 none set).leastPlaces spanningCatalog.tables ∧
        ∀ slice ∈ spanningCatalog.tables.stageSlices, slice.stageSetId = set.id →
          ∃ holder, Holds spanningCatalog.tables set.id slice.id holder ∧
            ∀ place ∈ ({10, 20} : Finset Int),
              ¬ holder.AtPlace spanningCatalog.tables place) := by
  have copies : copyCountExpr spanningCatalog.tables ⟨.snapshot 1, none⟩ = 3 := by decide
  have places : locationCountExpr spanningCatalog.tables ⟨.snapshot 1, none⟩ = 3 := by decide
  have survive := counts_bound_losses spanningCatalog 1
  refine ⟨copies, places, survive.1 _ ?_, survive.2 _ ?_⟩
  · rw [copies]
    decide
  · rw [places]
    decide

end Tapectl.Policy
