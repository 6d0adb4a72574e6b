import Tapectl.Policy.FaultTolerance

/-!
# Another sealed tape

What one more eligible volume with its writes does to a version's counts. Copies, and copies at a
place, never fall: a tape is credited on its own. The distinct places can: a place is credited to
the lowest-numbered stage set held there, and a new tape shelved there can move the credit to a
stage set it holds only in part.
-/

namespace Tapectl.Policy

open Tapectl.Db

/-- `after` is `before` with one more eligible volume, its finished writes and their positions. -/
structure NewTape (before after : Tables) (volume : VolumeRow) (writes : List WriteRow)
    (positions : List PositionRow) : Prop where
  rows : after = { before with
    volumes := before.volumes ++ [volume]
    writes := before.writes ++ writes
    positions := before.positions ++ positions }
  counts : eligible volume = true
  own : ∀ write ∈ writes, write.volumeId = volume.id
  finished : ∀ write ∈ writes, holdsSlices write = true
  placed : ∀ position ∈ positions, ∃ write ∈ writes, write.id = position.writeId

namespace SliceCount

variable {tables next : Tables} {count : SliceCount}

/-- The least-covered counts of one set compare as its slices do, up to the same offsets; a set
without slices compares by its whole holders. -/
theorem least_covered_mono {whole whole' lost won : Nat} {rangeAt rangeAt' : Int → Nat}
    (slices : next.stageSlices = tables.stageSlices)
    (idle : count.writes tables .range = [] → ∀ slice, rangeAt slice = 0)
    (idle' : count.writes next .range = [] → ∀ slice, rangeAt' slice = 0)
    (wholes : (∀ slice ∈ tables.stageSlices, slice.stageSetId ≠ count.set) →
      whole + won ≤ whole' + lost)
    (each : ∀ slice ∈ tables.stageSlices, slice.stageSetId = count.set →
      whole + rangeAt slice.id + won ≤ whole' + rangeAt' slice.id + lost) :
    count.leastCovered tables whole rangeAt + won ≤
      count.leastCovered next whole' rangeAt' + lost := by
  rcases least_covered_cases idle' with ⟨least, none⟩ | ⟨slice, member, set, least⟩
  · rw [slices] at none
    rcases least_covered_cases idle with ⟨least', _⟩ | ⟨slice, member, set, _⟩
    · rw [least, least']
      exact wholes none
    · exact absurd set (none slice member)
  · rw [slices] at member
    have below : count.leastCovered tables whole rangeAt ≤ whole + rangeAt slice.id :=
      least_covered_le member set
    have step := each slice member set
    omega

/-- A write of the set that `holds`, on an eligible volume that is not the excluded one, shelved or
deposited at the place. -/
def HeldAt (tables : Tables) (count : SliceCount) (holds : WriteRow → Bool) (place : Int) : Prop :=
  ∃ row : WriteRow × VolumeRow, row.1 ∈ tables.writes ∧ row.2 ∈ tables.volumes ∧
    row.2.id = row.1.volumeId ∧ row.1.stageSetId = count.set ∧ eligible row.2 = true ∧
    count.exclude ≠ some row.1.volumeId ∧ holds row.1 = true ∧
    (row.2.locationId = some place ∨ ⟨row.1.volumeId, place⟩ ∈ tables.deposits)

theorem HeldAt.imp {holds holds' : WriteRow → Bool} {place : Int}
    (weaker : ∀ write, holds write = true → holds' write = true)
    (held : count.HeldAt tables holds place) : count.HeldAt tables holds' place := by
  obtain ⟨row, write, volume, same, set, sealed, other, holds, there⟩ := held
  exact ⟨row, write, volume, same, set, sealed, other, weaker _ holds, there⟩

theorem mem_completed_places {place : Int} :
    place ∈ placesOf tables (count.writes tables .completed) ↔
      count.HeldAt tables (fun write => write.status = .completed) place := by
  rw [mem_places_of]
  constructor
  · rintro ⟨row, listed, there⟩
    obtain ⟨write, volume, same, set, status, sealed, other⟩ := mem_writes.mp listed
    exact ⟨row, write, volume, same, set, sealed, other, by simpa using status, there⟩
  · rintro ⟨row, write, volume, same, set, sealed, other, status, there⟩
    exact ⟨row, mem_writes.mpr ⟨write, volume, same, set, by simpa using status, sealed, other⟩,
      there⟩

def wholePlacesSet (tables : Tables) (count : SliceCount) : Finset Int :=
  ((placesOf tables (count.writes tables .completed)).filter fun place =>
    count.placeCredited tables place).toFinset

theorem card_whole_places_set : (count.wholePlacesSet tables).card = count.wholePlaces tables :=
  List.card_toFinset _

theorem mem_whole_places_set {place : Int} :
    place ∈ count.wholePlacesSet tables ↔ count.placeCredited tables place = true ∧
      count.HeldAt tables (fun write => write.status = .completed) place := by
  rw [wholePlacesSet, List.mem_toFinset, List.mem_filter, mem_completed_places, and_comm]

theorem mem_places_at_iff {slice place : Int} :
    place ∈ count.placesAt tables slice ↔ count.placeCredited tables place = true ∧
      count.HeldAt tables (fun write => writeHolds tables write slice) place := by
  constructor
  · intro member
    obtain ⟨credited, row, write, volume, same, set, sealed, other, _, holds, there⟩ :=
      mem_places_at member
    exact ⟨credited, row, write, volume, same, set, sealed, other, holds, there⟩
  · rintro ⟨credited, row, write, volume, same, set, sealed, other, holds, there⟩
    by_cases whole : place ∈ placesOf tables (count.writes tables .completed)
    · exact Finset.mem_union_left _ (List.mem_toFinset.mpr (List.mem_filter.mpr ⟨whole, credited⟩))
    · refine Finset.mem_union_right _ (List.mem_toFinset.mpr (List.mem_filter.mpr ⟨?_, ?_⟩))
      · have cases : row.1.status = .completed ∨
            row.1.status = .range ∧ rangeHolds tables row.1 slice = true := by
          simpa [writeHolds] using holds
        rcases cases with completed | ⟨range, held⟩
        · refine absurd (mem_completed_places.mpr ?_) whole
          exact ⟨row, write, volume, same, set, sealed, other, by simpa using completed, there⟩
        · refine mem_places_of.mpr ⟨row, List.mem_filter.mpr ⟨?_, held⟩, there⟩
          exact mem_writes.mpr ⟨write, volume, same, set, range, sealed, other⟩
      · simp [credited, whole]

theorem range_at_idle {counted : Counted} (none : count.writes tables .range = []) (slice : Int) :
    count.rangeAt tables counted slice = 0 := by
  simp [rangeAt, none]

theorem range_places_at_idle (none : count.writes tables .range = []) (slice : Int) :
    count.rangePlacesAt tables slice = 0 := by
  simp [rangePlacesAt, none, placesOf]

end SliceCount

theorem place_credited_iff {tables : Tables} {snapshot place : Int} {exclude : Option Int}
    {set : StageSetRow} : (versionCount snapshot exclude set).placeCredited tables place = true ↔
      ∀ lower ∈ versionSets tables snapshot, lower.id < set.id →
        ¬ (versionCount snapshot exclude lower).HeldAt tables holdsSlices place := by
  constructor
  · intro credited lower member less held
    obtain ⟨known, version⟩ := mem_version_sets.mp member
    obtain ⟨row, write, volume, same, inSet, sealed, other, holds, there⟩ := held
    have counted : (versionCount snapshot exclude set).exclude ≠ some row.1.volumeId := other
    rw [SliceCount.not_place_credited write volume same known inSet sealed counted holds there
      (by simpa [versionCount, Partition.contains] using version) less] at credited
    cases credited
  · intro lowest
    by_contra taken
    simp only [SliceCount.placeCredited, Bool.not_eq_true', Bool.not_eq_false] at taken
    obtain ⟨lower, known, found⟩ := List.any_eq_true.mp taken
    obtain ⟨write, member, found⟩ := List.any_eq_true.mp found
    obtain ⟨volume, listed, found⟩ := List.any_eq_true.mp found
    simp only [versionCount, Partition.contains, Bool.and_eq_true, Bool.or_eq_true,
      Bool.not_eq_true', decide_eq_true_eq, List.any_eq_true] at found
    obtain ⟨⟨⟨⟨⟨⟨⟨inSet, same⟩, version⟩, less⟩, holds⟩, sealed⟩, other⟩, there⟩ := found
    refine lowest lower (mem_version_sets.mpr ⟨known, version⟩) (of_decide_eq_true less)
      ⟨(write, volume), member, listed, same, inSet, sealed, of_decide_eq_false other, holds, ?_⟩
    refine there.imp_right ?_
    rintro ⟨deposit, deposited, onVolume, rfl⟩
    rw [← same, ← onVolume]
    exact deposited

theorem place_credited_unique {catalog : Catalog} {snapshot place : Int} {exclude : Option Int}
    {one other : StageSetRow} (first : one ∈ versionSets catalog.tables snapshot)
    (second : other ∈ versionSets catalog.tables snapshot)
    (credited : (versionCount snapshot exclude one).placeCredited catalog.tables place = true)
    (credited' : (versionCount snapshot exclude other).placeCredited catalog.tables place = true)
    (held : (versionCount snapshot exclude one).HeldAt catalog.tables holdsSlices place)
    (held' : (versionCount snapshot exclude other).HeldAt catalog.tables holdsSlices place) :
    one = other := by
  refine List.inj_on_of_nodup_map catalog.schema.stage_set_keys (mem_version_sets.mp first).1
    (mem_version_sets.mp second).1 ?_
  rcases lt_trichotomy one.id other.id with less | same | less
  · exact absurd held (place_credited_iff.mp credited' one first less)
  · exact same
  · exact absurd held' (place_credited_iff.mp credited other second less)

/-- The questions a set's least count asks of a write: each slice, or the whole of a set without
slices. -/
inductive Asked (tables : Tables) (set : Int) : (Tables → WriteRow → Bool) → Prop
  | whole (none : ∀ slice ∈ tables.stageSlices, slice.stageSetId ≠ set) :
    Asked tables set fun _ write => write.status = .completed
  | slice {slice : StageSliceRow} (member : slice ∈ tables.stageSlices)
    (inSet : slice.stageSetId = set) : Asked tables set fun tables write =>
      writeHolds tables write slice.id

def HoldsWhole (tables : Tables) (write : WriteRow) : Prop :=
  write.status = .completed ∨
    (∃ slice ∈ tables.stageSlices, slice.stageSetId = write.stageSetId) ∧
      ∀ slice ∈ tables.stageSlices, slice.stageSetId = write.stageSetId →
        writeHolds tables write slice.id = true

theorem HoldsWhole.asked {tables : Tables} {write : WriteRow} (whole : HoldsWhole tables write)
    {holds : Tables → WriteRow → Bool} (asked : Asked tables write.stageSetId holds) :
    holds tables write = true := by
  cases asked with
  | whole none =>
    rcases whole with completed | ⟨⟨slice, member, inSet⟩, _⟩
    · simpa using completed
    · exact absurd inSet (none slice member)
  | slice member inSet =>
    rcases whole with completed | ⟨_, every⟩
    · simp [writeHolds, completed]
    · exact every _ member inSet

theorem Asked.holds_slices {tables next : Tables} {set : Int} {holds : Tables → WriteRow → Bool}
    (asked : Asked tables set holds) {write : WriteRow} (held : holds next write = true) :
    holdsSlices write = true := by
  cases asked with
  | whole => simpa [holdsSlices] using Or.inl (of_decide_eq_true held)
  | slice =>
    simp only [writeHolds, holdsSlices, Bool.or_eq_true, Bool.and_eq_true] at held ⊢
    exact held.imp_right And.left

/-- The places are those credited to the set where a write of it `holds`. -/
def Tallies (tables : Tables) (count : SliceCount) (holds : WriteRow → Bool)
    (places : Finset Int) : Prop :=
  ∀ place, place ∈ places ↔
    count.placeCredited tables place = true ∧ count.HeldAt tables holds place

/-- The new tape takes the credit of a place: the lowest set of the version on it is lower than any
held at its shelf before, and part of that set is not on it. -/
structure TakesCredit (before after : Tables) (volume : VolumeRow) (writes : List WriteRow)
    (snapshot : Int) (exclude : Option Int) (taken lost : StageSetRow) (place : Int) : Prop where
  counted : exclude ≠ some volume.id
  shelved : volume.locationId = some place
  taken_version : taken ∈ versionSets before snapshot
  lost_version : lost ∈ versionSets before snapshot
  less : taken.id < lost.id
  held : (versionCount snapshot exclude lost).HeldAt before holdsSlices place
  lowest_held : ∀ set ∈ versionSets before snapshot,
    (versionCount snapshot exclude set).HeldAt before holdsSlices place → lost.id ≤ set.id
  part : ∃ write ∈ writes, write.stageSetId = taken.id ∧ ¬ HoldsWhole after write
  lowest_brought : ∀ write ∈ writes, ∀ set ∈ versionSets before snapshot,
    set.id = write.stageSetId → taken.id ≤ set.id

/-- The new tape brings the set to the place, in a write that `holds`. -/
def BringsTo (volume : VolumeRow) (writes : List WriteRow) (exclude : Option Int)
    (holds : WriteRow → Bool) (set place : Int) : Prop :=
  exclude ≠ some volume.id ∧ volume.locationId = some place ∧
    ∃ write ∈ writes, write.stageSetId = set ∧ holds write = true

namespace NewTape

variable {before after : Catalog} {volume : VolumeRow} {writes : List WriteRow}
  {positions : List PositionRow}
  (added : NewTape before.tables after.tables volume writes positions)

include added

theorem volume_fresh {known : VolumeRow} (member : known ∈ before.tables.volumes) :
    known.id ≠ volume.id := by
  have keys := after.schema.volume_keys
  rw [added.rows] at keys
  simp only [List.map_append, List.nodup_append, List.map_cons, List.map_nil] at keys
  exact keys.2.2 _ (List.mem_map_of_mem member) _ List.mem_cons_self

theorem write_fresh {write : WriteRow} (member : write ∈ before.tables.writes) :
    write.volumeId ≠ volume.id := by
  obtain ⟨known, listed, same⟩ := before.schema.write_volume write member
  rw [← same]
  exact added.volume_fresh listed

theorem deposit_fresh {deposit : DepositRow} (member : deposit ∈ before.tables.deposits) :
    deposit.volumeId ≠ volume.id := by
  obtain ⟨known, listed, same⟩ := before.schema.deposit_volume deposit member
  rw [← same]
  exact added.volume_fresh listed

theorem mem_writes {write : WriteRow} :
    write ∈ after.tables.writes ↔ write ∈ before.tables.writes ∨ write ∈ writes := by
  rw [added.rows]
  exact List.mem_append

theorem mem_volumes {row : VolumeRow} :
    row ∈ after.tables.volumes ↔ row ∈ before.tables.volumes ∨ row = volume := by
  rw [added.rows]
  simp

theorem stage_sets : after.tables.stageSets = before.tables.stageSets := by rw [added.rows]

theorem stage_slices : after.tables.stageSlices = before.tables.stageSlices := by rw [added.rows]

theorem deposits : after.tables.deposits = before.tables.deposits := by rw [added.rows]

theorem range_holds {write : WriteRow} (member : write ∈ before.tables.writes) (slice : Int) :
    rangeHolds after.tables write slice = rangeHolds before.tables write slice := by
  have keys := after.schema.write_keys
  rw [added.rows] at keys
  simp only [List.map_append, List.nodup_append] at keys
  have none : (positions.any fun position => position.writeId = write.id &&
      position.stageSliceId = slice && position.status = .written) = false := by
    rw [List.any_eq_false]
    intro position listed
    obtain ⟨new, known, same⟩ := added.placed position listed
    have differ := keys.2.2 _ (List.mem_map_of_mem member) _ (List.mem_map_of_mem known)
    simp [← same, Ne.symm differ]
  rw [rangeHolds, rangeHolds, added.rows, List.any_append, none, Bool.or_false]

theorem tape_credited {count : SliceCount} {write : WriteRow}
    (version : ∃ snapshot, count.partition = .version snapshot)
    (member : write ∈ before.tables.writes) :
    count.tapeCredited after.tables write = count.tapeCredited before.tables write := by
  obtain ⟨snapshot, version⟩ := version
  have none : (writes.any fun lower => before.tables.stageSets.any fun set =>
      set.id = lower.stageSetId && lower.volumeId = write.volumeId &&
        lower.stageSetId < write.stageSetId && holdsSlices lower &&
        (Partition.version snapshot).contains before.tables set) = false := by
    rw [List.any_eq_false]
    intro lower listed found
    obtain ⟨set, _, holds⟩ := List.any_eq_true.mp found
    have same : lower.volumeId = write.volumeId := by
      simp only [Bool.and_eq_true, decide_eq_true_eq] at holds
      exact holds.1.1.1.2
    exact added.write_fresh member (same.symm.trans (added.own lower listed))
  simp only [SliceCount.tapeCredited, version, added.rows, List.any_append]
  simp only [Partition.contains] at none ⊢
  rw [none, Bool.or_false]

theorem slice_count_writes (count : SliceCount) (status : WriteStatus) :
    ∃ more, count.writes after.tables status = count.writes before.tables status ++ more := by
  have pairs : ∀ rows : List WriteRow, (∀ write ∈ rows, write ∈ before.tables.writes) →
      (rows.flatMap fun write => (after.tables.volumes.filter fun row =>
        row.id = write.volumeId).map fun row => (write, row)) =
      rows.flatMap fun write => (before.tables.volumes.filter fun row =>
        row.id = write.volumeId).map fun row => (write, row) := by
    intro rows old
    refine List.flatMap_congr fun write listed => ?_
    rw [added.rows, List.filter_append, List.filter_cons_of_neg, List.filter_nil, List.append_nil]
    simpa using Ne.symm (added.write_fresh (old write listed))
  have split : after.tables.writes = before.tables.writes ++ writes := by rw [added.rows]
  rw [SliceCount.writes, split, List.flatMap_append, pairs _ fun _ member => member,
    List.filter_append]
  exact ⟨_, rfl⟩

theorem sum_writes_le (count : SliceCount) (status : WriteStatus) (counted : Counted)
    (old new : WriteRow × VolumeRow → Bool)
    (kept : ∀ row : WriteRow × VolumeRow, row.1 ∈ before.tables.writes → new row = old row) :
    (((count.writes before.tables status).filter old).map
        (SliceCount.weight before.tables counted)).sum ≤
      (((count.writes after.tables status).filter new).map
        (SliceCount.weight after.tables counted)).sum := by
  obtain ⟨more, split⟩ := added.slice_count_writes count status
  have weights : SliceCount.weight after.tables counted = SliceCount.weight before.tables counted := by
    funext row
    cases counted <;> simp only [SliceCount.weight, added.deposits]
  have same : (count.writes before.tables status).filter new =
      (count.writes before.tables status).filter old :=
    List.filter_congr fun row member => kept row (SliceCount.mem_writes.mp member).1
  rw [split, weights, List.filter_append, same, List.map_append, List.sum_append]
  exact Nat.le_add_right _ _

theorem least_copies_le (count : SliceCount)
    (version : ∃ snapshot, count.partition = .version snapshot) (counted : Counted) :
    count.leastCopies before.tables counted ≤ count.leastCopies after.tables counted := by
  have whole : count.whole before.tables counted ≤ count.whole after.tables counted :=
    added.sum_writes_le count _ counted _ _ fun row member =>
      added.tape_credited version member
  have range : ∀ slice, count.rangeAt before.tables counted slice ≤
      count.rangeAt after.tables counted slice := by
    intro slice
    refine added.sum_writes_le count _ counted _ _ fun row member => ?_
    rw [added.tape_credited version member, added.range_holds member]
  exact @SliceCount.least_covered_mono _ _ _ _ _ 0 0 _ _ added.stage_slices
    SliceCount.range_at_idle SliceCount.range_at_idle (fun _ => whole)
    (fun slice _ _ => Nat.add_le_add_right (Nat.add_le_add whole (range slice.id)) 0)

/-- What is held at a place afterwards is what was, and what the new tape brings there. -/
theorem held_at_iff {count : SliceCount} {old new : WriteRow → Bool} {place : Int}
    (kept : ∀ write ∈ before.tables.writes, new write = old write) :
    count.HeldAt after.tables new place ↔ count.HeldAt before.tables old place ∨
      BringsTo volume writes count.exclude new count.set place := by
  constructor
  · rintro ⟨⟨write, row⟩, listed, known, same, set, sealed, other, holds, there⟩
    rw [added.deposits] at there
    rcases added.mem_writes.mp listed with old' | new'
    · rcases added.mem_volumes.mp known with known' | rfl
      · exact .inl ⟨(write, row), old', known', same, set, sealed, other,
          (kept write old').symm.trans holds, there⟩
      · exact absurd same.symm (added.write_fresh old')
    · have own := added.own write new'
      rcases added.mem_volumes.mp known with known' | rfl
      · exact absurd (same.trans own) (added.volume_fresh known')
      · refine .inr ⟨own ▸ other, ?_, write, new', set, holds⟩
        exact there.resolve_right fun deposited => added.deposit_fresh deposited own
  · rintro (⟨row, listed, known, same, set, sealed, other, holds, there⟩ |
      ⟨other, shelved, write, listed, set, holds⟩)
    · exact ⟨row, added.mem_writes.mpr (.inl listed), added.mem_volumes.mpr (.inl known), same, set,
        sealed, other, (kept row.1 listed).trans holds, added.deposits ▸ there⟩
    · have own := added.own write listed
      exact ⟨(write, volume), added.mem_writes.mpr (.inr listed), added.mem_volumes.mpr (.inr rfl),
        own.symm, set, added.counts, own ▸ other, holds, .inl shelved⟩

theorem asked_kept {set : Int} {holds : Tables → WriteRow → Bool}
    (asked : Asked before.tables set holds) :
    ∀ write ∈ before.tables.writes, holds after.tables write = holds before.tables write := by
  intro write member
  cases asked with
  | whole => rfl
  | slice => simp only [writeHolds, added.range_holds member]

/-- A set's least count of places compares as the places that answer each of its questions. -/
theorem least_places_le {count : SliceCount} {lost won : Nat}
    (each : ∀ holds, Asked before.tables count.set holds → ∀ here there : Finset Int,
      Tallies before.tables count (holds before.tables) here →
      Tallies after.tables count (holds after.tables) there →
      here.card + won ≤ there.card + lost) :
    count.leastPlaces before.tables + won ≤ count.leastPlaces after.tables + lost := by
  refine SliceCount.least_covered_mono added.stage_slices SliceCount.range_places_at_idle
    SliceCount.range_places_at_idle (fun none => ?_) (fun slice member inSet => ?_)
  · rw [← SliceCount.card_whole_places_set, ← SliceCount.card_whole_places_set]
    exact each _ (.whole none) _ _ (fun _ => SliceCount.mem_whole_places_set)
      (fun _ => SliceCount.mem_whole_places_set)
  · rw [← SliceCount.card_places_at, ← SliceCount.card_places_at]
    exact each _ (.slice member inSet) _ _ (fun _ => SliceCount.mem_places_at_iff)
      (fun _ => SliceCount.mem_places_at_iff)

theorem version_sets (snapshot : Int) :
    versionSets after.tables snapshot = versionSets before.tables snapshot := by
  rw [versionSets, versionSets, added.stage_sets]

section Places

variable {snapshot : Int} {exclude : Option Int}

variable {set : StageSetRow}

theorem still_credited {place : Int}
    (credited : (versionCount snapshot exclude set).placeCredited before.tables place = true)
    (undisturbed : ∀ lower ∈ versionSets before.tables snapshot, lower.id < set.id →
      ¬ BringsTo volume writes exclude holdsSlices lower.id place) :
    (versionCount snapshot exclude set).placeCredited after.tables place = true := by
  refine place_credited_iff.mpr fun lower member less held => ?_
  rw [added.version_sets] at member
  rcases (added.held_at_iff fun _ _ => rfl).mp held with old | new
  · exact place_credited_iff.mp credited lower member less old
  · exact undisturbed lower member less new

theorem still_counted {holds : Tables → WriteRow → Bool}
    (asked : Asked before.tables set.id holds) {here there : Finset Int}
    (old : Tallies before.tables (versionCount snapshot exclude set) (holds before.tables) here)
    (new : Tallies after.tables (versionCount snapshot exclude set) (holds after.tables) there)
    {place : Int} (member : place ∈ here)
    (undisturbed : ∀ lower ∈ versionSets before.tables snapshot, lower.id < set.id →
      ¬ BringsTo volume writes exclude holdsSlices lower.id place) : place ∈ there := by
  obtain ⟨credited, held⟩ := (old place).mp member
  exact (new place).mpr ⟨added.still_credited credited undisturbed,
    (added.held_at_iff (added.asked_kept asked)).mpr (.inl held)⟩

theorem least_places_kept (undisturbed : ∀ place,
      (versionCount snapshot exclude set).placeCredited before.tables place = true →
      (versionCount snapshot exclude set).HeldAt before.tables holdsSlices place →
      ∀ lower ∈ versionSets before.tables snapshot, lower.id < set.id →
        ¬ BringsTo volume writes exclude holdsSlices lower.id place) :
    (versionCount snapshot exclude set).leastPlaces before.tables ≤
      (versionCount snapshot exclude set).leastPlaces after.tables := by
  refine @least_places_le _ _ _ _ _ added _ 0 0 fun holds asked here there old new => ?_
  refine Finset.card_le_card fun place member => ?_
  obtain ⟨credited, held⟩ := (old place).mp member
  exact added.still_counted asked old new member
    (undisturbed place credited (held.imp fun _ => asked.holds_slices))

theorem least_places_lost (set : StageSetRow) :
    (versionCount snapshot exclude set).leastPlaces before.tables ≤
      (versionCount snapshot exclude set).leastPlaces after.tables + 1 := by
  refine @least_places_le _ _ _ _ _ added _ 1 0 fun holds asked here there old new => ?_
  cases shelf : volume.locationId with
  | none =>
    refine (Finset.card_le_card fun place member => ?_).trans (Nat.le_succ _)
    refine added.still_counted asked old new member fun lower _ _ brings => ?_
    cases shelf.symm.trans brings.2.1
  | some location =>
    refine (Finset.card_le_card fun place member => ?_).trans (Finset.card_insert_le location there)
    by_cases same : place = location
    · exact Finset.mem_insert.mpr (.inl same)
    · refine Finset.mem_insert_of_mem (added.still_counted asked old new member ?_)
      intro lower _ _ brings
      exact same (Option.some.inj (brings.2.1.symm.trans shelf))

/-- The lowest set the tape brings to a place, all of it, below the set that had the credit there,
gains the place. -/
theorem least_places_won {taken lost : StageSetRow} {place : Int} {write : WriteRow}
    (version : taken ∈ versionSets before.tables snapshot) (less : taken.id < lost.id)
    (credited : (versionCount snapshot exclude lost).placeCredited before.tables place = true)
    (counted : exclude ≠ some volume.id) (shelved : volume.locationId = some place)
    (listed : write ∈ writes) (inSet : write.stageSetId = taken.id)
    (whole : HoldsWhole after.tables write)
    (lowest : ∀ set ∈ versionSets before.tables snapshot, set.id < taken.id →
      ¬ BringsTo volume writes exclude holdsSlices set.id place) :
    (versionCount snapshot exclude taken).leastPlaces before.tables + 1 ≤
      (versionCount snapshot exclude taken).leastPlaces after.tables := by
  have free : ∀ set ∈ versionSets before.tables snapshot, set.id ≤ taken.id →
      ¬ (versionCount snapshot exclude set).HeldAt before.tables holdsSlices place :=
    fun set member below => place_credited_iff.mp credited set member (by omega)
  have mine : (versionCount snapshot exclude taken).placeCredited before.tables place = true :=
    place_credited_iff.mpr fun set member below => free set member below.le
  refine @least_places_le _ _ _ _ _ added _ 0 1 fun holds asked here there old new => ?_
  have absent : place ∉ here := fun member =>
    free taken version le_rfl (((old place).mp member).2.imp fun _ => asked.holds_slices)
  have asked' : Asked after.tables write.stageSetId holds := by
    rw [inSet]
    cases asked with
    | whole none => exact .whole (added.stage_slices ▸ none)
    | slice member same => exact .slice (added.stage_slices ▸ member) same
  have present : place ∈ there := (new place).mpr ⟨added.still_credited mine lowest,
    (added.held_at_iff (added.asked_kept asked)).mpr
      (.inr ⟨counted, shelved, write, listed, inSet, whole.asked asked'⟩)⟩
  rw [← Finset.card_insert_of_notMem absent]
  refine Finset.card_le_card fun other member => ?_
  rcases Finset.mem_insert.mp member with rfl | member
  · exact present
  · refine added.still_counted asked old new member fun set inVersion below brings => ?_
    rw [Option.some.inj (brings.2.1.symm.trans shelved)] at brings
    exact lowest set inVersion below brings

/-- The version's places, unless a lower set takes one's credit and has not every slice there. -/
theorem locations_kept :
    locationCountExpr before.tables ⟨.snapshot snapshot, exclude⟩ ≤
        locationCountExpr after.tables ⟨.snapshot snapshot, exclude⟩ + 1 ∧
      ((∀ taken lost place, ¬ TakesCredit before.tables after.tables volume writes snapshot exclude
          taken lost place) →
        locationCountExpr before.tables ⟨.snapshot snapshot, exclude⟩ ≤
          locationCountExpr after.tables ⟨.snapshot snapshot, exclude⟩) := by
  have nodup : (versionSets before.tables snapshot).Nodup :=
    before.schema.stage_set_keys.of_map.filter _
  have afterwards : locationCountExpr after.tables ⟨.snapshot snapshot, exclude⟩ =
      ((versionSets before.tables snapshot).map fun set =>
        (versionCount snapshot exclude set).leastPlaces after.tables).sum := by
    rw [← added.version_sets snapshot]
    rfl
  have first : locationCountExpr before.tables ⟨.snapshot snapshot, exclude⟩ =
      ((versionSets before.tables snapshot).map fun set =>
        (versionCount snapshot exclude set).leastPlaces before.tables).sum := rfl
  rw [first, afterwards]
  by_cases moved : ∃ place, ∃ lost ∈ versionSets before.tables snapshot,
      (versionCount snapshot exclude lost).placeCredited before.tables place = true ∧
      (versionCount snapshot exclude lost).HeldAt before.tables holdsSlices place ∧
      ∃ lower ∈ versionSets before.tables snapshot, lower.id < lost.id ∧
        BringsTo volume writes exclude holdsSlices lower.id place
  case neg =>
    have every : ∀ set ∈ versionSets before.tables snapshot,
        (versionCount snapshot exclude set).leastPlaces before.tables ≤
          (versionCount snapshot exclude set).leastPlaces after.tables :=
      fun set member => added.least_places_kept fun place credited held lower inVersion less brings =>
        moved ⟨place, set, member, credited, held, lower, inVersion, less, brings⟩
    have total := List.sum_le_sum every
    exact ⟨total.trans (Nat.le_succ _), fun _ => total⟩
  case pos =>
    obtain ⟨place, lost, lostVersion, credited, held, lower, lowerVersion, lowerLess, brought⟩ :=
      moved
    -- only the set that had the credit of the shelf can lose a place
    have others : ∀ set ∈ versionSets before.tables snapshot, set ≠ lost →
        (versionCount snapshot exclude set).leastPlaces before.tables ≤
          (versionCount snapshot exclude set).leastPlaces after.tables := by
      intro set member differ
      refine added.least_places_kept fun other credited' held' below _ _ brings => differ ?_
      obtain rfl : other = place := Option.some.inj (brings.2.1.symm.trans brought.2.1)
      exact place_credited_unique member lostVersion credited' credited held' held
    have each : ∀ set ∈ versionSets before.tables snapshot,
        (versionCount snapshot exclude set).leastPlaces before.tables ≤
          (versionCount snapshot exclude set).leastPlaces after.tables +
            if set = lost then 1 else 0 := by
      intro set member
      split
      case isTrue => exact added.least_places_lost set
      case isFalse differ => exact others set member differ
    refine ⟨Library.Credit.sum_le_of_lost nodup each, fun untaken => ?_⟩
    -- the lowest set that the tape brings there
    classical
    obtain ⟨taken, inBrought, lowest⟩ := Finset.exists_min_image
      ((versionSets before.tables snapshot).toFinset.filter fun set =>
        BringsTo volume writes exclude holdsSlices set.id place) StageSetRow.id
      ⟨lower, by simp [lowerVersion, brought]⟩
    obtain ⟨takenVersion, counted, shelved, write, listed, inSet, _⟩ :
        taken ∈ versionSets before.tables snapshot ∧
          BringsTo volume writes exclude holdsSlices taken.id place := by simpa using inBrought
    have minimal : ∀ set ∈ versionSets before.tables snapshot,
        BringsTo volume writes exclude holdsSlices set.id place → taken.id ≤ set.id :=
      fun set member brings => lowest set (by simp [member, brings])
    have less : taken.id < lost.id := (minimal lower lowerVersion brought).trans_lt lowerLess
    have whole : HoldsWhole after.tables write := by
      by_contra part
      refine untaken taken lost place ⟨counted, shelved, takenVersion, lostVersion, less, held,
        fun set member held' => ?_, ⟨write, listed, inSet, part⟩, fun other known set member same => ?_⟩
      · by_contra below
        exact place_credited_iff.mp credited set member (by omega) held'
      · exact minimal set member
          ⟨counted, shelved, other, known, same.symm, added.finished other known⟩
    have won := added.least_places_won takenVersion less credited counted shelved listed inSet whole
      fun set member below brings => absurd (minimal set member brings) (by omega)
    refine Library.Credit.sum_le_of_moved nodup lost takenVersion fun set member => ?_
    by_cases same : set = taken
    · subst same
      rw [if_pos rfl]
      exact won.trans (Nat.le_add_right _ _)
    · rw [if_neg same]
      exact each set member

end Places

theorem copies_kept (snapshot : Int) (exclude : Option Int) (counted : Counted) :
    ((versionSets before.tables snapshot).map fun set =>
        (versionCount snapshot exclude set).leastCopies before.tables counted).sum ≤
      ((versionSets after.tables snapshot).map fun set =>
        (versionCount snapshot exclude set).leastCopies after.tables counted).sum := by
  rw [added.version_sets]
  exact List.sum_le_sum fun set _ => added.least_copies_le _ ⟨snapshot, rfl⟩ counted

end NewTape

/-- Another tape lowers neither a version's copies nor its copies at any place. Its distinct places
fall by one at most, and only when the tape takes the credit of its shelf for a stage set it holds
in part. -/
theorem new_tape_keeps_counts (before after : Catalog) (volume : VolumeRow) (writes : List WriteRow)
    (positions : List PositionRow)
    (added : NewTape before.tables after.tables volume writes positions) (snapshot : Int)
    (exclude : Option Int) :
    copyCountExpr before.tables ⟨.snapshot snapshot, exclude⟩ ≤
        copyCountExpr after.tables ⟨.snapshot snapshot, exclude⟩ ∧
      (∀ place, copiesAtExpr before.tables ⟨.snapshot snapshot, exclude⟩ place ≤
        copiesAtExpr after.tables ⟨.snapshot snapshot, exclude⟩ place) ∧
      locationCountExpr before.tables ⟨.snapshot snapshot, exclude⟩ ≤
        locationCountExpr after.tables ⟨.snapshot snapshot, exclude⟩ + 1 ∧
      ((∀ taken lost place, ¬ TakesCredit before.tables after.tables volume writes snapshot exclude
          taken lost place) →
        locationCountExpr before.tables ⟨.snapshot snapshot, exclude⟩ ≤
          locationCountExpr after.tables ⟨.snapshot snapshot, exclude⟩) :=
  ⟨added.copies_kept snapshot exclude .copies,
    fun place => added.copies_kept snapshot exclude (.copiesAt place), added.locations_kept⟩

/-- A version staged twice: its second staging is whole on tape 1, at place 10. -/
def stagedTwice : Catalog where
  tables := {
    units := [⟨1, "unit-1", "photos", .active⟩]
    snapshots := [⟨1, 1, 1, .current⟩]
    stageSets := [⟨1, 1, .cleaned⟩, ⟨2, 1, .cleaned⟩]
    stageSlices := [⟨1, 1, 1, none, none⟩, ⟨2, 1, 2, none, none⟩, ⟨3, 2, 1, none, none⟩]
    volumes := [⟨1, "L1", .sealed, .ok, some 10, none, none⟩]
    deposits := []
    writes := [⟨1, 2, 1, 1, .completed, true, false⟩]
    positions := [⟨1, 3, 4, .written⟩] }
  schema := by constructor <;> decide

/-- Tape 2 comes to the same place, with `write` of the first staging and its positions. -/
def withTapeTwo (write : WriteRow) (positions : List PositionRow) : Tables :=
  { stagedTwice.tables with
    volumes := stagedTwice.tables.volumes ++ [⟨2, "L2", .sealed, .ok, some 10, none, none⟩]
    writes := stagedTwice.tables.writes ++ [write]
    positions := stagedTwice.tables.positions ++ positions }

def wholeTapeTwo : Catalog where
  tables := withTapeTwo ⟨2, 1, 1, 2, .completed, true, false⟩ [⟨2, 1, 4, .written⟩, ⟨2, 2, 5, .written⟩]
  schema := by constructor <;> decide

def rangeTapeTwo : Catalog where
  tables := withTapeTwo ⟨2, 1, 1, 2, .range, true, true⟩ [⟨2, 1, 4, .written⟩]
  schema := by constructor <;> decide

theorem new_tape_keeps_counts_whole :
    NewTape stagedTwice.tables wholeTapeTwo.tables ⟨2, "L2", .sealed, .ok, some 10, none, none⟩
        [⟨2, 1, 1, 2, .completed, true, false⟩] [⟨2, 1, 4, .written⟩, ⟨2, 2, 5, .written⟩] ∧
      copyCountExpr stagedTwice.tables ⟨.snapshot 1, none⟩ ≤
        copyCountExpr wholeTapeTwo.tables ⟨.snapshot 1, none⟩ ∧
      locationCountExpr stagedTwice.tables ⟨.snapshot 1, none⟩ ≤
        locationCountExpr wholeTapeTwo.tables ⟨.snapshot 1, none⟩ := by
  have added : NewTape stagedTwice.tables wholeTapeTwo.tables
      ⟨2, "L2", .sealed, .ok, some 10, none, none⟩ [⟨2, 1, 1, 2, .completed, true, false⟩]
      [⟨2, 1, 4, .written⟩, ⟨2, 2, 5, .written⟩] := ⟨rfl, by decide, by decide, by decide, by decide⟩
  have kept := new_tape_keeps_counts stagedTwice wholeTapeTwo _ _ _ added 1 none
  refine ⟨added, kept.1, kept.2.2.2 fun taken lost place takes => ?_⟩
  obtain ⟨write, listed, _, part⟩ := takes.part
  obtain rfl := List.mem_singleton.mp listed
  exact part (.inl rfl)

/-- The range on tape 2 takes place 10 from the second staging, and has not the second slice: the
version had one place and has none. -/
theorem new_tape_lowers_locations :
    NewTape stagedTwice.tables rangeTapeTwo.tables ⟨2, "L2", .sealed, .ok, some 10, none, none⟩
        [⟨2, 1, 1, 2, .range, true, true⟩] [⟨2, 1, 4, .written⟩] ∧
      locationCountExpr stagedTwice.tables ⟨.snapshot 1, none⟩ = 1 ∧
      locationCountExpr rangeTapeTwo.tables ⟨.snapshot 1, none⟩ = 0 :=
  ⟨⟨rfl, by decide, by decide, by decide, by decide⟩, by decide, by decide⟩

end Tapectl.Policy
