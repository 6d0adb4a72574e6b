import Tapectl.Db.Catalog
import Tapectl.Library.Credit

/-!
# The copy counts

`policy/coverage.rs`: the SQL of the counts, read on the tables. A join is the list of the matching
rows, `EXISTS` is a search, `COUNT`, `SUM`, `COUNT(DISTINCT ..)` and `ORDER BY .. LIMIT 1` are the
length, the sum, the number of distinct values and the minimum. A NULL `location_id` matches no
place.
-/

namespace Tapectl.Policy

open Tapectl.Db

def eligible (volume : VolumeRow) : Bool :=
  volume.status = .sealed && volume.observedCondition = .ok

def holdsSlices (write : WriteRow) : Bool := write.status = .completed || write.status = .range

variable (tables : Tables)

def rangeHolds (write : WriteRow) (slice : Int) : Bool :=
  tables.positions.any fun position =>
    position.writeId = write.id && position.stageSliceId = slice && position.status = .written

/-- What the per-slice derivation counts at each slice; the distinct places are counted apart. -/
inductive Counted where
  | copies
  | deposits
  | copiesAt (place : Int)
  deriving DecidableEq, Repr

/-- The stage sets among which a tape, a deposit or a place is credited. -/
inductive Partition where
  | version (snapshot : Int)
  | unit (id : Int) (currentOnly : Bool)
  deriving DecidableEq, Repr

def Partition.contains : Partition → StageSetRow → Bool
  | .version snapshot, set => set.snapshotId = snapshot
  | .unit id currentOnly, set => tables.snapshots.any fun row =>
    row.id = set.snapshotId && row.unitId = id && (!currentOnly || row.status = .current)

structure SliceCount where
  set : Int
  partition : Partition
  exclude : Option Int
  deriving DecidableEq, Repr

namespace SliceCount

variable (tables : Tables) (count : SliceCount)

/-- The set's writes of `status` on eligible volumes, not the excluded one. -/
def writes (status : WriteStatus) : List (WriteRow × VolumeRow) :=
  (tables.writes.flatMap fun write =>
    (tables.volumes.filter fun volume => volume.id = write.volumeId).map fun volume =>
      (write, volume)).filter fun row =>
        row.1.stageSetId = count.set && row.1.status = status && eligible row.2 &&
          !(count.exclude = some row.1.volumeId)

/-- No lower stage set of the partition is held on the same volume. -/
def tapeCredited (write : WriteRow) : Bool :=
  !tables.writes.any fun lower =>
    tables.stageSets.any fun set =>
      set.id = lower.stageSetId && lower.volumeId = write.volumeId &&
        lower.stageSetId < write.stageSetId && holdsSlices lower &&
        count.partition.contains tables set

def placeCredited (place : Int) : Bool :=
  !tables.stageSets.any fun set =>
    tables.writes.any fun lower =>
      tables.volumes.any fun volume =>
        lower.stageSetId = set.id && volume.id = lower.volumeId &&
          count.partition.contains tables set && set.id < count.set && holdsSlices lower &&
          eligible volume && !(count.exclude = some lower.volumeId) &&
          (volume.locationId = some place || tables.deposits.any fun deposit =>
            deposit.volumeId = volume.id && deposit.locationId = place)

def weight (counted : Counted) (row : WriteRow × VolumeRow) : Nat :=
  match counted with
  | .copies => 1 + tables.deposits.countP fun deposit => deposit.volumeId = row.1.volumeId
  | .deposits => tables.deposits.countP fun deposit => deposit.volumeId = row.1.volumeId
  | .copiesAt place =>
    (if row.2.locationId = some place then 1 else 0) +
      tables.deposits.countP fun deposit =>
        deposit.volumeId = row.1.volumeId && deposit.locationId = place

def whole (counted : Counted) : Nat :=
  (((count.writes tables .completed).filter fun row => count.tapeCredited tables row.1).map
    (weight tables counted)).sum

def rangeAt (counted : Counted) (slice : Int) : Nat :=
  (((count.writes tables .range).filter fun row =>
    count.tapeCredited tables row.1 && rangeHolds tables row.1 slice).map
      (weight tables counted)).sum

/-- The places of some holders: each one's shelf, and its deposits' locations. -/
def placesOf (rows : List (WriteRow × VolumeRow)) : List Int :=
  rows.filterMap (fun row => row.2.locationId) ++
    rows.flatMap fun row =>
      (tables.deposits.filter fun deposit => deposit.volumeId = row.1.volumeId).map
        DepositRow.locationId

def wholePlaces : Nat :=
  ((placesOf tables (count.writes tables .completed)).filter fun place =>
    count.placeCredited tables place).dedup.length

def rangePlacesAt (slice : Int) : Nat :=
  ((placesOf tables ((count.writes tables .range).filter fun row =>
    rangeHolds tables row.1 slice)).filter fun place =>
      count.placeCredited tables place &&
        !(placesOf tables (count.writes tables .completed)).contains place).dedup.length

/-- The count at the set's least-covered slice: its slices are walked only when it has a range. -/
def leastCovered (whole : Nat) (rangeAt : Int → Nat) : Nat :=
  whole +
    if (count.writes tables .range).isEmpty then 0
    else (((tables.stageSlices.filter fun slice => slice.stageSetId = count.set).map fun slice =>
      rangeAt slice.id).min?).getD 0

def leastCopies (counted : Counted) : Nat :=
  count.leastCovered tables (count.whole tables counted) (count.rangeAt tables counted)

def leastPlaces : Nat :=
  count.leastCovered tables (count.wholePlaces tables) (count.rangePlacesAt tables)

end SliceCount

inductive CoverageScope where
  | snapshot (id : Int)
  | unit (id : Int) (currentOnly : Bool)
  deriving DecidableEq, Repr

structure CoverageQuery where
  scope : CoverageScope
  excludeVolume : Option Int
  deriving DecidableEq, Repr

def CoverageScope.partition : CoverageScope → Partition
  | .snapshot id => .version id
  | .unit id currentOnly => .unit id currentOnly

def CoverageScope.stageSets : CoverageScope → List StageSetRow
  | .snapshot id => tables.stageSets.filter fun set => set.snapshotId = id
  | .unit id currentOnly =>
    (tables.snapshots.filter fun snapshot =>
      snapshot.unitId = id && (!currentOnly || snapshot.status = .current)).flatMap fun snapshot =>
        tables.stageSets.filter fun set => set.snapshotId = snapshot.id

/-- The sum of `least` over the scope's stage sets. -/
def scopeSum (query : CoverageQuery) (least : SliceCount → Nat) : Nat :=
  ((query.scope.stageSets tables).map fun set =>
    least ⟨set.id, query.scope.partition, query.excludeVolume⟩).sum

/-- The least, over a unit's current versions, of what one version counts; 0 with none. -/
def leastCurrent (unit : Int) (count : Int → Nat) : Nat :=
  (((tables.snapshots.filter fun snapshot =>
    snapshot.unitId = unit && snapshot.status = .current).map fun snapshot =>
      count snapshot.id).min?).getD 0

/-- A count of one of the three kinds for the query's scope: for a unit's current versions the least
of theirs, otherwise the sum over the scope. -/
def countExpr (query : CoverageQuery) (least : SliceCount → Nat) : Nat :=
  match query.scope with
  | .unit id true => leastCurrent tables id fun snapshot =>
    scopeSum tables ⟨.snapshot snapshot, query.excludeVolume⟩ least
  | _ => scopeSum tables query least

def copyCountExpr (query : CoverageQuery) : Nat :=
  countExpr tables query fun count => count.leastCopies tables .copies

def locationCountExpr (query : CoverageQuery) : Nat :=
  countExpr tables query fun count => count.leastPlaces tables

def copiesAtExpr (query : CoverageQuery) (place : Int) : Nat :=
  countExpr tables query fun count => count.leastCopies tables (.copiesAt place)

structure SliceCopies where
  stageSliceId : Int
  sliceNumber : Int
  copies : Nat
  locations : Nat
  deriving DecidableEq, Repr

/-- Every slice of the stage set in slice order, with its copies and places. -/
def sliceCopies (stageSetId : Int) : List SliceCopies :=
  let rows := (tables.stageSets.filter fun set => set.id = stageSetId).flatMap fun set =>
    (tables.stageSlices.filter fun slice => slice.stageSetId = set.id).map fun slice =>
      let count : SliceCount := ⟨set.id, .version set.snapshotId, none⟩
      (⟨slice.id, slice.sliceNumber,
        count.whole tables .copies + count.rangeAt tables .copies slice.id,
        count.wholePlaces tables + count.rangePlacesAt tables slice.id⟩ : SliceCopies)
  rows.insertionSort fun one other => one.sliceNumber ≤ other.sliceNumber

/-- Every slice of the stage set is on a sealed volume, `alsoSealed` counted; false of a set without
slices. -/
def everySliceOnSealedVolume (set : Int) (alsoSealed : Option Int) : Bool :=
  (tables.stageSlices.any fun slice => slice.stageSetId = set) &&
    !tables.stageSlices.any fun slice =>
      slice.stageSetId = set && !tables.writes.any fun write => tables.volumes.any fun volume =>
        volume.id = write.volumeId && write.stageSetId = set &&
          (volume.status = .sealed || alsoSealed = some volume.id) &&
          (write.status = .completed ||
            (write.status = .range && rangeHolds tables write slice.id))

end Tapectl.Policy
