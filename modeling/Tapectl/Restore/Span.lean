import Tapectl.Restore.Supply

/-!
# A version read across cartridges

`volume/restore/span.rs`: the plan of a restore that starts on one cartridge and reads the other
slices from the fewest others, with `holders_of_set` of `volume/slice_holders.rs` over the rows of
its query. The `BTreeMap`s are lookups in the list they are filled from. The texts of the refusals
ask the catalog again and are left out; a refusal carries the slices it names.
-/

namespace Tapectl.Restore

variable {Digest : Type}

inductive Standing where
  | inService
  | quarantined
  deriving DecidableEq, Repr

/-- A row of the query of `holders_of_set`; `position` as its text parses as a `u32`. -/
structure HolderRow where
  sliceNumber : Int
  volumeId : Int
  label : String
  position : Option Nat
  inService : Bool
  deriving DecidableEq, Repr

structure SliceHolder where
  sliceNumber : Int
  holder : Holder
  standing : Standing
  deriving DecidableEq, Repr

/-- One volume holds a slice once, and a position that is no tape file is no holder. -/
def holdersOfSet (rows : List HolderRow) : List SliceHolder :=
  rows.foldl (fun held row =>
    match row.position with
    | none => held
    | some position =>
      if held.any fun other => decide (other.sliceNumber = row.sliceNumber ∧
          other.holder.volumeId = row.volumeId) then held
      else held ++ [⟨row.sliceNumber, ⟨row.volumeId, row.label, position⟩,
        if row.inService then .inService else .quarantined⟩]) []

structure Run where
  volumeId : Int
  first : Int
  last : Int
  deriving DecidableEq, Repr

/-- `runs`: the cartridges the positions are read from, in order, the last run open. -/
def runsFrom : Option Run → List (WritePositionInfo Digest) → List Run
  | none, [] => []
  | some run, [] => [run]
  | none, wp :: rest => runsFrom (some ⟨wp.volumeId, wp.sliceNumber, wp.sliceNumber⟩) rest
  | some run, wp :: rest =>
    if run.volumeId = wp.volumeId then runsFrom (some { run with last := wp.sliceNumber }) rest
    else run :: runsFrom (some ⟨wp.volumeId, wp.sliceNumber, wp.sliceNumber⟩) rest

def runs (positions : List (WritePositionInfo Digest)) : List Run := runsFrom none positions

/-- One slice of the stage set, as `stage create` recorded it. -/
structure SliceRow (Digest : Type) where
  number : Int
  sha256Plain : Option Digest
  sha256Encrypted : Digest
  encryptedBytes : Int
  deriving DecidableEq, Repr

inductive PlanRefusal where
  | noData
  | missing (numbers : List Int)
  | startElsewhere (sliceOne : List SliceHolder)
  deriving DecidableEq, Repr

def topSlice (numbers : List Int) : Int := numbers.foldr max 0

/-- The loop of `reach`: the last slice of the unbroken run after `last`. -/
def reachFrom (has : Int → Bool) : Nat → Int → Int
  | 0, last => last
  | fuel + 1, last => if has (last + 1) then reachFrom has fuel (last + 1) else last

section Plan

variable (held : List SliceHolder)

def bySlice (number : Int) : List SliceHolder := held.filter fun other => other.sliceNumber = number

/-- What a volume holds: `by_volume[&volume_id]`. -/
def byVolume (volumeId : Int) : List SliceHolder :=
  held.filter fun other => other.holder.volumeId = volumeId

def onVolume (volumeId number : Int) : Option SliceHolder :=
  ((byVolume held volumeId).filter fun other => other.sliceNumber = number).getLast?

/-- How far a volume reads on from `next`. -/
def reach (next volumeId : Int) : Int :=
  reachFrom (fun number => (onVolume held volumeId number).isSome)
    (topSlice (held.map SliceHolder.sliceNumber) - next).toNat next

def wholeVolume (slices : Nat) (volumeId : Int) : Bool :=
  ((byVolume held volumeId).map SliceHolder.sliceNumber).dedup.length == slices

/-- The key of `min_by_key`: a quarantined holder last, a volume that holds the version whole first,
then the one that reads furthest, then the lower id. -/
structure PickKey where
  away : Bool
  notWhole : Bool
  reach : Int
  volumeId : Int
  deriving DecidableEq, Repr

def PickKey.less (one other : PickKey) : Bool :=
  (!one.away && other.away) || (one.away == other.away &&
    ((!one.notWhole && other.notWhole) || (one.notWhole == other.notWhole &&
      (decide (other.reach < one.reach) || (one.reach == other.reach &&
        decide (one.volumeId < other.volumeId))))))

def pickKey (slices : Nat) (next : Int) (candidate : SliceHolder) : PickKey :=
  ⟨decide (candidate.standing ≠ .inService), !wholeVolume held slices candidate.holder.volumeId,
    reach held next candidate.holder.volumeId, candidate.holder.volumeId⟩

def pick (slices : Nat) (next : Int) : Option SliceHolder :=
  (bySlice held next).foldl (fun best candidate =>
    match best with
    | none => some candidate
    | some chosen =>
      if (pickKey held slices next candidate).less (pickKey held slices next chosen) then
        some candidate else some chosen) none

variable (stageSetId : Int) (slices : List (SliceRow Digest))

/-- The positions of `next..=last` on one volume. -/
def readOn (volumeId : Int) : Nat → Int → Except PlanRefusal (List (WritePositionInfo Digest))
  | 0, _ => .ok []
  | count + 1, number =>
    match slices.find? (fun row => row.number = number), onVolume held volumeId number with
    | some row, some other => do
      let later ← readOn volumeId count (number + 1)
      .ok ({ stageSetId, volumeId := other.holder.volumeId, sliceNumber := number
             position := some other.holder.position, sha256Plain := row.sha256Plain
             sha256Encrypted := row.sha256Encrypted, encryptedBytes := row.encryptedBytes } :: later)
    | _, _ => .error (.missing [number])

/-- The loop over the other cartridges, from the slice `next`. -/
def planRest : Nat → Int → Except PlanRefusal (List (WritePositionInfo Digest))
  | 0, next => if next ≤ slices.length then .error (.missing [next]) else .ok []
  | fuel + 1, next =>
    if next ≤ slices.length then
      match pick held slices.length next with
      | none => .error (.missing [next])
      | some picked => do
        let last := reach held next picked.holder.volumeId
        let read ← readOn held stageSetId slices picked.holder.volumeId (last + 1 - next).toNat next
        let later ← planRest fuel (last + 1)
        .ok (read ++ later)
    else .ok []

/-- The start cartridge, for as long as it holds the next slice; the slice after it. -/
def startRun (onStart : Int → Option (WritePositionInfo Digest)) :
    Nat → Int → List (WritePositionInfo Digest) × Int
  | 0, next => ([], next)
  | fuel + 1, next =>
    match onStart next with
    | none => ([], next)
    | some wp =>
      let later := startRun onStart fuel (next + 1)
      (wp :: later.1, later.2)

end Plan

/-- Plan the restore of a stage set that starts on the volume holding `start`. -/
def planAcross (stageSetId : Int) (slices : List (SliceRow Digest)) (rows : List HolderRow)
    (start : List (WritePositionInfo Digest)) :
    Except PlanRefusal (List (WritePositionInfo Digest)) :=
  if start.isEmpty then .error .noData
  else
    let onStart := fun number => (start.filter fun wp => wp.sliceNumber = number).getLast?
    let held := holdersOfSet rows
    let missing := (slices.map SliceRow.number).filter fun number =>
      (onStart number).isNone && (bySlice held number).isEmpty
    if !missing.isEmpty then .error (.missing missing)
    else if (onStart 1).isNone then .error (.startElsewhere (bySlice held 1))
    else do
      let begun := startRun onStart
        (topSlice (start.map WritePositionInfo.sliceNumber)).toNat.succ 1
      let later ← planRest held stageSetId slices slices.length begun.2
      .ok (begun.1 ++ later)

end Tapectl.Restore
