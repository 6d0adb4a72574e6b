import Tapectl.Volume.SealTransaction
import Tapectl.Store.Seam

/-!
# Adopting a write the catalog lost

`adopt_lost.rs`, with `locate_and_judge_seal` of `rebuild.rs`: what `volume resume` reads off a tape
whose rows a rebuild attached to a catalog older than the write, and what it records once the tape is
shown to hold what the catalog staged.

The catalog's columns that nothing else here reads are functions of the row's id. A timestamp is the
second it names. The write's figures, the events and the audit rows are left out, and so is what
another process may do to the catalog between the reads and the transaction.
-/

namespace Tapectl.AdoptLost

open StoredText Tapectl.Db Tapectl.Session Tapectl.Policy Tapectl.Seam Tapectl.Volume
open Tapectl.Volume.Format
open Toml (Crate)

inductive Origin where
  | staged
  | rebuilt
  deriving DecidableEq, Repr

def Origin.text : Origin → String
  | .staged => "staged"
  | .rebuilt => "rebuilt"

/-- `volumes.uuid`, `stage_slices.sha256_encrypted` and `stage_sets.origin`; of the volume, when a
rebuild was recorded and when the full verifies that passed started. -/
structure Columns where
  uuid : Int → Option String
  sha256Encrypted : Int → String
  origin : Int → Origin
  rebuiltAt : Int → List Nat
  passedFull : Int → List Nat

inductive LostAdoption where
  | adopted (slices : Nat)
  | identityMismatch (expectedUuid found : String)
  | unreadableFile0 (why : String)
  | notSealed (why : String)
  | noRecordedRebuild
  | noCleanFullVerifyAfterRebuild (rebuiltAt : Nat)
  | notWhatThisCatalogStaged (why : String)
  deriving DecidableEq, Repr

def isLostWrite (tables : Tables) (volumeId : Int) : Except String Bool :=
  match tables.volumes.find? fun volume => volume.id = volumeId with
  | none => .error "Query returned no rows"
  | some volume => .ok
    (volume.status = .initialized && volume.sealedAt.isNone && volume.observedCondition = .ok &&
      (tables.writes.any fun write => write.volumeId = volumeId) &&
      !tables.writes.any fun write => write.volumeId = volumeId &&
        !(write.status = .completed || write.status = .range || write.status = .cut))

def recordedEvidence (columns : Columns) (volumeId : Int) : Option LostAdoption :=
  match (columns.rebuiltAt volumeId).max? with
  | none => some .noRecordedRebuild
  | some rebuiltAt =>
    if (columns.passedFull volumeId).any fun startedAt => rebuiltAt < startedAt then none
    else some (.noCleanFullVerifyAfterRebuild rebuiltAt)

section Tape

variable (crate : Crate) (sha256Hex : Bytes → String) (store : Store)

def oversized (position : Nat) (what : String) : String :=
  s!"tape file {position} is larger than 16 MiB, so it is not a tapectl {what}; " ++
    "stopped reading it there rather than hold it in memory"

def readSmallBytes (position : Nat) (what : String) (call : Nat) : Except String Bytes × Nat :=
  match readSmall store position call with
  | (.ok (.bytes bytes), next) => (.ok bytes, next)
  | (.ok .oversized, next) => (.error (oversized position what), next)
  | (.error message, next) => (.error message, next)

structure LocatedSeal where
  verdict : SealVerdict
  position : Option Nat
  endedAfter : Option Nat
  deriving DecidableEq, Repr

def LocatedSeal.unsealed (position : Option Nat) (why : String) : LocatedSeal :=
  ⟨.unsealed why, position, none⟩

def judgeAtPlanned (found : ParsedSeal) (position planned : Nat) : LocatedSeal :=
  match classifySealEnding found (planned + 1) with
  | .full => ⟨.sealed found, some position, none⟩
  | _ => .unsealed (some position)
      (s!"the seal marker at file {position} states file_count = {found.fileCount}, but the plan " ++
        s!"(File 0) has {planned + 1} files with the seal last: the tape's two ends disagree")

/-- A seal found before the planned position: the short seal, on a tape that says it may end early. -/
def judgeBeforePlanned (file0 : Text) (found : ParsedSeal) (position planned : Nat) : LocatedSeal :=
  let tapeRequiresShortSeal := match parseIdThunkClaims crate file0 with
    | .ok claims => claims.requires.contains shortSeal
    | .error _ => found.requiresShortSeal
  if tapeRequiresShortSeal = false then .unsealed (some position)
    (s!"the tape ends at file {position}, before the seal marker File 0 plans at file " ++
      s!"{planned}, and File 0 does not require \"{shortSeal}\": a tape that does not say it may " ++
      "end early has no seal there")
  else if found.requiresShortSeal = false ∨ found.fileCount ≠ position + 1 then
    let plain := if found.requiresShortSeal then "" else s!" and does not require \"{shortSeal}\""
    .unsealed (some position)
      (s!"the last file on the tape (file {position}) is a seal marker that does not seal a tape " ++
        s!"ending there (it states file_count = {found.fileCount}{plain}), so it is no short seal " ++
        "(volume-format-v2.md §1.2 rule 6)")
  else match classifySealEnding found (planned + 1) with
    | .short endedAfter =>
      if endedAfter < 2 ^ 32 ∧ endedAfter + 1 = position then
        ⟨.sealed found, some position, some endedAfter⟩
      else .unsealed (some position)
        (s!"the seal marker at file {position} states ended_after = {endedAfter}, which is not " ++
          "the file before it")
    | _ => .unsealed (some position)
        (s!"the seal marker at file {position} states file_count = {found.fileCount}, which the " ++
          s!"plan (File 0, {planned + 1} files) does not end short at")

def locateAndJudgeSeal (file0 : Text) (frontIndex : Bytes) (frontIndexPosition planned call : Nat) :
    LocatedSeal :=
  match (locateSeal store planned call).1 with
  | .oversized position => .unsealed (some position)
      (s!"file {position}, where the seal marker would be, is larger than any seal marker, so it " ++
        "is not one")
  | .absent => .unsealed none
      (s!"no seal marker reads at file {planned}, where File 0 says it is: the medium holds no " ++
        "file at all")
  | .unreadable position error => .unsealed (some position)
      s!"no seal marker reads at file {position}: {error}"
  | .file position bytes =>
    match judgeSeal crate sha256Hex (.ok bytes) frontIndex frontIndexPosition position with
    | .sealed found =>
      if planned ≤ position then judgeAtPlanned found position planned
      else judgeBeforePlanned crate file0 found position planned
    | verdict => ⟨verdict, some position, none⟩

structure SealedIndex where
  entries : List ParsedIndexEntry
  sealedAt : String
  frontIndexSha256 : String
  endedAfter : Option Nat
  deriving DecidableEq, Repr

def sealedFrontIndex (file0 : Text) (call : Nat) : Except String SealedIndex := do
  let pointers ← (parseIdThunkLayoutPointers crate file0).mapError fun error =>
    s!"File 0 records no layout pointers ({error})"
  if pointers.frontIndex < 0 then
    throw s!"File 0 names front index position {pointers.frontIndex}"
  if pointers.sealMarker < 0 then
    throw s!"File 0 names seal marker position {pointers.sealMarker}"
  let frontIndexAt := pointers.frontIndex.toNat
  let sealAt := pointers.sealMarker.toNat
  let (read, next) := readSmallBytes store frontIndexAt "front index" call
  let raw ← read.mapError fun error => s!"the front index (file {frontIndexAt}) did not read: {error}"
  let trueBytes := withoutNulPadding raw
  let entries ← (parseFrontIndex crate (fromUtf8Lossy trueBytes)).mapError fun error =>
    s!"the front index (file {frontIndexAt}) does not parse: {error}"
  let located := locateAndJudgeSeal crate sha256Hex store file0 trueBytes frontIndexAt sealAt next
  match located.verdict with
  | .sealed found =>
    return ⟨entries, found.sealedAt, found.frontIndexSha256, located.endedAfter⟩
  | .unsealed why => throw why
  | .refused why => throw why

end Tape

def onTape (endedAfter : Option Nat) (position : Int) : Bool :=
  endedAfter.all fun ended => decide (position ≤ ended)

def plannedSlices (entries : List ParsedIndexEntry) : List (Int × Option String) :=
  (entries.filter fun entry => entry.typeLabel == "data_slice").map fun entry =>
    (entry.position, entry.sha256Encrypted)

structure Attached where
  position : Int
  sha256 : String
  origin : Origin
  stageSetId : Int
  deriving DecidableEq, Repr

section Matching

variable (tables : Tables) (columns : Columns) (volumeId : Int)

def attachedTo (position : PositionRow) : Option Attached := do
  let _ ← tables.writes.find? fun write => write.id = position.writeId && write.volumeId = volumeId
  let slice ← tables.stageSlices.find? fun slice => slice.id = position.stageSliceId
  let set ← tables.stageSets.find? fun set => set.id = slice.stageSetId
  return ⟨position.position, columns.sha256Encrypted slice.id, columns.origin set.id, set.id⟩

def attached : List Attached := tables.positions.filterMap (attachedTo tables columns volumeId)

/-- The rows as a map by position, refused at the first position that comes again. -/
def byPosition : List Attached → List Attached → Except String (List Attached)
  | found, [] => .ok found
  | found, row :: rest =>
    if found.any fun other => other.position = row.position then
      .error s!"the catalog records two slices of this volume at file {row.position}"
    else byPosition (found ++ [row]) rest

def matchSlice (rows : List Attached) (slice : Int × Option String) : Except String Unit :=
  match slice.2 with
  | none => .error s!"the front index records no hash for the slice at file {slice.1}"
  | some tapeSha =>
    match rows.find? fun row => row.position = slice.1 with
    | none => .error (s!"the slice at file {slice.1} is attached to nothing this catalog staged " ++
        "(no slice of this volume is recorded at that position)")
    | some row =>
      if row.origin ≠ .staged then
        .error (s!"the slice at file {slice.1} belongs to stage set {row.stageSetId}, which the " ++
          s!"rebuild made from the tape itself (origin `{row.origin.text}`): this catalog never " ++
          "staged it")
      else if row.sha256 ≠ tapeSha then
        .error (s!"the slice at file {slice.1} hashes to {tapeSha} in the tape's front index, but " ++
          s!"this catalog staged {row.sha256}")
      else .ok ()

def matchSlices (rows : List Attached) : List (Int × Option String) → Except String Nat
  | [] => .ok 0
  | slice :: rest => do
    matchSlice rows slice
    let matched ← matchSlices rows rest
    return matched + 1

def unlisted (rows : List Attached) (planned : List (Int × Option String)) : Option Attached :=
  (rows.insertionSort fun one other => one.position ≤ other.position).find? fun row =>
    !planned.any fun slice => slice.1 = row.position

def countedThrough (entries : List ParsedIndexEntry) (endedAfter : Option Nat) : Nat :=
  match endedAfter with
  | some ended => ended
  | none =>
    match entries.find? fun entry => entry.typeLabel == "seal_marker" with
    | none => 2 ^ 32 - 1
    | some entry => if 0 ≤ entry.position then entry.position.toNat - 1 else 2 ^ 32 - 1

def plannedRun (writeId : Int) : List (Int × Int) :=
  ((tables.positions.filter fun position => position.writeId = writeId).filterMap fun position =>
    (tables.stageSlices.find? fun slice => slice.id = position.stageSliceId).map fun slice =>
      (slice.sliceNumber, position.position)).insertionSort fun one other => one.1 ≤ other.1

def brokenRun : List (Int × Int) → Option ((Int × Int) × (Int × Int))
  | first :: next :: rest =>
    if next.1 ≠ first.1 + 1 ∨ next.2 ≠ first.2 + 1 then some (first, next)
    else brokenRun (next :: rest)
  | _ => none

def Split.status : Split → WriteStatus
  | .completed => .completed
  | .range _ _ => .range
  | .cut => .cut

def Split.holds (staged : Nat) : Split → String
  | .completed => s!"every one of its {staged} slices"
  | .range first last =>
    if first = last then s!"slice {first} of its {staged}"
    else s!"slices {first}-{last} of its {staged}"
  | .cut => "none of its slices"

def spanMatches (write : WriteRow) (staged through : Nat) : Except String Unit :=
  match brokenRun (plannedRun tables write.id) with
  | some (one, other) =>
    .error (s!"stage set {write.stageSetId} has slice {one.1} at file {one.2} and slice " ++
      s!"{other.1} at file {other.2} on this volume: a volume holds one unbroken run of a stage " ++
      "set, in slice order at consecutive positions")
  | none =>
    let split := spanSplit tables write.id through
    if write.status ≠ Split.status split then
      .error (s!"stage set {write.stageSetId} is recorded `{writeStatusText write.status}`, but " ++
        s!"the tape holds {Split.holds staged split}: it is `{writeStatusText (Split.status split)}`")
    else .ok ()

/-- A row that does not span: the whole set on the tape and `completed`, or `cut`. -/
def wholeMatches (write : WriteRow) (staged : Nat) (endedAfter : Option Nat) : Except String Unit :=
  let here := (tables.positions.filter fun position => position.writeId = write.id).length
  let last := lastSlicePosition tables write.id
  let cut := last.any fun last => !onTape endedAfter last
  let status := writeStatusText write.status
  if cut = true ∧ write.status = .cut then .ok ()
  else if cut = false ∧ write.status = .completed then
    if staged ≠ here then
      .error (s!"stage set {write.stageSetId} staged {staged} slice(s), but {here} of them are on " ++
        "this tape")
    else .ok ()
  else if cut = true then
    .error (s!"stage set {write.stageSetId} is recorded `{status}`, but its slice at file " ++
      s!"{last.getD 0} lies after the end of the tape (it ended after file {endedAfter.getD 0}): " ++
      "it is cut")
  else
    .error (s!"stage set {write.stageSetId} is recorded `{status}`, but every slice of it is on " ++
      "the tape")

def rowMatches (endedAfter : Option Nat) (through : Nat) (write : WriteRow) : Except String Unit :=
  let staged := (tables.stageSlices.filter fun slice => slice.stageSetId = write.stageSetId).length
  if write.maySpan then spanMatches tables write staged through
  else wholeMatches tables write staged endedAfter

def rowsMatch (endedAfter : Option Nat) (through : Nat) : List WriteRow → Except String Unit
  | [] => .ok ()
  | write :: rest => do
    rowMatches tables endedAfter through write
    rowsMatch endedAfter through rest

def sayEnding : Option Int → String
  | none => "it sealed full"
  | some ended => s!"it ended after file {ended}"

def recordedEnding : Option Int :=
  (tables.volumes.find? fun volume => volume.id = volumeId).bind VolumeRow.endedAfter

def stagedMatch (entries : List ParsedIndexEntry) (endedAfter : Option Nat) : Except String Nat := do
  let planned := plannedSlices entries
  let sealedEnding := endedAfter.map fun ended => (ended : Int)
  let recorded := recordedEnding tables volumeId
  if recorded ≠ sealedEnding then
    throw (s!"the catalog records that {sayEnding recorded}, but the tape's seal says " ++
      sayEnding sealedEnding)
  let rows ← byPosition [] (attached tables columns volumeId)
  let matched ← matchSlices rows (planned.filter fun slice => onTape endedAfter slice.1)
  match unlisted rows planned with
  | some row =>
    throw (s!"the catalog records a slice of this volume at file {row.position}, which the tape's " ++
      "front index does not list as a slice")
  | none =>
    rowsMatch tables endedAfter (countedThrough entries endedAfter)
      ((tables.writes.filter fun write => write.volumeId = volumeId).insertionSort
        fun one other => one.id ≤ other.id)
    return matched

end Matching

def lostVolume (volumeId : Int) (volume : VolumeRow) : Bool :=
  volume.id = volumeId && volume.status = .initialized && volume.sealedAt.isNone

/-- `UPDATE volumes SET status = 'sealed', .. WHERE .. status = 'initialized' AND sealed_at IS NULL`,
with the rows it changed. -/
def sealLost (tables : Tables) (volumeId : Int) (sealedAt : String) (endedAfter : Option Nat) :
    Tables × Nat :=
  ({ tables with volumes := tables.volumes.map fun volume =>
      if lostVolume volumeId volume = true then { volume with
        status := .sealed
        sealedAt := some sealedAt
        endedAfter := endedAfter.map fun ended => (ended : Int) } else volume },
    tables.volumes.countP (lostVolume volumeId))

/-- The versions this tape holds whole, or makes whole on sealed volumes. -/
def adoptedSnapshots (tables : Tables) (volumeId : Int) : List Int :=
  ((tables.writes.filter fun write => write.volumeId = volumeId &&
    (write.status = .completed || (write.status = .range &&
      everySliceOnSealedVolume tables write.stageSetId (some volumeId)))).map
        WriteRow.snapshotId).dedup.insertionSort fun one other => one ≤ other

def promoteAdopted (done : Tables × List Promoted) (snapshotId : Int) :
    Except String (Tables × List Promoted) :=
  match done.1.snapshots.find? fun snapshot => snapshot.id = snapshotId with
  | none => .error "Query returned no rows"
  | some snapshot =>
    if done.1.units.any fun unit => unit.id = snapshot.unitId then .ok (promote done snapshotId)
    else .error "Query returned no rows"

/-- `utc` is the seal's time in the catalog's form, if it reads as a time. -/
def recordAdoption (tables : Tables) (volumeId : Int) (label now : String)
    (utc : String → Option String) (tape : SealedIndex) : Except String Tables := do
  let update := sealLost tables volumeId ((utc tape.sealedAt).getD now) tape.endedAfter
  if update.2 ≠ 1 then
    throw (s!"volume \"{label}\" changed while `volume resume` read its tape; nothing was adopted. " ++
      "Run the same command again.")
  let promotions ← (adoptedSnapshots update.1 volumeId).foldlM promoteAdopted (update.1, [])
  return promotions.1

section Adopt

variable (crate : Crate) (sha256Hex : Bytes → String) (store : Store) (tables : Tables)
  (columns : Columns) (volumeId : Int)

def checkIdentity (expected : String) : Except LostAdoption (Text × Nat) :=
  match readSmallBytes store 0 "ID thunk" 0 with
  | (.error error, _) => .error (.identityMismatch expected s!"File 0 did not read ({error})")
  | (.ok bytes, next) =>
    let file0 := fromUtf8Lossy bytes
    match parseIdThunkIdentity crate file0 with
    | .error error => .error (.identityMismatch expected s!"File 0 does not parse ({error})")
    | .ok identity =>
      if identity.uuid ≠ expected then .error (.identityMismatch expected
        s!"label {debugString identity.label}, uuid {debugString identity.uuid}")
      else match parseIdThunkClaims crate file0 with
        | .error error => .error (.unreadableFile0 error)
        | .ok claims =>
          match claims.refusal "File 0" with
          | some why => .error (.unreadableFile0 why)
          | none => .ok (file0, next)

/-- The three conditions, in order: the tape it was shown on, and the slices matched. -/
def conditions : Except LostAdoption (SealedIndex × Nat) := do
  let (file0, next) ← checkIdentity crate store ((columns.uuid volumeId).getD "")
  let tape ← (sealedFrontIndex crate sha256Hex store file0 next).mapError LostAdoption.notSealed
  match recordedEvidence columns volumeId with
  | some refused => throw refused
  | none =>
    let slices ← (stagedMatch tables columns volumeId tape.entries tape.endedAfter).mapError
      LostAdoption.notWhatThisCatalogStaged
    return (tape, slices)

def adopt (label now : String) (utc : String → Option String) :
    Except String (LostAdoption × Tables) := do
  let lost ← isLostWrite tables volumeId
  if lost = false then
    throw (s!"volume \"{label}\" is not a write this catalog lost: only an `initialized` volume " ++
      "with no recorded seal, an `ok` condition and nothing but completed (or range, or cut) " ++
      "writes attached is adopted this way (ADR-0012, 2026-09-29 later)")
  match conditions crate sha256Hex store tables columns volumeId with
  | .error refused => return (refused, tables)
  | .ok (tape, slices) =>
    let after ← recordAdoption tables volumeId label now utc tape
    return (.adopted slices, after)

end Adopt

end Tapectl.AdoptLost
