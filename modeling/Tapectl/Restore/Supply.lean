import Tapectl.Restore.Chunks

/-!
# The restore's reads of a slice

`Supply::read_slice` of `volume/restore/supply.rs` with what it calls: `fill_slice`, `choose`,
`attempt`, `salvage`, `attempt_raw` and the change of cartridge. The catalog's answers, the drive and
the operator are the world's: every read is numbered and may give anything, and so is every change of
cartridge. A change asks until it has an answer, so one answer stands for the whole of it.

The notes, the log and the prompts are left out.
-/

namespace Tapectl.Restore

open StoredText Effects

/-- The columns of a `WritePositionInfo`; `position` and `sha256Plain` as their texts parse. -/
structure WritePositionInfo (Digest : Type) where
  stageSetId : Int
  sliceNumber : Int
  volumeId : Int
  position : Option Nat
  encryptedBytes : Int
  sha256Encrypted : Digest
  sha256Plain : Option Digest
  deriving DecidableEq, Repr

inductive Defect where
  | read
  | hash
  | chunk
  | otherFile
  deriving DecidableEq, Repr

def Defect.substitutable (defect : Defect) : Bool := defect != .chunk

structure Substitution where
  sliceNumber : Int
  suppliedBy : String
  damagedOn : String
  deriving DecidableEq, Repr

structure Damage where
  sliceNumber : Int
  volume : String
  holes : List (Nat × Nat)
  deriving DecidableEq, Repr

structure Presence where
  volumeId : Option Int
  label : String
  deriving DecidableEq, Repr

structure Holder where
  volumeId : Int
  label : String
  position : Nat
  deriving DecidableEq, Repr

inductive Choice where
  | here (position : Nat)
  | next (holder : Holder)
  | elsewhere (holder : Holder)
  | nowhere
  deriving DecidableEq, Repr

inductive Changed where
  | loaded
  | declined
  deriving DecidableEq, Repr

/-- How the operator ended a change of cartridge; `lost` when they skipped it and the cartridge that
was in the drive did not come back. -/
inductive Swap where
  | loaded
  | skipped
  | stopped
  | lost
  deriving DecidableEq, Repr

inductive Why where
  | noChecksum
  | streamedUnhashed
  deriving DecidableEq, Repr

inductive Proof where
  | whole
  | wrong
  | unproven (why : Why)
  deriving DecidableEq, Repr

inductive Attempt where
  | complete
  | sinkGone
  | stopped (defect : Defect)
  | unproven (defect : Defect) (why : Why)
  deriving DecidableEq, Repr

/-- A read gives the bytes of a tape file, and whether it failed after them. -/
structure World (Digest : Type) where
  crypto : Crypto Digest
  read : Nat → Option Int → Nat → Bytes × Bool
  fed : Nat → Fed
  swap : Nat → Swap
  attended : Bool
  holdersOf : Digest → List Holder
  otherCopiesExist : Int → Int → Bool

structure Supply (Digest : Type) where
  here : Option Presence
  bad : List ((Int × Digest) × Nat)
  hashBad : List (Int × Digest)
  lastPosition : Option Nat
  sole : List ((Int × Int) × Bool)
  substitutions : List Substitution
  damage : List Damage
  out : SliceOut
  reads : Nat
  swaps : Nat
  deriving DecidableEq, Repr

structure Raw (Digest : Type) where
  readFailed : Bool
  hashOk : Bool
  ended : Except Refusal Ended

def Raw.defect {Digest : Type} (raw : Raw Digest) : Option Defect :=
  if raw.readFailed then some .read
  else if raw.hashOk then none
  else some .hash

variable {Digest : Type} [DecidableEq Digest]

namespace Supply

abbrev Run (Digest : Type) := EStateM Refusal (Supply Digest)

def hereVolume (supply : Supply Digest) : Option Int := supply.here.bind Presence.volumeId

def hereLabel (supply : Supply Digest) : String := (supply.here.map Presence.label).getD ""

def withOut (out : SliceOut) (supply : Supply Digest) : Supply Digest := { supply with out }

def onOut {Value : Type} (run : Sink Value) : Run Digest Value := zoom Supply.out withOut run

def change (step : Supply Digest → Supply Digest) : Run Digest Unit :=
  modifyGet fun supply => ((), step supply)

def dropOut (supply : Supply Digest) : Supply Digest :=
  { supply with out := supply.out.reset }

def markUnproven (supply : Supply Digest) : Supply Digest :=
  { supply with out := { supply.out with history := supply.out.history ++ [.unproven] } }

variable (world : World Digest) (wp : WritePositionInfo Digest)

def encrypted : Nat := wp.encryptedBytes.toNat

def recordDamage (volume : String) (holes : List (Nat × Nat)) (supply : Supply Digest) :
    Supply Digest :=
  { supply with damage := supply.damage ++ [⟨wp.sliceNumber, volume, holes⟩] }

def supplied (damagedOn : String) (supply : Supply Digest) : Supply Digest :=
  if supply.hereLabel = damagedOn then supply
  else { supply with substitutions :=
    supply.substitutions ++ [⟨wp.sliceNumber, supply.hereLabel, damagedOn⟩] }

def markBad (supply : Supply Digest) : Supply Digest :=
  match supply.hereVolume with
  | some volume =>
    { supply with bad := ((volume, wp.sha256Encrypted), supply.out.delivered) :: supply.bad }
  | none => supply

def markHashBad (supply : Supply Digest) : Supply Digest :=
  match supply.hereVolume with
  | some volume => { supply with hashBad := (volume, wp.sha256Encrypted) :: supply.hashBad }
  | none => supply

def provePlaintext (out : SliceOut) : Proof :=
  match wp.sha256Plain with
  | none => .unproven .noChecksum
  | some recorded =>
    match out.hashed with
    | some plain => if world.crypto.sha256 plain = recorded then .whole else .wrong
    | none => .unproven .streamedUnhashed

def attemptRaw (position : Nat) (mode : Mode) : Run Digest (Raw Digest) := do
  change fun supply => { supply with out := supply.out.beginAttempt }
  let supply ← get
  let (bytes, readFailed) := world.read supply.reads supply.hereVolume position
  change fun supply => { supply with reads := supply.reads + 1 }
  let given := bytes.take (encrypted wp)
  let ended ← attempted (onOut (decryptChunks world.crypto world.fed given (encrypted wp) mode))
  pure ⟨readFailed, world.crypto.sha256 given = wp.sha256Encrypted, ended⟩

/-- A read to the end of a copy: whether what is written is the slice. -/
def judgeRead (raw : Raw Digest) : Run Digest Attempt :=
  if raw.hashOk = true then pure .complete
  else match raw.defect with
  | none => pure .complete
  | some defect => do
    let supply ← get
    match provePlaintext world wp supply.out with
    | .whole => pure .complete
    | .wrong =>
      if supply.out.sink = .stream then throw .wrongInStream
      else do
        change dropOut
        pure (.stopped defect)
    | .unproven why => pure (.unproven defect why)

/-- dar stopped reading. -/
def sinkGone (raw : Raw Digest) (tailDamaged : Bool) : Run Digest Unit :=
  if raw.hashOk = false ∨ tailDamaged = true then
    change fun supply => recordDamage wp supply.hereLabel [] supply
  else pure ()

/-- A copy that hashes as recorded is read once more after the output was dropped for it; the dropped
output is bound to no file, so there is no second time. -/
def attempt (position : Nat) : Nat → Run Digest Attempt
  | 0 => throw .outOfTurns
  | resets + 1 => do
    let raw ← attemptRaw world wp position .strict
    match raw.ended with
    | .error refusal => throw refusal
    | .ok ended =>
      match ended.openError with
      | some error =>
        match raw.defect with
        | some defect => pure (.stopped defect)
        | none => throw (.opening error)
      | none =>
        if ended.sinkGone = true then do
          sinkGone wp raw ended.tailDamaged
          pure .sinkGone
        else if ended.otherFile = true then
          if raw.hashOk = true then do
            let supply ← get
            if supply.out.sink = .file then do
              change dropOut
              attempt position resets
            else throw (.otherFile true)
          else pure (.stopped .otherFile)
        else if ended.stopped = true then pure (.stopped (raw.defect.getD .chunk))
        else judgeRead world wp raw

def suppliedFor (cause : Option (String × Defect)) : Run Digest Unit :=
  match cause with
  | some (damagedOn, _) => change (supplied wp damagedOn)
  | none => pure ()

/-- Authentic bytes that are not the slice: a hole from end to end. -/
def salvageWrong (label : String) : Run Digest Unit := do
  let supply ← get
  if supply.out.sink = .stream then throw .wrongInStream
  else do
    change dropOut
    onOut (SliceOut.hole world.fed supply.out.delivered)
    change fun after => recordDamage wp label after.out.holes after

def salvageEnd (raw : Raw Digest) (ended : Ended) (label : String)
    (cause : Option (String × Defect)) (newHoles : List (Nat × Nat)) : Run Digest Unit :=
  if newHoles ≠ [] then change (recordDamage wp label newHoles)
  else if ended.sinkGone = true then
    if raw.hashOk = false ∨ ended.tailDamaged = true then change (recordDamage wp label [])
    else pure ()
  else if raw.hashOk = true then suppliedFor wp cause
  else do
    let supply ← get
    match provePlaintext world wp supply.out with
    | .whole => suppliedFor wp cause
    | .wrong => salvageWrong world wp label
    | .unproven _ => change (recordDamage wp label [])

def salvage : Nat → Option (String × Defect) → Run Digest Unit
  | 0, _ => throw .outOfTurns
  | resets + 1, first => do
    let before ← get
    match before.lastPosition with
    | none => throw .heldNowhere
    | some position => do
      let raw ← attemptRaw world wp position .tolerant
      let supply ← get
      let label := supply.hereLabel
      let cause := first.or (raw.defect.map fun defect => (label, defect))
      match raw.ended with
      | .error refusal => throw refusal
      | .ok ended =>
        match ended.openError with
        | some error => throw (.aroundIt error)
        | none =>
          if ended.otherFile = true then
            if raw.hashOk = true ∧ supply.out.sink = .file then do
              change dropOut
              salvage resets cause
            else throw (.otherFile raw.hashOk)
          else
            salvageEnd world wp raw ended label cause
              (supply.out.holes.drop before.out.holes.length)

/-- A volume is usable for a slice until it failed it, and again once another delivered past that. -/
def usable (supply : Supply Digest) (delivered : Nat) (awaitingProof : Bool) (volume : Int) : Bool :=
  ((supply.bad.lookup (volume, wp.sha256Encrypted)).all fun failedAt => decide (failedAt < delivered))
    && !(awaitingProof && supply.hashBad.contains (volume, wp.sha256Encrypted))

def ownPosition : Run Digest Choice :=
  match wp.position with
  | some position => pure (.here position)
  | none => throw .noPosition

def choose (tried awaitingProof : Bool) : Run Digest Choice := do
  let supply ← get
  let usable := usable wp supply supply.out.delivered awaitingProof
  match supply.hereVolume with
  | none => if tried = true then pure .nowhere else ownPosition wp
  | some here =>
    if here = wp.volumeId ∧ usable here = true then ownPosition wp
    else
      let all := world.holdersOf wp.sha256Encrypted
      match all.find? fun holder => holder.volumeId == here with
      | some holder =>
        if usable here = true then pure (.here holder.position) else pure (elsewhere usable here all)
      | none => pure (elsewhere usable here all)
where
  elsewhere (usable : Int → Bool) (here : Int) (all : List Holder) : Choice :=
    let planned := if wp.volumeId ≠ here then
        all.find? fun holder => holder.volumeId == wp.volumeId && usable holder.volumeId
      else none
    match planned with
    | some holder => if tried = true then .elsewhere holder else .next holder
    | none =>
      match all.find? fun holder => holder.volumeId != here && usable holder.volumeId with
      | some holder => .elsewhere holder
      | none => .nowhere

def changeTo (holder : Holder) (skippable : Bool) : Run Digest Changed := do
  let before ← get
  change fun supply =>
    { supply with here := none, lastPosition := none, swaps := supply.swaps + 1 }
  match world.swap before.swaps with
  | .loaded => do
    change fun supply => { supply with here := some ⟨some holder.volumeId, holder.label⟩ }
    pure .loaded
  | .skipped =>
    if skippable = true ∧ before.here.isSome = true then do
      change fun supply => { supply with here := before.here, lastPosition := before.lastPosition }
      pure .declined
    else if skippable = true then throw .noCartridge
    else throw .stopped
  | .stopped => throw .stopped
  | .lost => throw .noCartridge

def soleCopy : Run Digest Bool := do
  let supply ← get
  match supply.hereVolume with
  | none => pure true
  | some volume =>
    match supply.sole.lookup (wp.stageSetId, volume) with
    | some sole => pure sole
    | none => do
      let sole := !world.otherCopiesExist wp.stageSetId volume
      change fun supply => { supply with sole := ((wp.stageSetId, volume), sole) :: supply.sole }
      pure sole

/-- What is remembered of the attempts so far: the first cartridge that failed it and why, and the
one it is complete from but unproven. -/
structure Memory where
  first : Option (String × Defect)
  unproven : Option String
  tried : Bool
  deriving DecidableEq, Repr

def noteFailure (defect : Defect) (unproven : Bool) (memory : Memory) : Run Digest Memory := do
  let supply ← get
  change (markBad wp)
  change fun supply => if defect = .hash then markHashBad wp supply else supply
  change fun supply => if unproven = true then supply.markUnproven else supply
  pure
    { memory with
      unproven := if unproven = true then some supply.hereLabel else memory.unproven
      first := memory.first.or (some (supply.hereLabel, defect)) }

/-- `none` when the slice was settled on the way, what is remembered when the loop was left. -/
def fillLoop (sole : Bool) : Nat → Memory → Run Digest (Option Memory)
  | 0, _ => throw .outOfTurns
  | turns + 1, memory => do
    match ← choose world wp memory.tried memory.unproven.isSome with
    | .here position => do
      change fun supply => { supply with lastPosition := some position }
      if sole = true then pure (some { memory with tried := true })
      else
        match ← attempt world wp position 2 with
        | .complete => do
          suppliedFor wp memory.first
          pure none
        | .sinkGone => pure none
        | .stopped defect => do
          let memory ← noteFailure wp defect false { memory with tried := true }
          if defect.substitutable = true then fillLoop sole turns memory else pure (some memory)
        | .unproven defect _ => do
          let memory ← noteFailure wp defect true { memory with tried := true }
          if defect.substitutable = true then fillLoop sole turns memory else pure (some memory)
    | .next holder =>
      if world.attended = true then do
        match ← changeTo world holder false with
        | .loaded => fillLoop sole turns memory
        | .declined => throw .notLoaded
      else throw .unattended
    | .elsewhere holder =>
      if world.attended = true then do
        match ← changeTo world holder true with
        | .loaded => fillLoop sole turns memory
        | .declined => pure (some memory)
      else throw .unattended
    | .nowhere => pure (some memory)

def settle (left : Option Memory) : Run Digest Unit :=
  match left with
  | none => pure ()
  | some memory =>
    match memory.unproven with
    | some on => change (recordDamage wp on [])
    | none => salvage world wp 2 memory.first

/-- `fill_slice` up to the end of its loop. -/
def tryCartridges (turns : Nat) : Run Digest (Option Memory) := do
  change fun supply => { supply with lastPosition := none }
  let sole ← soleCopy world wp
  fillLoop world wp sole turns ⟨none, none, false⟩

def fillSlice (turns : Nat) : Run Digest Unit := do
  let left ← tryCartridges world wp turns
  settle world wp left

end Supply

end Tapectl.Restore
