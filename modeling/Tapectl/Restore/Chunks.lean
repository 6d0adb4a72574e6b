import Tapectl.Library.Effects
import Tapectl.Library.Text

/-!
# Reading a slice chunk by chunk

`crypto/chunks.rs`, an age file's payload one authenticated chunk at a time, and of
`volume/restore/supply.rs` the output a slice is written to (`SliceOut`) and the decrypt thread of
one read (`decrypt_chunks`).

The age crate's header parse, the chunk cipher and sha256 are parameters. What the drive gives is the
bytes that came through the pipe; the pipe itself does not fail. Every write to the sink asks the
world how it went: `SliceOut.kept` is what the sink has, and a write that failed or found dar's input
closed may have left some of its bytes. Running hashes are the bytes hashed so far. Messages are left
out: a refusal says which one it is.
-/

namespace Tapectl.Restore

open StoredText Effects

def chunkLen : Nat := 64 * 1024
def tagLen : Nat := 16
def encryptedChunk : Nat := chunkLen + tagLen
def payloadNonce : Nat := 16

/-- What the crates compute: the header and payload nonce an input starts with, if these identities
open it; the plaintext of a chunk of the file with that header, by its index and last-flag; sha256. -/
structure Crypto (Digest : Type) where
  header : Bytes → Option Bytes
  decrypt : Bytes → Nat → Bool → Bytes → Option Bytes
  sha256 : Bytes → Digest

inductive OpenError where
  | notForUs
  | headerTooShort
  | shorterThanHeader
  | endsInFirstChunk
  | endsInLastTag
  deriving DecidableEq, Repr

structure ChunkReader where
  src : Bytes
  header : Bytes
  index : Nat
  chunks : Nat
  lastLen : Nat
  deriving DecidableEq, Repr

inductive Next where
  | authentic (plain : Bytes)
  | damaged (plainLen : Nat)
  | ended
  deriving DecidableEq, Repr

section Chunks

variable {Digest : Type} (crypto : Crypto Digest)

/-- `open` -/
def openChunks (src : Bytes) (encryptedLen : Nat) : Except OpenError ChunkReader :=
  match crypto.header src with
  | none => .error .notForUs
  | some header =>
    if header.length < payloadNonce then .error .headerTooShort
    else if encryptedLen < header.length then .error .shorterThanHeader
    else
      let payload := encryptedLen - header.length
      if payload < tagLen then .error .endsInFirstChunk
      else
        let chunks := (payload + encryptedChunk - 1) / encryptedChunk
        let lastLen := payload - (chunks - 1) * encryptedChunk
        if lastLen < tagLen then .error .endsInLastTag
        else .ok ⟨src.drop header.length, header, 0, chunks, lastLen⟩

def ChunkReader.plainLen (reader : ChunkReader) : Nat :=
  (reader.chunks - 1) * chunkLen + (reader.lastLen - tagLen)

def ChunkReader.next (reader : ChunkReader) : Next × ChunkReader :=
  if reader.chunks ≤ reader.index then (.ended, reader)
  else
    let last := reader.index + 1 == reader.chunks
    let want := if last then reader.lastLen else encryptedChunk
    let plainLen := want - tagLen
    let after := { reader with index := reader.index + 1, src := reader.src.drop want }
    if reader.src.length < want then (.damaged plainLen, after)
    else match crypto.decrypt reader.header reader.index last (reader.src.take want) with
    | none => (.damaged plainLen, after)
    | some plain =>
      -- age rejects an empty last chunk after a non-empty file
      if plain = [] ∧ 0 < reader.index then (.damaged plainLen, after)
      else (.authentic plain, after)

end Chunks

inductive SliceSink where
  | file
  | stream
  deriving DecidableEq, Repr

/-- How a write to the sink went, and how many of its bytes are there after one that did not. -/
inductive Fed where
  | ok
  | closed (kept : Nat)
  | failed (kept : Nat)
  deriving DecidableEq, Repr

inductive Event where
  /-- A read began it. -/
  | begun
  /-- It was complete, and nothing showed it to be the slice. -/
  | unproven
  | dropped
  deriving DecidableEq, Repr

/-- `opened` is the open file or the slice begun in dar's stream; `feeds` counts the sink's
operations. `source`, the age file the output was last filled from, and `history`, what was done to
it, are a record of the run that the program does not keep. -/
structure SliceOut where
  sink : SliceSink
  opened : Bool
  sliceNumber : Int
  delivered : Nat
  holes : List (Nat × Nat)
  holeBytes : Nat
  gone : Bool
  dropping : Bool
  attempts : Nat
  plain : Option Bytes
  unhashed : Bool
  bound : Option Bytes
  kept : Bytes
  feeds : Nat
  source : Option Bytes
  history : List Event
  deriving DecidableEq, Repr

inductive Refusal where
  | sink (sliceNumber : Int)
  | noSlice (sliceNumber : Int)
  | opening (error : OpenError)
  | aroundIt (error : OpenError)
  | otherFile (matchesCatalog : Bool)
  | wrongInStream
  | unattended
  | notLoaded
  | stopped
  | noCartridge
  | noPosition
  | heldNowhere
  | outOfTurns
  deriving DecidableEq, Repr

abbrev Sink := EStateM Refusal SliceOut

namespace SliceOut

def new (sink : SliceSink) (sliceNumber : Int) : SliceOut where
  sink := sink
  opened := false
  sliceNumber := sliceNumber
  delivered := 0
  holes := []
  holeBytes := 0
  gone := false
  dropping := false
  attempts := 0
  plain := none
  unhashed := false
  bound := none
  kept := []
  feeds := 0
  source := none
  history := []

variable (out : SliceOut)

def beginAttempt : SliceOut :=
  let out := { out with attempts := out.attempts + 1 }
  if 2 ≤ out.attempts ∧ out.sink = .stream ∧ out.plain = none ∧ out.unhashed = false then
    if out.delivered = 0 then { out with plain := some [] } else { out with unhashed := true }
  else out

def bind (header : Bytes) : SliceOut :=
  match out.bound with
  | none => { out with bound := some header }
  | some _ => out

def discard : SliceOut :=
  match out.sink with
  | .file => { out with opened := false, kept := [] }
  | .stream => out

def reset : SliceOut :=
  { out.discard with
    delivered := 0
    holes := []
    holeBytes := 0
    plain := none
    unhashed := false
    bound := none
    history := out.history ++ [.dropped] }

def filledFrom (header : Bytes) : SliceOut :=
  { out with
    source := some header
    history := if out.bound = none then out.history ++ [.begun] else out.history }

section Feeding

variable (fed : Nat → Fed)

/-- dar closed its input: the rest is read, and dropped. -/
def close (out : SliceOut) : SliceOut := { out with gone := true, dropping := true }

def openSink : Sink Unit := fun out =>
  if out.opened = true ∨ out.dropping = true then .ok () out
  else match out.sink with
  | .file =>
    match fed out.feeds with
    | .failed _ => .error (.sink out.sliceNumber) { out with feeds := out.feeds + 1 }
    | _ => .ok () { out with opened := true, kept := [], feeds := out.feeds + 1 }
  | .stream =>
    if out.sliceNumber < 0 ∨ 2 ^ 32 ≤ out.sliceNumber then .error (.noSlice out.sliceNumber) out
    else match fed out.feeds with
    | .ok => .ok () { out with opened := true, feeds := out.feeds + 1 }
    | .closed _ => .ok () { out with feeds := out.feeds + 1 }.close
    | .failed _ => .error (.sink out.sliceNumber) { out with feeds := out.feeds + 1 }

/-- Bytes on the books, written or dropped. -/
def account (out : SliceOut) (bytes : Bytes) : SliceOut :=
  { out with
    plain := out.plain.map fun hashed => hashed ++ bytes
    delivered := out.delivered + bytes.length }

/-- The write of `put`, once the sink is open. -/
def putOpen (bytes : Bytes) : Sink Unit := fun out =>
  if out.dropping = true then .ok () (out.account bytes)
  else match fed out.feeds with
  | .ok => .ok () ({ out with kept := out.kept ++ bytes, feeds := out.feeds + 1 }.account bytes)
  | .closed count =>
    .ok () ({ out with kept := out.kept ++ bytes.take count, feeds := out.feeds + 1 }.close.account
      bytes)
  | .failed count =>
    .error (.sink out.sliceNumber)
      { out with kept := out.kept ++ bytes.take count, feeds := out.feeds + 1 }

def put (bytes : Bytes) : Sink Unit := do
  openSink fed
  putOpen fed bytes

def holePiece : Nat := 16 * 1024

def putZeros : List Nat → Sink Unit
  | [] => pure ()
  | piece :: pieces => do
    put fed (List.replicate piece 0)
    modifyGet fun out => ((), { out with holeBytes := out.holeBytes + piece })
    putZeros pieces

/-- A hole is entered before it is written. -/
def hole (len : Nat) : Sink Unit := do
  openSink fed
  modifyGet fun out => ((), if 0 < len then
    { out with holes := out.holes ++ [(out.delivered, out.delivered + len)] } else out)
  putZeros fed (piecesOf holePiece len)

def finishOpen : Sink Unit := fun out =>
  if out.dropping = true then .ok () out
  else match fed out.feeds, out.sink with
  | .ok, _ => .ok () { out with feeds := out.feeds + 1 }
  | .closed _, .stream => .ok () { out with feeds := out.feeds + 1 }.close
  | _, _ => .error (.sink out.sliceNumber) { out with feeds := out.feeds + 1 }

def finish : Sink Unit := do
  openSink fed
  finishOpen fed

end Feeding

/-- The plaintext written so far, where it can be known. -/
def hashed : Option Bytes :=
  if out.unhashed = true then none
  else match out.plain, out.sink with
  | some running, _ => some running
  | none, .file => some out.kept
  | none, .stream => none

end SliceOut

inductive Mode where
  | strict
  | tolerant
  deriving DecidableEq, Repr

structure Ended where
  sinkGone : Bool
  tailDamaged : Bool
  stopped : Bool
  otherFile : Bool
  openError : Option OpenError
  deriving DecidableEq, Repr

section Decrypting

variable {Digest : Type} (crypto : Crypto Digest) (fed : Nat → Fed)

/-- The chunks from `reader` on, whose plaintext starts at `pos`: whether it stopped at a bad one, and
whether one was bad after dar was gone. A turn is a chunk. -/
def deliver (mode : Mode) (skip : Nat) : Nat → ChunkReader → Nat → Sink (Bool × Bool)
  | 0, _, _ => pure (false, false)
  | turns + 1, reader, pos =>
    match reader.next crypto with
    | (.ended, _) => pure (false, false)
    | (.authentic plain, after) =>
      if skip < pos + plain.length then do
        modifyGet fun out => ((), out.bind reader.header)
        SliceOut.put fed (plain.drop (skip - pos))
        deliver mode skip turns after (pos + plain.length)
      else deliver mode skip turns after (pos + plain.length)
    | (.damaged plainLen, after) =>
      if skip < pos + plainLen then do
        let out ← get
        if out.gone = true then pure (false, true)
        else if mode = .strict then pure (true, false)
        else do
          modifyGet fun out => ((), out.bind reader.header)
          SliceOut.hole fed (pos + plainLen - max skip pos)
          deliver mode skip turns after (pos + plainLen)
      else deliver mode skip turns after (pos + plainLen)

def deliverFile (mode : Mode) (reader : ChunkReader) : Sink (Bool × Bool) := do
  SliceOut.openSink fed
  let out ← get
  deliver crypto fed mode out.delivered (reader.chunks + 1) reader 0

def decryptChunks (src : Bytes) (encrypted : Nat) (mode : Mode) : Sink Ended :=
  match openChunks crypto src encrypted with
  | .error error => pure ⟨false, false, false, false, some error⟩
  | .ok reader => do
    let out ← get
    if (out.bound.any fun bound => bound != reader.header) = true then
      pure ⟨false, false, false, true, none⟩
    else do
      modifyGet fun out => ((), out.filledFrom reader.header)
      let delivered ← attempted (deliverFile crypto fed mode reader)
      let out ← get
      match delivered with
      | .ok (stopped, tailDamaged) => pure ⟨out.gone, tailDamaged, stopped, false, none⟩
      | .error refusal =>
        if out.gone = true then pure ⟨true, false, false, false, none⟩ else throw refusal

end Decrypting

end Tapectl.Restore
