import Tapectl.Library.Machine
import Tapectl.Library.Text

/-!
# The write pipeline

`write_verified` streams one file through three threads. The reader fills buffers from the source, the
hasher hashes them in order and passes them on, and the store's `execute`, on the calling thread, reads
them back as one ordinary `Read`. The threads share nothing but three unbounded channels: blocks to the
hasher, blocks to the store, and drained buffers back to the reader.

An action of the machine below is one operation of one thread that another thread can see (a send, a
receive, the drop of a channel's end) or one read of the source, together with the thread's own
computation up to the next. A receive that would block is not enabled. `execute` is not modelled: it
may read with any buffer, or return any result, whenever it is running.

A buffer is counted, not stored: only the bytes a block was filled with are ever read from it. The
gauges, the trace, the research shaper and the waiting times are left out.
-/

namespace Tapectl.Pipeline

open StoredText

/-- `io::ErrorKind`, with the kinds the pipeline itself makes by name. -/
inductive ErrorKind where
  | invalidData
  | other
  | os (code : Int)
  deriving DecidableEq, Repr

structure IoError where
  kind : ErrorKind
  message : String
  deriving DecidableEq, Repr

def stopped : IoError := ⟨.other, "the write pipeline stopped before the end of the file"⟩

def withheld : IoError :=
  ⟨.invalidData,
    "the file's last block was withheld: its bytes do not match the recorded sha256 (tri-layer L2)"⟩

/-- What the source has for its next reads: bytes (none of them is an `Ok(0)`), an interruption or
another error. A source with nothing left reads `Ok(0)`. -/
inductive SourceRead where
  | bytes (data : Bytes)
  | interrupted
  | failed (error : IoError)
  deriving DecidableEq, Repr

/-- `src.read` into room for `limit` bytes. -/
def readSource (limit : Nat) : List SourceRead → SourceRead × List SourceRead
  | [] => (.bytes [], [])
  | .bytes data :: rest =>
    (.bytes (data.take limit), if limit < data.length then .bytes (data.drop limit) :: rest else rest)
  | read :: rest => (read, rest)

/-- The size of a `BufferPool`. -/
structure PoolSize where
  chunk : Nat
  maxBuffers : Nat
  chunk_pos : 1 ≤ chunk
  two_buffers : 2 ≤ maxBuffers

/-- `BufferPool::new`. -/
def PoolSize.new (chunk maxBuffers : Nat) : PoolSize :=
  ⟨max chunk 1, max maxBuffers 2, le_max_right _ _, le_max_right _ _⟩

/-- What one call of `write_verified` is given besides the source. -/
structure Job where
  pool : PoolSize
  sha256 : Bytes → String
  len : Nat
  expected : Option String

inductive Msg where
  | data (block : Bytes)
  | ended
  | failed (error : IoError)
  | withheld
  deriving DecidableEq, Repr

/-- Where `read_stage` is: at the head of its loop, filling a buffer, about to send a block (with the
message that closes the stream behind it, if it is the last), about to send that message, or returned
with its end of the channel dropped. -/
inductive Reader where
  | taking (remaining : Nat)
  | filling (remaining : Nat) (got : Bytes)
  | sending (block : Bytes) (remaining : Nat) (last : Option Msg)
  | closing (msg : Msg)
  | done
  deriving DecidableEq, Repr

/-- Where `hash_stage` is: waiting for a message, about to pass a block on, about to pass the last block
on, about to send its last message, returned with its sending end dropped, or with both ends dropped. -/
inductive Hasher where
  | receiving (hashed : Bytes)
  | forwarding (hashed block : Bytes)
  | sendingLast (block : Bytes) (actual : String)
  | closing (msg : Msg) (result : Option String)
  | dropping (result : Option String)
  | done (result : Option String)
  deriving DecidableEq, Repr

/-- The calling thread: `execute` running its own code, inside a read with room for `limit` bytes,
returned with the pipe's receiving end dropped, or waiting to join the stages with the pipe gone. -/
inductive Store where
  | running
  | reading (limit : Nat)
  | closing (result : Except String Nat)
  | joining (result : Except String Nat)

/-- `PipeReader`, its channels apart; `current` holds the bytes not yet drained. -/
structure PipeReader where
  current : Option Bytes := none
  ended : Bool := false
  failed : Option IoError := none
  withheld : Bool := false
  deriving DecidableEq, Repr

/-- What a read returned to `execute`. -/
abbrev ReadResult := Except IoError Bytes

structure State where
  source : List SourceRead
  allocated : Nat
  free : Nat
  reader : Reader
  readQueue : List Msg
  hasher : Hasher
  hashQueue : List Msg
  pipe : PipeReader
  returned : Nat
  store : Store
  /-- The results of the reads of `execute` so far. -/
  reads : List ReadResult

def Reader.gone : Reader → Bool
  | .done => true
  | _ => false

def Hasher.gone : Hasher → Bool
  | .done _ => true
  | _ => false

def Hasher.silent : Hasher → Bool
  | .dropping _ => true
  | .done _ => true
  | _ => false

def Store.closed : Store → Bool
  | .closing _ => true
  | .joining _ => true
  | _ => false

def Store.gone : Store → Bool
  | .joining _ => true
  | _ => false

variable (s : State)

/-- The reader has a buffer to fill. -/
def State.fill (remaining : Nat) : State := { s with reader := .filling remaining [] }

variable (job : Job)

/-- `Producer::take`, at the head of the loop: a free buffer, one the store handed back, a new one while
the pool has room, or else the next one handed back. -/
def take (s : State) (remaining : Nat) : Option State :=
  if 0 < s.free then some ({ s with free := s.free - 1 }.fill remaining)
  else if 0 < s.returned then some ({ s with returned := s.returned - 1 }.fill remaining)
  else if s.store.gone then some { s with reader := .done }
  else if s.allocated < job.pool.maxBuffers then
    some ({ s with allocated := s.allocated + 1 }.fill remaining)
  else none

/-- After the inner loop of `read_stage`: a block with no bytes ends the stream, a short one is its
last. -/
def blockRead (remaining want : Nat) (got : Bytes) : State :=
  if got.length = 0 then { s with free := s.free + 1, reader := .closing .ended }
  else
    let last := if got.length < want then some .ended else none
    { s with reader := .sending got (remaining - got.length) last }

/-- One turn of the inner loop of `read_stage`. -/
def fillBlock (s : State) (remaining : Nat) (got : Bytes) : State :=
  let want := min remaining job.pool.chunk
  if got.length < want then
    match readSource (want - got.length) s.source with
    | (.bytes [], source) => blockRead { s with source } remaining want got
    | (.bytes data, source) => { s with source, reader := .filling remaining (got ++ data) }
    | (.interrupted, source) => { s with source }
    | (.failed error, source) =>
      { s with
        source
        reader :=
          if 0 < got.length then .sending got (remaining - got.length) (some (.failed error))
          else .closing (.failed error) }
  else blockRead s remaining want got

/-- `Producer::send`: the reader goes on as `next` if the message went out, and stops if not. -/
def sendBlock (msg : Msg) (next : Reader) : State :=
  if s.hasher.gone then { s with reader := .done }
  else { s with readQueue := s.readQueue ++ [msg], reader := next }

def readStage (s : State) : Option State :=
  match s.reader with
  | .taking remaining =>
    if remaining = 0 then some { s with reader := .closing .ended } else take job s remaining
  | .filling remaining got => some (fillBlock job s remaining got)
  | .sending block _ (some last) => some (sendBlock s (.data block) (.closing last))
  | .sending block remaining none => some (sendBlock s (.data block) (.taking remaining))
  | .closing msg => some (sendBlock s msg .done)
  | .done => none

/-- What `hash_stage` does with the message it received. -/
def hashMsg (hashed : Bytes) : Msg → Hasher
  | .data block =>
    if (hashed ++ block).length = job.len then
      if job.expected = some (job.sha256 (hashed ++ block)) then
        .sendingLast block (job.sha256 (hashed ++ block))
      else .closing .withheld (some (job.sha256 (hashed ++ block)))
    else .forwarding (hashed ++ block) block
  | .ended => .closing .ended (if hashed.length = job.len then some (job.sha256 hashed) else none)
  | .failed error => .closing (.failed error) none
  | .withheld => .closing .withheld none

/-- `tx.send` of the hasher: it goes on as `next` if the message went out, as `failing` if not. -/
def sendHashed (msg : Msg) (next failing : Hasher) : State :=
  if s.store.closed then { s with hasher := failing }
  else { s with hashQueue := s.hashQueue ++ [msg], hasher := next }

def hashStage (s : State) : Option State :=
  match s.hasher with
  | .receiving hashed =>
    match s.readQueue with
    | msg :: rest => some { s with readQueue := rest, hasher := hashMsg job hashed msg }
    | [] => if s.reader.gone then some { s with hasher := .dropping none } else none
  | .forwarding hashed block =>
    some (sendHashed s (.data block) (.receiving hashed) (.dropping none))
  | .sendingLast block actual =>
    some (sendHashed s (.data block) (.closing .ended (some actual)) (.dropping (some actual)))
  | .closing msg result => some (sendHashed s msg (.dropping result) (.dropping result))
  | .dropping result => some { s with readQueue := [], hasher := .done result }
  | .done _ => none

/-- The read returns to `execute`. -/
def State.answer (result : ReadResult) : State :=
  { s with reads := s.reads ++ [result], store := .running }

/-- `PipeReader::read` draws from the buffer it is draining, which goes back when it is empty. -/
def drain (block : Bytes) (limit : Nat) : State :=
  if limit < block.length then
    { s with pipe := { s.pipe with current := some (block.drop limit) } }.answer
      (.ok (block.take limit))
  else
    { s with pipe := { s.pipe with current := none }, returned := s.returned + 1 }.answer (.ok block)

/-- What `PipeReader::read` does with the message it received. -/
def pipeMsg : Msg → State
  | .data block =>
    if 0 < block.length then { s with pipe := { s.pipe with current := some block } }
    else { s with returned := s.returned + 1 }
  | .ended => { s with pipe := { s.pipe with ended := true } }
  | .failed error => { s with pipe := { s.pipe with failed := some error } }.answer (.error error)
  | .withheld =>
    { s with pipe := { s.pipe with failed := some withheld, withheld := true } }.answer
      (.error withheld)

/-- One turn of the loop of `PipeReader::read`. -/
def pipeRead (limit : Nat) : Option State :=
  match s.pipe.current, s.pipe.failed with
  | some block, _ => some (drain s block limit)
  | none, some error => some (s.answer (.error error))
  | none, none =>
    if s.pipe.ended then some (s.answer (.ok []))
    else
      match s.hashQueue with
      | msg :: rest => some (pipeMsg { s with hashQueue := rest } msg)
      | [] => if s.hasher.silent then some (pipeMsg s (.failed stopped)) else none

/-- The calling thread outside `execute`: a read going on, and the drop of the pipe. -/
def callerStep : Option State :=
  match s.store with
  | .reading limit => pipeRead s limit
  | .closing result =>
    some { s with pipe := { s.pipe with current := none }, store := .joining result }
  | .running => none
  | .joining _ => none

inductive Thread where
  | reader
  | hasher
  | caller
  deriving DecidableEq, Repr

def stage (s : State) : Thread → Option State
  | .reader => readStage job s
  | .hasher => hashStage job s
  | .caller => callerStep s

/-- What `execute` may do while it runs: read into a buffer that is not empty (an empty one reads
`Ok(0)` and touches nothing), or return. -/
inductive Choice where
  | read (limit : Nat)
  | finish (result : Except String Nat)

def execute (choice : Choice) : Option State :=
  match s.store, choice with
  | .running, .read limit => if 0 < limit then some { s with store := .reading limit } else some s
  | .running, .finish result => some { s with hashQueue := [], store := .closing result }
  | _, _ => none

inductive Action where
  | stage (thread : Thread)
  | execute (choice : Choice)

def act (s : State) : Action → Option State
  | .stage thread => stage job s thread
  | .execute choice => execute s choice

/-- `write_verified` with the threads started, from a pool with `free` buffers left by earlier files. -/
def start (source : List SourceRead) (free : Nat) : State where
  source := source
  allocated := free
  free := free
  reader := .taking job.len
  readQueue := []
  hasher := .receiving []
  hashQueue := []
  pipe := {}
  returned := 0
  store := .running
  reads := []

structure Streamed where
  store : Except String Nat
  sha256 : Option String
  withheld : Bool

inductive Verdict where
  | written (sha256 : String)
  | mismatch (sha256 : String)
  | failed (message : String)
  deriving DecidableEq, Repr

/-- What `write_verified` returns once both stages are joined. -/
def State.streamed : Option Streamed :=
  match s.store, s.reader, s.hasher with
  | .joining result, .done, .done sha256 => some ⟨result, sha256, s.pipe.withheld⟩
  | _, _, _ => none

/-- `Streamed::verdict`; `none` is the panic of its `expect`. -/
def Streamed.verdict (streamed : Streamed) (expected : Option String) : Option Verdict :=
  if streamed.withheld then streamed.sha256.map .mismatch
  else
    match streamed.store, streamed.sha256 with
    | .error message, _ => some (.failed message)
    | .ok _, some actual =>
      if expected = some actual then some (.written actual) else some (.mismatch actual)
    | .ok _, none =>
      some (.failed
        "write pipeline: the store took the whole file but the inline hash did not finish")

/-- `BufferPool::settle`: the buffers the next file finds. -/
def State.settle : Nat := s.free + s.returned

end Tapectl.Pipeline
