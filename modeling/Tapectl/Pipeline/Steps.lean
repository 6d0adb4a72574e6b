import Tapectl.Pipeline.Streams

/-!
# What a step of each thread can do

`ReaderStep`, `HasherStep` and `CallerStep` say it once for each thread: what a step leaves alone, what
becomes of the streams, how many buffers there are afterwards, and that less work is left.
-/

namespace Tapectl.Pipeline

open StoredText

def Msg.buffers : Msg → Nat
  | .data _ => 1
  | _ => 0

def Reader.buffers : Reader → Nat
  | .filling _ _ => 1
  | .sending _ _ _ => 1
  | _ => 0

def Hasher.buffers : Hasher → Nat
  | .forwarding _ _ => 1
  | .sendingLast _ _ => 1
  | _ => 0

def PipeReader.buffers (pipe : PipeReader) : Nat := if pipe.current.isSome then 1 else 0

def queued (queue : List Msg) : Nat := (queue.map Msg.buffers).sum

def State.buffers (s : State) : Nat :=
  s.free + s.returned + s.reader.buffers + queued s.readQueue + s.hasher.buffers +
    queued s.hashQueue + s.pipe.buffers

def Reader.working : Reader → Bool
  | .closing _ => false
  | .done => false
  | _ => true

def Hasher.working : Hasher → Bool
  | .receiving _ => true
  | .forwarding _ _ => true
  | .sendingLast _ _ => true
  | _ => false

def Reader.rank : Reader → Nat
  | .taking remaining => 30 * remaining + 20
  | .filling remaining _ => 30 * remaining + 19
  | .sending _ remaining none => 30 * remaining + 28
  | .sending _ _ (some _) => 16
  | .closing _ => 8
  | .done => 0

def Hasher.rank : Hasher → Nat
  | .receiving _ => 2
  | .forwarding _ _ => 5
  | .sendingLast _ _ => 7
  | .closing _ _ => 4
  | .dropping _ => 1
  | .done _ => 0

def Store.rank : Store → Nat
  | .running => 0
  | .reading _ => 2
  | .closing _ => 1
  | .joining _ => 0

/-- The work left to the pipeline's own code: a message weighs what it costs to bring it to the store. -/
def State.rank (s : State) : Nat :=
  sourceRank s.source + s.reader.rank + 7 * s.readQueue.length + s.hasher.rank +
    2 * s.hashQueue.length + s.pipe.buffers + s.store.rank

def Msg.closes : Msg → Bool
  | .ended => true
  | .failed _ => true
  | _ => false

/-- A block being filled fits its buffer and the bytes still wanted, and a stream is closed by the
source's end or error. -/
def Reader.Fits (job : Job) : Reader → Prop
  | .filling remaining got => 0 < remaining ∧ got.length ≤ min remaining job.pool.chunk
  | .sending _ _ (some last) => last.closes
  | .closing msg => msg.closes
  | _ => True

@[simp] theorem queued_append (queue : List Msg) (msg : Msg) :
    queued (queue ++ [msg]) = queued queue + msg.buffers := by
  simp [queued]

/-- What becomes of the buffers in a step: they are as before, one is new, or one went with a stage
that no longer works. -/
structure Counted (job : Job) (s s' : State) : Prop where
  kept : s'.buffers ≤ s'.allocated - s.allocated + s.buffers
  grows : s.allocated ≤ s'.allocated
  within : s.allocated ≤ job.pool.maxBuffers → s'.allocated ≤ job.pool.maxBuffers
  lossless : s'.reader.working → s'.hasher.working → s'.store.closed = false →
    s'.buffers = s'.allocated - s.allocated + s.buffers

structure ReaderStep (job : Job) (s s' : State) : Prop where
  frame : s'.hasher = s.hasher ∧ s'.hashQueue = s.hashQueue ∧ s'.pipe = s.pipe ∧
    s'.store = s.store ∧ s'.reads = s.reads
  fits : s'.reader.Fits job
  streams : s'.readQueue ++ s'.reader.out job s'.source = s.readQueue ++ s.reader.out job s.source ∨
    (s'.readQueue = s.readQueue ∧ s'.reader.out job s'.source = [] ∧
      (s.hasher.gone ∨ s.store.gone))
  working : s'.reader.working → s.reader.working
  counted : Counted job s s'
  lower : s'.rank < s.rank

theorem fill_step {job : Job} {s : State} {remaining : Nat} (at_head : s.reader = .taking remaining)
    (wants : remaining ≠ 0) {free returned allocated : Nat}
    (taken : free + returned + 1 = allocated - s.allocated + (s.free + s.returned))
    (grows : s.allocated ≤ allocated)
    (within : s.allocated ≤ job.pool.maxBuffers → allocated ≤ job.pool.maxBuffers) :
    ReaderStep job s ({ s with free, returned, allocated }.fill remaining) where
  frame := ⟨rfl, rfl, rfl, rfl, rfl⟩
  fits := ⟨Nat.pos_of_ne_zero wants, Nat.zero_le _⟩
  streams := .inl (by simp only [at_head]; rfl)
  working := by simp [at_head, Reader.working]
  counted := by
    have same : ({ s with free, returned, allocated }.fill remaining).buffers =
        allocated - s.allocated + s.buffers := by
      simp only [State.fill, State.buffers, at_head, Reader.buffers]
      omega
    exact ⟨same.le, grows, within, fun _ _ _ => same⟩
  lower := by
    simp only [State.fill, State.rank, at_head, Reader.rank]
    omega

theorem take_step {job : Job} {s s' : State} {remaining : Nat} (at_head : s.reader = .taking remaining)
    (wants : remaining ≠ 0) (stepped : take job s remaining = some s') : ReaderStep job s s' := by
  unfold take at stepped
  split at stepped
  · cases stepped
    exact fill_step at_head wants (by omega) le_rfl id
  · split at stepped
    · cases stepped
      exact fill_step at_head wants (by omega) le_rfl id
    · split at stepped
      · rename_i gone
        cases stepped
        refine ⟨⟨rfl, rfl, rfl, rfl, rfl⟩, trivial, .inr ⟨rfl, rfl, .inr gone⟩, ?_,
          ⟨?_, le_rfl, id, ?_⟩, ?_⟩ <;>
        simp [State.buffers, State.rank, at_head, Reader.buffers, Reader.rank, Reader.working]
      · split at stepped
        · cases stepped
          exact fill_step at_head wants (by omega) (Nat.le_succ _) (fun _ => by omega)
        · cases stepped

def closeMsg : Option IoError → Msg
  | some error => .failed error
  | none => .ended

theorem read_msgs_none (job : Job) {remaining : Nat} (wants : 0 < remaining) (error : Option IoError) :
    readMsgs job remaining ([], error) = [closeMsg error] := by
  cases error <;> simp [readMsgs, closeMsg, blocks_nil]
  omega

variable {got : Bytes} {source : List SourceRead} {limit : Nat}

theorem read_msgs_short (job : Job) {remaining : Nat} (some_bytes : got ≠ [])
    (short : got.length < min remaining job.pool.chunk) (error : Option IoError) :
    readMsgs job remaining (got, error) = [.data got, closeMsg error] := by
  have only := @blocks_first _ job.pool.chunk_pos got some_bytes [] (.inr ⟨by omega, rfl⟩)
  rw [List.append_nil, blocks_nil] at only
  rw [readMsgs, List.take_of_length_le (by simp only; omega), only]
  cases error <;> simp [closeMsg]
  omega

theorem read_msgs_block (job : Job) {remaining : Nat} {rest : Bytes} (some_bytes : got ≠ [])
    (full : got.length = min remaining job.pool.chunk) (error : Option IoError) :
    readMsgs job remaining (got ++ rest, error) =
      .data got :: readMsgs job (remaining - got.length) (rest, error) := by
  have cut : (got ++ rest).take remaining = got ++ rest.take (remaining - got.length) := by
    rw [List.take_append, List.take_of_length_le (by omega)]
  have first := @blocks_first _ job.pool.chunk_pos got some_bytes (rest.take (remaining - got.length))
    (by
      by_cases chunk : job.pool.chunk ≤ remaining
      · exact .inl (by omega)
      · exact .inr ⟨by omega, by rw [show remaining - got.length = 0 by omega, List.take_zero]⟩)
  have enough : remaining ≤ (got ++ rest).length ↔ remaining - got.length ≤ rest.length := by
    rw [List.length_append]
    omega
  simp only [readMsgs, cut, first, enough, List.map_cons, List.cons_append]

theorem reader_moves {job : Job} {s : State} {remaining : Nat}
    (filling : s.reader = .filling remaining got) {reader : Reader} (fits : reader.Fits job)
    (same : reader.out job source = (Reader.filling remaining got).out job s.source)
    (holds : reader.working → reader.buffers = 1) (most : reader.buffers ≤ 1)
    (lower : sourceRank source + reader.rank < sourceRank s.source + (30 * remaining + 19)) :
    ReaderStep job s { s with source, reader } where
  frame := ⟨rfl, rfl, rfl, rfl, rfl⟩
  fits := fits
  streams := .inl (by simp only [same, filling])
  working := by simp [filling, Reader.working]
  counted := by
    have held : s.reader.buffers = 1 := by rw [filling]; rfl
    refine ⟨?_, le_rfl, id, ?_⟩
    · simp only [State.buffers, held]
      omega
    · intro working _ _
      simp only [State.buffers, held, holds working]
      omega
  lower := by
    have rank : s.reader.rank = 30 * remaining + 19 := by rw [filling]; rfl
    simp only [State.rank, rank]
    omega

theorem fill_block_step {job : Job} {s : State} {remaining : Nat}
    (filling : s.reader = .filling remaining got) (fits : (Reader.filling remaining got).Fits job) :
    ReaderStep job s (fillBlock job s remaining got) := by
  obtain ⟨wants, fits⟩ := fits
  unfold fillBlock
  by_cases more : got.length < min remaining job.pool.chunk
  · simp only [if_pos more]
    have reads := read_source_reads (Nat.sub_pos_of_lt more) s.source
    generalize readSource (min remaining job.pool.chunk - got.length) s.source = answer at reads
    obtain ⟨read, source⟩ := answer
    cases read with
    | bytes data =>
      cases data with
      | nil =>
        obtain ⟨ends, shorter⟩ := reads
        unfold blockRead
        by_cases empty : got = []
        · subst empty
          -- the buffer goes back to the pool, so this is not a move of the reader alone
          refine ⟨⟨rfl, rfl, rfl, rfl, rfl⟩, rfl, .inl ?_, ?_, ⟨?_, le_rfl, id, ?_⟩, ?_⟩
          · simp [filling, Reader.out, ends, read_msgs_none job wants, closeMsg]
          · simp [filling, Reader.working]
          · simp only [List.length_nil, if_true, State.buffers, filling, Reader.buffers]
            omega
          · intro working
            simp [Reader.working] at working
          · simp only [List.length_nil, if_true, State.rank, filling, Reader.rank]
            simp only at shorter
            omega
        · have some_bytes := List.length_pos_iff.2 empty
          simp only [if_neg some_bytes.ne', if_pos more]
          apply reader_moves filling
          · trivial
          · simp [Reader.out, ends, read_msgs_short job empty more, closeMsg]
          · exact fun _ => rfl
          · exact le_rfl
          · simp only [Reader.rank]
            simp only at shorter
            omega
      | cons byte data =>
        obtain ⟨short, yields, shorter⟩ := reads
        apply reader_moves filling
        · refine ⟨wants, ?_⟩
          rw [List.length_append]
          omega
        · simp [Reader.out, yields]
        · exact fun _ => rfl
        · exact le_rfl
        · simp only [Reader.rank]
          simp only at shorter
          omega
    | interrupted =>
      obtain ⟨yields, shorter⟩ := reads
      have moved : ReaderStep job s { s with source, reader := .filling remaining got } := by
        apply reader_moves filling
        · exact ⟨wants, fits⟩
        · simp [Reader.out, yields]
        · exact fun _ => rfl
        · exact le_rfl
        · simp only [Reader.rank]
          simp only at shorter
          omega
      rwa [← filling] at moved
    | failed error =>
      obtain ⟨yields, shorter⟩ := reads
      by_cases empty : got = []
      · subst empty
        apply reader_moves filling
        · trivial
        · simp [Reader.out, yields, read_msgs_none job wants, closeMsg]
        · simp [Reader.working]
        · simp [Reader.buffers]
        · simp only [List.length_nil, lt_irrefl, if_false, Reader.rank]
          simp only at shorter
          omega
      · simp only [if_pos (List.length_pos_iff.2 empty)]
        apply reader_moves filling
        · trivial
        · simp [Reader.out, yields, read_msgs_short job empty more, closeMsg]
        · exact fun _ => rfl
        · exact le_rfl
        · simp only [Reader.rank]
          simp only at shorter
          omega
  · have full : got.length = min remaining job.pool.chunk := by omega
    have pos := job.pool.chunk_pos
    have some_bytes : 0 < got.length := by omega
    simp only [if_neg more, blockRead, if_neg some_bytes.ne']
    apply reader_moves filling
    · trivial
    · exact (read_msgs_block job (List.length_pos_iff.1 some_bytes) full _).symm
    · exact fun _ => rfl
    · exact le_rfl
    · simp only [Reader.rank]
      omega

theorem closes_buffers {msg : Msg} (closes : msg.closes) : msg.buffers = 0 := by
  cases msg with
  | data block => cases closes
  | ended => rfl
  | failed error => rfl
  | withheld => rfl

theorem send_block_step {job : Job} {s : State} {msg : Msg} {next : Reader} (fits : next.Fits job)
    (sends : s.reader.out job s.source = msg :: next.out job s.source)
    (working : next.working → s.reader.working)
    (holds : s.reader.buffers = msg.buffers) (empty : next.buffers = 0)
    (lower : next.rank + 7 < s.reader.rank) :
    ReaderStep job s (sendBlock s msg next) := by
  unfold sendBlock
  split
  · rename_i gone
    refine ⟨⟨rfl, rfl, rfl, rfl, rfl⟩, trivial, .inr ⟨rfl, rfl, .inl gone⟩, ?_,
      ⟨?_, le_rfl, id, ?_⟩, ?_⟩
    · simp [Reader.working]
    · simp [State.buffers, Reader.buffers]
    · simp [Reader.working]
    · have none : Reader.done.rank = 0 := rfl
      simp only [State.rank, none]
      omega
  · have same : { s with readQueue := s.readQueue ++ [msg], reader := next }.buffers = s.buffers := by
      simp only [State.buffers, empty, holds, queued_append]
      omega
    refine ⟨⟨rfl, rfl, rfl, rfl, rfl⟩, fits, .inl (by simp [sends]), working,
      ⟨by simp [same], le_rfl, id, fun _ _ _ => by simp [same]⟩, ?_⟩
    simp only [State.rank, List.length_append, List.length_cons, List.length_nil]
    omega

theorem read_stage_step {job : Job} {s s' : State} (fits : s.reader.Fits job)
    (stepped : readStage job s = some s') : ReaderStep job s s' := by
  unfold readStage at stepped
  split at stepped
  · rename_i remaining at_head
    split at stepped
    · rename_i none_left
      cases stepped
      subst none_left
      refine ⟨⟨rfl, rfl, rfl, rfl, rfl⟩, rfl, .inl ?_, ?_, ⟨?_, le_rfl, id, ?_⟩, ?_⟩
      · rw [at_head]
        simp only [Reader.out, readMsgs, List.take_zero, blocks_nil]
        split <;> simp
      · simp [at_head, Reader.working]
      · simp [State.buffers, at_head, Reader.buffers]
      · simp [Reader.working]
      · simp [State.rank, at_head, Reader.rank]
    · exact take_step at_head (by assumption) stepped
  · rename_i remaining got filling
    cases stepped
    exact fill_block_step filling (filling ▸ fits)
  · rename_i block remaining last sending
    cases stepped
    rw [sending] at fits
    apply send_block_step <;>
    simp [Reader.Fits, sending, Reader.out, Reader.working, Reader.buffers, Msg.buffers, Reader.rank]
    exact fits
  · rename_i block remaining sending
    cases stepped
    apply send_block_step <;>
    simp [Reader.Fits, sending, Reader.out, Reader.working, Reader.buffers, Msg.buffers, Reader.rank]
  · rename_i msg closing
    cases stepped
    rw [closing] at fits
    apply send_block_step <;>
    simp [Reader.Fits, closing, Reader.out, Reader.working, Reader.buffers, Reader.rank]
    exact (closes_buffers fits).symm
  · cases stepped

theorem withheld_not_out {job : Job} {reader : Reader} (fits : reader.Fits job)
    (source : List SourceRead) : .withheld ∉ reader.out job source := by
  have reads : ∀ remaining feed, Msg.withheld ∉ readMsgs job remaining feed := by
    intro remaining feed
    simp only [readMsgs, List.mem_append, List.mem_map, List.mem_singleton, reduceCtorEq, and_false,
      exists_false, false_or]
    split
    · split <;> simp
    · simp
  cases reader with
  | taking remaining => exact reads _ _
  | filling remaining got => exact reads _ _
  | sending block remaining last =>
    cases last with
    | none => simpa [Reader.out] using reads _ _
    | some last =>
      simp only [Reader.out, List.mem_cons, reduceCtorEq, List.not_mem_nil, or_false, false_or]
      rintro rfl
      cases fits
  | closing msg =>
    simp only [Reader.out, List.mem_singleton]
    rintro rfl
    cases fits
  | done => exact List.not_mem_nil

def Complete (job : Job) (source : List SourceRead) (actual : String) : Prop :=
  job.len ≤ (yielded source).1.length ∧ actual = job.sha256 ((yielded source).1.take job.len)

def Msg.payload : Msg → Bytes
  | .data block => block
  | _ => []

/-- What the hasher has hashed, with what is still to be fed to it, is the front of the file; a hash it
reports is the whole file's; and it withholds a block only with a hash to report. -/
def Hasher.Sound (job : Job) (source : List SourceRead) (fed : List Msg) : Hasher → Prop
  | .receiving hashed => hashed ++ fed.flatMap Msg.payload <+: (yielded source).1.take job.len
  | .forwarding hashed _ => hashed ++ fed.flatMap Msg.payload <+: (yielded source).1.take job.len
  | .sendingLast _ actual => Complete job source actual
  | .closing msg result =>
    (∀ actual ∈ result, Complete job source actual) ∧ msg.buffers = 0 ∧
      (msg = .withheld → result.isSome)
  | .dropping result => ∀ actual ∈ result, Complete job source actual
  | .done result => ∀ actual ∈ result, Complete job source actual

def Hasher.result : Hasher → Option String
  | .receiving _ => none
  | .forwarding _ _ => none
  | .sendingLast _ actual => some actual
  | .closing _ result => result
  | .dropping result => result
  | .done result => result

structure HasherStep (job : Job) (s s' : State) : Prop where
  frame : s'.source = s.source ∧ s'.reader = s.reader ∧ s'.pipe = s.pipe ∧ s'.store = s.store ∧
    s'.reads = s.reads
  streams : s.store.closed = false →
    s'.hashQueue ++ s'.hasher.out job (s'.readQueue ++ s.reader.out job s.source) =
      s.hashQueue ++ s.hasher.out job (s.readQueue ++ s.reader.out job s.source)
  takes : s'.readQueue ⊆ s.readQueue
  working : s'.hasher.working → s.hasher.working
  counted : Counted job s s'
  lower : s'.rank < s.rank

theorem hash_msg_out (job : Job) (hashed : Bytes) (msg : Msg) (rest : List Msg) :
    (hashMsg job hashed msg).out job rest = hashMsgs job hashed (msg :: rest) := by
  cases msg with
  | data block =>
    simp only [hashMsg, hashMsgs]
    split
    · split <;> rfl
    · rfl
  | ended => rfl
  | failed error => rfl
  | withheld => rfl

theorem receive_step {job : Job} {s : State} {hashed : Bytes} (receiving : s.hasher = .receiving hashed)
    {msg : Msg} {rest : List Msg} (queue : s.readQueue = msg :: rest) :
    HasherStep job s { s with readQueue := rest, hasher := hashMsg job hashed msg } := by
  have held : (hashMsg job hashed msg).buffers ≤ msg.buffers ∧
      ((hashMsg job hashed msg).working → (hashMsg job hashed msg).buffers = msg.buffers) ∧
      (hashMsg job hashed msg).rank ≤ 7 := by
    cases msg with
    | data block =>
      simp only [hashMsg]
      split
      · split <;> simp [Hasher.buffers, Msg.buffers, Hasher.working, Hasher.rank]
      · simp [Hasher.buffers, Msg.buffers, Hasher.rank]
    | ended => simp [hashMsg, Hasher.buffers, Msg.buffers, Hasher.rank]
    | failed error => simp [hashMsg, Hasher.buffers, Msg.buffers, Hasher.rank]
    | withheld => simp [hashMsg, Hasher.buffers, Msg.buffers, Hasher.rank]
  have before : s.hasher.buffers = 0 ∧ s.hasher.rank = 2 := by rw [receiving]; exact ⟨rfl, rfl⟩
  have queued : queued s.readQueue = msg.buffers + queued rest := by rw [queue]; rfl
  refine ⟨⟨rfl, rfl, rfl, rfl, rfl⟩, fun _ => ?_, ?_, ?_, ⟨?_, le_rfl, id, ?_⟩, ?_⟩
  · rw [hash_msg_out, receiving, queue]
    rfl
  · rw [queue]
    exact List.subset_cons_self _ _
  · simp [receiving, Hasher.working]
  · simp only [State.buffers, before.1, queued]
    omega
  · intro _ working _
    simp only [State.buffers, before.1, queued, held.2.1 working]
    omega
  · simp only [State.rank, before.2, queue, List.length_cons]
    omega

theorem send_hashed_step {job : Job} {s : State} {msg : Msg} {next failing : Hasher}
    (sends : ∀ fed, s.hasher.out job fed = msg :: next.out job fed)
    (working : next.working → s.hasher.working)
    (holds : s.hasher.buffers = msg.buffers) (empty : next.buffers = 0)
    (lower : next.rank + 2 < s.hasher.rank)
    (fails : failing.working = false ∧ failing.buffers = 0 ∧ failing.rank < s.hasher.rank) :
    HasherStep job s (sendHashed s msg next failing) := by
  unfold sendHashed
  split
  · rename_i closed
    refine ⟨⟨rfl, rfl, rfl, rfl, rfl⟩, ?_, fun _ => id, ?_, ⟨?_, le_rfl, id, ?_⟩, ?_⟩
    · simp [closed]
    · simp [fails.1]
    · simp only [State.buffers, fails.2.1]
      omega
    · simp [fails.1]
    · simp only [State.rank]
      omega
  · have same : { s with hashQueue := s.hashQueue ++ [msg], hasher := next }.buffers = s.buffers := by
      simp only [State.buffers, empty, holds, queued_append]
      omega
    refine ⟨⟨rfl, rfl, rfl, rfl, rfl⟩, fun _ => by simp [sends], fun _ => id, working,
      ⟨by simp [same], le_rfl, id, fun _ _ _ => by simp [same]⟩, ?_⟩
    simp only [State.rank, List.length_append, List.length_cons, List.length_nil]
    omega

theorem hash_stage_step {job : Job} {s s' : State}
    (sound : s.hasher.Sound job source (s.readQueue ++ s.reader.out job s.source))
    (stepped : hashStage job s = some s') : HasherStep job s s' := by
  unfold hashStage at stepped
  split at stepped
  · rename_i hashed receiving
    split at stepped
    · rename_i msg rest queue
      cases stepped
      exact receive_step receiving queue
    · rename_i empty
      split at stepped
      · rename_i gone
        cases stepped
        have none_out : s.reader.out job s.source = [] := by
          revert gone
          cases s.reader <;> simp [Reader.gone, Reader.out]
        refine ⟨⟨rfl, rfl, rfl, rfl, rfl⟩, ?_, fun _ => id, ?_, ⟨?_, le_rfl, id, ?_⟩, ?_⟩
        · simp [receiving, empty, none_out, Hasher.out, hashMsgs]
        · simp [Hasher.working]
        · simp [State.buffers, receiving, Hasher.buffers]
        · simp [Hasher.working]
        · simp [State.rank, receiving, Hasher.rank]
      · cases stepped
  · rename_i hashed block forwarding
    cases stepped
    apply send_hashed_step <;>
    simp [forwarding, Hasher.out, Hasher.working, Hasher.buffers, Msg.buffers, Hasher.rank]
  · rename_i block actual last
    cases stepped
    apply send_hashed_step <;>
    simp [last, Hasher.out, Hasher.working, Hasher.buffers, Msg.buffers, Hasher.rank]
  · rename_i msg result closing
    cases stepped
    rw [closing] at sound
    apply send_hashed_step <;>
    simp [closing, Hasher.out, Hasher.working, Hasher.buffers, Hasher.rank, sound.2.1]
  · rename_i result dropping
    cases stepped
    refine ⟨⟨rfl, rfl, rfl, rfl, rfl⟩, ?_, List.nil_subset _, ?_, ⟨?_, le_rfl, id, ?_⟩, ?_⟩
    · simp [dropping, Hasher.out]
    · simp [Hasher.working]
    · simp only [State.buffers, dropping, Hasher.buffers, queued, List.map_nil, List.sum_nil]
      omega
    · simp [Hasher.working]
    · simp only [State.rank, dropping, Hasher.rank, List.length_nil]
      omega
  · cases stepped

theorem complete_of_front {job : Job} {hashed : Bytes}
    (front : hashed <+: (yielded source).1.take job.len) (length : hashed.length = job.len) :
    Complete job source (job.sha256 hashed) := by
  have cut := front.length_le
  rw [length, List.length_take] at cut
  refine ⟨by omega, ?_⟩
  rw [front.eq_of_length (by rw [length, List.length_take]; omega)]

theorem hash_msg_sound {job : Job} {hashed : Bytes} {msg : Msg} {fed : List Msg}
    (known : msg ≠ .withheld) (sound : (Hasher.receiving hashed).Sound job source (msg :: fed)) :
    (hashMsg job hashed msg).Sound job source fed := by
  rw [Hasher.Sound, List.flatMap_cons] at sound
  cases msg with
  | data block =>
    rw [Msg.payload, ← List.append_assoc] at sound
    simp only [hashMsg]
    split
    · rename_i length
      have whole := complete_of_front ((List.prefix_append _ _).trans sound) length
      split
      · exact whole
      · refine ⟨?_, rfl, fun _ => rfl⟩
        rintro _ ⟨⟩
        exact whole
    · exact sound
  | ended =>
    refine ⟨?_, rfl, by simp⟩
    intro actual returned
    split at returned
    · rename_i length
      cases returned
      exact complete_of_front ((List.prefix_append _ _).trans sound) length
    · cases returned
  | failed error => exact ⟨by simp, rfl, by simp⟩
  | withheld => exact absurd rfl known

theorem hash_stage_sound {job : Job} {s s' : State} (known : .withheld ∉ s.readQueue)
    (sound : s.hasher.Sound job source (s.readQueue ++ s.reader.out job s.source))
    (stepped : hashStage job s = some s') :
    s'.hasher.Sound job source (s'.readQueue ++ s.reader.out job s.source) := by
  unfold hashStage at stepped
  split at stepped
  · rename_i hashed receiving
    rw [receiving] at sound
    split at stepped
    · rename_i msg rest queue
      cases stepped
      rw [queue] at sound known
      exact hash_msg_sound (fun withheld => known (withheld ▸ List.mem_cons_self)) sound
    · split at stepped
      · cases stepped
        simp [Hasher.Sound]
      · cases stepped
  · rename_i hashed block forwarding
    cases stepped
    rw [forwarding] at sound
    unfold sendHashed
    split
    · simp [Hasher.Sound]
    · exact sound
  · rename_i block actual last
    cases stepped
    rw [last] at sound
    unfold sendHashed
    split
    · simpa [Hasher.Sound] using sound
    · simpa [Hasher.Sound, Msg.buffers] using sound
  · rename_i msg result closing
    cases stepped
    rw [closing] at sound
    unfold sendHashed
    split <;> exact sound.1
  · rename_i result dropping
    cases stepped
    rw [dropping] at sound
    exact sound
  · cases stepped

/-- The hasher has told the store that it withheld a block only with a hash to report. -/
def Told (s : State) : Prop :=
  (.withheld ∈ s.hashQueue ∨ s.pipe.withheld = true) → s.hasher.result.isSome

theorem hash_stage_told {job : Job} {s s' : State}
    (sound : s.hasher.Sound job source (s.readQueue ++ s.reader.out job s.source)) (told : Told s)
    (stepped : hashStage job s = some s') : Told s' := by
  unfold hashStage at stepped
  split at stepped
  · rename_i hashed receiving
    have silent : ¬(.withheld ∈ s.hashQueue ∨ s.pipe.withheld = true) := by
      intro withheld
      simpa [receiving, Hasher.result] using told withheld
    split at stepped
    · cases stepped
      exact fun withheld => absurd withheld silent
    · split at stepped
      · cases stepped
        exact fun withheld => absurd withheld silent
      · cases stepped
  · rename_i hashed block forwarding
    cases stepped
    have silent : ¬(.withheld ∈ s.hashQueue ∨ s.pipe.withheld = true) := by
      intro withheld
      simpa [forwarding, Hasher.result] using told withheld
    unfold sendHashed
    split
    · exact fun withheld => absurd withheld silent
    · intro withheld
      simp only [List.mem_append, List.mem_singleton, reduceCtorEq, or_false] at withheld
      exact absurd withheld silent
  · cases stepped
    unfold sendHashed
    split <;> exact fun _ => rfl
  · rename_i msg result closing
    cases stepped
    rw [closing] at sound
    have kept : (.withheld ∈ s.hashQueue ∨ s.pipe.withheld = true) → result.isSome := by
      simpa [Told, closing, Hasher.result] using told
    unfold sendHashed
    split
    · exact kept
    · intro withheld
      simp only [List.mem_append, List.mem_singleton] at withheld
      rcases withheld with (queued | sent) | pipe
      · exact kept (.inl queued)
      · exact sound.2.2 sent.symm
      · exact kept (.inr pipe)
  · rename_i result dropping
    cases stepped
    simpa [Told, dropping, Hasher.result] using told
  · cases stepped

/-- What `execute` has been given, with `rest` still to come, is `total`: blocks with bytes in them, and
once there is nothing more to come, how it ends, again and again. -/
def Fed (reads : List ReadResult) (rest total : Bytes × Ending) : Prop :=
  ∃ (given : List Bytes) (count : Nat), reads = given.map .ok ++ List.replicate count total.2.result ∧ [] ∉ given ∧
    given.flatten ++ rest.1 = total.1 ∧ rest.2 = total.2 ∧ (0 < count → rest.1 = [])

theorem Fed.block {reads : List ReadResult} {rest total : Bytes × Ending} (fed : Fed reads rest total)
    {block more : Bytes} (some_bytes : block ≠ []) (next : rest.1 = block ++ more) :
    Fed (reads ++ [.ok block]) (more, rest.2) total := by
  obtain ⟨given, count, rfl, full, whole, ends, finished⟩ := fed
  have started : count = 0 := by
    by_contra late
    have none_left := finished (Nat.pos_of_ne_zero late)
    rw [next] at none_left
    exact some_bytes (List.append_eq_nil_iff.1 none_left).1
  refine ⟨given ++ [block], 0, ?_, ?_, ?_, ends, fun late => absurd late (lt_irrefl 0)⟩
  · simp [started]
  · simp [full, Ne.symm some_bytes]
  · simp [← whole, next]

theorem Fed.again {reads : List ReadResult} {rest total : Bytes × Ending} (fed : Fed reads rest total)
    (none_left : rest.1 = []) : Fed (reads ++ [rest.2.result]) rest total := by
  obtain ⟨given, count, rfl, full, whole, ends, _⟩ := fed
  refine ⟨given, count + 1, ?_, full, whole, ends, fun _ => none_left⟩
  rw [List.replicate_succ', ends, List.append_assoc]

structure CallerStep (job : Job) (s s' : State) : Prop where
  frame : s'.source = s.source ∧ s'.reader = s.reader ∧ s'.readQueue = s.readQueue ∧
    s'.hasher = s.hasher
  closed : s'.store.closed = s.store.closed
  reads : s.store.closed = true → s'.reads = s.reads
  fed : s.store.closed = false → ∀ total, Fed s.reads (s.rest job) total →
    Fed s'.reads (s'.rest job) total
  holds : ∀ block, s'.pipe.current = some block → block ≠ []
  room : ∀ limit, s'.store = .reading limit → s.store = .reading limit
  told : (.withheld ∈ s'.hashQueue ∨ s'.pipe.withheld = true) →
    .withheld ∈ s.hashQueue ∨ s.pipe.withheld = true
  counted : Counted job s s'
  lower : s'.rank < s.rank

/-- A step of a read touches the pipe, the queue to the store and the buffers handed back. -/
theorem caller_moves {job : Job} {s : State} (reading : s.store = .reading limit)
    {pipe : PipeReader} {hashQueue : List Msg} {returned : Nat} {reads : List ReadResult}
    {store : Store} (goes : store = .running ∨ store = .reading limit)
    (fed : ∀ total, Fed s.reads (s.rest job) total →
      Fed reads (pipe.rest (hashQueue ++
        s.hasher.out job (s.readQueue ++ s.reader.out job s.source))) total)
    (holds : ∀ block, pipe.current = some block → block ≠ [])
    (told : (.withheld ∈ hashQueue ∨ pipe.withheld = true) →
      .withheld ∈ s.hashQueue ∨ s.pipe.withheld = true)
    (buffers : returned + queued hashQueue + pipe.buffers =
      s.returned + queued s.hashQueue + s.pipe.buffers)
    (lower : 2 * hashQueue.length + pipe.buffers + store.rank <
      2 * s.hashQueue.length + s.pipe.buffers + 2) :
    CallerStep job s { s with pipe, hashQueue, returned, reads, store } where
  frame := ⟨rfl, rfl, rfl, rfl⟩
  closed := by rcases goes with rfl | rfl <;> simp [reading, Store.closed]
  reads := by simp [reading, Store.closed]
  fed := fun _ => fed
  holds := holds
  room := by
    rcases goes with rfl | rfl
    · simp
    · simp [reading]
  told := told
  counted := by
    have same : { s with pipe, hashQueue, returned, reads, store }.buffers = s.buffers := by
      simp only [State.buffers]
      omega
    exact ⟨by simp [same], le_rfl, id, fun _ _ _ => by simp [same]⟩
  lower := by
    have rank : s.store.rank = 2 := by rw [reading]; rfl
    simp only [State.rank, rank]
    omega

theorem drain_step {job : Job} {s : State} {block : Bytes} (reading : s.store = .reading limit)
    (room : 0 < limit) (current : s.pipe.current = some block) (some_bytes : block ≠ []) :
    CallerStep job s (drain s block limit) := by
  have held : s.pipe.buffers = 1 := by simp [PipeReader.buffers, current]
  unfold drain
  split
  · rename_i more
    apply caller_moves reading (.inl rfl)
    · intro total fed
      refine @Fed.block _ _ _ fed (block.take limit) _ ?_ ?_
      · simp [some_bytes]
        omega
      · simp [State.rest, PipeReader.rest, PipeReader.behind, current, ← List.append_assoc]
    · rintro _ ⟨⟩
      simpa using more
    · exact id
    · simp [PipeReader.buffers, current]
    · simp [PipeReader.buffers, current, Store.rank]
  · apply caller_moves reading (.inl rfl)
    · intro total fed
      refine fed.block some_bytes ?_
      simp [State.rest, PipeReader.rest, PipeReader.behind, current]
    · rintro _ ⟨⟩
    · exact id
    · simp [PipeReader.buffers, current]
      omega
    · simp [PipeReader.buffers, current, Store.rank]
      omega

theorem pipe_msg_step {job : Job} {s : State} (reading : s.store = .reading limit)
    (drained : s.pipe.current = none) (sound : s.pipe.failed = none)
    (going : s.pipe.ended = false) {msg : Msg} {rest : List Msg}
    (queue : s.hashQueue = msg :: rest) :
    CallerStep job s (pipeMsg { s with hashQueue := rest } msg) := by
  have before : s.rest job = deliver (msg :: rest ++
      s.hasher.out job (s.readQueue ++ s.reader.out job s.source)) := by
    simp [State.rest, PipeReader.rest, PipeReader.behind, drained, sound, going, queue]
  have kept : .withheld ∈ rest → .withheld ∈ s.hashQueue := by
    rw [queue]
    exact List.mem_cons_of_mem _
  cases msg with
  | data block =>
    simp only [pipeMsg]
    split
    · rename_i some_bytes
      apply caller_moves reading (.inr reading)
      · intro total fed
        rw [before] at fed
        simpa [PipeReader.rest, PipeReader.behind, sound, going, deliver] using fed
      · rintro _ ⟨⟩
        exact List.length_pos_iff.1 some_bytes
      · exact Or.imp_left kept
      · simp [PipeReader.buffers, drained, queue, queued, Msg.buffers]
        omega
      · simp [PipeReader.buffers, drained, queue, Store.rank, reading]
        omega
    · rename_i none
      have empty : block = [] := by simpa using none
      apply caller_moves reading (.inr reading)
      · intro total fed
        rw [before] at fed
        simpa [PipeReader.rest, PipeReader.behind, drained, sound, going, deliver, empty] using fed
      · simp [drained]
      · exact Or.imp_left kept
      · simp [queue, queued, Msg.buffers]
        omega
      · simp [queue, Store.rank, reading]
  | ended =>
    apply caller_moves reading (.inr reading)
    · intro total fed
      rw [before] at fed
      simpa [PipeReader.rest, PipeReader.behind, drained, sound, deliver] using fed
    · simp [drained]
    · exact Or.imp_left kept
    · simp [PipeReader.buffers, queue, queued, Msg.buffers]
    · simp [PipeReader.buffers, queue, Store.rank, reading]
  | failed error =>
    apply caller_moves reading (.inl rfl)
    · intro total fed
      rw [before] at fed
      have again := fed.again rfl
      simpa [PipeReader.rest, PipeReader.behind, drained, deliver, Ending.result] using again
    · simp [drained]
    · exact Or.imp_left kept
    · simp [PipeReader.buffers, queue, queued, Msg.buffers]
    · simp [PipeReader.buffers, queue, Store.rank]
      omega
  | withheld =>
    apply caller_moves reading (.inl rfl)
    · intro total fed
      rw [before] at fed
      have again := fed.again rfl
      simpa [PipeReader.rest, PipeReader.behind, drained, deliver, Ending.result] using again
    · simp [drained]
    · simp [queue]
    · simp [PipeReader.buffers, queue, queued, Msg.buffers]
    · simp [PipeReader.buffers, queue, Store.rank]
      omega

theorem caller_step_step {job : Job} {s s' : State}
    (holds : ∀ block, s.pipe.current = some block → block ≠ [])
    (room : ∀ limit, s.store = .reading limit → 0 < limit)
    (stepped : callerStep s = some s') : CallerStep job s s' := by
  unfold callerStep at stepped
  split at stepped
  · rename_i limit reading
    unfold pipeRead at stepped
    split at stepped
    · rename_i block current
      cases stepped
      exact drain_step reading (room limit reading) current (holds block current)
    · rename_i error drained failed
      cases stepped
      apply caller_moves reading (.inl rfl)
      · intro total fed
        have same : s.rest job = ([], .failed error) := by
          simp [State.rest, PipeReader.rest, PipeReader.behind, drained, failed]
        rw [same] at fed
        have again := fed.again rfl
        simpa [PipeReader.rest, PipeReader.behind, drained, failed, Ending.result] using again
      · simp [drained]
      · exact id
      · rfl
      · simp [Store.rank]
    · rename_i drained failed
      split at stepped
      · rename_i ended
        cases stepped
        apply caller_moves reading (.inl rfl)
        · intro total fed
          have same : s.rest job = ([], .ended) := by
            simp [State.rest, PipeReader.rest, PipeReader.behind, drained, failed, ended]
          rw [same] at fed
          have again := fed.again rfl
          simpa [PipeReader.rest, PipeReader.behind, drained, failed, ended, Ending.result] using again
        · simp [drained]
        · exact id
        · rfl
        · simp [Store.rank]
      · rename_i going
        rw [Bool.not_eq_true] at going
        split at stepped
        · rename_i msg rest queue
          cases stepped
          exact pipe_msg_step reading drained failed going queue
        · rename_i empty
          split at stepped
          · rename_i silent
            cases stepped
            -- a stream that breaks off reads as one closed by `stopped`
            have none_out : ∀ fed, s.hasher.out job fed = [] := by
              revert silent
              cases s.hasher <;> simp [Hasher.silent, Hasher.out]
            apply caller_moves reading (.inl rfl)
            · intro total fed
              have same : s.rest job = ([], .failed stopped) := by
                simp [State.rest, PipeReader.rest, PipeReader.behind, drained, failed, going, empty,
                  none_out, deliver]
              rw [same] at fed
              have again := fed.again rfl
              simpa [PipeReader.rest, PipeReader.behind, drained, Ending.result] using again
            · simp [drained]
            · exact id
            · rfl
            · simp [Store.rank, PipeReader.buffers]
          · cases stepped
  · rename_i result closing
    cases stepped
    constructor
    case frame => exact ⟨rfl, rfl, rfl, rfl⟩
    case closed => simp [closing, Store.closed]
    case reads => exact fun _ => rfl
    case fed => simp [closing, Store.closed]
    case holds => simp
    case room => simp
    case told => exact id
    case counted =>
      refine ⟨?_, le_rfl, id, ?_⟩
      · simp [State.buffers, PipeReader.buffers]
      · simp [Store.closed]
    case lower =>
      simp [State.rank, closing, Store.rank, PipeReader.buffers]
  · cases stepped
  · cases stepped

end Tapectl.Pipeline
