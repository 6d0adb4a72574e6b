import Tapectl.Pipeline.Stages

/-!
# The streams between the stages

Each stage computes a fixed function of the stream it is fed: `Reader.out` is what the reader has still
to send, `Hasher.out` what the hasher will make of the rest of its input, `PipeReader.rest` what the
store will still be given. A step of the reader or the hasher moves a message from what is to come into
a queue and leaves the composition of the three as it is; only a read of `execute` takes from it. So
what `execute` has been given and what it is still to be given is the same under every schedule.
-/

namespace Tapectl.Pipeline

open StoredText

/-- What the source yields, interruptions apart: the bytes up to its first `Ok(0)` or error, and the
error. -/
def yielded : List SourceRead → Bytes × Option IoError
  | [] => ([], none)
  | .bytes [] :: _ => ([], none)
  | .bytes (byte :: data) :: rest => (byte :: data ++ (yielded rest).1, (yielded rest).2)
  | .interrupted :: rest => yielded rest
  | .failed error :: _ => ([], some error)

def SourceRead.rank : SourceRead → Nat
  | .bytes data => data.length + 1
  | .interrupted => 1
  | .failed _ => 1

def sourceRank (source : List SourceRead) : Nat := (source.map SourceRead.rank).sum

/-- One read yields what the source yields next, and leaves the rest. -/
def Reads (limit : Nat) (source rest : List SourceRead) : SourceRead → Prop
  | .bytes [] => yielded source = ([], none) ∧ sourceRank rest ≤ sourceRank source
  | .bytes data =>
    data.length ≤ limit ∧ yielded source = (data ++ (yielded rest).1, (yielded rest).2) ∧
      sourceRank rest < sourceRank source
  | .interrupted => yielded source = yielded rest ∧ sourceRank rest < sourceRank source
  | .failed error => yielded source = ([], some error) ∧ sourceRank rest ≤ sourceRank source

theorem read_source_reads {limit : Nat} (room : 0 < limit) (source : List SourceRead) :
    Reads limit source (readSource limit source).2 (readSource limit source).1 := by
  cases source with
  | nil => simp [readSource, Reads, yielded]
  | cons read rest =>
    cases read with
    | interrupted => simp [readSource, Reads, yielded, sourceRank, SourceRead.rank]
    | failed error => simp [readSource, Reads, yielded, sourceRank, SourceRead.rank]
    | bytes data =>
      cases data with
      | nil => simp [readSource, Reads, yielded, sourceRank, SourceRead.rank]
      | cons byte data =>
        obtain ⟨limit, rfl⟩ := Nat.exists_eq_succ_of_ne_zero room.ne'
        simp only [readSource, List.take_succ_cons, Reads, List.length_cons, List.drop_succ_cons]
        split
        · rename_i short
          obtain ⟨next, later, dropped⟩ := List.exists_cons_of_ne_nil
            (List.ne_nil_of_length_pos (l := data.drop limit) (by simp; omega))
          have length := congrArg List.length dropped
          simp only [List.length_drop, List.length_cons] at length
          refine ⟨by simp, ?_, ?_⟩
          · rw [dropped, yielded, yielded, ← dropped]
            simp [← List.append_assoc]
          · simp only [sourceRank, List.map_cons, SourceRead.rank, List.sum_cons, List.length_drop,
              List.length_cons]
            omega
        · rename_i whole
          rw [List.take_of_length_le (by omega)]
          refine ⟨by simp; omega, by rw [yielded], ?_⟩
          simp [sourceRank, SourceRead.rank]

/-- The blocks of at most `chunk` bytes that some bytes are read in. -/
def blocks (chunk : Nat) (bytes : Bytes) : List Bytes :=
  if bytes = [] ∨ chunk = 0 then [] else bytes.take chunk :: blocks chunk (bytes.drop chunk)
termination_by bytes.length
decreasing_by
  rename_i some_bytes
  rw [not_or] at some_bytes
  have := List.length_pos_iff.2 some_bytes.1
  simp
  omega

theorem blocks_nil (chunk : Nat) : blocks chunk [] = [] := by
  rw [blocks, if_pos (.inl rfl)]

theorem blocks_first {chunk : Nat} (pos : 1 ≤ chunk) {first : Bytes} (some_bytes : first ≠ [])
    {rest : Bytes} (full : first.length = chunk ∨ first.length ≤ chunk ∧ rest = []) :
    blocks chunk (first ++ rest) = first :: blocks chunk rest := by
  rw [blocks, if_neg (by simp [some_bytes]; omega)]
  rcases full with rfl | ⟨short, rfl⟩
  · rw [List.take_left, List.drop_left]
  · rw [List.append_nil, List.take_of_length_le short, List.drop_of_length_le short]

theorem blocks_flatten {chunk : Nat} (pos : 1 ≤ chunk) (bytes : Bytes) :
    (blocks chunk bytes).flatten = bytes := by
  induction bytes using blocks.induct chunk with
  | case1 bytes none =>
    rw [blocks, if_pos none, List.flatten_nil]
    rcases none with rfl | zero
    · rfl
    · omega
  | case2 bytes some_bytes ih =>
    rw [blocks, if_neg some_bytes, List.flatten_cons, ih, List.take_append_drop]

theorem blocks_nonempty {chunk : Nat} (pos : 1 ≤ chunk) {bytes : Bytes} (some_bytes : bytes ≠ []) :
    blocks chunk bytes ≠ [] := by
  rw [blocks, if_neg (by simp [some_bytes]; omega)]
  exact List.cons_ne_nil _ _

theorem blocks_drop_last {chunk : Nat} (pos : 1 ≤ chunk) (bytes : Bytes) :
    (blocks chunk bytes).dropLast.flatten = bytes.take ((bytes.length - 1) / chunk * chunk) := by
  induction bytes using blocks.induct chunk with
  | case1 bytes none =>
    rw [blocks, if_pos none]
    rcases none with rfl | zero
    · simp
    · omega
  | case2 bytes some_bytes ih =>
    rw [blocks, if_neg some_bytes]
    rw [not_or] at some_bytes
    have length := List.length_pos_iff.2 some_bytes.1
    by_cases last : bytes.drop chunk = []
    · have short : bytes.length ≤ chunk := by simpa using last
      rw [last, blocks_nil, Nat.div_eq_of_lt (by omega)]
      simp
    · have more : chunk < bytes.length := by simpa using last
      have count : (bytes.length - 1) / chunk = (bytes.length - chunk - 1) / chunk + 1 := by
        rw [← Nat.add_div_right _ pos]
        congr 1
        omega
      rw [List.dropLast_cons_of_ne_nil (blocks_nonempty pos last), List.flatten_cons, ih,
        List.length_drop, count, Nat.succ_mul, Nat.add_comm _ chunk, List.take_add]

variable (job : Job)

/-- What `read_stage` sends for `remaining` bytes of a source that yields these bytes and this error. -/
def readMsgs (remaining : Nat) (source : Bytes × Option IoError) : List Msg :=
  (blocks job.pool.chunk (source.1.take remaining)).map .data ++
    [match source.2 with
      | some error => if remaining ≤ source.1.length then .ended else .failed error
      | none => .ended]

def Reader.out (source : List SourceRead) : Reader → List Msg
  | .taking remaining => readMsgs job remaining (yielded source)
  | .filling remaining got =>
    readMsgs job remaining (got ++ (yielded source).1, (yielded source).2)
  | .sending block remaining none => .data block :: readMsgs job remaining (yielded source)
  | .sending block _ (some last) => [.data block, last]
  | .closing msg => [msg]
  | .done => []

/-- What `hash_stage` sends for these messages, with `hashed` behind it. -/
def hashMsgs (job : Job) (hashed : Bytes) : List Msg → List Msg
  | [] => []
  | .data block :: rest =>
    if (hashed ++ block).length = job.len then
      if job.expected = some (job.sha256 (hashed ++ block)) then [.data block, .ended] else [.withheld]
    else .data block :: hashMsgs job (hashed ++ block) rest
  | msg :: _ => [msg]

def Hasher.out (fed : List Msg) : Hasher → List Msg
  | .receiving hashed => hashMsgs job hashed fed
  | .forwarding hashed block => .data block :: hashMsgs job hashed fed
  | .sendingLast block _ => [.data block, .ended]
  | .closing msg _ => [msg]
  | .dropping _ => []
  | .done _ => []

inductive Ending where
  | ended
  | failed (error : IoError)
  deriving DecidableEq, Repr

def Ending.result : Ending → ReadResult
  | .ended => .ok []
  | .failed error => .error error

def deliver : List Msg → Bytes × Ending
  | [] => ([], .failed stopped)
  | .data block :: rest => (block ++ (deliver rest).1, (deliver rest).2)
  | .ended :: _ => ([], .ended)
  | .failed error :: _ => ([], .failed error)
  | .withheld :: _ => ([], .failed withheld)

def PipeReader.behind (pipe : PipeReader) (fed : List Msg) : Bytes × Ending :=
  match pipe.failed with
  | some error => ([], .failed error)
  | none => if pipe.ended then ([], .ended) else deliver fed

def PipeReader.rest (pipe : PipeReader) (fed : List Msg) : Bytes × Ending :=
  (pipe.current.getD [] ++ (pipe.behind fed).1, (pipe.behind fed).2)

def State.rest (job : Job) (s : State) : Bytes × Ending :=
  s.pipe.rest (s.hashQueue ++ s.hasher.out job (s.readQueue ++ s.reader.out job s.source))

theorem deliver_append (pieces : List Bytes) (rest : List Msg) :
    deliver (pieces.map .data ++ rest) = (pieces.flatten ++ (deliver rest).1, (deliver rest).2) := by
  induction pieces with
  | nil => rfl
  | cons piece pieces ih => simp [deliver, ih]

/-- Reading the source itself, cut at `len`: its bytes, and where they stop its end or its error. -/
def direct (source : List SourceRead) : Bytes × Ending :=
  ((yielded source).1.take job.len,
    match (yielded source).2 with
    | some error => if job.len ≤ (yielded source).1.length then .ended else .failed error
    | none => .ended)

/-- All `len` bytes were read, there are some, and they do not hash to what is expected. -/
def Mismatched (source : List SourceRead) : Prop :=
  0 < job.len ∧ job.len ≤ (yielded source).1.length ∧
    job.expected ≠ some (job.sha256 ((yielded source).1.take job.len))

instance (job : Job) (source : List SourceRead) : Decidable (Mismatched job source) :=
  inferInstanceAs (Decidable (_ ∧ _ ∧ _))

/-- What `execute` is given: what reading the source gives, except that the last block of a file that
does not match is replaced by an error. -/
def delivered (source : List SourceRead) : Bytes × Ending :=
  if Mismatched job source then
    (((yielded source).1.take job.len).take ((job.len - 1) / job.pool.chunk * job.pool.chunk),
      .failed withheld)
  else direct job source

theorem hash_msgs_short {hashed : Bytes} {pieces : List Bytes} (last : Msg)
    (short : hashed.length + pieces.flatten.length < job.len) (closes : ∀ block, last ≠ .data block) :
    hashMsgs job hashed (pieces.map .data ++ [last]) = pieces.map .data ++ [last] := by
  induction pieces generalizing hashed with
  | nil =>
    cases last with
    | data block => exact absurd rfl (closes block)
    | ended => rfl
    | failed error => rfl
    | withheld => rfl
  | cons piece pieces ih =>
    simp only [List.flatten_cons, List.length_append] at short
    have more : ¬(hashed ++ piece).length = job.len := by
      rw [List.length_append]
      omega
    simp only [List.map_cons, List.cons_append, hashMsgs, if_neg more]
    rw [ih (by rw [List.length_append]; omega)]

theorem hash_msgs_whole {hashed : Bytes} {pieces : List Bytes} (last : Msg)
    (some_pieces : pieces ≠ []) (full : [] ∉ pieces)
    (whole : hashed.length + pieces.flatten.length = job.len) :
    hashMsgs job hashed (pieces.map .data ++ [last]) =
      if job.expected = some (job.sha256 (hashed ++ pieces.flatten)) then
        pieces.map .data ++ [.ended]
      else pieces.dropLast.map .data ++ [.withheld] := by
  induction pieces generalizing hashed with
  | nil => exact absurd rfl some_pieces
  | cons piece pieces ih =>
    simp only [List.flatten_cons, List.length_append] at whole
    cases pieces with
    | nil =>
      have ends : (hashed ++ piece).length = job.len := by simpa using whole
      rw [List.map_cons, List.cons_append, hashMsgs, if_pos ends]
      simp
    | cons next pieces =>
      rw [List.mem_cons, not_or] at full
      have next_full : 0 < next.length := by
        rw [List.length_pos_iff]
        exact fun empty => full.2 (empty ▸ List.mem_cons_self)
      have more : ¬(hashed ++ piece).length = job.len := by
        simp only [List.flatten_cons, List.length_append] at whole ⊢
        omega
      rw [List.map_cons, List.cons_append, hashMsgs, if_neg more,
        ih (List.cons_ne_nil _ _) full.2 (by rw [List.length_append]; omega)]
      rw [List.append_assoc, ← List.flatten_cons]
      split <;> simp

theorem nil_not_mem_blocks (chunk : Nat) (bytes : Bytes) : [] ∉ blocks chunk bytes := by
  induction bytes using blocks.induct chunk with
  | case1 bytes none =>
    rw [blocks, if_pos none]
    exact List.not_mem_nil
  | case2 bytes some_bytes ih =>
    rw [blocks, if_neg some_bytes, List.mem_cons, not_or]
    rw [not_or] at some_bytes
    refine ⟨?_, ih⟩
    simp [eq_comm (a := ([] : Bytes)), some_bytes]

theorem deliver_hash_read (source : List SourceRead) :
    deliver (hashMsgs job [] (readMsgs job job.len (yielded source))) = delivered job source := by
  have pos := job.pool.chunk_pos
  have joined := blocks_flatten pos ((yielded source).1.take job.len)
  by_cases short : (yielded source).1.length < job.len
  · rw [readMsgs, hash_msgs_short, deliver_append, joined, delivered,
      if_neg (fun mismatched => absurd mismatched.2.1 (by omega)), direct]
    · cases (yielded source).2 <;> simp [deliver, Nat.not_le.2 short]
    · rw [joined]
      simpa using short
    · intro block
      split <;> simp [Nat.not_le.2 short]
  · rw [Nat.not_lt] at short
    have length : ((yielded source).1.take job.len).length = job.len := by simpa using short
    by_cases empty : job.len = 0
    · rw [delivered, if_neg (fun mismatched => absurd mismatched.1 (by omega)), direct, readMsgs]
      cases (yielded source).2 <;> simp [empty, blocks_nil, hashMsgs, deliver]
    · have some_bytes : (yielded source).1.take job.len ≠ [] := by
        intro none
        rw [none] at length
        exact empty length.symm
      rw [readMsgs, hash_msgs_whole job _ (blocks_nonempty pos some_bytes)
        (nil_not_mem_blocks _ _) (by rw [joined]; simpa using length), joined, delivered]
      simp only [List.nil_append, Mismatched, short, true_and, Nat.pos_of_ne_zero empty]
      split
      · rename_i matching
        rw [if_neg (not_not.2 matching), deliver_append, joined, direct]
        cases (yielded source).2 <;> simp [deliver, short]
      · rename_i different
        rw [deliver_append, blocks_drop_last pos, length]
        simp [deliver]

end Tapectl.Pipeline
