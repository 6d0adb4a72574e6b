import Tapectl.Restore.WholeSlice

/-!
# An age file from a source that may be damaged

`crypto/chunks.rs` over the source it reads from. A source gives bytes a few at a time, is interrupted,
ends, or fails: `Turn` is what the next read does, and a read no turn is left for gives all that was
asked, or what there is. `parse` is the age crate's header work: the bytes it read through the tap, and
the source after them.
-/

namespace Tapectl.Restore

open StoredText Effects

inductive Turn where
  /-- At least one byte where one is left, and at most so many more. -/
  | gives (more : Nat)
  | interrupted
  | fails
  deriving DecidableEq, Repr

structure Source where
  bytes : Bytes
  turns : List Turn
  deriving DecidableEq, Repr

/-- The read loop of `next`: `got` is the chunk so far, `none` a read that failed. -/
def fill (want : Nat) : List Turn → Bytes → Bytes → Option Bytes × Source
  | [], bytes, got =>
    (some (got ++ bytes.take (want - got.length)), ⟨bytes.drop (want - got.length), []⟩)
  | turn :: turns, bytes, got =>
    if want ≤ got.length then (some got, ⟨bytes, turn :: turns⟩)
    else match turn with
    | .interrupted => fill want turns bytes got
    | .fails => (none, ⟨bytes, turns⟩)
    | .gives more =>
      let size := min (more + 1) (want - got.length)
      if bytes = [] then (some got, ⟨bytes, turns⟩)
      else fill want turns (bytes.drop size) (got ++ bytes.take size)

structure SourceReader where
  src : Source
  header : Bytes
  index : Nat
  chunks : Nat
  lastLen : Nat
  deriving DecidableEq, Repr

section

variable {Digest : Type} (crypto : Crypto Digest)

/-- `open` -/
def openSource (parse : Source → Except OpenError (Bytes × Source)) (source : Source)
    (encryptedLen : Nat) : Except OpenError SourceReader := do
  let (seen, rest) ← parse source
  if seen.length < payloadNonce then .error .headerTooShort
  else if encryptedLen < seen.length then .error .shorterThanHeader
  else
    let payload := encryptedLen - seen.length
    if payload < tagLen then .error .endsInFirstChunk
    else
      let chunks := (payload + encryptedChunk - 1) / encryptedChunk
      let lastLen := payload - (chunks - 1) * encryptedChunk
      if lastLen < tagLen then .error .endsInLastTag
      else .ok ⟨rest, seen, 0, chunks, lastLen⟩

namespace SourceReader

variable (reader : SourceReader)

def plainLen : Nat :=
  (reader.chunks - 1) * chunkLen + (reader.lastLen - tagLen)

def plainLenFrom (index : Nat) : Nat :=
  if reader.chunks ≤ index then 0 else reader.plainLen - index * chunkLen

def last : Bool := reader.index + 1 == reader.chunks

def want : Nat := if reader.last then reader.lastLen else encryptedChunk

def judge (got : Bytes) : Next :=
  let plainLen := reader.want - tagLen
  if got.length < reader.want then .damaged plainLen
  else match crypto.decrypt reader.header reader.index reader.last got with
  | none => .damaged plainLen
  | some plain =>
    -- age rejects an empty last chunk after a non-empty file
    if plain = [] ∧ 0 < reader.index then .damaged plainLen else .authentic plain

/-- `none` is the source's error: the index is then back at the chunk that was being read. -/
def next : Option Next × SourceReader :=
  if reader.chunks ≤ reader.index then (some .ended, reader)
  else
    match fill reader.want reader.src.turns reader.src.bytes [] with
    | (none, src) => (none, { reader with src })
    | (some got, src) => (some (reader.judge crypto got), { reader with index := reader.index + 1, src })

/-- So many calls of `next`, up to the first error: what they gave, and whether one failed. -/
def nexts : Nat → SourceReader → List Next × Bool × SourceReader
  | 0, reader => ([], false, reader)
  | calls + 1, reader =>
    match reader.next crypto with
    | (none, after) => ([], true, after)
    | (some given, after) =>
      let (later, failed, final) := nexts calls after
      (given :: later, failed, final)

end SourceReader

end

theorem take_in_two (bytes : Bytes) {size room : Nat} (fits : size ≤ room) :
    bytes.take size ++ (bytes.drop size).take (room - (bytes.take size).length) = bytes.take room ∧
      (bytes.drop size).drop (room - (bytes.take size).length) = bytes.drop room := by
  by_cases all : bytes.length ≤ size
  · simp [List.drop_eq_nil_of_le all, List.take_of_length_le all, List.take_of_length_le (all.trans fits),
      List.drop_eq_nil_of_le (all.trans fits)]
  · have taken : (bytes.take size).length = size := List.length_take_of_le (by omega)
    have whole : room = size + (room - size) := by omega
    rw [taken, List.drop_drop, ← whole]
    refine ⟨?_, rfl⟩
    conv_rhs => rw [whole, List.take_add]

theorem fill_some {want : Nat} {turns : List Turn} {bytes got full : Bytes} {after : Source}
    (short : got.length ≤ want) (filled : fill want turns bytes got = (some full, after)) :
    full = got ++ bytes.take (want - got.length) ∧ after.bytes = bytes.drop (want - got.length) := by
  induction turns generalizing bytes got with
  | nil =>
    cases filled
    exact ⟨rfl, rfl⟩
  | cons turn turns hyp =>
    unfold fill at filled
    split at filled
    next whole =>
      cases filled
      simp [Nat.sub_eq_zero_of_le whole]
    next room =>
      cases turn with
      | interrupted => exact hyp short filled
      | fails => cases filled
      | gives more =>
        dsimp only at filled
        split at filled
        next none_left =>
          cases filled
          simp [none_left]
        next left =>
          have fits : min (more + 1) (want - got.length) ≤ want - got.length := Nat.min_le_right _ _
          generalize min (more + 1) (want - got.length) = size at filled fits
          have within : (got ++ bytes.take size).length ≤ want := by
            rw [List.length_append, List.length_take]
            omega
          obtain ⟨isFull, isAfter⟩ := hyp within filled
          obtain ⟨taken, dropped⟩ := take_in_two bytes fits
          rw [List.length_append, Nat.sub_add_eq] at isFull isAfter
          rw [isFull, isAfter, List.append_assoc, taken, dropped]
          exact ⟨rfl, rfl⟩

section

variable {Digest : Type} {crypto : Crypto Digest}

theorem next_cases_source {reader after : SourceReader} {given : Option Next}
    (called : reader.next crypto = (given, after)) :
    (reader.chunks ≤ reader.index ∧ given = some .ended ∧ after = reader) ∨
    (reader.index < reader.chunks ∧ given = none ∧ ∃ src, after = { reader with src }) ∨
    (reader.index < reader.chunks ∧ given = some (reader.judge crypto (reader.src.bytes.take reader.want)) ∧
      ∃ src, src.bytes = reader.src.bytes.drop reader.want ∧
        after = { reader with index := reader.index + 1, src }) := by
  unfold SourceReader.next at called
  split at called
  next ended =>
    cases called
    exact .inl ⟨ended, rfl, rfl⟩
  next inside =>
    refine .inr ?_
    split at called
    next src filled =>
      cases called
      exact .inl ⟨Nat.not_le.mp inside, rfl, src, rfl⟩
    next got src filled =>
      obtain ⟨isGot, isSrc⟩ := fill_some (Nat.zero_le _) filled
      cases called
      rw [isGot]
      exact .inr ⟨Nat.not_le.mp inside, rfl, src, isSrc, rfl⟩

def SourceReader.view (reader : SourceReader) : ChunkReader :=
  ⟨reader.src.bytes, reader.header, reader.index, reader.chunks, reader.lastLen⟩

theorem view_next {reader after : SourceReader} {given : Next}
    (called : reader.next crypto = (some given, after)) :
    reader.view.next crypto = (given, after.view) := by
  obtain ⟨ended, isGiven, rfl⟩ | ⟨_, isGiven, _⟩ | ⟨inside, isGiven, src, isSrc, rfl⟩ :=
    next_cases_source called
  · cases isGiven
    unfold ChunkReader.next
    exact if_pos ended
  · cases isGiven
  · cases isGiven
    unfold ChunkReader.next SourceReader.judge SourceReader.view
    have wants : (reader.src.bytes.take reader.want).length < reader.want ↔
        reader.src.bytes.length < reader.want := by
      rw [List.length_take]
      omega
    have last : (reader.index + 1 == reader.chunks) = reader.last := rfl
    have want : (if reader.last = true then reader.lastLen else encryptedChunk) = reader.want := rfl
    simp only [wants, last, want, isSrc, if_neg (Nat.not_le.mpr inside)]
    split
    · rfl
    · cases crypto.decrypt reader.header reader.index reader.last (reader.src.bytes.take reader.want) with
      | none => rfl
      | some plain =>
        dsimp only
        split <;> rfl

def ChunkReader.nexts (crypto : Crypto Digest) : Nat → ChunkReader → List Next × ChunkReader
  | 0, reader => ([], reader)
  | calls + 1, reader =>
    let (later, final) := (reader.next crypto).2.nexts crypto calls
    ((reader.next crypto).1 :: later, final)

theorem nexts_view (crypto : Crypto Digest) (calls : Nat) (reader : SourceReader) :
    (reader.nexts crypto calls).1 <+: (reader.view.nexts crypto calls).1 ∧
      ((reader.nexts crypto calls).2.1 = false → reader.view.nexts crypto calls =
        ((reader.nexts crypto calls).1, (reader.nexts crypto calls).2.2.view)) := by
  induction calls generalizing reader with
  | zero => exact ⟨List.prefix_refl _, fun _ => rfl⟩
  | succ calls hyp =>
    unfold SourceReader.nexts ChunkReader.nexts
    split
    next => exact ⟨List.nil_prefix, fun whole => by cases whole⟩
    next given after called =>
      obtain ⟨front, same⟩ := hyp after
      rw [view_next called]
      refine ⟨List.cons_prefix_cons.mpr ⟨rfl, front⟩, fun whole => ?_⟩
      rw [same whole]

/-- How a source cuts its bytes does not show in the chunks: up to the first error of either, two sources
of the same bytes give the same, and then stand at the same byte. -/
theorem chunks_of_same_bytes (crypto : Crypto Digest) (bytes header : Bytes) (turns others : List Turn)
    (index chunks lastLen calls : Nat) :
    let one := SourceReader.nexts crypto calls ⟨⟨bytes, turns⟩, header, index, chunks, lastLen⟩
    let other := SourceReader.nexts crypto calls ⟨⟨bytes, others⟩, header, index, chunks, lastLen⟩
    (one.1 <+: other.1 ∨ other.1 <+: one.1) ∧
      (one.2.1 = false → other.1 <+: one.1 ∧
        (other.2.1 = false → other.1 = one.1 ∧ other.2.2.view = one.2.2.view)) := by
  intro one other
  obtain ⟨front, whole⟩ := nexts_view crypto calls ⟨⟨bytes, turns⟩, header, index, chunks, lastLen⟩
  obtain ⟨front', whole'⟩ := nexts_view crypto calls ⟨⟨bytes, others⟩, header, index, chunks, lastLen⟩
  refine ⟨List.prefix_or_prefix_of_prefix front front', fun ended => ?_⟩
  have same := whole ended
  exact ⟨front'.trans (congrArg Prod.fst same ▸ List.prefix_refl _),
    fun ended' => Prod.mk.inj ((whole' ended').symm.trans same)⟩

end

section File

variable {Digest : Type} {crypto : Crypto Digest} {files : AgeFiles} {header payload : Bytes}

/-- Ideal authenticated encryption of one file: at an index and last-flag nothing opens but the file's
own chunk there, and to its own plaintext. -/
structure IdealAead (crypto : Crypto Digest) (files : AgeFiles) (header : Bytes) : Prop where
  opens : ∀ index last bytes plain, crypto.decrypt header index last bytes = some plain ↔
    index < files.count header ∧ (last = true ↔ index + 1 = files.count header) ∧
      bytes = files.sealedChunk header index ∧ plain = files.plainChunk header index
  sealedLength : ∀ index,
    (files.sealedChunk header index).length = (files.plainChunk header index).length + tagLen

def delivered (files : AgeFiles) (header payload : Bytes) (index : Nat) : Bytes :=
  (payload.drop (index * encryptedChunk)).take (files.sealedChunk header index).length

def expected (files : AgeFiles) (header payload : Bytes) (index : Nat) : Next :=
  if index < files.count header then
    if delivered files header payload index = files.sealedChunk header index then
      .authentic (files.plainChunk header index)
    else .damaged (files.plainChunk header index).length
  else .ended

/-- A reader at a chunk of the file, over a source that has the payload's bytes from there on. -/
structure SourceReader.Reading (reader : SourceReader) (files : AgeFiles) (header payload : Bytes) :
    Prop where
  ofFile : reader.header = header
  chunks : reader.chunks = files.count header
  lastLen : reader.lastLen = (files.sealedChunk header (files.count header - 1)).length
  within : reader.index ≤ files.count header
  src : reader.index < files.count header →
    reader.src.bytes = payload.drop (reader.index * encryptedChunk)

theorem plain_chunk_length (files : AgeFiles) (header : Bytes) (index : Nat) :
    (files.plainChunk header index).length =
      min chunkLen ((files.plain header).length - index * chunkLen) := by
  simp [AgeFiles.plainChunk]

namespace SourceReader.Reading

variable {reader : SourceReader}

theorem want (reading : reader.Reading files header payload) (ideal : IdealAead crypto files header)
    (inside : reader.index < files.count header) :
    reader.want = (files.sealedChunk header reader.index).length := by
  unfold SourceReader.want SourceReader.last
  simp only [beq_iff_eq, reading.chunks]
  split
  next last =>
    rw [reading.lastLen, ← last]
    rfl
  next before =>
    have covers := count_covers files header
    rw [ideal.sealedLength, plain_chunk_length]
    simp only [encryptedChunk, chunkLen, tagLen] at *
    omega

theorem judge (reading : reader.Reading files header payload) (ideal : IdealAead crypto files header)
    (inside : reader.index < files.count header) :
    reader.judge crypto (reader.src.bytes.take reader.want) =
      expected files header payload reader.index := by
  have own : reader.src.bytes.take reader.want = delivered files header payload reader.index := by
    rw [reading.want ideal inside, reading.src inside]
    rfl
  have plainLen : reader.want - tagLen = (files.plainChunk header reader.index).length := by
    rw [reading.want ideal inside, ideal.sealedLength]
    omega
  have last : reader.last = true ↔ reader.index + 1 = files.count header := by
    unfold SourceReader.last
    rw [beq_iff_eq, reading.chunks]
  unfold SourceReader.judge expected
  rw [own, plainLen, if_pos inside, reading.ofFile, reading.want ideal inside]
  by_cases same : delivered files header payload reader.index = files.sealedChunk header reader.index
  · have opened := (ideal.opens reader.index reader.last _ _).mpr ⟨inside, last, rfl, rfl⟩
    rw [if_pos same, same, if_neg (lt_irrefl _), opened]
    dsimp only
    rw [if_neg]
    rintro ⟨empty, later⟩
    have covers := count_covers files header
    have length := plain_chunk_length files header reader.index
    rw [empty] at length
    simp only [List.length_nil, chunkLen] at length covers
    omega
  · rw [if_neg same]
    split
    · rfl
    · cases opened : crypto.decrypt header reader.index reader.last
        (delivered files header payload reader.index) with
      | none => rfl
      | some plain => exact absurd ((ideal.opens _ _ _ _).mp opened).2.2.1 same

theorem next (reading : reader.Reading files header payload) (ideal : IdealAead crypto files header)
    {given : Next} {after : SourceReader} (called : reader.next crypto = (some given, after)) :
    given = expected files header payload reader.index ∧ after.Reading files header payload ∧
      (after.index = reader.index + 1 ∨ after.index = reader.index ∧ reader.index = files.count header) := by
  obtain ⟨ended, isGiven, rfl⟩ | ⟨_, isGiven, _⟩ | ⟨inside, isGiven, src, isSrc, rfl⟩ :=
    next_cases_source called
  · cases isGiven
    rw [reading.chunks] at ended
    refine ⟨(if_neg (Nat.not_lt.mpr ended)).symm, reading, .inr ⟨rfl, le_antisymm reading.within ended⟩⟩
  · cases isGiven
  · cases isGiven
    rw [reading.chunks] at inside
    refine ⟨reading.judge ideal inside, ⟨reading.ofFile, reading.chunks, reading.lastLen, inside, ?_⟩, .inl rfl⟩
    intro later
    dsimp only at later ⊢
    -- a chunk with one after it has the full length
    have full : reader.want = encryptedChunk := by
      unfold SourceReader.want SourceReader.last
      rw [if_neg (by simp only [beq_iff_eq, reading.chunks]; omega)]
    rw [isSrc, full, reading.src inside, List.drop_drop, Nat.succ_mul]

/-- The calls up to the first error give the chunks in order, and an error leaves the reader at the
chunk that was being read. -/
theorem nexts (reading : reader.Reading files header payload) (ideal : IdealAead crypto files header)
    {calls : Nat} {given : List Next} {failed : Bool} {final : SourceReader}
    (called : reader.nexts crypto calls = (given, failed, final)) :
    given = (List.range given.length).map (fun index =>
        expected files header payload (reader.index + index)) ∧
      (failed = false → given.length = calls) ∧
      (failed = true → final.index = reader.index + given.length ∧ final.index < files.count header) ∧
      final.chunks = files.count header ∧ final.lastLen = reader.lastLen := by
  induction calls generalizing reader given with
  | zero =>
    cases called
    exact ⟨rfl, fun _ => rfl, nofun, reading.chunks, rfl⟩
  | succ calls hyp =>
    rw [SourceReader.nexts] at called
    cases once : reader.next crypto with
    | mk answer after =>
      rw [once] at called
      cases answer with
      | none =>
        cases called
        obtain ⟨_, isGiven, _⟩ | ⟨inside, _, src, rfl⟩ | ⟨_, isGiven, _⟩ := next_cases_source once
        · cases isGiven
        · rw [reading.chunks] at inside
          exact ⟨rfl, nofun, fun _ => ⟨rfl, inside⟩, reading.chunks, rfl⟩
        · cases isGiven
      | some first =>
        dsimp only at called
        generalize rest : after.nexts crypto calls = others at called
        obtain ⟨later, failed', final'⟩ := others
        cases called
        obtain ⟨isFirst, reading', index⟩ := reading.next ideal once
        obtain ⟨isLater, counted, left, chunks, lastLen⟩ := hyp reading' rest
        have lastLen' : after.lastLen = reader.lastLen := reading'.lastLen.trans reading.lastLen.symm
        refine ⟨?_, fun ok => congrArg (· + 1) (counted ok), ?_, chunks, lastLen.trans lastLen'⟩
        · rw [List.length_cons, List.range_succ_eq_map, List.map_cons, List.map_map, isFirst]
          refine congrArg₂ List.cons rfl ?_
          conv_lhs => rw [isLater]
          apply List.map_congr_left
          intro place _
          rw [Function.comp_apply, Nat.succ_eq_add_one]
          cases index with
          | inl onward => rw [onward, Nat.add_right_comm, Nat.add_assoc]
          | inr stays =>
            -- past the last chunk every call says so
            unfold expected
            rw [if_neg (by omega), if_neg (by omega)]
        · intro failing
          obtain ⟨isIndex, inside⟩ := left failing
          refine ⟨?_, inside⟩
          dsimp only at isIndex inside ⊢
          rw [List.length_cons]
          omega

end SourceReader.Reading

theorem plain_chunks_from {index : Nat} (inside : index ≤ files.count header) :
    (((List.range (files.count header)).drop index).map fun place =>
      (files.plainChunk header place).length).sum = (files.plain header).length - index * chunkLen := by
  have covers := (count_covers files header).1
  have whole := plain_chunks_length files header (files.count header)
  rw [← List.take_append_drop index (List.range (files.count header)), List.map_append, List.sum_append,
    List.take_range, Nat.min_eq_left inside, plain_chunks_length] at whole
  omega

theorem open_source_ok (ideal : IdealAead crypto files header) (long : payloadNonce ≤ header.length)
    {parse : Source → Except OpenError (Bytes × Source)} {source rest : Source}
    (parsed : parse source = .ok (header, rest)) :
    openSource parse source (files.ciphertext header).length =
      .ok ⟨rest, header, 0, files.count header,
        (files.sealedChunk header (files.count header - 1)).length⟩ := by
  have one : 1 ≤ files.count header := Nat.le_max_left _ _
  have covers := count_covers files header
  have total := sealed_lengths ideal.sealedLength
  have last := ideal.sealedLength (files.count header - 1)
  rw [plain_chunk_length] at last
  have payload : (files.ciphertext header).length - header.length =
      (files.plain header).length + files.count header * tagLen := by omega
  have chunks : ((files.plain header).length + files.count header * tagLen + encryptedChunk - 1) /
      encryptedChunk = files.count header := by
    rw [Nat.div_eq_iff (by decide)]
    simp only [chunkLen, tagLen, encryptedChunk] at *
    omega
  have lastLen : (files.plain header).length + files.count header * tagLen -
      (files.count header - 1) * encryptedChunk =
        (files.sealedChunk header (files.count header - 1)).length := by
    simp only [chunkLen, tagLen, encryptedChunk] at *
    omega
  unfold openSource
  rw [parsed]
  simp only [bind, Except.bind, payload, chunks, lastLen]
  rw [if_neg (Nat.not_lt.mpr long), if_neg (by omega), if_neg, if_neg]
  · rw [last]
    omega
  · simp only [tagLen] at *
    omega

/-- The plaintext a call accounts for: what it delivered, or what it reported lost. -/
def Next.plainLen : Next → Nat
  | .authentic plain => plain.length
  | .damaged plainLen => plainLen
  | .ended => 0

theorem expected_plain_len {index : Nat} (inside : index < files.count header) :
    (expected files header payload index).plainLen = (files.plainChunk header index).length := by
  unfold expected
  rw [if_pos inside]
  split <;> rfl

theorem expected_cut (ideal : IdealAead crypto files header) {index : Nat} (inside : index < files.count header)
    (cut : payload.length < index * encryptedChunk + (files.sealedChunk header index).length) :
    expected files header payload index = .damaged (files.plainChunk header index).length := by
  unfold expected
  rw [if_pos inside, if_neg]
  intro same
  have length := congrArg List.length same
  rw [delivered, List.length_take, List.length_drop] at length
  have tag : tagLen ≤ (files.sealedChunk header index).length := by
    rw [ideal.sealedLength]
    omega
  simp only [tagLen] at tag
  omega

theorem expected_sum (calls : Nat) :
    (((List.range calls).map (expected files header payload)).map Next.plainLen).sum =
      min (calls * chunkLen) (files.plain header).length := by
  have covers := count_covers files header
  rw [← plain_chunks_length, List.map_map]
  refine congrArg _ (List.map_congr_left ?_)
  intro index _
  rw [Function.comp_apply]
  by_cases inside : index < files.count header
  · exact expected_plain_len inside
  · have past := plain_chunk_length files header index
    rw [expected, if_neg inside, past]
    simp only [chunkLen, Next.plainLen] at *
    omega

/-- Damage in an age file stays in the chunks it is in. The source begins with the file's header, and
what it delivers after it is any bytes, in any sizes, to any end or error. -/
theorem damage_stays_local (ideal : IdealAead crypto files header)
    (long : payloadNonce ≤ header.length) {parse : Source → Except OpenError (Bytes × Source)}
    (reads : ∀ source seen rest, header <+: source.bytes → parse source = .ok (seen, rest) →
      seen = header ∧ rest.bytes = source.bytes.drop header.length)
    {source : Source} (agrees : header <+: source.bytes) {seen : Bytes} {rest : Source}
    (parsed : parse source = .ok (seen, rest)) :
    ∃ reader, openSource parse source (files.ciphertext header).length = .ok reader ∧
      reader.chunks = files.count header ∧ reader.plainLen = (files.plain header).length ∧
      ((List.range reader.chunks).map fun index => (files.plainChunk header index).length).sum =
        reader.plainLen ∧
      ∀ calls given failed final, reader.nexts crypto calls = (given, failed, final) →
        given = (List.range given.length).map
          (expected files header (source.bytes.drop header.length)) ∧
        (∀ index < files.count header, index < given.length →
          (source.bytes.drop header.length).length <
            index * encryptedChunk + (files.sealedChunk header index).length →
          given[index]? = some (.damaged (files.plainChunk header index).length)) ∧
        (failed = false → given.length = calls ∧
          (files.count header ≤ calls → (given.map Next.plainLen).sum = reader.plainLen)) ∧
        (failed = true → final.index = given.length ∧ final.index < files.count header ∧
          final.plainLenFrom final.index = (((List.range (files.count header)).drop final.index).map
            fun index => (files.plainChunk header index).length).sum ∧
          (given.map Next.plainLen).sum + final.plainLenFrom final.index = reader.plainLen) := by
  obtain ⟨rfl, isRest⟩ := reads source seen rest agrees parsed
  have one : 1 ≤ files.count seen := Nat.le_max_left _ _
  have covers := count_covers files seen
  have last := ideal.sealedLength (files.count seen - 1)
  rw [plain_chunk_length] at last
  have plainLen : (files.count seen - 1) * chunkLen +
      ((files.sealedChunk seen (files.count seen - 1)).length - tagLen) = (files.plain seen).length := by
    simp only [chunkLen, tagLen] at *
    omega
  refine ⟨_, open_source_ok ideal long parsed, rfl, plainLen, ?_, ?_⟩
  · rw [plain_chunks_length, Nat.min_eq_right covers.1]
    exact plainLen.symm
  · intro calls given failed final called
    have reading : SourceReader.Reading ⟨rest, seen, 0, files.count seen,
        (files.sealedChunk seen (files.count seen - 1)).length⟩ files seen
          (source.bytes.drop seen.length) :=
      ⟨rfl, rfl, rfl, Nat.zero_le _, fun _ => by rw [isRest, Nat.zero_mul, List.drop_zero]⟩
    obtain ⟨isGiven, counted, left, chunks, lastLen⟩ := reading.nexts ideal called
    simp only [Nat.zero_add] at isGiven left
    have sum : (given.map Next.plainLen).sum = min (given.length * chunkLen) (files.plain seen).length := by
      rw [isGiven, expected_sum, List.length_map, List.length_range]
    refine ⟨isGiven, ?_, ?_, ?_⟩
    · intro index inside below cut
      rw [isGiven, List.getElem?_map, List.getElem?_range below, Option.map_some, expected_cut ideal inside cut]
    · intro ok
      refine ⟨counted ok, fun enough => ?_⟩
      have all : (files.plain seen).length ≤ calls * chunkLen :=
        covers.1.trans (Nat.mul_le_mul_right _ enough)
      rw [sum, counted ok, Nat.min_eq_right all]
      exact plainLen.symm
    · intro failing
      obtain ⟨isIndex, inside⟩ := left failing
      have remaining : final.plainLenFrom final.index =
          (files.plain seen).length - final.index * chunkLen := by
        unfold SourceReader.plainLenFrom SourceReader.plainLen
        rw [chunks, lastLen, if_neg (Nat.not_le.mpr inside), plainLen]
      refine ⟨isIndex, inside, ?_, ?_⟩
      · rw [remaining, plain_chunks_from inside.le]
      · have whole : min (given.length * chunkLen) (files.plain seen).length +
            ((files.plain seen).length - given.length * chunkLen) = (files.plain seen).length := by omega
        rw [sum, remaining, isIndex, whole]
        exact plainLen.symm

end File

namespace Small

theorem ideal_aead : IdealAead crypto files headerA where
  opens index last bytes plain := by
    rw [count, plain_chunk]
    unfold crypto files
    dsimp only
    have known : headerA.length = 16 := rfl
    by_cases first : index = 0
    · subst first
      simp only [known, true_and, and_self, if_true, Nat.zero_add, iff_true]
      rw [Option.ite_none_right_eq_some]
      constructor
      · rintro ⟨⟨isLast, isChunk⟩, isPlain⟩
        exact ⟨Nat.one_pos, isLast, isChunk, (Option.some.inj isPlain).symm⟩
      · rintro ⟨-, isLast, isChunk, rfl⟩
        exact ⟨⟨isLast, isChunk⟩, rfl⟩
    · simp [first]
  sealedLength := ideal.sealedLength headerA rfl

def parse (source : Source) : Except OpenError (Bytes × Source) :=
  .ok (source.bytes.take 16, ⟨source.bytes.drop 16, source.turns⟩)

theorem parse_reads (source : Source) (seen : Bytes) (rest : Source) (agrees : headerA <+: source.bytes)
    (parsed : parse source = .ok (seen, rest)) :
    seen = headerA ∧ rest.bytes = source.bytes.drop headerA.length := by
  obtain ⟨payload, isBytes⟩ := agrees
  cases parsed
  rw [← isBytes]
  exact ⟨List.take_left' rfl, rfl⟩

end Small

namespace TwoChunks

/-- Every file is one byte longer than a chunk. -/
def files : AgeFiles where
  real _ := True
  plain _ := List.replicate (chunkLen + 1) 7
  sealedChunk _ index :=
    ((List.replicate (chunkLen + 1) 7).drop (index * chunkLen)).take chunkLen ++ List.replicate tagLen 1

def crypto : Crypto Bytes where
  header src := if 16 ≤ src.length then some (src.take 16) else none
  decrypt header index last bytes :=
    if index < files.count header ∧ (last = true ↔ index + 1 = files.count header) ∧
        bytes = files.sealedChunk header index then some (files.plainChunk header index) else none
  sha256 := id

theorem ideal_aead (header : Bytes) : IdealAead crypto files header where
  opens index last bytes plain := by
    unfold crypto
    rw [Option.ite_none_right_eq_some, and_assoc, and_assoc, Option.some.injEq]
    exact and_congr_right fun _ => and_congr_right fun _ => and_congr_right fun _ => eq_comm
  sealedLength index := by
    rw [plain_chunk_length]
    simp [files]

theorem count (header : Bytes) : files.count header = 2 := by
  unfold AgeFiles.count files
  rw [List.length_replicate]
  decide

def torn : Bytes := List.replicate encryptedChunk 0

theorem expected_torn (header : Bytes) :
    expected files header (torn ++ files.sealedChunk header 1) 0 = .damaged chunkLen ∧
      expected files header (torn ++ files.sealedChunk header 1) 1 = .authentic [7] := by
  have length : torn.length = encryptedChunk := List.length_replicate
  have whole : (files.sealedChunk header 0).length = encryptedChunk := by
    rw [(ideal_aead header).sealedLength, plain_chunk_length]
    simp [files, encryptedChunk]
  have first : delivered files header (torn ++ files.sealedChunk header 1) 0 = torn := by
    rw [delivered, whole, Nat.zero_mul, List.drop_zero, List.take_left' length]
  have second : delivered files header (torn ++ files.sealedChunk header 1) 1 =
      files.sealedChunk header 1 := by
    rw [delivered, Nat.one_mul, List.drop_left' length, List.take_length]
  constructor
  · rw [expected, count, if_pos (by decide), first, if_neg, plain_chunk_length]
    · simp [files]
    · intro same
      have heads := congrArg List.head? same
      simp only [torn, files, Nat.zero_mul, List.drop_zero, List.take_replicate, List.head?_append,
        List.head?_replicate] at heads
      exact absurd heads (by decide)
  · rw [expected, count, if_pos (by decide), second, if_pos rfl, AgeFiles.plainChunk, files]
    simp only [Nat.one_mul, List.drop_replicate, Nat.add_sub_cancel_left, List.take_replicate]
    rfl

end TwoChunks

theorem nexts_whole {Digest : Type} {crypto : Crypto Digest} {reader : SourceReader} (calls : Nat)
    (whole : reader.src.turns = []) : (reader.nexts crypto calls).2.1 = false := by
  induction calls generalizing reader with
  | zero => rfl
  | succ calls ih =>
    rw [SourceReader.nexts, SourceReader.next]
    by_cases ended : reader.chunks ≤ reader.index
    · rw [if_pos ended]
      exact ih whole
    · rw [if_neg ended, whole]
      exact ih rfl

/-- One byte in one chunk, read a few bytes at a time with an interruption: delivered whole it is
authentic, and with its last byte changed it is damaged. Of a file of two chunks whose first one is
overwritten, the second is delivered all the same. -/
theorem damage_stays_local_small :
    let turns : List Turn := [.gives 4, .interrupted, .gives 0]
    IdealAead Small.crypto Small.files Small.headerA ∧
      (∃ reader, openSource Small.parse ⟨Small.headerA ++ Small.chunk, turns⟩ 33 = .ok reader ∧
        reader.plainLen = 1 ∧ (reader.nexts Small.crypto 1).1 = [.authentic [7]]) ∧
      (∃ reader, openSource Small.parse ⟨Small.headerA ++ (Small.chunk.dropLast ++ [3]), turns⟩ 33 =
          .ok reader ∧
        reader.plainLen = 1 ∧ (reader.nexts Small.crypto 1).1 = [.damaged 1]) ∧
      ∃ reader, openSource Small.parse ⟨Small.headerA ++ (TwoChunks.torn ++
            TwoChunks.files.sealedChunk Small.headerA 1), []⟩
          (TwoChunks.files.ciphertext Small.headerA).length = .ok reader ∧
        (reader.nexts TwoChunks.crypto 2).1 = [.damaged chunkLen, .authentic [7]] := by
  intro turns
  refine ⟨Small.ideal_aead, ?_, ?_, ?_⟩
  · have agrees : Small.headerA <+: (Source.mk (Small.headerA ++ Small.chunk) turns).bytes := ⟨_, rfl⟩
    obtain ⟨reader, opened, _, plainLen, _⟩ :=
      damage_stays_local Small.ideal_aead (by decide) Small.parse_reads agrees rfl
    have concrete : openSource Small.parse ⟨Small.headerA ++ Small.chunk, turns⟩
        (Small.files.ciphertext Small.headerA).length =
          .ok ⟨⟨Small.chunk, turns⟩, Small.headerA, 0, 1, 17⟩ := by decide +kernel
    obtain rfl := Except.ok.inj (opened.symm.trans concrete)
    exact ⟨_, opened, plainLen, by decide +kernel⟩
  · have agrees : Small.headerA <+:
        (Source.mk (Small.headerA ++ (Small.chunk.dropLast ++ [3])) turns).bytes := ⟨_, rfl⟩
    obtain ⟨reader, opened, _, plainLen, _⟩ :=
      damage_stays_local Small.ideal_aead (by decide) Small.parse_reads agrees rfl
    have concrete : openSource Small.parse ⟨Small.headerA ++ (Small.chunk.dropLast ++ [3]), turns⟩
        (Small.files.ciphertext Small.headerA).length =
          .ok ⟨⟨Small.chunk.dropLast ++ [3], turns⟩, Small.headerA, 0, 1, 17⟩ := by decide +kernel
    obtain rfl := Except.ok.inj (opened.symm.trans concrete)
    exact ⟨_, opened, plainLen, by decide +kernel⟩
  · have ideal := TwoChunks.ideal_aead Small.headerA
    have agrees : Small.headerA <+: (Source.mk (Small.headerA ++ (TwoChunks.torn ++
        TwoChunks.files.sealedChunk Small.headerA 1)) []).bytes := ⟨_, rfl⟩
    obtain ⟨reader, opened, _, _, _, runs⟩ :=
      damage_stays_local ideal (by decide) Small.parse_reads agrees rfl
    refine ⟨reader, opened, ?_⟩
    obtain ⟨isGiven, _, all, _⟩ := runs 2 (reader.nexts TwoChunks.crypto 2).1
      (reader.nexts TwoChunks.crypto 2).2.1 (reader.nexts TwoChunks.crypto 2).2.2 rfl
    have parsed : Small.parse ⟨Small.headerA ++ (TwoChunks.torn ++
        TwoChunks.files.sealedChunk Small.headerA 1), []⟩ = .ok (Small.headerA, ⟨_, []⟩) :=
      congrArg (fun seen => Except.ok (seen, _)) (List.take_left' rfl)
    have opens := open_source_ok ideal (by decide) parsed
    have whole : reader.src.turns = [] := by rw [Except.ok.inj (opened.symm.trans opens)]
    rw [isGiven, (all (nexts_whole 2 whole)).1]
    obtain ⟨first, second⟩ := TwoChunks.expected_torn Small.headerA
    exact congrArg₂ (fun one two => [one, two]) first second

end Tapectl.Restore
