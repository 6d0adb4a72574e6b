import Tapectl.Restore.Supply

/-!
# What a read puts into the output

Under ideal authenticated encryption: whatever the drive gives and however the sink answers, every
byte the sink has outside a hole is plaintext of the one age file the output is bound to, at its own
place, and a read that comes to its end has brought the output to the length its reader counted.
-/

namespace Tapectl.Restore

open StoredText Effects

/-- The age files there are, by header: which bytes are the header of one, its plaintext, and its
chunks as they were sealed. -/
structure AgeFiles where
  real : Bytes → Prop
  plain : Bytes → Bytes
  sealedChunk : Bytes → Nat → Bytes

namespace AgeFiles

variable (files : AgeFiles)

def plainChunk (header : Bytes) (index : Nat) : Bytes :=
  ((files.plain header).drop (index * chunkLen)).take chunkLen

def count (header : Bytes) : Nat :=
  max 1 (((files.plain header).length + chunkLen - 1) / chunkLen)

def ciphertext (header : Bytes) : Bytes :=
  header ++ (List.range (files.count header)).flatMap (files.sealedChunk header)

end AgeFiles

/-- A chunk opens only if it is the own chunk, at that index, of a file there is; such a file is read
by its own header; and sha256 has no collisions. -/
structure Ideal {Digest : Type} (crypto : Crypto Digest) (files : AgeFiles) : Prop where
  opens : ∀ header index last bytes plain, crypto.decrypt header index last bytes = some plain →
    files.real header ∧ bytes = files.sealedChunk header index ∧
      plain = files.plainChunk header index ∧ index < files.count header ∧
      (last = true ↔ index + 1 = files.count header)
  sealedLength : ∀ header, files.real header → ∀ index,
    (files.sealedChunk header index).length = (files.plainChunk header index).length + tagLen
  ownHeader : ∀ header, files.real header → ∀ found,
    crypto.header (files.ciphertext header) = some found → found = header
  collisionFree : Function.Injective crypto.sha256

/-- The length of the last chunk of a file of `encrypted` bytes with this header. -/
def lastOf (encrypted : Nat) (header : Bytes) : Nat :=
  let payload := encrypted - header.length
  payload - ((payload + encryptedChunk - 1) / encryptedChunk - 1) * encryptedChunk

/-- The plaintext length of a file of `encrypted` bytes with this header, from its length alone. -/
def totalOf (encrypted : Nat) (header : Bytes) : Nat :=
  ((encrypted - header.length + encryptedChunk - 1) / encryptedChunk - 1) * chunkLen +
    (lastOf encrypted header - tagLen)

section Reader

variable {Digest : Type} {crypto : Crypto Digest} {files : AgeFiles}

def ChunkReader.step (reader : ChunkReader) : Nat :=
  (if reader.index + 1 = reader.chunks then reader.lastLen else encryptedChunk) - tagLen

structure ChunkReader.At (reader : ChunkReader) (pos : Nat) : Prop where
  some_chunk : 1 ≤ reader.chunks
  tag : tagLen ≤ reader.lastLen
  short : reader.lastLen ≤ encryptedChunk
  within : reader.index ≤ reader.chunks
  place : pos = min (reader.index * chunkLen) reader.plainLen

variable {reader : ChunkReader}

theorem open_chunks_ok {src : Bytes} {encrypted : Nat}
    (opened : openChunks crypto src encrypted = .ok reader) :
    crypto.header src = some reader.header ∧ reader.header.length + tagLen ≤ encrypted ∧
      reader.plainLen = totalOf encrypted reader.header ∧
      reader.lastLen = lastOf encrypted reader.header ∧ reader.index = 0 ∧ reader.At 0 := by
  unfold openChunks at opened
  split at opened
  · cases opened
  next header found =>
  split at opened
  · cases opened
  split at opened
  · cases opened
  next long =>
  dsimp only at opened
  split at opened
  · cases opened
  next room =>
  split at opened
  · cases opened
  next tag =>
  cases opened
  have bound : tagLen = 16 ∧ encryptedChunk = 65552 := ⟨rfl, rfl⟩
  have chunks := Nat.div_add_mod (encrypted - header.length + encryptedChunk - 1) encryptedChunk
  have rest := Nat.mod_lt (encrypted - header.length + encryptedChunk - 1)
    (by decide : 0 < encryptedChunk)
  refine ⟨found, by dsimp only; omega, rfl, rfl, rfl, ?_, by dsimp only; omega, ?_, Nat.zero_le _, ?_⟩
  · exact (Nat.one_le_div_iff (by decide)).mpr (by omega)
  · dsimp only
    generalize (encrypted - header.length + encryptedChunk - 1) / encryptedChunk = count at *
    rw [bound.1, bound.2] at *
    omega
  · simp

theorem ChunkReader.At.next {reader : ChunkReader} {pos : Nat} (at_ : reader.At pos)
    (inside : reader.index < reader.chunks) (src : Bytes) :
    ChunkReader.At { reader with index := reader.index + 1, src } (pos + reader.step) := by
  refine ⟨at_.some_chunk, at_.tag, at_.short, inside, ?_⟩
  have some_chunk := at_.some_chunk
  have tag := at_.tag
  have short := at_.short
  rw [at_.place]
  unfold ChunkReader.step ChunkReader.plainLen
  dsimp only
  simp only [chunkLen, tagLen, encryptedChunk] at *
  split <;> omega

theorem ChunkReader.At.ended {pos : Nat} (at_ : reader.At pos)
    (ended : reader.chunks ≤ reader.index) : pos = reader.plainLen := by
  have some_chunk := at_.some_chunk
  have short := at_.short
  have within := at_.within
  rw [at_.place]
  unfold ChunkReader.plainLen
  simp only [chunkLen, tagLen, encryptedChunk] at *
  omega

theorem ChunkReader.At.le {pos : Nat} (at_ : reader.At pos) :
    pos ≤ reader.plainLen := by
  rw [at_.place]
  exact Nat.min_le_right _ _

theorem next_cases (ideal : Ideal crypto files) (reader : ChunkReader) :
    (reader.chunks ≤ reader.index ∧ reader.next crypto = (.ended, reader)) ∨
    (reader.index < reader.chunks ∧ ∃ src,
      (∃ plain, reader.next crypto =
          (.authentic plain, { reader with index := reader.index + 1, src }) ∧
        files.real reader.header ∧ plain = files.plainChunk reader.header reader.index ∧
        plain.length = reader.step) ∨
      reader.next crypto =
        (.damaged reader.step, { reader with index := reader.index + 1, src })) := by
  unfold ChunkReader.next
  by_cases ended : reader.chunks ≤ reader.index
  · exact .inl ⟨ended, if_pos ended⟩
  rw [if_neg ended]
  refine .inr ⟨Nat.not_le.mp ended, reader.src.drop (if reader.index + 1 = reader.chunks then
    reader.lastLen else encryptedChunk), ?_⟩
  simp only [beq_iff_eq]
  have stepEq : (if reader.index + 1 = reader.chunks then reader.lastLen else encryptedChunk) - tagLen =
      reader.step := rfl
  rw [stepEq]
  generalize isWant : (if reader.index + 1 = reader.chunks then reader.lastLen else encryptedChunk) =
    want at *
  split
  · exact .inr rfl
  next enough =>
  split
  · exact .inr rfl
  next plain opened =>
  split
  · exact .inr rfl
  · obtain ⟨real, bytes, own, _, _⟩ := ideal.opens _ _ _ _ _ opened
    refine .inl ⟨plain, rfl, real, own, ?_⟩
    have length := ideal.sealedLength reader.header real reader.index
    rw [← bytes, ← own, List.length_take] at length
    omega

end Reader

def InHoles (holes : List (Nat × Nat)) (place : Nat) : Prop :=
  ∃ hole ∈ holes, hole.1 ≤ place ∧ place < hole.2

namespace SliceOut

variable {files : AgeFiles} {encrypted : Nat} {out : SliceOut}

/-- A byte may stand at `place`: a zero in a hole, or the bound file's own byte. -/
def MayHold (files : AgeFiles) (out : SliceOut) (place : Nat) (byte : UInt8) : Prop :=
  InHoles out.holes place ∧ byte = 0 ∨
    ¬ InHoles out.holes place ∧ ∃ header, out.bound = some header ∧ files.real header ∧
      (files.plain header)[place]? = some byte

def Authentic (files : AgeFiles) (out : SliceOut) : Prop :=
  ∀ place byte, out.kept[place]? = some byte → out.MayHold files place byte

structure Kept (files : AgeFiles) (out : SliceOut) : Prop where
  authentic : out.Authentic files
  books : out.gone = out.dropping
  whole : out.dropping = false → out.kept.length = out.delivered
  short : out.kept.length ≤ out.delivered
  hashed : ∀ bytes, out.plain = some bytes → out.dropping = false → bytes = out.kept
  fresh : out.opened = false → out.dropping = false → out.kept = []

structure Touched (before after : SliceOut) : Prop where
  same : ∃ opened feeds closing, after = { before with
    opened, feeds, gone := before.gone || closing, dropping := before.dropping || closing }
  ready : after.opened = true ∨ after.dropping = true

variable {before : SliceOut} {bytes header : Bytes}

theorem Touched.kept {after : SliceOut} (touched : Touched before after)
    (kept : before.Kept files) : after.Kept files := by
  obtain ⟨⟨opened, feeds, closing, rfl⟩, ready⟩ := touched
  have books := kept.books
  refine ⟨kept.authentic, by simp [books], ?_, kept.short, ?_, ?_⟩
  · intro alive
    exact kept.whole (by simp_all)
  · intro bytes isPlain alive
    exact kept.hashed bytes isPlain (by simp_all)
  · intro notOpened alive
    rcases ready with isOpen | dropping
    · exact absurd isOpen (by simp_all)
    · exact absurd dropping (by simp_all)

theorem open_sink_spec (fed : Nat → Fed) (kept : out.Kept files) :
    Spec out (openSink fed) (fun _ after => Touched out after)
      (fun _ after => after.Authentic files) := by
  unfold Spec openSink
  by_cases ready : out.opened = true ∨ out.dropping = true
  · rw [if_pos ready]
    exact ⟨⟨out.opened, out.feeds, false, by simp⟩, ready⟩
  rw [if_neg ready]
  have empty : out.kept = [] := kept.fresh (by simp_all) (by simp_all)
  have books := kept.books
  have failed : ∀ feeds, SliceOut.Authentic files { out with feeds } := fun _ => kept.authentic
  cases isSink : out.sink with
  | file =>
    cases isFed : fed out.feeds with
    | failed count =>
      dsimp only
      rw [← isSink]
      exact failed _
    | ok => exact ⟨⟨true, out.feeds + 1, false, by simp [isSink, empty]⟩, .inl rfl⟩
    | closed count => exact ⟨⟨true, out.feeds + 1, false, by simp [isSink, empty]⟩, .inl rfl⟩
  | stream =>
    dsimp only
    by_cases noSlice : out.sliceNumber < 0 ∨ 2 ^ 32 ≤ out.sliceNumber
    · rw [if_pos noSlice]
      exact kept.authentic
    · rw [if_neg noSlice]
      cases isFed : fed out.feeds with
      | failed count =>
        dsimp only
        rw [← isSink]
        exact failed _
      | ok => exact ⟨⟨true, out.feeds + 1, false, by simp [isSink]⟩, .inl rfl⟩
      | closed count =>
        exact ⟨⟨out.opened, out.feeds + 1, true, by simp [isSink, close]⟩, .inr rfl⟩

/-- The output after a write that may have been cut short, with the bytes the sink has of it. -/
structure Wrote (before : SliceOut) (bytes : Bytes) (after : SliceOut) : Prop where
  same : ∃ opened feeds closing had, had <+: bytes ∧ (before.dropping = true → had = []) ∧
    (closing = false → before.dropping = false → had = bytes) ∧ after = { before with
      opened, feeds, gone := before.gone || closing, dropping := before.dropping || closing,
      kept := before.kept ++ had
      plain := before.plain.map fun hashed => hashed ++ bytes
      delivered := before.delivered + bytes.length }
  ready : after.opened = true ∨ after.dropping = true

def Fits (files : AgeFiles) (out : SliceOut) (bytes : Bytes) : Prop :=
  ∀ place byte, bytes[place]? = some byte → out.MayHold files (out.delivered + place) byte

theorem authentic_append (kept : out.Kept files) (alive : out.dropping = false) {had : Bytes}
    (fits : out.Fits files bytes) (front : had <+: bytes) {place : Nat} {byte : UInt8}
    (found : (out.kept ++ had)[place]? = some byte) : out.MayHold files place byte := by
  rcases Nat.lt_or_ge place out.kept.length with before | after
  · rw [List.getElem?_append_left before] at found
    exact kept.authentic place byte found
  · rw [List.getElem?_append_right after] at found
    have inside := (List.getElem?_eq_some_iff.mp found).1
    obtain ⟨rest, rfl⟩ := front
    have own := fits _ byte ((List.getElem?_append_left inside).trans found)
    rwa [← kept.whole alive, Nat.add_sub_cancel' after] at own

theorem Wrote.kept {after : SliceOut} (wrote : Wrote before bytes after)
    (kept : before.Kept files) (fits : before.Fits files bytes) : after.Kept files := by
  obtain ⟨⟨opened, feeds, closing, had, front, dropped, all, rfl⟩, ready⟩ := wrote
  have books := kept.books
  have length := front.length_le
  have short := kept.short
  refine ⟨?_, by simp [books], ?_, ?_, ?_, ?_⟩
  · intro place byte found
    cases alive : before.dropping with
    | true =>
      dsimp only at found
      rw [dropped alive, List.append_nil] at found
      exact kept.authentic place byte found
    | false => exact authentic_append kept alive fits front found
  · intro alive
    rw [Bool.or_eq_false_iff] at alive
    dsimp only
    rw [List.length_append, kept.whole alive.1, all alive.2 alive.1]
  · dsimp only
    rw [List.length_append]
    omega
  · intro hashed isPlain alive
    rw [Bool.or_eq_false_iff] at alive
    obtain ⟨earlier, isEarlier, rfl⟩ := Option.map_eq_some_iff.mp isPlain
    rw [kept.hashed earlier isEarlier alive.1, all alive.2 alive.1]
  · intro notOpened alive
    rcases ready with isOpen | dropping
    · exact absurd isOpen (by simp_all)
    · exact absurd dropping (by simp_all)

theorem put_open_spec (fed : Nat → Fed) (kept : out.Kept files)
    (ready : out.opened = true ∨ out.dropping = true) (fits : out.Fits files bytes) :
    Spec out (putOpen fed bytes) (fun _ after => Wrote out bytes after)
      (fun _ after => after.Authentic files) := by
  unfold Spec putOpen
  by_cases dropping : out.dropping = true
  · rw [if_pos dropping]
    refine ⟨⟨out.opened, out.feeds, false, [], List.nil_prefix, fun _ => rfl, ?_, ?_⟩, .inr dropping⟩
    · intro _ alive
      rw [dropping] at alive
      cases alive
    · simp [account]
  · rw [if_neg dropping]
    have alive : out.dropping = false := by simpa using dropping
    have isOpen : out.opened = true := by simpa [alive] using ready
    cases isFed : fed out.feeds with
    | ok =>
      exact ⟨⟨out.opened, out.feeds + 1, false, bytes, List.prefix_refl _,
        fun dropped => absurd dropped dropping, fun _ _ => rfl, by simp [account]⟩, .inl isOpen⟩
    | closed count =>
      exact ⟨⟨out.opened, out.feeds + 1, true, bytes.take count, List.take_prefix _ _,
        fun dropped => absurd dropped dropping, nofun, by simp [account, close]⟩, .inr rfl⟩
    | failed count =>
      intro place byte found
      exact authentic_append kept alive fits (List.take_prefix count bytes) found

theorem put_spec (fed : Nat → Fed) (kept : out.Kept files) (fits : out.Fits files bytes) :
    Spec out (put fed bytes) (fun _ after => Wrote out bytes after)
      (fun _ after => after.Authentic files) := by
  refine Spec.bind (open_sink_spec fed kept) fun _ state touched => ?_
  have still := touched.kept kept
  obtain ⟨⟨opened, feeds, closing, same⟩, ready⟩ := touched
  have fitsStill : state.Fits files bytes := by
    rw [same]
    exact fits
  refine Spec.weaken (put_open_spec fed still ready fitsStill) ?_
    (fun _ _ authentic => authentic)
  rintro _ after ⟨⟨opened', feeds', closing', had, front, dropped, all, isAfter⟩, ready'⟩
  subst same
  refine ⟨⟨opened', feeds', closing || closing', had, front, ?_, ?_, ?_⟩, ready'⟩
  · intro dropping
    exact dropped (by simp [dropping])
  · intro alive wasAlive
    rw [Bool.or_eq_false_iff] at alive
    exact all alive.2 (by simp [wasAlive, alive.1])
  · rw [isAfter]
    simp [Bool.or_assoc]

structure Grew (before after : SliceOut) : Prop where
  bound : ∀ header, before.bound = some header → after.bound = some header
  source : after.source = before.source
  history : after.history = before.history
  gone : before.gone = true → after.gone = true
  sink : after.sink = before.sink
  unhashed : after.unhashed = before.unhashed

theorem Grew.refl (out : SliceOut) : Grew out out := ⟨fun _ => id, rfl, rfl, id, rfl, rfl⟩

theorem Grew.trans {a b c : SliceOut} (first : Grew a b) (second : Grew b c) : Grew a c :=
  ⟨fun header isBound => second.bound header (first.bound header isBound),
    second.source.trans first.source, second.history.trans first.history,
    fun gone => second.gone (first.gone gone), second.sink.trans first.sink,
    second.unhashed.trans first.unhashed⟩

theorem Touched.grew {after : SliceOut} (touched : Touched before after) :
    Grew before after := by
  obtain ⟨⟨opened, feeds, closing, rfl⟩, _⟩ := touched
  exact ⟨fun _ => id, rfl, rfl, fun gone => by simp [gone], rfl, rfl⟩

theorem Wrote.grew {after : SliceOut} (wrote : Wrote before bytes after) :
    Grew before after := by
  obtain ⟨⟨opened, feeds, closing, had, _, _, _, rfl⟩, _⟩ := wrote
  exact ⟨fun _ => id, rfl, rfl, fun gone => by simp [gone], rfl, rfl⟩

theorem Wrote.books {after : SliceOut} (wrote : Wrote before bytes after) :
    after.holes = before.holes ∧ after.delivered = before.delivered + bytes.length ∧
      after.bound = before.bound := by
  obtain ⟨⟨opened, feeds, closing, had, _, _, _, rfl⟩, _⟩ := wrote
  exact ⟨rfl, rfl, rfl⟩

theorem put_zeros_spec (fed : Nat → Fed) {pieces : List Nat} (kept : out.Kept files)
    (inHole : ∀ place, out.delivered ≤ place → place < out.delivered + pieces.sum →
      InHoles out.holes place) :
    Spec out (putZeros fed pieces)
      (fun _ after => after.Kept files ∧ Grew out after ∧ after.bound = out.bound ∧
        after.holes = out.holes ∧ after.delivered = out.delivered + pieces.sum)
      (fun _ after => after.Authentic files) := by
  induction pieces generalizing out with
  | nil =>
    exact Spec.pure ⟨kept, .refl _, rfl, rfl, rfl⟩
  | cons piece pieces ih =>
    rw [List.sum_cons] at inHole ⊢
    have fits : out.Fits files (List.replicate piece 0) := by
      intro place byte found
      obtain ⟨inside, isZero⟩ := List.getElem?_eq_some_iff.mp found
      rw [List.length_replicate] at inside
      rw [List.getElem_replicate] at isZero
      exact .inl ⟨inHole _ (by omega) (by omega), isZero.symm⟩
    refine Spec.bind (put_spec fed kept fits) fun _ wrote isWrote => Spec.modify_bind ?_
    generalize isState : { wrote with holeBytes := wrote.holeBytes + piece } = state
    have still := isWrote.kept kept fits
    have grew := isWrote.grew
    obtain ⟨holes, delivered, bound⟩ := isWrote.books
    rw [List.length_replicate] at delivered
    have stillState : state.Kept files := by
      rw [← isState]
      exact ⟨still.authentic, still.books, still.whole, still.short, still.hashed, still.fresh⟩
    have sameHoles : state.holes = out.holes := by rw [← isState, holes]
    have sameDelivered : state.delivered = out.delivered + piece := by rw [← isState, delivered]
    refine Spec.weaken (ih stillState ?_) ?_ (fun _ _ fails => fails)
    · intro place least most
      rw [sameHoles]
      exact inHole place (by omega) (by omega)
    · rintro _ after ⟨keptAfter, grewAfter, boundAfter, holesAfter, deliveredAfter⟩
      refine ⟨keptAfter, ?_, ?_, holesAfter.trans sameHoles, by omega⟩
      swap
      · rw [boundAfter, ← isState, bound]
      refine grew.trans (Grew.trans ?_ grewAfter)
      rw [← isState]
      exact ⟨fun _ => id, rfl, rfl, id, rfl, rfl⟩

def HolesPast (out : SliceOut) : Prop := ∀ hole ∈ out.holes, hole.2 ≤ out.delivered

theorem HolesPast.not_in_holes (past : out.HolesPast) {place : Nat} (later : out.delivered ≤ place) :
    ¬ InHoles out.holes place := by
  rintro ⟨hole, isHole, _, inside⟩
  have ends := past hole isHole
  omega

def entered (out : SliceOut) (len : Nat) : SliceOut :=
  if 0 < len then { out with holes := out.holes ++ [(out.delivered, out.delivered + len)] } else out

theorem entered_kept (kept : out.Kept files) (len : Nat) : (out.entered len).Kept files := by
  unfold entered
  split
  · refine ⟨?_, kept.books, kept.whole, kept.short, kept.hashed, kept.fresh⟩
    intro place byte found
    have inside := (List.getElem?_eq_some_iff.mp found).1
    have short := kept.short
    have same : InHoles (out.holes ++ [(out.delivered, out.delivered + len)]) place ↔
        InHoles out.holes place := by
      constructor
      · rintro ⟨hole, isHole, least, most⟩
        rcases List.mem_append.mp isHole with earlier | new
        · exact ⟨hole, earlier, least, most⟩
        · rw [List.mem_singleton.mp new] at least
          exact absurd least (by dsimp only at inside ⊢; omega)
      · rintro ⟨hole, isHole, least, most⟩
        exact ⟨hole, List.mem_append_left _ isHole, least, most⟩
    unfold MayHold
    dsimp only
    rw [same]
    exact kept.authentic place byte found
  · exact kept

theorem hole_spec (fed : Nat → Fed) {len : Nat} (kept : out.Kept files) (past : out.HolesPast) :
    Spec out (hole fed len)
      (fun _ after => after.Kept files ∧ Grew out after ∧ after.bound = out.bound ∧ after.HolesPast ∧
        after.delivered = out.delivered + len)
      (fun _ after => after.Authentic files) := by
  refine Spec.bind (open_sink_spec fed kept) fun _ touched isTouched => Spec.modify_bind ?_
  change Spec (touched.entered len) _ _ _
  generalize isState : touched.entered len = state
  have keptTouched := isTouched.kept kept
  have still : state.Kept files := isState ▸ entered_kept keptTouched len
  have grew := isTouched.grew
  obtain ⟨⟨opened, feeds, closing, isOut⟩, _⟩ := isTouched
  have books : state.delivered = out.delivered ∧ state.bound = out.bound := by
    rw [← isState, isOut]
    unfold entered
    split <;> exact ⟨rfl, rfl⟩
  obtain ⟨delivered, bound⟩ := books
  have holes : ∀ hole, hole ∈ state.holes ↔
      hole ∈ out.holes ∨ 0 < len ∧ hole = (out.delivered, out.delivered + len) := by
    intro hole
    rw [← isState, isOut]
    unfold entered
    split
    · next some_len => simp [some_len]
    · next no_len => simp [no_len]
  have grewState : Grew touched state := by
    rw [← isState]
    unfold entered
    split
    · exact ⟨fun _ => id, rfl, rfl, id, rfl, rfl⟩
    · exact .refl _
  refine Spec.weaken (put_zeros_spec fed still ?_) ?_ (fun _ _ fails => fails)
  · intro place least most
    rw [sum_pieces_of, delivered] at most
    rw [delivered] at least
    exact ⟨_, (holes _).mpr (.inr ⟨by omega, rfl⟩), least, most⟩
  · rintro _ after ⟨keptAfter, grewAfter, boundAfter, holesAfter, deliveredAfter⟩
    rw [sum_pieces_of, delivered] at deliveredAfter
    refine ⟨keptAfter, grew.trans (grewState.trans grewAfter), boundAfter.trans bound, ?_,
      deliveredAfter⟩
    intro hole isHole
    rw [holesAfter] at isHole
    rw [deliveredAfter]
    rcases (holes hole).mp isHole with earlier | ⟨_, rfl⟩
    · exact Nat.le_add_right_of_le (past hole earlier)
    · exact Nat.le_refl _

structure Filling (files : AgeFiles) (header : Bytes) (out : SliceOut) : Prop where
  kept : out.Kept files
  past : out.HolesPast
  bound : out.bound = none ∧ out.delivered = 0 ∨ out.bound = some header

theorem Filling.bind (filling : out.Filling files header) :
    (out.bind header).Filling files header ∧ (out.bind header).bound = some header := by
  obtain ⟨kept, past, ⟨unbound, empty⟩ | isBound⟩ := filling
  · have nothing : out.kept = [] := List.length_eq_zero_iff.mp (Nat.le_zero.mp (empty ▸ kept.short))
    unfold SliceOut.bind
    rw [unbound]
    refine ⟨⟨⟨?_, kept.books, kept.whole, kept.short, kept.hashed, kept.fresh⟩, past, .inr rfl⟩, rfl⟩
    intro place byte found
    rw [nothing] at found
    cases found
  · have same : out.bind header = out := by
      unfold SliceOut.bind
      rw [isBound]
    rw [same]
    exact ⟨⟨kept, past, .inr isBound⟩, isBound⟩

theorem bind_books (out : SliceOut) (header : Bytes) :
    (out.bind header).delivered = out.delivered ∧ (out.bind header).holes = out.holes ∧
      Grew out (out.bind header) := by
  unfold SliceOut.bind
  split
  · next unbound => exact ⟨rfl, rfl, by simp [unbound], rfl, rfl, id, rfl, rfl⟩
  · exact ⟨rfl, rfl, .refl _⟩

theorem fits_chunk {skip pos index : Nat} (past : out.HolesPast)
    (isBound : out.bound = some header) (real : files.real header)
    (place : out.delivered = max skip pos) (isPos : pos = index * chunkLen) :
    out.Fits files ((files.plainChunk header index).drop (skip - pos)) := by
  intro i byte found
  refine .inr ⟨past.not_in_holes (Nat.le_add_right _ _), header, isBound, real, ?_⟩
  unfold AgeFiles.plainChunk at found
  rw [List.getElem?_drop] at found
  have inside := (List.getElem?_eq_some_iff.mp found).1
  rw [List.length_take] at inside
  rw [List.getElem?_take_of_lt (by omega), List.getElem?_drop] at found
  rw [← found, place]
  congr 1
  omega

/-- What `deliver` leaves, of a reader whose plaintext has `total` bytes and whose last chunk has
`last`, when `skip` bytes were there. -/
structure Delivered (files : AgeFiles) (header : Bytes) (total last skip : Nat) (mode : Mode)
    (before : SliceOut) (stopped : Bool) (after : SliceOut) : Prop where
  filling : after.Filling files header
  grew : Grew before after
  solid : mode = .strict → after.holes = before.holes
  more : before.delivered ≤ after.delivered
  within : after.delivered ≤ total
  all : stopped = false → after.gone = false → after.delivered = total
  tolerant : mode = .tolerant → stopped = false
  -- a bad last chunk without plaintext may stop a read that has delivered everything
  stuck : stopped = true → skip < total ∧ (last ≤ tagLen ∨ after.delivered < total)

theorem Delivered.after {total last skip : Nat} {mode : Mode} {mid after : SliceOut}
    {stopped : Bool} (grew : Grew before mid) (solid : mode = .strict → mid.holes = before.holes)
    (more : before.delivered ≤ mid.delivered)
    (rest : Delivered files header total last skip mode mid stopped after) :
    Delivered files header total last skip mode before stopped after :=
  ⟨rest.filling, grew.trans rest.grew, fun strict => (rest.solid strict).trans (solid strict),
    more.trans rest.more, rest.within, rest.all, rest.tolerant, rest.stuck⟩

end SliceOut

theorem ChunkReader.At.inside {reader : ChunkReader} {pos : Nat} (at_ : reader.At pos)
    (inside : reader.index < reader.chunks) : pos = reader.index * chunkLen := by
  have least : reader.index * chunkLen ≤ (reader.chunks - 1) * chunkLen :=
    Nat.mul_le_mul_right _ (by omega)
  rw [at_.place]
  unfold ChunkReader.plainLen
  omega

section Decrypting

variable {Digest : Type} {crypto : Crypto Digest} {files : AgeFiles} {fed : Nat → Fed} {mode : Mode}

open SliceOut

variable {reader : ChunkReader}

theorem deliver_after {skip turns pos : Nat} {before mid : SliceOut}
    (grew : Grew before mid) (solid : mode = .strict → mid.holes = before.holes)
    (more : before.delivered ≤ mid.delivered)
    (rest : Spec mid (deliver crypto fed mode skip turns reader pos)
      (fun ended after => Delivered files reader.header reader.plainLen reader.lastLen skip mode mid
        ended.1 after)
      (fun _ after => after.Authentic files)) :
    Spec mid (deliver crypto fed mode skip turns reader pos)
      (fun ended after => Delivered files reader.header reader.plainLen reader.lastLen skip mode before
        ended.1 after)
      (fun _ after => after.Authentic files) :=
  Spec.weaken rest
    (fun _ _ delivery => Delivered.after grew solid more delivery) (fun _ _ fails => fails)

theorem deliver_spec (ideal : Ideal crypto files) {skip turns pos : Nat} {out : SliceOut}
    (at_ : reader.At pos) (enough : reader.chunks < reader.index + turns)
    (filling : out.Filling files reader.header) (within : skip ≤ reader.plainLen)
    (place : out.delivered = max skip pos) :
    Spec out (deliver crypto fed mode skip turns reader pos)
      (fun ended after => Delivered files reader.header reader.plainLen reader.lastLen skip mode out
        ended.1 after)
      (fun _ after => after.Authentic files) := by
  induction turns generalizing reader pos out with
  | zero =>
    have least := at_.within
    omega
  | succ turns ih =>
    have most := at_.le
    have same : Grew out out := .refl out
    obtain ⟨bound, isBound⟩ := filling.bind
    obtain ⟨sameDelivered, sameHoles, grewBound⟩ := bind_books out reader.header
    unfold deliver
    rcases next_cases ideal reader with
      ⟨atEnd, isNext⟩ | ⟨inside, src, ⟨plain, isNext, real, own, long⟩ | isNext⟩
    · -- the file's end
      rw [isNext]
      refine Spec.pure ?_
      have isAll := at_.ended atEnd
      exact ⟨filling, same, fun _ => rfl, Nat.le_refl _, by omega, fun _ _ => by omega,
        fun _ => rfl, by simp⟩
    · -- a chunk that opens
      have at' := at_.next inside src
      have most' : pos + reader.step ≤ reader.plainLen := at'.le
      rw [isNext]
      dsimp only
      rw [long]
      by_cases wanted : skip < pos + reader.step
      swap
      · rw [if_neg wanted]
        exact ih at' (by dsimp only; omega) filling within (by omega)
      rw [if_pos wanted]
      have fits : (out.bind reader.header).Fits files (plain.drop (skip - pos)) := by
        rw [own]
        exact fits_chunk bound.past isBound real (sameDelivered.trans place) (at_.inside inside)
      refine Spec.modify_bind (Spec.bind (put_spec fed bound.kept fits) fun _ state wrote => ?_)
      obtain ⟨holes, delivered, _⟩ := wrote.books
      rw [List.length_drop, long, sameDelivered] at delivered
      have filling' : state.Filling files reader.header := by
        refine ⟨wrote.kept bound.kept fits, ?_, .inr (wrote.grew.bound _ isBound)⟩
        intro hole isHole
        have ends := bound.past hole (holes ▸ isHole)
        omega
      exact deliver_after (grewBound.trans wrote.grew) (fun _ => holes.trans sameHoles) (by omega)
        (ih at' (by dsimp only; omega) filling' within (by omega))
    · -- a bad chunk
      have at' := at_.next inside src
      have most' : pos + reader.step ≤ reader.plainLen := at'.le
      rw [isNext]
      dsimp only
      by_cases wanted : skip < pos + reader.step
      swap
      · rw [if_neg wanted]
        exact ih at' (by dsimp only; omega) filling within (by omega)
      rw [if_pos wanted]
      refine Spec.get_bind ?_
      by_cases gone : out.gone = true
      · rw [if_pos gone]
        refine Spec.pure ?_
        refine ⟨filling, same, fun _ => rfl, Nat.le_refl _, by omega, fun _ alive => ?_, fun _ => rfl,
          by simp⟩
        rw [gone] at alive
        cases alive
      rw [if_neg gone]
      by_cases strict : mode = .strict
      · rw [if_pos strict]
        refine Spec.pure ?_
        refine ⟨filling, same, fun _ => rfl, Nat.le_refl _, by omega, by simp, by simp [strict],
          fun _ => ⟨by omega, ?_⟩⟩
        rcases Nat.eq_zero_or_pos reader.step with empty | some_plain
        · left
          unfold ChunkReader.step at empty
          split at empty
          · omega
          · exact absurd empty (by decide)
        · exact .inr (by omega)
      rw [if_neg strict]
      refine Spec.modify_bind (Spec.bind (hole_spec fed bound.kept bound.past) fun _ state holed => ?_)
      obtain ⟨kept, grew, _, past, delivered⟩ := holed
      exact deliver_after (grewBound.trans grew) (fun isStrict => absurd isStrict strict) (by omega)
        (ih at' (by dsimp only; omega) ⟨kept, past, .inr (grew.bound _ isBound)⟩ within (by omega))

/-- An output between two reads of a slice of `encrypted` bytes. -/
structure Ready (files : AgeFiles) (encrypted : Nat) (out : SliceOut) : Prop where
  kept : out.Kept files
  alive : out.gone = false
  solid : out.holes = []
  tied : ∀ header, out.bound = some header →
    out.source = some header ∧ out.delivered ≤ totalOf encrypted header
  loose : out.bound = none → out.delivered = 0

structure Landed (files : AgeFiles) (encrypted : Nat) (header : Bytes) (mode : Mode)
    (before : SliceOut) (ended : Ended) (after : SliceOut) : Prop where
  long : header.length + tagLen ≤ encrypted
  bound : before.bound = none ∨ before.bound = some header
  authentic : after.Authentic files
  sinkGone : ended.sinkGone = after.gone
  opened : ended.openError = none
  same_file : ended.otherFile = false
  done : after.gone = false → Delivered files header (totalOf encrypted header)
    (lastOf encrypted header) before.delivered mode (before.filledFrom header) ended.stopped after

variable {encrypted : Nat} {out : SliceOut}

theorem filled_from_filling (ready : Ready files encrypted out) {header : Bytes}
    (bound : out.bound = none ∨ out.bound = some header) :
    (out.filledFrom header).Filling files header := by
  have kept := ready.kept
  refine ⟨⟨kept.authentic, kept.books, kept.whole, kept.short, kept.hashed, kept.fresh⟩, ?_, ?_⟩
  · intro hole isHole
    exact absurd isHole (by simp [filledFrom, ready.solid])
  · exact bound.imp_left fun unbound => ⟨unbound, ready.loose unbound⟩

theorem deliver_file_spec (ideal : Ideal crypto files) (start : reader.index = 0)
    (at_ : reader.At 0) (filling : out.Filling files reader.header)
    (within : out.delivered ≤ reader.plainLen) :
    Spec out (deliverFile crypto fed mode reader)
      (fun ended after => Delivered files reader.header reader.plainLen reader.lastLen out.delivered
        mode out ended.1 after)
      (fun _ after => after.Authentic files) := by
  refine Spec.bind (open_sink_spec fed filling.kept) fun _ state touched => ?_
  have grew := touched.grew
  have kept := touched.kept filling.kept
  obtain ⟨⟨opened, feeds, closing, isState⟩, _⟩ := touched
  have delivered : state.delivered = out.delivered := by rw [isState]
  have holes : state.holes = out.holes := by rw [isState]
  have bound : state.bound = out.bound := by rw [isState]
  have filling' : state.Filling files reader.header := by
    refine ⟨kept, ?_, ?_⟩
    · intro hole isHole
      rw [delivered]
      exact filling.past hole (holes ▸ isHole)
    · rw [bound, delivered]
      exact filling.bound
  rw [← delivered]
  refine Spec.get_bind (deliver_after grew (fun _ => holes) (Nat.le_of_eq delivered.symm) ?_)
  exact deliver_spec ideal at_ (by omega) filling' (by omega) (by omega)

theorem decrypt_chunks_spec (ideal : Ideal crypto files) (ready : Ready files encrypted out)
    (src : Bytes) :
    Spec out (decryptChunks crypto fed src encrypted mode)
      (fun ended after =>
        after = out ∧ (ended.openError.isSome = true ∨
          ended.openError = none ∧ ended.sinkGone = false ∧ ended.otherFile = true ∧
            ∃ header, crypto.header src = some header ∧ out.bound ≠ none ∧
              out.bound ≠ some header) ∨
        ∃ header, crypto.header src = some header ∧
          Landed files encrypted header mode out ended after)
      (fun _ after => after.Authentic files) := by
  unfold decryptChunks
  split
  · refine Spec.pure ?_
    exact .inl ⟨rfl, .inl rfl⟩
  next reader opened =>
  obtain ⟨isHeader, long, total, last, start, at_⟩ := open_chunks_ok opened
  refine Spec.get_bind ?_
  split
  · next other =>
    refine Spec.pure ?_
    refine .inl ⟨rfl, .inr ⟨rfl, rfl, rfl, reader.header, isHeader, ?_, ?_⟩⟩
    · intro unbound
      simp [unbound] at other
    · intro isBound
      simp [isBound] at other
  next sameFile =>
  have bound : out.bound = none ∨ out.bound = some reader.header := by
    cases isBound : out.bound with
    | none => exact .inl rfl
    | some header => exact .inr (by simpa [isBound] using sameFile)
  have filling := filled_from_filling ready bound
  have within : (out.filledFrom reader.header).delivered ≤ reader.plainLen := by
    change out.delivered ≤ _
    rw [total]
    rcases bound with unbound | isBound
    · rw [ready.loose unbound]
      exact Nat.zero_le _
    · exact (ready.tied _ isBound).2
  refine Spec.modify_bind (Spec.bind (Spec.attempted
    (deliver_file_spec ideal start at_ filling within)) fun delivery after result => Spec.get_bind ?_)
  cases delivery with
  | ok ended =>
    refine Spec.pure ?_
    refine .inr ⟨reader.header, isHeader, long, bound, result.filling.kept.authentic, rfl, rfl, rfl, ?_⟩
    exact fun _ => total ▸ last ▸ result
  | error refusal =>
    dsimp only at result ⊢
    split
    · next gone =>
      refine Spec.pure ?_
      refine .inr ⟨reader.header, isHeader, long, bound, result, gone.symm, rfl, rfl, fun alive => ?_⟩
      rw [gone] at alive
      cases alive
    · refine Spec.throw ?_
      exact result

end Decrypting

end Tapectl.Restore
