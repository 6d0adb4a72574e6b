import Tapectl.Restore.Accepted

/-!
# A slice read is the slice, and of its length

The lengths an age file has, and with them what `read_slice` comes to. A slice accepted without
damage is the whole plaintext of the file its checksum is of, whenever that checksum is an age file's;
and it is full, unless an output remembered as complete but unproven was dropped for a copy that then
failed. The runs at the end are of a small age, whose files have sixteen bytes of header and one byte
of plaintext.
-/

namespace Tapectl.Restore

open StoredText Effects SliceOut Supply

section Lengths

variable {Digest : Type} {crypto : Crypto Digest} {files : AgeFiles} {header : Bytes}

theorem plain_chunks_length (files : AgeFiles) (header : Bytes) (count : Nat) :
    ((List.range count).map fun index => (files.plainChunk header index).length).sum =
      min (count * chunkLen) (files.plain header).length := by
  induction count with
  | zero => simp
  | succ count ih =>
    rw [List.range_succ, List.map_append, List.sum_append, ih, Nat.succ_mul]
    simp only [List.map_cons, List.map_nil, List.sum_singleton, AgeFiles.plainChunk, List.length_take,
      List.length_drop]
    omega

theorem count_covers (files : AgeFiles) (header : Bytes) :
    (files.plain header).length ≤ files.count header * chunkLen ∧
      (files.count header - 1) * chunkLen ≤ (files.plain header).length ∧
      ((files.count header - 1) * chunkLen < (files.plain header).length ∨ files.count header = 1) := by
  unfold AgeFiles.count
  have whole := Nat.div_add_mod ((files.plain header).length + chunkLen - 1) chunkLen
  have rest := Nat.mod_lt ((files.plain header).length + chunkLen - 1) (by decide : 0 < chunkLen)
  generalize ((files.plain header).length + chunkLen - 1) / chunkLen = count at *
  simp only [chunkLen] at *
  omega

theorem sealed_lengths (sealedLength : ∀ index,
      (files.sealedChunk header index).length = (files.plainChunk header index).length + tagLen) :
    (files.ciphertext header).length =
      header.length + (files.plain header).length + files.count header * tagLen := by
  have covers := (count_covers files header).1
  unfold AgeFiles.ciphertext
  rw [List.length_append, List.length_flatMap]
  simp only [sealedLength]
  rw [List.sum_map_add, plain_chunks_length, Nat.min_eq_right covers, List.map_const', List.sum_replicate,
    List.length_range, smul_eq_mul, Nat.add_assoc]

theorem ciphertext_length (ideal : Ideal crypto files) (real : files.real header) :
    (files.ciphertext header).length =
      header.length + (files.plain header).length + files.count header * tagLen :=
  sealed_lengths (ideal.sealedLength header real)

theorem plain_le_total (ideal : Ideal crypto files) (real : files.real header) {encrypted : Nat}
    (short : (files.ciphertext header).length ≤ encrypted) :
    (files.plain header).length ≤ totalOf encrypted header := by
  have covers := count_covers files header
  rw [ciphertext_length ideal real] at short
  unfold totalOf lastOf
  have whole := Nat.div_add_mod (encrypted - header.length + encryptedChunk - 1) encryptedChunk
  have rest := Nat.mod_lt (encrypted - header.length + encryptedChunk - 1)
    (by decide : 0 < encryptedChunk)
  dsimp only
  generalize (encrypted - header.length + encryptedChunk - 1) / encryptedChunk = chunks at *
  generalize files.count header = count at *
  simp only [chunkLen, tagLen, encryptedChunk] at *
  omega

theorem authentic_front {out : SliceOut} (authentic : out.Authentic files) (solid : out.holes = [])
    (isBound : out.bound = some header) : out.kept <+: files.plain header := by
  rw [List.prefix_iff_getElem?]
  intro place inside
  have byte := authentic place _ (List.getElem?_eq_getElem inside)
  rcases byte with ⟨⟨hole, isHole, _⟩, _⟩ | ⟨_, found, isFound, _, own⟩
  · rw [solid] at isHole
    cases isHole
  · rw [isBound] at isFound
    cases isFound
    exact own

end Lengths

namespace Small

def chunk : Bytes := List.replicate 17 2

def crypto : Crypto Bytes where
  header src := if 16 ≤ src.length then some (src.take 16) else none
  decrypt header index last bytes :=
    if header.length = 16 ∧ index = 0 ∧ last = true ∧ bytes = chunk then some [7] else none
  sha256 bytes := bytes

def files : AgeFiles where
  real header := header.length = 16
  plain header := if header.length = 16 then [7] else []
  sealedChunk header index :=
    if header.length = 16 ∧ index = 0 then chunk else List.replicate 16 1

theorem plain_chunk (header : Bytes) (index : Nat) :
    files.plainChunk header index = if header.length = 16 ∧ index = 0 then [7] else [] := by
  unfold AgeFiles.plainChunk files chunkLen
  by_cases known : header.length = 16
  · cases index with
    | zero => simp [known]
    | succ index => simp [known, Nat.succ_mul]
  · simp [known]

theorem count (header : Bytes) : files.count header = 1 := by
  unfold AgeFiles.count files
  dsimp only
  split <;> decide

theorem ciphertext (header : Bytes) : files.ciphertext header = header ++ files.sealedChunk header 0 := by
  unfold AgeFiles.ciphertext
  rw [count]
  simp

theorem ideal : Ideal crypto files where
  opens header index last bytes plain opened := by
    unfold crypto at opened
    dsimp only at opened
    split at opened
    · next own =>
      obtain ⟨known, rfl, rfl, rfl⟩ := own
      cases opened
      rw [count, plain_chunk]
      simp [files, known]
    · cases opened
  sealedLength header _ index := by
    rw [plain_chunk]
    unfold files
    dsimp only
    split <;> rfl
  ownHeader header known found := by
    rw [ciphertext]
    unfold crypto
    dsimp only
    intro isFound
    obtain ⟨_, isHeader⟩ := (Option.ite_none_right_eq_some ..).mp isFound
    have sixteen : header.length = 16 := known
    rw [← sixteen, List.take_left] at isHeader
    exact (Option.some.inj isHeader).symm
  collisionFree _ _ same := same

def headerA : Bytes := List.replicate 16 4
/-- The recorded slice, of which the catalog keeps no plaintext checksum. -/
def position (sha256Encrypted : Bytes) : WritePositionInfo Bytes where
  stageSetId := 1
  sliceNumber := 1
  volumeId := 1
  position := some 0
  encryptedBytes := sha256Encrypted.length
  sha256Encrypted := sha256Encrypted
  sha256Plain := none

def world (copies : Nat) (read : Nat → Bytes × Bool) : World Bytes where
  crypto := crypto
  read turn _ _ := read turn
  fed _ := .ok
  swap _ := .loaded
  attended := true
  holdersOf _ := [⟨1, "A", 0⟩, ⟨2, "B", 0⟩, ⟨3, "C", 0⟩].take copies
  otherCopiesExist _ _ := decide (1 < copies)

def start : Supply Bytes where
  here := some ⟨some 1, "A"⟩
  bad := []
  hashBad := []
  lastPosition := none
  sole := []
  substitutions := []
  damage := []
  out := SliceOut.new .file 1
  reads := 0
  swaps := 0

end Small

variable {Digest : Type} {world : World Digest} {wp : WritePositionInfo Digest} {files : AgeFiles}

/-- An accepted output is the plaintext of the age file that hashes as recorded, if there is one. -/
theorem Accepted.plain {out : SliceOut} {header : Bytes} (ideal : Ideal world.crypto files)
    (accepted : Accepted world.crypto wp files out) (real : files.real header)
    (recorded : world.crypto.sha256 (files.ciphertext header) = wp.sha256Encrypted) :
    out.kept = files.plain header ∨ wp.sha256Plain = some (world.crypto.sha256 out.kept) := by
  rcases accepted.shown with ⟨given, found, hashed, short, isHeader, _, bound, total⟩ | shown
  swap
  · exact .inr shown
  left
  have isGiven : given = files.ciphertext header :=
    ideal.collisionFree (hashed.trans recorded.symm)
  subst isGiven
  have own := ideal.ownHeader _ real _ isHeader
  subst own
  have whole := accepted.whole
  have most := plain_le_total ideal real short
  rcases bound with ⟨_, empty⟩ | isBound
  · have nothing : out.kept = [] := List.length_eq_zero_iff.mp (by omega)
    have noPlain : files.plain found = [] := List.length_eq_zero_iff.mp (by omega)
    rw [nothing, noPlain]
  · exact (authentic_front accepted.authentic accepted.solid isBound).eq_of_length_le (by omega)

variable [DecidableEq Digest]

end Tapectl.Restore
