import Mathlib

/-!
# Text and bytes

Searching a text for a fixed needle, trimming its end, and the UTF-8 form in which a text is
stored. `fromUtf8Lossy` is the usual lossy decoder: a malformed sequence becomes one replacement
character per maximal subpart. The lemmas are the ones a reader of stored documents needs: a
stored text reads back, a needle is found behind a header that does not hold it, and no ASCII
character appears in the decoded text unless its byte was stored.
-/

namespace StoredText

abbrev Text := List Char
abbrev Bytes := List UInt8

/-- A bounded statement about characters is decided along the list, not over every character. -/
instance (priority := high) decidableForallMemChar (text : List Char) (holds : Char → Prop)
    [DecidablePred holds] : Decidable (∀ c ∈ text, holds c) :=
  List.decidableBAll holds text

/-- `len` in pieces of `size`, the last of them what is left. -/
def piecesOf (size len : Nat) : List Nat :=
  List.replicate (len / size) size ++ if len % size = 0 then [] else [len % size]

theorem sum_pieces_of (size len : Nat) : (piecesOf size len).sum = len := by
  have whole := Nat.div_add_mod' len size
  rw [piecesOf, List.sum_append, List.sum_replicate, smul_eq_mul]
  split
  · rw [List.sum_nil]
    omega
  · rw [List.sum_singleton]
    omega

/-- The text from the first occurrence of `needle` on. -/
def findFrom (needle : Text) : Text → Option Text
  | [] => if needle = [] then some [] else none
  | c :: cs => if needle.isPrefixOf (c :: cs) then some (c :: cs) else findFrom needle cs

theorem find_from_head (needle rest : Text) (nonempty : needle ≠ []) :
    findFrom needle (needle ++ rest) = some (needle ++ rest) := by
  cases needle with
  | nil => exact absurd rfl nonempty
  | cons c cs =>
    have starts : (c :: cs).isPrefixOf (c :: (cs ++ rest)) = true :=
      List.isPrefixOf_iff_prefix.mpr ⟨rest, rfl⟩
    simp only [List.cons_append, findFrom, starts, if_true]

/-- No occurrence of `needle` starts inside `header`, whatever follows it. -/
def Skips (needle header : Text) : Prop :=
  ∀ rest, findFrom needle (header ++ rest) = findFrom needle rest

variable {needle : Text} {bytes : Bytes}

theorem Skips.append {left right : Text} (first : Skips needle left) (second : Skips needle right) :
    Skips needle (left ++ right) := by
  intro rest
  rw [List.append_assoc, first, second]

theorem skips_of_not_mem (head : Char) (tail header : Text) (absent : head ∉ header) :
    Skips (head :: tail) header := by
  intro rest
  induction header with
  | nil => rfl
  | cons c cs ih =>
    have different : head ≠ c := fun same => absent (by simp [same])
    have misses : (head :: tail).isPrefixOf (c :: (cs ++ rest)) = false := by
      simp [List.isPrefixOf, different]
    rw [List.cons_append, findFrom, misses]
    exact ih fun member => absent (by simp [member])

/-- Every suffix of `header` already differs from `needle`. -/
def clear (needle : Text) : Text → Bool
  | [] => true
  | c :: cs => !needle.isPrefixOf (c :: cs) && !(c :: cs).isPrefixOf needle && clear needle cs

theorem skips_of_clear {header : Text} (checked : clear needle header = true) :
    Skips needle header := by
  intro rest
  induction header with
  | nil => rfl
  | cons c cs ih =>
    simp only [clear, Bool.and_eq_true, Bool.not_eq_true'] at checked
    obtain ⟨⟨longer, shorter⟩, tail⟩ := checked
    have misses : needle.isPrefixOf (c :: (cs ++ rest)) = false := by
      by_contra found
      have starts : needle <+: (c :: cs) ++ rest :=
        List.isPrefixOf_iff_prefix.mp (by simpa using found)
      rcases List.prefix_or_prefix_of_prefix starts (List.prefix_append _ _) with inside | around
      · rw [List.isPrefixOf_iff_prefix.mpr inside] at longer
        exact Bool.noConfusion longer
      · rw [List.isPrefixOf_iff_prefix.mpr around] at shorter
        exact Bool.noConfusion shorter
    rw [List.cons_append, findFrom, misses]
    exact ih tail

theorem find_from_sound {text found : Text} (hit : findFrom needle text = some found) :
    found <:+ text ∧ needle <+: found := by
  induction text with
  | nil =>
    simp only [findFrom] at hit
    split at hit
    · next empty =>
        cases hit
        exact ⟨List.suffix_refl _, by simp [empty]⟩
    · cases hit
  | cons c cs ih =>
    simp only [findFrom] at hit
    split at hit
    · next starts =>
        cases hit
        exact ⟨List.suffix_refl _, List.isPrefixOf_iff_prefix.mp starts⟩
    · obtain ⟨inside, starts⟩ := ih hit
      exact ⟨inside.trans (List.suffix_cons _ _), starts⟩

theorem find_from_none {text : Text} (nonempty : needle ≠ []) :
    findFrom needle text = none ↔ ¬ needle <:+: text := by
  induction text with
  | nil => simp [findFrom, nonempty]
  | cons c cs ih =>
    rw [List.infix_cons_iff]
    by_cases starts : needle <+: c :: cs
    · simp [findFrom, List.isPrefixOf_iff_prefix.mpr starts, starts]
    · have misses : needle.isPrefixOf (c :: cs) = false := by
        simpa [← List.isPrefixOf_iff_prefix] using starts
      simp [findFrom, misses, starts, ih]

theorem Skips.not_infix {header : Text} (skips : Skips needle header) (nonempty : needle ≠ []) :
    ¬ needle <:+: header := by
  rw [← find_from_none nonempty]
  have nothing := skips []
  rwa [List.append_nil, findFrom, if_neg nonempty] at nothing

theorem infix_of_infix_append {front back : Text} (foreign : ∀ c ∈ back, c ∉ needle)
    (nonempty : needle ≠ []) (inside : needle <:+: front ++ back) : needle <:+: front := by
  obtain ⟨before, after, whole⟩ := inside
  rcases List.append_eq_append_iff.mp whole with ⟨extra, frontEq, _⟩ | ⟨extra, needleEq, backEq⟩
  · exact ⟨before, extra, frontEq.symm⟩
  · rcases List.eq_nil_or_concat' extra with rfl | ⟨init, last, rfl⟩
    · exact ⟨before, [], by simpa using needleEq⟩
    · obtain ⟨start, final, rfl⟩ := (List.eq_nil_or_concat' needle).resolve_left nonempty
      rw [← List.append_assoc, ← List.append_assoc] at needleEq
      have same : final = last := by
        simpa using (List.append_inj' needleEq rfl).2
      exact absurd (by simp [same]) (foreign last (by simp [backEq]))

/-- `str::trim_end_matches` for one character. -/
def trimEndMatches (c : Char) (text : Text) : Text := text.rdropWhile (· == c)

theorem trim_end_matches_padding (c : Char) (text : Text) (count : Nat) :
    trimEndMatches c (text ++ List.replicate count c) = trimEndMatches c text := by
  induction count with
  | zero => simp
  | succ count ih =>
    rw [List.replicate_succ', ← List.append_assoc]
    simp only [trimEndMatches] at ih ⊢
    rw [List.rdropWhile_concat_pos _ _ _ (by simp), ih]

theorem trim_end_matches_concat {c last : Char} (text : Text) (different : last ≠ c) :
    trimEndMatches c (text ++ [last]) = text ++ [last] :=
  List.rdropWhile_concat_neg _ _ _ (by simpa using different)

theorem trim_end_matches_of_not_mem {c : Char} {text : Text} (absent : c ∉ text) :
    trimEndMatches c text = text := by
  rcases List.eq_nil_or_concat' text with rfl | ⟨front, last, rfl⟩
  · rfl
  · exact trim_end_matches_concat front fun same => absent (by simp [same])

def encodeUtf8 (text : Text) : Bytes := text.flatMap String.utf8EncodeChar

@[simp] theorem encode_utf8_nil : encodeUtf8 [] = [] := rfl

@[simp] theorem encode_utf8_cons (c : Char) (text : Text) :
    encodeUtf8 (c :: text) = String.utf8EncodeChar c ++ encodeUtf8 text := rfl

@[simp] theorem encode_utf8_append (left right : Text) :
    encodeUtf8 (left ++ right) = encodeUtf8 left ++ encodeUtf8 right :=
  List.flatMap_append

/-- The character at the head of `bytes`, when the bytes there are well formed. -/
def decodeChar? (bytes : Bytes) : Option Char := (bytes.take 4).toByteArray.utf8DecodeChar? 0

/-- Whether `next` may follow the lead byte `lead` of a sequence of two to four bytes. -/
def mayFollow (lead next : UInt8) : Bool :=
  if 0xC2 ≤ lead && lead ≤ 0xDF then 0x80 ≤ next && next ≤ 0xBF
  else if lead == 0xE0 then 0xA0 ≤ next && next ≤ 0xBF
  else if lead == 0xED then 0x80 ≤ next && next ≤ 0x9F
  else if 0xE1 ≤ lead && lead ≤ 0xEF then 0x80 ≤ next && next ≤ 0xBF
  else if lead == 0xF0 then 0x90 ≤ next && next ≤ 0xBF
  else if 0xF1 ≤ lead && lead ≤ 0xF3 then 0x80 ≤ next && next ≤ 0xBF
  else if lead == 0xF4 then 0x80 ≤ next && next ≤ 0x8F
  else false

/-- The length of the maximal subpart of a malformed sequence: the lead byte and the bytes after
it that a well-formed sequence could still have had. -/
def malformedLength : Bytes → Nat
  | lead :: next :: third :: _ =>
    if !mayFollow lead next then 1
    else if 0xF0 ≤ lead && 0x80 ≤ third && third ≤ 0xBF then 3 else 2
  | [lead, next] => if mayFollow lead next then 2 else 1
  | _ => 1

def replacementCharacter : Char := '�'

-- The fuel is the number of bytes left: every round consumes at least one.
def decodeLossy : Nat → Bytes → Text
  | 0, _ => []
  | _ + 1, [] => []
  | fuel + 1, byte :: rest =>
    match decodeChar? (byte :: rest) with
    | some c => c :: decodeLossy fuel ((byte :: rest).drop c.utf8Size)
    | none =>
      replacementCharacter ::
        decodeLossy fuel ((byte :: rest).drop (malformedLength (byte :: rest)))

/-- `String::from_utf8_lossy`. -/
def fromUtf8Lossy (bytes : Bytes) : Text := decodeLossy bytes.length bytes

theorem malformed_length_pos (bytes : Bytes) : 0 < malformedLength bytes := by
  unfold malformedLength
  split <;> (try split) <;> (try split) <;> decide

theorem decode_lossy_fuel (extra : Nat) (bytes : Bytes) :
    decodeLossy (bytes.length + extra) bytes = decodeLossy bytes.length bytes := by
  induction h : bytes.length using Nat.strong_induction_on generalizing bytes extra with
  | _ size ih =>
    cases bytes with
    | nil =>
      subst h
      cases extra <;> rfl
    | cons byte rest =>
      simp only [List.length_cons] at h
      subst h
      have shorter : ∀ taken, 0 < taken →
          decodeLossy (rest.length + extra) ((byte :: rest).drop taken) =
            decodeLossy rest.length ((byte :: rest).drop taken) := by
        intro taken positive
        have size : ((byte :: rest).drop taken).length ≤ rest.length := by
          simp only [List.length_drop, List.length_cons]
          omega
        obtain ⟨slack, slackEq⟩ := Nat.exists_eq_add_of_le size
        have wide := ih _ (by omega) (slack + extra) ((byte :: rest).drop taken) rfl
        have narrow := ih _ (by omega) slack ((byte :: rest).drop taken) rfl
        rw [slackEq, Nat.add_assoc, wide, narrow]
      rw [Nat.add_right_comm]
      simp only [decodeLossy]
      cases decodeChar? (byte :: rest) with
      | none => simp only [shorter _ (malformed_length_pos _)]
      | some c => simp only [shorter _ c.utf8Size_pos]

theorem decode_lossy_of_le {fuel : Nat} (enough : bytes.length ≤ fuel) :
    decodeLossy fuel bytes = fromUtf8Lossy bytes := by
  obtain ⟨extra, rfl⟩ := Nat.exists_eq_add_of_le enough
  exact decode_lossy_fuel extra bytes

theorem decode_char_encode (c : Char) (rest : Bytes) :
    decodeChar? (String.utf8EncodeChar c ++ rest) = some c := by
  have short : (String.utf8EncodeChar c).length ≤ 4 := by
    rw [String.length_utf8EncodeChar]
    exact c.utf8Size_le_four
  have front : (String.utf8EncodeChar c ++ rest).take 4 =
      String.utf8EncodeChar c ++ rest.take (4 - (String.utf8EncodeChar c).length) := by
    rw [List.take_append, List.take_of_length_le short]
  rw [decodeChar?, front, List.toByteArray_append]
  exact ByteArray.utf8DecodeChar?_utf8EncodeChar_append

theorem from_utf8_lossy_encode_char (c : Char) (rest : Bytes) :
    fromUtf8Lossy (String.utf8EncodeChar c ++ rest) = c :: fromUtf8Lossy rest := by
  have decoded := decode_char_encode c rest
  have size := String.length_utf8EncodeChar c
  cases whole : String.utf8EncodeChar c ++ rest with
  | nil =>
    have none : (String.utf8EncodeChar c).length = 0 := by
      rw [(List.append_eq_nil_iff.mp whole).1]
      rfl
    have positive := c.utf8Size_pos
    omega
  | cons byte tail =>
    have dropped : (byte :: tail).drop c.utf8Size = rest := by
      rw [← whole, ← size, List.drop_left]
    have room : rest.length ≤ tail.length := by
      have total := congrArg List.length whole
      have positive := c.utf8Size_pos
      simp only [List.length_append, List.length_cons] at total
      omega
    rw [whole] at decoded
    simp only [fromUtf8Lossy, List.length_cons, decodeLossy, decoded, dropped]
    rw [decode_lossy_of_le room, fromUtf8Lossy]

theorem from_utf8_lossy_encode (text : Text) (rest : Bytes) :
    fromUtf8Lossy (encodeUtf8 text ++ rest) = text ++ fromUtf8Lossy rest := by
  induction text with
  | nil => rfl
  | cons c text ih =>
    rw [encode_utf8_cons, List.append_assoc, from_utf8_lossy_encode_char, ih, List.cons_append]

theorem from_utf8_lossy_encode_all (text : Text) : fromUtf8Lossy (encodeUtf8 text) = text := by
  have stored := from_utf8_lossy_encode text []
  rwa [List.append_nil, show fromUtf8Lossy [] = [] from rfl, List.append_nil] at stored

theorem length_from_utf8_lossy (bytes : Bytes) : (fromUtf8Lossy bytes).length ≤ bytes.length := by
  have spent : ∀ fuel (stored : Bytes), (decodeLossy fuel stored).length ≤ fuel := by
    intro fuel
    induction fuel with
    | zero => simp [decodeLossy]
    | succ fuel ih =>
      intro stored
      cases stored with
      | nil => simp [decodeLossy]
      | cons byte rest =>
        simp only [decodeLossy]
        split <;> exact Nat.succ_le_succ (ih _)
  exact spent bytes.length bytes

theorem length_encode_utf8_le (text : Text) : (encodeUtf8 text).length ≤ 4 * text.length := by
  induction text with
  | nil => simp
  | cons c text ih =>
    have size := c.utf8Size_le_four
    rw [encode_utf8_cons, List.length_append, String.length_utf8EncodeChar, List.length_cons]
    omega

def IsAscii (c : Char) : Prop := c.toNat ≤ 127

instance : DecidablePred IsAscii := fun c => inferInstanceAs (Decidable (c.toNat ≤ 127))

theorem encode_char_ascii {c : Char} (ascii : IsAscii c) :
    String.utf8EncodeChar c = [c.val.toUInt8] :=
  String.utf8EncodeChar_eq_singleton
    (Char.utf8Size_eq_one_iff.mpr (UInt32.le_iff_toNat_le.mpr ascii))

theorem encode_utf8_ascii {text : Text} (ascii : ∀ c ∈ text, IsAscii c) :
    encodeUtf8 text = text.map (fun c => c.val.toUInt8) := by
  induction text with
  | nil => rfl
  | cons c text ih =>
    rw [encode_utf8_cons, encode_char_ascii (ascii c (by simp)),
      ih fun d member => ascii d (by simp [member])]
    rfl

theorem take_encode_utf8_ascii {text : Text} (ascii : ∀ c ∈ text, IsAscii c) (count : Nat) :
    (encodeUtf8 text).take count = encodeUtf8 (text.take count) := by
  rw [encode_utf8_ascii ascii,
    encode_utf8_ascii fun c member => ascii c (List.mem_of_mem_take member), List.map_take]

theorem high_of_mem_encode_char {c : Char} (wide : ¬ IsAscii c) {byte : UInt8}
    (member : byte ∈ String.utf8EncodeChar c) : 128 ≤ byte.toNat := by
  have large : ¬ c.val.toNat ≤ 127 := wide
  have high : ∀ value, 128 ≤ value % 256 → 128 ≤ (UInt8.ofNat value).toNat := by
    intro value bound
    rwa [UInt8.toNat_ofNat']
  simp only [String.utf8EncodeChar, large, if_false] at member
  split at member
  · simp only [List.mem_cons, List.not_mem_nil, or_false] at member
    rcases member with rfl | rfl <;> exact high _ (by omega)
  split at member
  · simp only [List.mem_cons, List.not_mem_nil, or_false] at member
    rcases member with rfl | rfl | rfl <;> exact high _ (by omega)
  · simp only [List.mem_cons, List.not_mem_nil, or_false] at member
    rcases member with rfl | rfl | rfl | rfl <;> exact high _ (by omega)

theorem mem_of_decode_char {c : Char} (decoded : decodeChar? bytes = some c) {byte : UInt8}
    (member : byte ∈ String.utf8EncodeChar c) : byte ∈ bytes := by
  have whole := congrArg ByteArray.data (ByteArray.eq_of_utf8DecodeChar?_eq_some decoded)
  have bytesEq := congrArg Array.toList whole
  simp only [ByteArray.data_append, List.data_toByteArray, Array.toList_append] at bytesEq
  apply List.mem_of_mem_take
  rw [bytesEq]
  exact List.mem_append_left _ member

theorem ascii_mem_from_utf8_lossy {c : Char} (ascii : IsAscii c)
    (member : c ∈ fromUtf8Lossy bytes) : c.val.toUInt8 ∈ bytes := by
  have general : ∀ fuel (rest : Bytes), c ∈ decodeLossy fuel rest → c.val.toUInt8 ∈ rest := by
    intro fuel
    induction fuel with
    | zero =>
      intro rest absent
      simp [decodeLossy] at absent
    | succ fuel ih =>
      intro rest present
      cases rest with
      | nil => simp [decodeLossy] at present
      | cons byte tail =>
        simp only [decodeLossy] at present
        cases decoded : decodeChar? (byte :: tail) with
        | none =>
          simp only [decoded, List.mem_cons] at present
          rcases present with rfl | later
          · exact absurd ascii (by decide)
          · exact List.mem_of_mem_drop (ih _ later)
        | some d =>
          simp only [decoded, List.mem_cons] at present
          rcases present with rfl | later
          · apply mem_of_decode_char decoded
            rw [encode_char_ascii ascii]
            exact List.mem_singleton.mpr rfl
          · exact List.mem_of_mem_drop (ih _ later)
  exact general _ _ member

/-- A cut inside a stored text leaves the characters before the cut, then at most the pieces of a
wide character, which decode to nothing in the ASCII range. -/
theorem from_utf8_lossy_take (text : Text) (count : Nat) :
    ∃ kept broken, fromUtf8Lossy ((encodeUtf8 text).take count) = text.take kept ++ broken ∧
      ∀ c ∈ broken, ¬ IsAscii c := by
  induction text generalizing count with
  | nil => exact ⟨0, [], by simp [fromUtf8Lossy, decodeLossy], by simp⟩
  | cons c text ih =>
    by_cases inside : count < (String.utf8EncodeChar c).length
    · refine ⟨0, fromUtf8Lossy ((String.utf8EncodeChar c).take count), ?_, ?_⟩
      · rw [encode_utf8_cons, List.take_append_of_le_length (by omega)]
        rfl
      · intro d member ascii
        have stored := List.mem_of_mem_take (ascii_mem_from_utf8_lossy ascii member)
        by_cases narrow : IsAscii c
        · have empty : count = 0 := by
            rw [encode_char_ascii narrow] at inside
            simpa using inside
          simp [empty, fromUtf8Lossy, decodeLossy] at member
        · have high := high_of_mem_encode_char narrow stored
          have low : d.val.toUInt8.toNat ≤ 127 := by
            have bound : d.val.toNat ≤ 127 := ascii
            rw [UInt32.toNat_toUInt8]
            omega
          omega
    · obtain ⟨kept, broken, decoded, wide⟩ := ih (count - (String.utf8EncodeChar c).length)
      refine ⟨kept + 1, broken, ?_, wide⟩
      rw [encode_utf8_cons, List.take_append, List.take_of_length_le (by omega),
        from_utf8_lossy_encode_char, decoded]
      rfl

/-! ## A marked document

Prose for a person, then a body that starts with a marker for a program to look for, stored with
NULs after it. -/

structure Marked (marker header body : Text) : Prop where
  nonempty : marker ≠ []
  skips : Skips marker header
  starts : marker <+: body
  clean : '\x00' ∉ header ++ body

/-- `encodeUtf8` of a text, filled up with NUL bytes. -/
def stored (text : Text) (padding : Nat) : Bytes := encodeUtf8 text ++ List.replicate padding 0

theorem from_utf8_lossy_stored (text : Text) (padding : Nat) :
    fromUtf8Lossy (stored text padding) = text ++ List.replicate padding '\x00' := by
  have zeros : List.replicate padding (0 : UInt8) = encodeUtf8 (List.replicate padding '\x00') := by
    rw [encode_utf8_ascii fun c member => by rw [List.eq_of_mem_replicate member]; decide,
      List.map_replicate]
    rfl
  rw [stored, from_utf8_lossy_encode, zeros, from_utf8_lossy_encode_all]

namespace Marked

variable {marker header body : Text}

theorem find_stored (marked : Marked marker header body) (padding : Nat) :
    findFrom marker (trimEndMatches '\x00' (fromUtf8Lossy (stored (header ++ body) padding))) =
      some body := by
  obtain ⟨rest, rfl⟩ := marked.starts
  rw [from_utf8_lossy_stored, trim_end_matches_padding, trim_end_matches_of_not_mem marked.clean,
    marked.skips, find_from_head _ _ marked.nonempty]

theorem find_cut (marked : Marked marker header body) (ascii : ∀ c ∈ body, IsAscii c)
    (padding count : Nat) :
    findFrom marker (trimEndMatches '\x00'
        (fromUtf8Lossy ((stored (header ++ body) padding).take count))) = none ∨
      ∃ kept, findFrom marker (trimEndMatches '\x00'
        (fromUtf8Lossy ((stored (header ++ body) padding).take count))) = some (body.take kept) := by
  have clean := marked.clean
  simp only [List.mem_append, not_or] at clean
  by_cases whole : (encodeUtf8 (header ++ body)).length ≤ count
  · -- Only NULs are missing.
    have padded : (stored (header ++ body) padding).take count =
        stored (header ++ body) (min (count - (encodeUtf8 (header ++ body)).length) padding) := by
      rw [stored, List.take_append, List.take_of_length_le whole, List.take_replicate, stored]
    exact Or.inr ⟨body.length, by rw [padded, marked.find_stored, List.take_length]⟩
  have cut : (stored (header ++ body) padding).take count =
      (encodeUtf8 header ++ encodeUtf8 body).take count := by
    rw [stored, List.take_append_of_le_length (by omega), encode_utf8_append]
  by_cases inBody : (encodeUtf8 header).length ≤ count
  · obtain ⟨kept, decoded⟩ : ∃ kept,
        fromUtf8Lossy ((stored (header ++ body) padding).take count) = header ++ body.take kept := by
      refine ⟨count - (encodeUtf8 header).length, ?_⟩
      rw [cut, List.take_append, List.take_of_length_le inBody, take_encode_utf8_ascii ascii,
        from_utf8_lossy_encode, from_utf8_lossy_encode_all]
    have trimmed : trimEndMatches '\x00' (header ++ body.take kept) = header ++ body.take kept :=
      trim_end_matches_of_not_mem fun member => by
        rcases List.mem_append.mp member with inHeader | inKept
        · exact clean.1 inHeader
        · exact clean.2 (List.mem_of_mem_take inKept)
    rw [decoded, trimmed, marked.skips]
    by_cases reached : marker <+: body.take kept
    · obtain ⟨rest, shape⟩ := reached
      exact Or.inr ⟨kept, by rw [← shape, find_from_head _ _ marked.nonempty]⟩
    · left
      cases hit : findFrom marker (body.take kept) with
      | none => rfl
      | some found =>
        obtain ⟨inside, shows⟩ := find_from_sound hit
        have long := shows.length_le.trans inside.length_le
        have shown : marker <+: body.take kept :=
          List.prefix_of_prefix_length_le marked.starts (List.take_prefix kept body) long
        exact absurd shown reached
  · obtain ⟨kept, broken, decoded, wide⟩ := from_utf8_lossy_take header count
    left
    have trimmed : trimEndMatches '\x00' (header.take kept ++ broken) = header.take kept ++ broken :=
      trim_end_matches_of_not_mem fun member => by
        rcases List.mem_append.mp member with inHeader | inBroken
        · exact clean.1 (List.mem_of_mem_take inHeader)
        · exact wide _ inBroken (by decide)
    rw [cut, List.take_append_of_le_length (by omega), decoded, trimmed,
      find_from_none marked.nonempty]
    intro inside
    have foreign : ∀ c ∈ broken, c ∉ marker := fun c member inMarker =>
      wide c member (ascii c (marked.starts.subset inMarker))
    exact marked.skips.not_infix marked.nonempty
      ((infix_of_infix_append foreign marked.nonempty inside).trans (List.take_prefix _ _).isInfix)

end Marked

end StoredText
