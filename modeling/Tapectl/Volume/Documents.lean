import Tapectl.Volume.RoundTrip

/-!
# The documents of a tape parse back

From the files a tape is planned with, the front index, the full seal and every short seal are
generated, stored with any padding and read again. What is read is what was given, and the seal is
judged sealed exactly when it was given the hash of the front index.
-/

namespace Tapectl.Volume.Generate

open StoredText Tapectl.Volume.Format Tapectl.Naming
open Toml (PlainAscii)

theorem render_ends_line {document : Toml.Document} (nonempty : document ≠ []) :
    ∃ front, document.render = front ++ ['\n'] := by
  obtain ⟨block, rest, rfl⟩ := List.exists_cons_of_ne_nil nonempty
  rw [Toml.Document.render_eq_lines]
  generalize shape : Toml.Document.lines (block :: rest) = lines
  have some_line : lines ≠ [] := by
    rw [← shape]
    simp [Toml.Document.lines, Toml.Block.lines]
  obtain ⟨front, line, rfl⟩ := (List.eq_nil_or_concat' lines).resolve_left some_line
  exact ⟨Toml.renderLines front ++ line, by simp [Toml.renderLines]⟩

theorem without_nul_padding_stored {text front : Text} (ends : text = front ++ ['\n'])
    (padding : Nat) : withoutNulPadding (stored text padding) = encodeUtf8 text := by
  have line : encodeUtf8 ['\n'] = [10] := by decide
  have unpadded : withoutNulPadding (encodeUtf8 text) = encodeUtf8 text := by
    rw [ends, encode_utf8_append, line, withoutNulPadding]
    exact List.rdropWhile_concat_neg _ _ _ (by decide)
  induction padding with
  | zero => rw [stored, List.replicate_zero, List.append_nil, unpadded]
  | succ padding ih =>
    rw [stored, List.replicate_succ', ← List.append_assoc, withoutNulPadding,
      List.rdropWhile_concat_pos _ _ _ (by decide)]
    exact ih

/-- The files of a plan: positions `0..last`, the front index at 3 and the seal at `last` alone of
their kinds, a data slice before the seal and none before the front index, and a size and a hash for
every other file. -/
structure PlannedFiles (files : List FrontIndexFile) (last : Nat) : Prop where
  near : last + 1 < 2 ^ 31
  listed : files.length = last + 1
  writable : ∀ file ∈ files, Writable file
  positions : ∀ (index : Nat) file, files[index]? = some file → file.position = index
  frontIndex : ∀ (index : Nat) file, files[index]? = some file →
    (file.typeLabel = "front_index" ↔ index = 3)
  sealMarker : ∀ (index : Nat) file, files[index]? = some file →
    (file.typeLabel = "seal_marker" ↔ index = last)
  slices : ∀ (index : Nat) file, files[index]? = some file → file.typeLabel = "data_slice" →
    3 < index
  complete : ∀ file ∈ files, isSelfReferential file.parsed = false →
    file.sizeBytes.isSome = true ∧ file.sha256Encrypted.isSome = true
  ends : files[last - 1]?.map FrontIndexFile.typeLabel = some "data_slice"

theorem filter_only_at {Item : Type} {items : List Item} {holds : Item → Bool} {place : Nat}
    {item : Item} (at_place : items[place]? = some item)
    (only : ∀ (index : Nat) other, items[index]? = some other → (holds other = true ↔ index = place)) :
    items.filter holds = [item] := by
  induction items generalizing place with
  | nil => cases at_place
  | cons head rest ih =>
    cases place with
    | zero =>
      obtain rfl : head = item := by simpa using at_place
      have none : rest.filter holds = [] := by
        rw [List.filter_eq_nil_iff]
        intro other member found
        obtain ⟨index, at_index⟩ := List.mem_iff_getElem?.mp member
        have here := (only (index + 1) other (by simpa using at_index)).mp found
        omega
      rw [List.filter_cons_of_pos ((only 0 head (by simp)).mpr rfl), none]
    | succ place =>
      have absent : ¬ holds head = true := fun found => by
        have here := (only 0 head (by simp)).mp found
        omega
      rw [List.filter_cons_of_neg absent]
      refine ih (by simpa using at_place) fun index other found => ?_
      rw [only (index + 1) other (by simpa using found)]
      omega

/-- The list a seal that ended after `ended` copies: the files through it, and the seal's own. -/
def copiedFiles (files : List FrontIndexFile) (ended : Nat) : List FrontIndexFile :=
  files.take (ended + 1) ++ [⟨ended + 1, "seal_marker", none, none⟩]

namespace PlannedFiles

variable {files : List FrontIndexFile} {last ended : Nat}

theorem slice_place (planned : PlannedFiles files last)
    (slice : files[ended]?.map FrontIndexFile.typeLabel = some "data_slice") :
    3 < ended ∧ ended < last := by
  obtain ⟨file, found, label⟩ := Option.map_eq_some_iff.mp slice
  have inside := (List.getElem?_eq_some_iff.mp found).1
  have listed := planned.listed
  have notLast : ended ≠ last := by
    intro same
    have marker := (planned.sealMarker ended file found).mpr same
    rw [label] at marker
    exact absurd marker (by decide)
  exact ⟨planned.slices ended file found label, by omega⟩

theorem copied_get (planned : PlannedFiles files last) (before : ended < last) {index : Nat}
    {file : FrontIndexFile} (found : (copiedFiles files ended)[index]? = some file) :
    (index ≤ ended ∧ files[index]? = some file) ∨
      (index = ended + 1 ∧ file = ⟨ended + 1, "seal_marker", none, none⟩) := by
  have listed := planned.listed
  have taken : (files.take (ended + 1)).length = ended + 1 := by
    rw [List.length_take]
    omega
  by_cases content : index < ended + 1
  · rw [copiedFiles, List.getElem?_append_left (by omega), List.getElem?_take_of_lt content] at found
    exact .inl ⟨by omega, found⟩
  · rw [copiedFiles, List.getElem?_append_right (by omega), taken] at found
    have bound := (List.getElem?_eq_some_iff.mp found).1
    rw [List.length_singleton] at bound
    have own : index - (ended + 1) = 0 := by omega
    rw [own] at found
    exact .inr ⟨by omega, (Option.some.inj found).symm⟩

theorem copied_length (planned : PlannedFiles files last) (before : ended < last) :
    (copiedFiles files ended).length = ended + 2 := by
  have listed := planned.listed
  rw [copiedFiles, List.length_append, List.length_take, List.length_singleton]
  omega

end PlannedFiles

/-- A seal that ended after `ended` lists the files of a plan that ends there. -/
abbrev SealList (files : List FrontIndexFile) (ended : Nat) : Prop := PlannedFiles files (ended + 1)

namespace SealList

variable {files : List FrontIndexFile} {ended : Nat}

theorem of_type (list : SealList files ended) {label : String} {place : Nat}
    (inside : place < ended + 2) (only : ∀ (index : Nat) file, files[index]? = some file →
      (file.typeLabel = label ↔ index = place)) :
    ∃ entry, ofType label (files.map FrontIndexFile.parsed) = [entry] ∧ entry.position = place := by
  have listed := list.listed
  have found := @List.getElem?_eq_getElem _ files place (by omega)
  refine ⟨files[place].parsed, ?_, list.positions place _ found⟩
  have single : (files.filter fun file => file.typeLabel == label) = [files[place]] :=
    filter_only_at found fun index file at_index => by
      rw [beq_iff_eq]
      exact only index file at_index
  rw [ofType, List.filter_map]
  exact congrArg (List.map FrontIndexFile.parsed) single

theorem consistent (list : SealList files ended) :
    validateConsistency (files.map FrontIndexFile.parsed) = [] := by
  have near := list.near
  have indexed := (list.slice_place list.ends).1
  have listed := list.listed
  rw [validate_consistency_nil]
  refine ⟨?_, list.of_type (by omega : 3 < ended + 2) list.frontIndex, ?_, ?_⟩
  · intro index entry found
    rw [List.getElem?_map, Option.map_eq_some_iff] at found
    obtain ⟨file, at_index, rfl⟩ := found
    have bound := (List.getElem?_eq_some_iff.mp at_index).1
    rw [as_i32_of_lt (by omega) (by omega)]
    exact list.positions index file at_index
  · have last : asI32 ((files.map FrontIndexFile.parsed).length - 1 : Nat) = (ended + 1 : Nat) := by
      rw [List.length_map, listed]
      exact as_i32_of_lt (by omega) (by omega)
    rw [last]
    exact list.of_type (by omega) list.sealMarker
  · intro entry member other
    obtain ⟨file, inFiles, rfl⟩ := List.mem_map.mp member
    exact list.complete file inFiles other

theorem sound (list : SealList files ended) {label hash now : String} {features : List String}
    (allowed : AllowedName label) (plainHash : PlainAscii hash) (plainNow : PlainAscii now)
    (writer : features = requiresWhole ∨ features = requiresSpan) :
    SealInputs.Sound ⟨label, (ended : Int) + 2, ended, hash, features, now, files⟩ ended := by
  have near := list.near
  have known : ∀ feature ∈ features, PlainAscii feature := by
    rcases writer with rfl | rfl <;> decide
  refine ⟨⟨near, writer, rfl, rfl, list.listed, list.consistent, list.ends⟩, allowed, ?_, ?_,
    plainHash, known, plainNow, list.writable⟩
  · constructor <;> simp only <;> omega
  · constructor <;> simp only <;> omega

end SealList

namespace PlannedFiles

variable {files : List FrontIndexFile} {last ended : Nat}

theorem full_list (planned : PlannedFiles files last) : SealList files (last - 1) := by
  obtain ⟨indexed, before⟩ := planned.slice_place planned.ends
  rwa [SealList, Nat.sub_add_cancel (by omega)]

theorem short_list (planned : PlannedFiles files last) (before : ended + 2 ≤ last)
    (slice : files[ended]?.map FrontIndexFile.typeLabel = some "data_slice") :
    SealList (copiedFiles files ended) ended := by
  have near := planned.near
  obtain ⟨indexed, inside⟩ := planned.slice_place slice
  have own : Writable ⟨ended + 1, "seal_marker", none, none⟩ :=
    ⟨by constructor <;> simp only <;> omega, (by decide : PlainAscii "seal_marker"), by simp, by simp⟩
  refine ⟨by omega, planned.copied_length inside, ?_, ?_, ?_, ?_, ?_, ?_, ?_⟩
  · intro file member
    rcases List.mem_append.mp member with copied | last
    · exact planned.writable file (List.mem_of_mem_take copied)
    · rw [List.mem_singleton.mp last]
      exact own
  · intro index file found
    rcases planned.copied_get inside found with ⟨_, known⟩ | ⟨rfl, rfl⟩
    · exact planned.positions index file known
    · simp
  · intro index file found
    rcases planned.copied_get inside found with ⟨_, known⟩ | ⟨rfl, rfl⟩
    · exact planned.frontIndex index file known
    · simp only [show ("seal_marker" = "front_index") = False by decide, false_iff]
      omega
  · intro index file found
    rcases planned.copied_get inside found with ⟨content, known⟩ | ⟨rfl, rfl⟩
    · rw [planned.sealMarker index file known]
      omega
    · simp
  · intro index file found sliced
    rcases planned.copied_get inside found with ⟨_, known⟩ | ⟨rfl, rfl⟩
    · exact planned.slices index file known sliced
    · omega
  · intro file member other
    rcases List.mem_append.mp member with copied | last
    · exact planned.complete file (List.mem_of_mem_take copied) other
    · rw [List.mem_singleton.mp last] at other
      simp [isSelfReferential, FrontIndexFile.parsed] at other
  · rw [Nat.add_sub_cancel, ← slice, copiedFiles, List.getElem?_append_left,
      List.getElem?_take_of_lt (by omega)]
    rw [List.length_take, planned.listed]
    omega

end PlannedFiles

theorem parse_front_index_document_ok {crate : Toml.Crate} {raw : Text} {document : FrontIndexDoc}
    (read : parseDocument crate FrontIndexDoc.decode "[index]".toList "front index" raw =
      .ok document) (current : document.layoutVersion = layoutVersion) :
    parseFrontIndexDocument crate raw = .ok ⟨document.volume, document.mayEndEarly,
      document.files.map FileEntryToml.toParsed⟩ := by
  simp only [parseFrontIndexDocument, read, current, bind, Except.bind, ne_eq, not_true_eq_false,
    if_false]

theorem generate_front_index_ends (label : String) (files : List FrontIndexFile) :
    ∃ front, generateFrontIndex label files = front ++ ['\n'] := by
  obtain ⟨front, body⟩ := render_ends_line (List.cons_ne_nil (indexTable label) (filesEntries files))
  exact ⟨frontIndexHeader label ++ front, by rw [generateFrontIndex, body, List.append_assoc]⟩

theorem judge_sound_seal {crate : Toml.Crate} (reads : crate.ReadsPlain) {inputs : SealInputs}
    {ended : Nat} (sound : inputs.Sound ended) (sha256Hex : Bytes → String) (frontIndex : Bytes)
    (padding indexAt sealAt : Nat) :
    judgeSeal crate sha256Hex (.ok (stored inputs.text padding)) frontIndex indexAt sealAt =
        .sealed inputs.statement ↔ inputs.frontIndexSha256 = sha256Hex frontIndex := by
  have stated : inputs.statement.frontIndexSha256 = inputs.frontIndexSha256 := rfl
  simp only [judgeSeal, sound.parse reads padding, sound.refusal, stated]
  split
  case isTrue different => simpa using different
  case isFalse same => simpa using same

theorem classify_sound_seal {inputs : SealInputs} {ended : Nat} (sound : inputs.Sound ended)
    (planned : Nat) : classifySealEnding inputs.statement planned =
      if ended + 2 = planned then .full
      else if ended + 2 < planned then .short ended
      else .disagrees (ended + 2 : Nat) planned := by
  have count : tryU64 ((ended + 2 : Nat) : Int) = some (ended + 2) := by
    rw [tryU64, if_pos (by omega)]
    rfl
  simp only [classifySealEnding, sound.statement_file_count, sound.effective_ended_after, count]

/-- What a reader makes of the seal of a plan that ended after `ended`. -/
def readSeal (label : String) (ended : Nat) (hash : String) (features : List String) (now : String)
    (files : List FrontIndexFile) : ParsedSeal where
  volume := label
  layoutVersion := 2
  fileCount := ended + 2
  endedAfter := some ended
  sealedAt := now
  frontIndexSha256 := hash
  requires := features
  files := files.map FrontIndexFile.parsed

theorem SealList.statement {files : List FrontIndexFile} {ended : Nat} (list : SealList files ended)
    (label hash now : String) (features : List String) :
    SealInputs.statement ⟨label, (ended : Int) + 2, ended, hash, features, now, files⟩ =
      readSeal label ended hash features now files := by
  have near := list.near
  have count : asI32 ((ended : Int) + 2) = ended + 2 := as_i32_of_lt (by omega) (by omega)
  simp only [SealInputs.statement, readSeal, count, tryU64]
  simp

section Generated

variable (crate : Toml.Crate) (sha256Hex : Bytes → String) (label hash now : String)
  (features : List String) (files : List FrontIndexFile)

/-- The seal `text` of a plan of `planned` files, read with any padding: it parses to what it was
generated from, ends as it says, and is judged sealed exactly when it has the front index's hash. -/
structure ReadsBack (text : Text) (listed : List FrontIndexFile) (ended planned : Nat)
    (ending : SealEnding) : Prop where
  parses : ∀ padding, parseSealMarker crate (fromUtf8Lossy (stored text padding)) =
    .ok (readSeal label ended hash features now listed)
  ends : classifySealEnding (readSeal label ended hash features now listed) planned = ending
  judged : ∀ padding indexPadding indexAt sealAt,
    judgeSeal crate sha256Hex (.ok (stored text padding))
        (withoutNulPadding (stored (generateFrontIndex label files) indexPadding)) indexAt sealAt =
      .sealed (readSeal label ended hash features now listed) ↔
    hash = sha256Hex (encodeUtf8 (generateFrontIndex label files))

variable {crate label hash now features files}

theorem SealList.reads_back (reads : crate.ReadsPlain) {listed : List FrontIndexFile} {ended : Nat}
    (list : SealList listed ended) (allowed : AllowedName label) (plainHash : PlainAscii hash)
    (plainNow : PlainAscii now) (writer : features = requiresWhole ∨ features = requiresSpan)
    (planned : Nat) :
    ReadsBack crate sha256Hex label hash now features files
      (SealInputs.text ⟨label, (ended : Int) + 2, ended, hash, features, now, listed⟩) listed ended
      planned (if ended + 2 = planned then .full
        else if ended + 2 < planned then .short ended
        else .disagrees (ended + 2 : Nat) planned) := by
  have sound := list.sound allowed plainHash plainNow writer
  have statement := list.statement label hash now features
  refine ⟨fun padding => ?_, ?_, fun padding indexPadding indexAt sealAt => ?_⟩
  · rw [← statement]
    exact sound.parse reads padding
  · rw [← statement]
    exact classify_sound_seal sound planned
  · obtain ⟨front, ends⟩ := generate_front_index_ends label files
    rw [without_nul_padding_stored ends, ← statement]
    exact judge_sound_seal reads sound sha256Hex _ padding indexAt sealAt

/-- What is generated from the plan of a tape parses back: the front index, the full seal and the
short seal for every data slice before the last file but one. -/
theorem generated_documents_parse_back (reads : crate.ReadsPlain) (allowed : AllowedName label)
    {last : Nat} (planned : PlannedFiles files last) (plainHash : PlainAscii hash)
    (plainNow : PlainAscii now) (writer : features = requiresWhole ∨ features = requiresSpan) :
    (∀ padding, parseFrontIndexDocument crate
        (fromUtf8Lossy (stored (generateFrontIndex label files) padding)) =
      .ok ⟨label, true, files.map FrontIndexFile.parsed⟩) ∧
    ReadsBack crate sha256Hex label hash now features files
      (generateSealMarkerRequiring label (last + 1) hash files features now) files (last - 1)
      (last + 1) .full ∧
    ∀ ended, ended + 2 ≤ last →
      files[ended]?.map FrontIndexFile.typeLabel = some "data_slice" →
      ReadsBack crate sha256Hex label hash now features files
        (generateShortSealMarkerRequiring label ended hash (files.take (ended + 1)) features now)
        (copiedFiles files ended) ended (last + 1) (.short ended) := by
  have near := planned.near
  refine ⟨fun padding => ?_, ?_, fun ended before slice => ?_⟩
  · have nonempty : files ≠ [] := by
      rintro rfl
      exact absurd planned.listed (by simp)
    obtain ⟨entries, parsed, read⟩ :=
      read_generated_front_index reads allowed nonempty planned.writable padding
    rw [parse_front_index_document_ok read rfl, parsed]
  · have back := @SealList.reads_back crate sha256Hex label hash now features files reads files
      (last - 1) planned.full_list allowed plainHash plainNow writer (last + 1)
    obtain ⟨indexed, before⟩ := planned.slice_place planned.ends
    have count : ((last - 1 : Nat) : Int) + 2 = last + 1 := by omega
    have ended : ((last - 1 : Nat) : Int) = (last + 1 : Int) - 2 := by omega
    rw [if_pos (by omega), count, ended] at back
    exact back
  · have back := @SealList.reads_back crate sha256Hex label hash now features files reads
      (copiedFiles files ended) ended (planned.short_list before slice) allowed plainHash plainNow
      writer (last + 1)
    have one : saturatingAdd ended 1 = ended + 1 := min_eq_left (by omega)
    have two : saturatingAdd ended 2 = ended + 2 := min_eq_left (by omega)
    rw [if_neg (by omega), if_pos (by omega)] at back
    rw [SealInputs.text_short, one, two]
    exact back

def twoSlicePlan : List FrontIndexFile :=
  [⟨0, "id_thunk", some 1, some "00"⟩, ⟨1, "system_guide", some 1, some "00"⟩,
    ⟨2, "restore_sh", some 1, some "00"⟩, ⟨3, "front_index", none, none⟩,
    ⟨4, "data_slice", some 1, some "00"⟩, ⟨5, "data_slice", some 1, some "00"⟩,
    ⟨6, "seal_marker", none, none⟩]

theorem two_slice_plan_planned : PlannedFiles twoSlicePlan 6 := by
  have places : ∀ (index : Nat) file, twoSlicePlan[index]? = some file → index < 7 ∧
      file.position = index ∧ (file.typeLabel = "front_index" ↔ index = 3) ∧
      (file.typeLabel = "seal_marker" ↔ index = 6) ∧
      (file.typeLabel = "data_slice" → 3 < index) := by
    intro index file found
    have bound : index < 7 := (List.getElem?_eq_some_iff.mp found).1
    have all : ∀ index : Nat, index < 7 → ∀ file ∈ twoSlicePlan, twoSlicePlan[index]? = some file →
        file.position = index ∧ (file.typeLabel = "front_index" ↔ index = 3) ∧
        (file.typeLabel = "seal_marker" ↔ index = 6) ∧
        (file.typeLabel = "data_slice" → 3 < index) := by decide
    exact ⟨bound, all index bound file (List.mem_of_getElem? found) found⟩
  exact ⟨by decide, by decide, by decide,
    fun index file found => (places index file found).2.1,
    fun index file found => (places index file found).2.2.1,
    fun index file found => (places index file found).2.2.2.1,
    fun index file found => (places index file found).2.2.2.2, by decide, by decide⟩

theorem generated_documents_parse_back_two_slices :
    (∀ padding, parseFrontIndexDocument Toml.plainCrate
        (fromUtf8Lossy (stored (generateFrontIndex "L1" twoSlicePlan) padding)) =
      .ok ⟨"L1", true, twoSlicePlan.map FrontIndexFile.parsed⟩) ∧
    ReadsBack Toml.plainCrate (fun _ => "00") "L1" "00" "2026-01-01T00:00:00Z" requiresWhole
      twoSlicePlan (generateShortSealMarkerRequiring "L1" 4 "00" (twoSlicePlan.take 5)
        requiresWhole "2026-01-01T00:00:00Z") (copiedFiles twoSlicePlan 4) 4 7 (.short 4) := by
  have back := @generated_documents_parse_back Toml.plainCrate (fun _ => "00") "L1" "00"
    "2026-01-01T00:00:00Z" requiresWhole twoSlicePlan Toml.plain_crate_reads_plain (by decide) 6
    two_slice_plan_planned (by decide) (by decide) (.inl rfl)
  exact ⟨back.1, back.2.2 4 (by decide) (by decide)⟩

def noSlicePlan : List FrontIndexFile :=
  [⟨0, "id_thunk", some 1, some "00"⟩, ⟨1, "system_guide", some 1, some "00"⟩,
    ⟨2, "restore_sh", some 1, some "00"⟩, ⟨3, "front_index", none, none⟩,
    ⟨4, "seal_marker", none, none⟩]

/-- The full seal of a plan without a data slice is not accepted: the file before it is File 3. -/
theorem no_slice_seal_refused :
    parseSealMarker Toml.plainCrate (fromUtf8Lossy (stored (generateSealMarkerRequiring "L1" 5 "00"
      noSlicePlan requiresWhole "2026-01-01T00:00:00Z") 0)) =
      .error ("seal marker: rule S5: the file before it (position 3) is a front_index, not a " ++
        "data slice") := by
  have writable : SealInputs.Writable ⟨"L1", 5, 5 - 2, "00", requiresWhole, "2026-01-01T00:00:00Z",
      noSlicePlan⟩ :=
    ⟨by decide, by decide, by decide, by decide, by decide, by decide, by decide⟩
  obtain ⟨entries, parsed, read⟩ :=
    writable.parse_stored Toml.plain_crate_reads_plain (List.cons_ne_nil _ _) 0
  have statement : SealDoc.toParsed ⟨"L1", 2, 5, some (5 - 2), "2026-01-01T00:00:00Z", "00",
      requiresWhole, entries⟩ = ⟨"L1", 2, 5, some 3, "2026-01-01T00:00:00Z", "00", requiresWhole,
        noSlicePlan.map FrontIndexFile.parsed⟩ := by
    simp only [SealDoc.toParsed, parsed]
    rfl
  rw [SealInputs.text_full, parseSealMarker, read, SealInputs.document]
  simp only [bind, Except.bind, judgeParsedSeal, statement]
  decide +kernel

end Generated

end Tapectl.Volume.Generate
