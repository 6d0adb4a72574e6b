import Tapectl.Volume.RoundTrip

/-!
# What an accepted seal says as it is written

`parse_seal_marker` narrows the integers of a seal before it checks the format's rules on them. An
accepted seal keeps the rules as they are written on the tape exactly when no cast changed one of
its integers.
-/

namespace Tapectl.Volume.Format

open StoredText
open Toml (Crate)

/-- The parse rules S1, S2, S4 and S5, on what the parser made of the seal. -/
structure ParsedSeal.KeepsParseRules (sealed : ParsedSeal) : Prop where
  short : sealed.requiresShortSeal = true → sealed.endedAfter.isSome = true
  ended : ∀ position, sealed.endedAfter = some position →
    checkedAddU64 position 2 = tryU64 sealed.fileCount
  count : (sealed.files.length : Int) = sealed.fileCount
  consistent : Consistent sealed.files
  slice : (sealed.effectiveEndedAfter.bind fun position => sealed.files[position]?).map
    (·.typeLabel) = some "data_slice"

theorem check_parse_rules_ok {sealed : ParsedSeal} (passed : sealed.checkParseRules = .ok ()) :
    sealed.KeepsParseRules := by
  unfold ParsedSeal.checkParseRules at passed
  dsimp only at passed
  split at passed
  · cases passed
  next stated =>
  have short : sealed.requiresShortSeal = true → sealed.endedAfter.isSome = true := by
    intro required
    cases ended : sealed.endedAfter with
    | none => simp [required, ended] at stated
    | some position => rfl
  have rest : (if (sealed.files.length : Int) ≠ sealed.fileCount then
        Except.error (SealRuleViolation.entryCount sealed.files.length sealed.fileCount)
      else if validateConsistency sealed.files ≠ [] then
        .error (.inconsistent (validateConsistency sealed.files))
      else if (sealed.effectiveEndedAfter.bind fun position => sealed.files[position]?).map
          (·.typeLabel) ≠ some "data_slice" then
        .error (.endedAfterNotDataSlice (sealed.effectiveEndedAfter.getD 0)
          ((sealed.effectiveEndedAfter.bind fun position => sealed.files[position]?).map
            (·.typeLabel)))
      else .ok ()) = .ok () ∧ ∀ position, sealed.endedAfter = some position →
        checkedAddU64 position 2 = tryU64 sealed.fileCount := by
    split at passed
    · cases passed
    next unbroken =>
    refine ⟨passed, fun position ended => ?_⟩
    simp only [ended] at unbroken
    split at unbroken
    · cases unbroken
    next same => exact not_not.mp same
  obtain ⟨passed, ended⟩ := rest
  split at passed
  · cases passed
  next count =>
  split at passed
  · cases passed
  next consistent =>
  split at passed
  · cases passed
  next slice =>
  exact ⟨short, ended, not_not.mp count, validate_consistency_nil.mp (not_not.mp consistent),
    not_not.mp slice⟩

def FileEntryToml.isSelfReferential (entry : FileEntryToml) : Bool :=
  entry.typeLabel == "front_index" || entry.typeLabel == "seal_marker"

/-- The format's rules, of the integers as the document writes them. -/
structure SealDoc.KeepsRules (document : SealDoc) : Prop where
  ended : ∃ ended : Nat, document.endedAfter = some (ended : Int) ∧
    document.fileCount = ended + 2 ∧
    document.files[ended]?.map FileEntryToml.typeLabel = some "data_slice"
  count : document.fileCount = document.files.length
  positions : ∀ (index : Nat) entry, document.files[index]? = some entry → entry.position = index
  frontIndex : ∃ entry, (document.files.filter fun entry => entry.typeLabel == "front_index") =
    [entry] ∧ document.files[3]? = some entry
  sealMarker : ∃ entry, (document.files.filter fun entry => entry.typeLabel == "seal_marker") =
    [entry] ∧ document.files.getLast? = some entry
  complete : ∀ entry ∈ document.files, entry.isSelfReferential = false →
    (∃ size, entry.sizeBytes = some size ∧ 0 ≤ size) ∧ entry.sha256Encrypted.isSome = true

/-- No cast of the parser changes an integer of the document that a rule is about. -/
structure SealDoc.Uncast (document : SealDoc) : Prop where
  count : -2 ^ 31 ≤ document.fileCount ∧ document.fileCount < 2 ^ 31
  positions : ∀ entry ∈ document.files, -2 ^ 31 ≤ entry.position ∧ entry.position < 2 ^ 31
  sizes : ∀ entry ∈ document.files, entry.isSelfReferential = false →
    ∀ size, entry.sizeBytes = some size → 0 ≤ size

theorem SealDoc.length_to_parsed (document : SealDoc) :
    document.toParsed.files.length = document.files.length := List.length_map _

variable {document : SealDoc}

/-- A seal that is accepted, not refused, and bound by the rules keeps them as it was parsed, and
states where it ended. -/
theorem judge_parsed_seal_rules {sealed : ParsedSeal}
    (judged : judgeParsedSeal document = .ok sealed) (unrefused : sealed.refusal = none)
    (bound : document.endedAfter.isSome = true ∨ sealed.requiresShortSeal = true) :
    document.toParsed.KeepsParseRules ∧ ∃ ended : Nat, document.endedAfter = some (ended : Int) := by
  obtain rfl := judge_parsed_seal_ok judged
  unfold judgeParsedSeal at judged
  dsimp only at judged
  rw [unrefused, if_neg (by simp)] at judged
  have ruled : ¬ (document.endedAfter.isNone && !document.toParsed.requiresShortSeal) = true := by
    rcases bound with stated | short
    · cases ended : document.endedAfter with
      | none =>
        rw [ended] at stated
        cases stated
      | some position => simp
    · simp [short]
  rw [if_neg ruled] at judged
  cases ended : document.endedAfter with
  | none =>
    cases checked : document.toParsed.checkParseRules with
    | error rule =>
      rw [ended] at judged
      simp only [checked] at judged
      cases judged
    | ok _ =>
      have rules := check_parse_rules_ok checked
      have short : document.toParsed.requiresShortSeal = true :=
        bound.resolve_left (by simp [ended])
      have stated := rules.short short
      simp [SealDoc.toParsed, ended] at stated
  | some position =>
    rw [ended] at judged
    by_cases negative : position < 0
    · simp only [negative, if_true] at judged
      cases judged
    · cases checked : document.toParsed.checkParseRules with
      | error rule =>
        simp only [negative, if_false, checked] at judged
        cases judged
      | ok _ =>
        refine ⟨check_parse_rules_ok checked, position.toNat, ?_⟩
        rw [Int.toNat_of_nonneg (not_lt.mp negative)]

theorem as_i32_range (value : Int) : -2 ^ 31 ≤ asI32 value ∧ asI32 value < 2 ^ 31 := by
  have low := @Int.le_bmod value (2 ^ 32) (by decide)
  have high := @Int.bmod_lt value (2 ^ 32) (by decide)
  unfold asI32
  omega

/-- What the rules on the parsed seal come to for a document that ended after `ended`. -/
structure SealDoc.Parsed (document : SealDoc) (ended : Nat) : Prop where
  near : ended + 2 < 2 ^ 31
  count : asI32 document.fileCount = ended + 2
  listed : document.files.length = ended + 2
  positions : ∀ (index : Nat) entry, document.files[index]? = some entry →
    asI32 entry.position = index
  frontIndex : ∃ entry, (document.files.filter fun entry => entry.typeLabel == "front_index") =
    [entry] ∧ document.files[3]? = some entry
  sealMarker : ∃ entry, (document.files.filter fun entry => entry.typeLabel == "seal_marker") =
    [entry] ∧ document.files.getLast? = some entry
  complete : ∀ entry ∈ document.files, entry.isSelfReferential = false →
    entry.sizeBytes.isSome = true ∧ entry.sha256Encrypted.isSome = true
  slice : document.files[ended]?.map FileEntryToml.typeLabel = some "data_slice"

theorem only_entry_of_type {files : List FileEntryToml} {label : String} {place : Nat}
    (positions : ∀ (index : Nat) entry, files[index]? = some entry → asI32 entry.position = index)
    (single : ∃ entry, ofType label (files.map FileEntryToml.toParsed) = [entry] ∧
      entry.position = place) :
    ∃ entry, (files.filter fun entry => entry.typeLabel == label) = [entry] ∧
      files[place]? = some entry := by
  obtain ⟨parsed, only, placed⟩ := single
  have mapped : (files.filter fun entry => entry.typeLabel == label).map FileEntryToml.toParsed =
      [parsed] := by
    rw [← only, ofType, List.filter_map]
    rfl
  obtain ⟨entry, found, rfl⟩ := List.map_eq_singleton_iff.mp mapped
  refine ⟨entry, found, ?_⟩
  have member : entry ∈ files := (List.mem_filter.mp (found ▸ List.mem_singleton_self entry)).1
  obtain ⟨index, at_index⟩ := List.mem_iff_getElem?.mp member
  have stated : asI32 entry.position = place := placed
  have same : index = place := by
    have counted := positions index entry at_index
    omega
  rw [← same]
  exact at_index

theorem SealDoc.parsed_of_rules (rules : document.toParsed.KeepsParseRules) {ended : Nat}
    (stated : document.endedAfter = some (ended : Int)) : document.Parsed ended := by
  have endedAfter : document.toParsed.endedAfter = some ended := by
    simp [SealDoc.toParsed, stated, tryU64]
  have range := as_i32_range document.fileCount
  have counted : (document.files.length : Int) = asI32 document.fileCount := by
    rw [← document.length_to_parsed]
    exact rules.count
  have count : asI32 document.fileCount = ended + 2 := by
    have added := rules.ended ended endedAfter
    have parsed : document.toParsed.fileCount = asI32 document.fileCount := rfl
    rw [parsed, checkedAddU64, tryU64] at added
    split at added <;> split at added
    · simp only [Option.some.injEq] at added
      omega
    · cases added
    · cases added
    -- an overflowing sum and a negative count agree, but a count of entries is not negative
    · omega
  have near : ended + 2 < 2 ^ 31 := by omega
  have listed : document.files.length = ended + 2 := by omega
  have positions : ∀ (index : Nat) entry, document.files[index]? = some entry →
      asI32 entry.position = index := by
    intro index entry found
    have placed := rules.consistent.sequence index entry.toParsed
      (by simp [SealDoc.toParsed, found])
    have inside := (List.getElem?_eq_some_iff.mp found).1
    rw [as_i32_of_lt (by omega) (by omega)] at placed
    exact placed
  have last : asI32 (document.toParsed.files.length - 1 : Nat) = (ended + 1 : Nat) := by
    rw [document.length_to_parsed, listed]
    exact as_i32_of_lt (by omega) (by omega)
  refine ⟨near, count, listed, positions, only_entry_of_type positions rules.consistent.frontIndex,
    ?_, ?_, ?_⟩
  · have sealMarker := rules.consistent.sealMarker
    rw [last] at sealMarker
    obtain ⟨entry, only, found⟩ := only_entry_of_type positions sealMarker
    refine ⟨entry, only, ?_⟩
    rw [List.getLast?_eq_getElem?, listed]
    exact found
  · intro entry member other
    have complete := rules.consistent.complete entry.toParsed (List.mem_map_of_mem member) other
    refine ⟨?_, complete.2⟩
    have sized := complete.1
    rw [FileEntryToml.toParsed, Option.isSome_map] at sized
    exact sized
  · have slice := rules.slice
    rw [ParsedSeal.effectiveEndedAfter, endedAfter] at slice
    simpa [SealDoc.toParsed, FileEntryToml.toParsed, Function.comp_def] using slice

theorem SealDoc.Parsed.keeps_rules_iff {ended : Nat} (parsed : document.Parsed ended)
    (stated : document.endedAfter = some (ended : Int)) :
    document.KeepsRules ↔ document.Uncast := by
  have near := parsed.near
  constructor
  · intro rules
    obtain ⟨ended', stated', count, _⟩ := rules.ended
    obtain rfl : ended = ended' := by
      rw [stated] at stated'
      exact_mod_cast Option.some.inj stated'
    refine ⟨by omega, fun entry member => ?_, fun entry member other size sized => ?_⟩
    · obtain ⟨index, found⟩ := List.mem_iff_getElem?.mp member
      have inside := (List.getElem?_eq_some_iff.mp found).1
      have placed := rules.positions index entry found
      have listed := parsed.listed
      omega
    · obtain ⟨⟨size', sized', positive⟩, _⟩ := rules.complete entry member other
      rw [sized] at sized'
      cases sized'
      exact positive
  · intro uncast
    have count : document.fileCount = ended + 2 := by
      have narrowed := parsed.count
      rw [as_i32_of_lt uncast.count.1 uncast.count.2] at narrowed
      exact narrowed
    refine ⟨⟨ended, stated, count, parsed.slice⟩, ?_, ?_, parsed.frontIndex, parsed.sealMarker, ?_⟩
    · have listed := parsed.listed
      omega
    · intro index entry found
      have range := uncast.positions entry (List.mem_of_getElem? found)
      have placed := parsed.positions index entry found
      rw [as_i32_of_lt range.1 range.2] at placed
      exact placed
    · intro entry member other
      obtain ⟨sized, hashed⟩ := parsed.complete entry member other
      obtain ⟨size, known⟩ := Option.isSome_iff_exists.mp sized
      exact ⟨⟨size, known, uncast.sizes entry member other size known⟩, hashed⟩

/-- An accepted seal that is not refused and states where it ended, or requires that it does, keeps
the format's rules as they are written exactly when the casts change none of its integers. -/
theorem accepted_seal_keeps_rules_iff (crate : Crate) (raw : Text) (sealed : ParsedSeal)
    (document : SealDoc) (accepted : parseSealMarker crate raw = .ok sealed)
    (written : parseDocument crate SealDoc.decode "[seal]".toList "seal marker" raw = .ok document)
    (unrefused : sealed.refusal = none)
    (bound : document.endedAfter.isSome = true ∨ shortSeal ∈ document.requires) :
    document.KeepsRules ↔ document.Uncast := by
  obtain ⟨document', read, judged⟩ := parse_seal_marker_ok accepted
  obtain rfl : document = document' := by
    rw [written] at read
    exact Except.ok.inj read
  have parsed := judge_parsed_seal_ok judged
  have requires : shortSeal ∈ document.requires → sealed.requiresShortSeal = true := by
    intro listed
    rw [parsed]
    exact List.any_eq_true.mpr ⟨shortSeal, listed, by simp⟩
  obtain ⟨rules, ended, stated⟩ := judge_parsed_seal_rules judged unrefused (bound.imp_right requires)
  exact (SealDoc.parsed_of_rules rules stated).keeps_rules_iff stated

section OneSlice

open Tapectl.Volume.Generate

/-- A seal for a tape of one data slice that states `fileCount` files. -/
def oneSliceSeal (fileCount : Int) : SealInputs where
  label := "L1"
  fileCount := fileCount
  endedAfter := 4
  frontIndexSha256 := "00"
  features := requiresWhole
  now := "2026-01-01T00:00:00Z"
  files := [⟨0, "id_thunk", some 1, some "00"⟩, ⟨1, "system_guide", some 1, some "00"⟩,
    ⟨2, "restore_sh", some 1, some "00"⟩, ⟨3, "front_index", none, none⟩,
    ⟨4, "data_slice", some 1, some "00"⟩, ⟨5, "seal_marker", none, none⟩]

def oneSliceDoc (fileCount : Int) : SealDoc :=
  (oneSliceSeal fileCount).document
    [⟨0, "id_thunk", some 1, some "00"⟩, ⟨1, "system_guide", some 1, some "00"⟩,
      ⟨2, "restore_sh", some 1, some "00"⟩, ⟨3, "front_index", none, none⟩,
      ⟨4, "data_slice", some 1, some "00"⟩, ⟨5, "seal_marker", none, none⟩]

theorem one_slice_seal_plain {fileCount : Int} (range : Toml.InRange fileCount) :
    (oneSliceSeal fileCount).body.Plain := by
  have writable : ∀ file ∈ (oneSliceSeal 6).files, Writable file := by decide
  refine plain_with_files ⟨(by decide : Toml.BareKey "seal"), ?_, ?_⟩ writable
  · have keys : ∀ key ∈ (oneSliceSeal fileCount).table.pairs.map Prod.fst, Toml.BareKey key := by
      have names : (oneSliceSeal fileCount).table.pairs.map Prod.fst = ["volume", "layout_version",
        "requires", "file_count", "ended_after", "sealed_at", "front_index_sha256"] := rfl
      rw [names]
      decide
    exact fun pair member => keys _ (List.mem_map_of_mem member)
  · intro pair member
    rcases SealInputs.mem_table member with rfl | rfl | rfl | rfl | rfl | rfl | rfl
    · exact (by decide : Toml.PlainAscii "L1").plain
    · exact (by decide : Toml.InRange 2)
    · have features : ∀ feature ∈ requiresWhole, Toml.PlainAscii feature := by decide
      exact fun feature inside => (features feature inside).plain
    · exact range
    · exact (by decide : Toml.InRange 4)
    · exact (by decide : Toml.PlainAscii "2026-01-01T00:00:00Z").plain
    · exact (by decide : Toml.PlainAscii "00").plain

theorem one_slice_seal_reads {fileCount : Int} (range : Toml.InRange fileCount) :
    parseDocument Toml.plainCrate SealDoc.decode "[seal]".toList "seal marker"
      (oneSliceSeal fileCount).body.render = .ok (oneSliceDoc fileCount) := by
  have plain := one_slice_seal_plain range
  have header : Toml.renderHeader .table "seal" = "[seal]".toList := by decide
  have assembled := assemble_with_files (oneSliceSeal fileCount).table (oneSliceSeal fileCount).files
    rfl (by simp [SealInputs.table, sealTable]) (by simp [SealInputs.table, sealTable])
    (by simp [oneSliceSeal])
  have starts : "[seal]".toList <+: (oneSliceSeal fileCount).body.render := by
    rw [← header]
    exact starts_with_header (oneSliceSeal fileCount).table rfl _
  have found : findFrom "[seal]".toList (trimEndMatches '\x00'
      (oneSliceSeal fileCount).body.render) = some (oneSliceSeal fileCount).body.render := by
    rw [trim_end_matches_of_not_mem (clean_render plain)]
    obtain ⟨rest, same⟩ := starts
    rw [← same]
    exact find_from_head _ _ (by decide)
  have files : decodeFiles [((oneSliceSeal fileCount).table.name,
        .table (oneSliceSeal fileCount).table.values),
      ("files", .array ((oneSliceSeal fileCount).files.map fun file => .table file.block.values))] =
      some (oneSliceDoc fileCount).files := rfl
  exact parse_document_ok.mpr ⟨_, _, found,
    Toml.plain_crate_ok.mpr ((Toml.parse_render plain).trans assembled),
    SealInputs.Writable.decode_seal rfl files⟩

theorem one_slice_doc_judged : judgeParsedSeal (oneSliceDoc 6) = .ok (oneSliceDoc 6).toParsed ∧
    judgeParsedSeal (oneSliceDoc (2 ^ 32 + 6)) = .ok (oneSliceDoc (2 ^ 32 + 6)).toParsed ∧
    (oneSliceDoc 6).toParsed.refusal = none ∧
    (oneSliceDoc (2 ^ 32 + 6)).toParsed.refusal = none := by
  decide +kernel

theorem parse_one_slice_seal {fileCount : Int} (range : Toml.InRange fileCount)
    (judged : judgeParsedSeal (oneSliceDoc fileCount) = .ok (oneSliceDoc fileCount).toParsed) :
    parseSealMarker Toml.plainCrate (oneSliceSeal fileCount).body.render =
      .ok (oneSliceDoc fileCount).toParsed := by
  rw [parseSealMarker, one_slice_seal_reads range]
  exact judged

theorem one_slice_doc_uncast : (oneSliceDoc 6).Uncast := by
  have sizes : ∀ entry ∈ (oneSliceDoc 6).files,
      entry.sizeBytes = none ∨ entry.sizeBytes = some 1 := by decide
  refine ⟨by decide, by decide, fun entry member _ size sized => ?_⟩
  rcases sizes entry member with none | one
  · rw [none] at sized
    cases sized
  · rw [one] at sized
    cases sized
    decide

theorem accepted_seal_keeps_rules_one_slice :
    ∃ sealed document, parseSealMarker Toml.plainCrate (oneSliceSeal 6).body.render = .ok sealed ∧
      parseDocument Toml.plainCrate SealDoc.decode "[seal]".toList "seal marker"
        (oneSliceSeal 6).body.render = .ok document ∧
      sealed.refusal = none ∧ document.endedAfter.isSome = true ∧ document.KeepsRules := by
  have accepted := @parse_one_slice_seal 6 (by decide) one_slice_doc_judged.1
  have written := @one_slice_seal_reads 6 (by decide)
  have unrefused := one_slice_doc_judged.2.2.1
  exact ⟨_, _, accepted, written, unrefused, rfl, (accepted_seal_keeps_rules_iff _ _ _ _ accepted
    written unrefused (.inl rfl)).mpr one_slice_doc_uncast⟩

/-- A seal that states 4294967302 files and lists six is accepted: the count is read as 6. -/
theorem accepted_seal_states_another_count :
    ∃ sealed document,
      parseSealMarker Toml.plainCrate (oneSliceSeal (2 ^ 32 + 6)).body.render = .ok sealed ∧
      parseDocument Toml.plainCrate SealDoc.decode "[seal]".toList "seal marker"
        (oneSliceSeal (2 ^ 32 + 6)).body.render = .ok document ∧
      sealed.refusal = none ∧ document.endedAfter = some 4 ∧ document.fileCount = 4294967302 ∧
      document.files.length = 6 ∧ ¬ document.KeepsRules := by
  refine ⟨_, _, parse_one_slice_seal (by decide) one_slice_doc_judged.2.1,
    one_slice_seal_reads (by decide), one_slice_doc_judged.2.2.2, rfl, rfl, rfl, fun rules => ?_⟩
  have count := rules.count
  exact absurd count (by decide)

end OneSlice

end Tapectl.Volume.Format
