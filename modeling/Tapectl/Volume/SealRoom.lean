import Tapectl.Volume.BuiltLayout
import Tapectl.Volume.Documents

/-!
# The room of the seal

`build` sizes the seal with a placeholder, `seal_marker` generates the real one later: with another
clock, and for a short ending with fewer files and smaller numbers. Neither comes out longer than the
placeholder, and the full one comes out as long.
-/

namespace Tapectl.Volume.Session

open StoredText Tapectl.Volume.Build Tapectl.Volume.Generate Tapectl.Volume.Format

def padded (width value : Nat) : Text :=
  List.replicate (width - (Nat.toDigits 10 value).length) '0' ++ Nat.toDigits 10 value

section Seals

variable {layout : Layout} {last dataStart : Nat} {fiHash now now' : String} {features : List String}

variable (wellFormed : WellFormed layout last dataStart)

include wellFormed

end Seals

variable {now : String} {features : List String}

section Built

variable {generators : Generators} {inputs : BuildInputs} {now nowAgain : String} {built : BuiltLayout}

variable {crate : Toml.Crate} {path : String}

end Built

/-- A File 0 of plain texts and numbers, with nothing like a table in its prose. -/
structure PlainThunk (params : IdThunkV2Params) : Prop where
  texts : ∀ text ∈ [params.label, params.uuid, params.tapectlVersion, params.mediaType, params.createdAt,
    params.mamManufacturer, params.mamSerial] ++ params.cartridgeIdentitySource.toList,
    Toml.PlainAscii text
  numbers : ∀ value ∈ [params.nominalCapacity, params.mamCapacity, params.totalFiles - 1,
    params.totalFiles, params.mamLength, params.mamLoads], Toml.InRange value
  prose : ∀ text ∈ [params.label, params.mediaType, params.createdAt], '[' ∉ text.toList

-- The texts are long literals; only the list of their characters is evaluated.
set_option maxRecDepth 8000 in
theorem id_thunk_title_chars : ∀ c ∈ idThunkTitle.toList, c ≠ '[' ∧ c ≠ '\x00' := by
  rw [show idThunkTitle.toList = _ from String.toList_ofList]
  decide +kernel

set_option maxRecDepth 8000 in
theorem id_thunk_prose_chars : ∀ c ∈ idThunkProse.toList, c ≠ '[' ∧ c ≠ '\x00' := by
  rw [show idThunkProse.toList = _ from String.toList_ofList]
  decide +kernel

namespace PlainThunk

variable {params : IdThunkV2Params} {features : List String}

theorem volume_plain (plain : PlainThunk params) (known : features = requiresWhole ∨ features = requiresSpan) :
    (volumeTable params features).Plain where
  name := (by decide : Toml.BareKey "volume")
  keys := by
    have keys : ∀ key ∈ ["magic", "label", "uuid", "layout_version", "requires", "tapectl_version",
        "media_type", "nominal_capacity_bytes", "mam_capacity_bytes", "created_at"],
        Toml.BareKey key := by decide
    intro pair member
    exact keys pair.1 (List.mem_map_of_mem (f := Prod.fst) member)
  values := by
    have texts := plain.texts
    have numbers := plain.numbers
    simp only [List.forall_mem_append, List.forall_mem_cons] at texts numbers
    obtain ⟨⟨label, uuid, version, media, created, _⟩, _⟩ := texts
    obtain ⟨nominal, mam, _⟩ := numbers
    have span : ∀ feature ∈ requiresSpan, Toml.PlainAscii feature := by decide
    have whole : ∀ feature ∈ requiresWhole, Toml.PlainAscii feature := by decide
    have magic : Toml.PlainAscii "tapectl-volume-v2" := by decide
    have two : Toml.InRange 2 := by decide
    intro pair member
    simp only [volumeTable, List.mem_cons, List.not_mem_nil, or_false] at member
    rcases member with rfl | rfl | rfl | rfl | rfl | rfl | rfl | rfl | rfl | rfl
    · exact magic.plain
    · exact label.plain
    · exact uuid.plain
    · exact two
    · rcases known with rfl | rfl
      · exact fun feature inside => (whole feature inside).plain
      · exact fun feature inside => (span feature inside).plain
    · exact version.plain
    · exact media.plain
    · exact nominal
    · exact mam
    · exact created.plain

theorem layout_plain (plain : PlainThunk params) : (layoutTable params).Plain where
  name := (by decide : Toml.BareKey "layout")
  keys := by
    have keys : ∀ key ∈ ["front_index", "seal_marker", "total_files"], Toml.BareKey key := by decide
    intro pair member
    exact keys pair.1 (List.mem_map_of_mem (f := Prod.fst) member)
  values := by
    have numbers := plain.numbers
    simp only [List.forall_mem_cons] at numbers
    obtain ⟨_, _, marker, total, _⟩ := numbers
    have three : Toml.InRange 3 := by decide
    intro pair member
    simp only [layoutTable, List.mem_cons, List.not_mem_nil, or_false] at member
    rcases member with rfl | rfl | rfl
    · exact three
    · exact marker
    · exact total

theorem media_plain (plain : PlainThunk params) : (mediaTable params).Plain := by
  have texts := plain.texts
  have numbers := plain.numbers
  simp only [List.forall_mem_append, List.forall_mem_cons] at texts numbers
  obtain ⟨⟨_, _, _, _, _, maker, serial, _⟩, source⟩ := texts
  obtain ⟨_, _, _, _, length, loads, _⟩ := numbers
  have keys : ∀ key ∈ ["cartridge_manufacturer", "cartridge_serial", "cartridge_identity_source",
      "tape_length_meters", "load_count_at_write"], Toml.BareKey key := by decide
  refine ⟨(by decide : Toml.BareKey "media"), ?_, ?_⟩
  · intro pair member
    apply keys
    unfold mediaTable at member
    cases given : params.cartridgeIdentitySource with
    | none =>
      simp only [given, List.append_nil, List.mem_append, List.mem_cons, List.not_mem_nil, or_false] at member
      rcases member with (rfl | rfl) | rfl | rfl <;> simp
    | some text =>
      simp only [given, List.mem_append, List.mem_cons, List.not_mem_nil, or_false] at member
      rcases member with ((rfl | rfl) | rfl) | rfl | rfl <;> simp
  · intro pair member
    unfold mediaTable at member
    cases given : params.cartridgeIdentitySource with
    | none =>
      simp only [given, List.append_nil, List.mem_append, List.mem_cons, List.not_mem_nil, or_false] at member
      rcases member with (rfl | rfl) | rfl | rfl
      · exact maker.plain
      · exact serial.plain
      · exact length
      · exact loads
    | some text =>
      rw [given] at source
      simp only [given, List.mem_append, List.mem_cons, List.not_mem_nil, or_false] at member
      rcases member with ((rfl | rfl) | rfl) | rfl | rfl
      · exact maker.plain
      · exact serial.plain
      · exact (source text (by simp)).plain
      · exact length
      · exact loads

theorem body_plain (plain : PlainThunk params) (known : features = requiresWhole ∨ features = requiresSpan) :
    Toml.Document.Plain [volumeTable params features, layoutTable params, mediaTable params] := by
  intro block member
  simp only [List.mem_cons, List.not_mem_nil, or_false] at member
  rcases member with rfl | rfl | rfl
  · exact plain.volume_plain known
  · exact plain.layout_plain
  · exact plain.media_plain

theorem header_chars (plain : PlainThunk params) : ∀ c ∈ idThunkHeader params, c ≠ '[' ∧ c ≠ '\x00' := by
  have field : ∀ text ∈ [params.label, params.mediaType, params.createdAt],
      ∀ c ∈ text.toList, c ≠ '[' ∧ c ≠ '\x00' := by
    intro text member c inside
    refine ⟨fun same => plain.prose text member (same ▸ inside), ?_⟩
    rintro rfl
    have listed : text ∈ [params.label, params.uuid, params.tapectlVersion, params.mediaType,
        params.createdAt, params.mamManufacturer, params.mamSerial] := by
      simp only [List.mem_cons, List.not_mem_nil, or_false] at member ⊢
      rcases member with same | same | same <;> simp [same]
    exact absurd (plain.texts text (List.mem_append_left _ listed) _ inside).1 (by decide)
  have media : ∀ c ∈ "\nMedia:   ".toList, c ≠ '[' ∧ c ≠ '\x00' := by decide
  have created : ∀ c ∈ "\nCreated: ".toList, c ≠ '[' ∧ c ≠ '\x00' := by decide
  simp only [List.forall_mem_cons, List.not_mem_nil, false_implies, implies_true, and_true] at field
  obtain ⟨label, mediaType, createdAt⟩ := field
  simp only [idThunkHeader, List.forall_mem_append]
  exact ⟨⟨⟨⟨⟨⟨id_thunk_title_chars, label⟩, media⟩, mediaType⟩, created⟩, createdAt⟩, id_thunk_prose_chars⟩

theorem marked (plain : PlainThunk params) (known : features = requiresWhole ∨ features = requiresSpan) :
    Marked "[volume]".toList (idThunkHeader params)
      (Toml.Document.render [volumeTable params features, layoutTable params, mediaTable params]) where
  nonempty := by decide
  skips := skips_table plain.header_chars
  starts := by
    have header : Toml.renderHeader .table "volume" = "[volume]".toList := by decide
    rw [← header]
    exact starts_with_header (volumeTable params features) rfl _
  clean := by
    intro member
    cases List.mem_append.mp member with
    | inl inHeader => exact (plain.header_chars _ inHeader).2 rfl
    | inr inBody => exact clean_render (plain.body_plain known) inBody

end PlainThunk

end Tapectl.Volume.Session
