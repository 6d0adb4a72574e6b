import Tapectl.Volume.Generate

/-!
# What is generated parses back

A generated front index, stored with any padding, parses to the files it was generated from, and a
generated seal to its own statement. A seal of which only a part was read parses to nothing or
still binds the front index it was generated for: `front_index_sha256` is the last key of its
`[seal]` table, so a cut inside it leaves a table without the key.
-/

namespace Tapectl.Volume.Generate

open StoredText Tapectl.Volume.Format Tapectl.Naming
open Toml (PlainAscii)

-- The texts are long literals; only the list of their characters is evaluated.
set_option maxRecDepth 8000

theorem front_index_title_chars : ∀ c ∈ frontIndexTitle.toList, c ≠ '[' ∧ c ≠ '\x00' := by
  rw [show frontIndexTitle.toList = _ from String.toList_ofList]
  decide +kernel

theorem front_index_prose_chars : ∀ c ∈ frontIndexProse.toList, c ≠ '[' ∧ c ≠ '\x00' := by
  rw [show frontIndexProse.toList = _ from String.toList_ofList]
  decide +kernel

theorem seal_title_chars : ∀ c ∈ sealTitle.toList, c ≠ '[' ∧ c ≠ '\x00' := by
  rw [show sealTitle.toList = _ from String.toList_ofList]
  decide +kernel

theorem seal_prose_chars :
    clear "[seal]".toList sealProse.toList = true ∧ ∀ c ∈ sealProse.toList, c ≠ '\x00' := by
  rw [show sealProse.toList = _ from String.toList_ofList]
  decide +kernel

theorem skips_table {header marker : Text} (chars : ∀ c ∈ header, c ≠ '[' ∧ c ≠ '\x00') :
    Skips ('[' :: marker) header :=
  skips_of_not_mem _ _ _ fun member => (chars _ member).1 rfl

/-- An entry as the writer makes them: an `i32` position, a size TOML can hold, plain texts. -/
structure Writable (file : FrontIndexFile) : Prop where
  position : -2 ^ 31 ≤ file.position ∧ file.position < 2 ^ 31
  type : PlainAscii file.typeLabel
  size : ∀ size, file.sizeBytes = some size → size < 2 ^ 63
  hash : ∀ hash, file.sha256Encrypted = some hash → PlainAscii hash

theorem writable_iff (file : FrontIndexFile) :
    ((-2 ^ 31 ≤ file.position ∧ file.position < 2 ^ 31) ∧ PlainAscii file.typeLabel ∧
      (∀ size ∈ file.sizeBytes, size < 2 ^ 63) ∧ ∀ hash ∈ file.sha256Encrypted, PlainAscii hash) ↔
      Writable file :=
  ⟨fun ⟨position, type, size, hash⟩ => ⟨position, type, size, hash⟩,
    fun ⟨position, type, size, hash⟩ => ⟨position, type, size, hash⟩⟩

instance : DecidablePred Writable := fun file => decidable_of_iff _ (writable_iff file)

def FrontIndexFile.parsed (file : FrontIndexFile) : ParsedIndexEntry where
  position := file.position
  typeLabel := file.typeLabel
  sizeBytes := file.sizeBytes
  sha256Encrypted := file.sha256Encrypted

theorem mem_pairs {file : FrontIndexFile} {pair : String × Toml.Scalar} (member : pair ∈ file.pairs) :
    pair = ("position", .integer file.position) ∨ pair = ("type", .string file.typeLabel) ∨
      (∃ size, file.sizeBytes = some size ∧ pair = ("size_bytes", .integer size)) ∨
      ∃ hash, file.sha256Encrypted = some hash ∧ pair = ("sha256_encrypted", .string hash) := by
  simp only [FrontIndexFile.pairs, List.mem_append, List.mem_cons, List.not_mem_nil, or_false]
    at member
  rcases member with ((rfl | rfl) | sized) | hashed
  · exact Or.inl rfl
  · exact Or.inr (Or.inl rfl)
  · cases size : file.sizeBytes with
    | none => simp [size] at sized
    | some value =>
      rw [size] at sized
      exact Or.inr (Or.inr (Or.inl ⟨value, rfl, by simpa using sized⟩))
  · cases hash : file.sha256Encrypted with
    | none => simp [hash] at hashed
    | some value =>
      rw [hash] at hashed
      exact Or.inr (Or.inr (Or.inr ⟨value, rfl, by simpa using hashed⟩))

namespace Writable

variable {file : FrontIndexFile}

theorem plain (writable : Writable file) : file.block.Plain where
  name := (by decide : Toml.BareKey "files")
  keys := by
    intro pair member
    rcases mem_pairs member with rfl | rfl | ⟨size, _, rfl⟩ | ⟨hash, _, rfl⟩
    · exact (by decide : Toml.BareKey "position")
    · exact (by decide : Toml.BareKey "type")
    · exact (by decide : Toml.BareKey "size_bytes")
    · exact (by decide : Toml.BareKey "sha256_encrypted")
  values := by
    intro pair member
    rcases mem_pairs member with rfl | rfl | ⟨size, sized, rfl⟩ | ⟨hash, hashed, rfl⟩
    · have range := writable.position
      exact ⟨by omega, by omega⟩
    · exact writable.type.plain
    · have range := writable.size size sized
      exact ⟨by omega, by omega⟩
    · exact (writable.hash hash hashed).plain

theorem ascii (writable : Writable file) :
    ∀ pair ∈ file.block.pairs, ∀ c ∈ pair.2.chars, IsAscii c := by
  intro pair member c inside
  rcases mem_pairs member with rfl | rfl | ⟨size, _, rfl⟩ | ⟨hash, hashed, rfl⟩
  · cases inside
  · exact (writable.type c inside).2
  · cases inside
  · exact (writable.hash hash hashed c inside).2

theorem decode (writable : Writable file) :
    (FileEntryToml.decode file.block.values).map FileEntryToml.toParsed = some file.parsed := by
  obtain ⟨position, label, size, hash⟩ := file
  have range := writable.position
  have narrow : asI32 position = position := as_i32_of_lt range.1 range.2
  have wide : ∀ value, size = some value → asU64 (value : Nat) = value := by
    intro value sized
    have small := writable.size value sized
    unfold asU64
    omega
  cases size <;> cases hash <;>
    simp [FileEntryToml.decode, FileEntryToml.toParsed, FrontIndexFile.block,
      FrontIndexFile.pairs, Toml.Block.values, Toml.Scalar.value, Toml.Table.requireInteger,
      Toml.Table.requireString, Toml.Table.optionalInteger, Toml.Table.optionalString,
      FrontIndexFile.parsed, narrow, wide, List.lookup]

theorem keys_nodup (file : FrontIndexFile) : (file.block.pairs.map Prod.fst).Nodup := by
  obtain ⟨position, label, size, hash⟩ := file
  cases size <;> cases hash <;> simp [FrontIndexFile.block, FrontIndexFile.pairs]

end Writable

theorem decode_files_generated (table : Toml.Table) {files : List FrontIndexFile}
    (writable : ∀ file ∈ files, Writable file)
    (entry : table.lookup "files" = some (.array (files.map fun file => .table file.block.values))) :
    ∃ entries, decodeFiles table = some entries ∧
      entries.map FileEntryToml.toParsed = files.map FrontIndexFile.parsed := by
  have tables : table.tablesOrEmpty "files" = some (files.map fun file => file.block.values) := by
    simp only [Toml.Table.tablesOrEmpty, entry]
    clear entry writable
    induction files with
    | nil => rfl
    | cons file files ih => simp [Toml.Table.asTable, ih]
  simp only [decodeFiles, tables, Option.bind_eq_bind, Option.bind_some]
  clear entry tables
  induction files with
  | nil => exact ⟨[], rfl, rfl⟩
  | cons file files ih =>
    obtain ⟨entries, decoded, parsed⟩ := ih fun other member => writable other (by simp [member])
    obtain ⟨first, firstDecoded, firstParsed⟩ :=
      Option.map_eq_some_iff.mp (writable file (by simp)).decode
    refine ⟨first :: entries, ?_, by simp [firstParsed, parsed]⟩
    simp [firstDecoded, decoded]

theorem assemble_with_files (table : Toml.Block) (files : List FrontIndexFile)
    (kind : table.kind = .table) (keys : (table.pairs.map Prod.fst).Nodup)
    (other : table.name ≠ "files") (nonempty : files ≠ []) :
    Toml.assemble (table :: filesEntries files) = some
      [(table.name, .table table.values),
        ("files", .array (files.map fun file => .table file.block.values))] := by
  obtain ⟨first, rest, rfl⟩ := List.exists_cons_of_ne_nil nonempty
  have elements : ∀ element ∈ first.block :: rest.map FrontIndexFile.block,
      element.kind = .arrayOfTables ∧ element.name = first.block.name ∧
        (element.pairs.map Prod.fst).Nodup := by
    intro element member
    obtain ⟨file, _, rfl⟩ := List.mem_map.mp (by simpa using member :
      element ∈ (first :: rest).map FrontIndexFile.block)
    exact ⟨rfl, rfl, Writable.keys_nodup file⟩
  have assembled := Toml.assemble_table_and_array kind keys other elements
  simp only [List.map_cons, List.map_map, Function.comp_def] at assembled
  exact assembled

theorem plain_with_files {table : Toml.Block} {files : List FrontIndexFile} (plain : table.Plain)
    (writable : ∀ file ∈ files, Writable file) :
    Toml.Document.Plain (table :: filesEntries files) := by
  intro block member
  rcases List.mem_cons.mp member with rfl | entry
  · exact plain
  · obtain ⟨file, fileMember, rfl⟩ := List.mem_map.mp entry
    exact (writable file fileMember).plain

theorem ascii_with_files {table : Toml.Block} {files : List FrontIndexFile} (plain : table.Plain)
    (ascii : ∀ pair ∈ table.pairs, ∀ c ∈ pair.2.chars, IsAscii c)
    (writable : ∀ file ∈ files, Writable file) :
    ∀ c ∈ Toml.Document.render (table :: filesEntries files), IsAscii c := by
  refine Toml.forall_mem_render (P := IsAscii) (plain_with_files plain writable) (by decide)
    (fun c mark => Toml.ascii_of_mark mark) ?_
  · intro block member
    rcases List.mem_cons.mp member with rfl | entry
    · exact ascii
    · obtain ⟨file, fileMember, rfl⟩ := List.mem_map.mp entry
      exact (writable file fileMember).ascii

theorem clean_render {document : Toml.Document} (plain : document.Plain) :
    '\x00' ∉ document.render := by
  intro member
  apply Toml.forall_mem_render plain (P := (· ≠ '\x00')) (by decide) _ _ _ member rfl
  · rintro c mark rfl
    exact absurd mark (by decide)
  · rintro block blockMember pair pairMember c inside rfl
    have plainChar := Toml.plain_of_mem_chars ((plain block blockMember).values pair pairMember) inside
    exact absurd plainChar (by decide)

theorem starts_with_header (table : Toml.Block) (kind : table.kind = .table)
    (rest : Toml.Document) :
    Toml.renderHeader .table table.name <+: Toml.Document.render (table :: rest) := by
  rw [Toml.Document.render, Toml.Block.render, Toml.Block.lines, Toml.renderLines, kind,
    List.flatMap_cons, List.append_assoc, List.append_assoc]
  exact List.prefix_append _ _

variable {label : String}

theorem index_table_plain (allowed : AllowedName label) :
    (indexTable label).Plain where
  name := (by decide : Toml.BareKey "index")
  keys := by
    intro pair member
    simp only [indexTable, List.mem_cons, List.not_mem_nil, or_false] at member
    rcases member with rfl | rfl | rfl
    · exact (by decide : Toml.BareKey "volume")
    · exact (by decide : Toml.BareKey "layout_version")
    · exact (by decide : Toml.BareKey "may_end_early")
  values := by
    intro pair member
    simp only [indexTable, List.mem_cons, List.not_mem_nil, or_false] at member
    rcases member with rfl | rfl | rfl
    · exact allowed.plain_ascii.plain
    · exact (by decide : Toml.InRange 2)
    · trivial

theorem front_index_marked (allowed : AllowedName label) {files : List FrontIndexFile}
    (writable : ∀ file ∈ files, Writable file) :
    Marked "[index]".toList (frontIndexHeader label)
      (Toml.Document.render (indexTable label :: filesEntries files)) where
  nonempty := by decide
  skips := ((skips_table front_index_title_chars).append (skips_table allowed.chars)).append
    (skips_table front_index_prose_chars)
  starts := by
    have header : Toml.renderHeader .table "index" = "[index]".toList := by decide
    rw [← header]
    exact starts_with_header (indexTable label) rfl (filesEntries files)
  clean := by
    intro member
    simp only [frontIndexHeader, List.mem_append] at member
    rcases member with ((inTitle | inLabel) | inProse) | inBody
    · exact (front_index_title_chars _ inTitle).2 rfl
    · exact (allowed.chars _ inLabel).2 rfl
    · exact (front_index_prose_chars _ inProse).2 rfl
    · exact clean_render (plain_with_files (index_table_plain allowed) writable) inBody

theorem decode_front_index {table : Toml.Table} {entries : List FileEntryToml}
    (index : table.lookup "index" = some (.table (indexTable label).values))
    (files : decodeFiles table = some entries) :
    FrontIndexDoc.decode table = some ⟨label, 2, true, entries⟩ := by
  simp [FrontIndexDoc.decode, Toml.Table.requireTable, index, files, Toml.Table.requireString,
    Toml.Table.requireInteger, Toml.Table.booleanOr, indexTable, Toml.Block.values,
    Toml.Scalar.value, List.lookup]

/-- A generated front index, stored with any padding, reads as its own table and files. -/
theorem read_generated_front_index {crate : Toml.Crate} (reads : crate.ReadsPlain)
    (allowed : AllowedName label) {files : List FrontIndexFile} (nonempty : files ≠ [])
    (writable : ∀ file ∈ files, Writable file) (padding : Nat) :
    ∃ entries, entries.map FileEntryToml.toParsed = files.map FrontIndexFile.parsed ∧
      parseDocument crate FrontIndexDoc.decode "[index]".toList "front index"
          (fromUtf8Lossy (stored (generateFrontIndex label files) padding)) =
        .ok ⟨label, 2, true, entries⟩ := by
  have plain := plain_with_files (index_table_plain allowed) writable
  have assembled := assemble_with_files (indexTable label) files rfl
    (by simp [indexTable]) (by simp [indexTable]) nonempty
  obtain ⟨entries, decoded, parsed⟩ := decode_files_generated
    [("index", .table (indexTable label).values),
      ("files", .array (files.map fun file => .table file.block.values))] writable rfl
  have read := (reads.ok plain (List.prefix_refl _)).mpr ((Toml.parse_render plain).trans assembled)
  exact ⟨entries, parsed, parse_document_ok.mpr
    ⟨_, _, (front_index_marked allowed writable).find_stored padding, read,
      decode_front_index rfl decoded⟩⟩

theorem parse_generated_front_index {crate : Toml.Crate} (reads : crate.ReadsPlain)
    (allowed : AllowedName label) {files : List FrontIndexFile} (nonempty : files ≠ [])
    (writable : ∀ file ∈ files, Writable file) (padding : Nat) :
    parseFrontIndex crate (fromUtf8Lossy (stored (generateFrontIndex label files) padding)) =
      .ok (files.map FrontIndexFile.parsed) := by
  obtain ⟨entries, parsed, read⟩ :=
    read_generated_front_index reads allowed nonempty writable padding
  exact parse_front_index_ok.mpr ⟨⟨label, 2, true, entries⟩, read, rfl, parsed.symm⟩

structure SealInputs where
  label : String
  fileCount : Int
  endedAfter : Int
  frontIndexSha256 : String
  features : List String
  now : String
  files : List FrontIndexFile

namespace SealInputs

def table (inputs : SealInputs) : Toml.Block :=
  sealTable inputs.label inputs.fileCount inputs.endedAfter inputs.frontIndexSha256
    inputs.features inputs.now

def body (inputs : SealInputs) : Toml.Document := inputs.table :: filesEntries inputs.files

def text (inputs : SealInputs) : Text := sealHeader inputs.label ++ inputs.body.render

theorem text_full (label : String) (fileCount : Int) (frontIndexSha256 : String)
    (files : List FrontIndexFile) (features : List String) (now : String) :
    generateSealMarkerRequiring label fileCount frontIndexSha256 files features now =
      text ⟨label, fileCount, fileCount - 2, frontIndexSha256, features, now, files⟩ := rfl

theorem text_short (label : String) (endedAfter : Int) (frontIndexSha256 : String)
    (files : List FrontIndexFile) (features : List String) (now : String) :
    generateShortSealMarkerRequiring label endedAfter frontIndexSha256 files features now =
      text ⟨label, saturatingAdd endedAfter 2, endedAfter, frontIndexSha256, features, now,
        files ++ [⟨saturatingAdd endedAfter 1, "seal_marker", none, none⟩]⟩ := rfl

structure Writable (inputs : SealInputs) : Prop where
  label : AllowedName inputs.label
  fileCount : -2 ^ 31 ≤ inputs.fileCount ∧ inputs.fileCount < 2 ^ 31
  endedAfter : -2 ^ 31 - 2 ≤ inputs.endedAfter ∧ inputs.endedAfter < 2 ^ 31
  hash : PlainAscii inputs.frontIndexSha256
  features : ∀ feature ∈ inputs.features, PlainAscii feature
  now : PlainAscii inputs.now
  files : ∀ file ∈ inputs.files, Generate.Writable file

variable {inputs : SealInputs}

theorem mem_table {pair : String × Toml.Scalar} (member : pair ∈ inputs.table.pairs) :
    pair = ("volume", .string inputs.label) ∨ pair = ("layout_version", .integer 2) ∨
      pair = ("requires", .strings inputs.features) ∨
      pair = ("file_count", .integer inputs.fileCount) ∨
      pair = ("ended_after", .integer inputs.endedAfter) ∨
      pair = ("sealed_at", .string inputs.now) ∨
      pair = ("front_index_sha256", .string inputs.frontIndexSha256) := by
  simpa [table, sealTable] using member

def document (inputs : SealInputs) (entries : List FileEntryToml) : SealDoc where
  volume := inputs.label
  layoutVersion := 2
  fileCount := inputs.fileCount
  endedAfter := some inputs.endedAfter
  sealedAt := inputs.now
  frontIndexSha256 := inputs.frontIndexSha256
  requires := inputs.features
  files := entries

namespace Writable

theorem table_plain (writable : inputs.Writable) : inputs.table.Plain where
  name := (by decide : Toml.BareKey "seal")
  keys := by
    intro pair member
    rcases mem_table member with rfl | rfl | rfl | rfl | rfl | rfl | rfl
    · exact (by decide : Toml.BareKey "volume")
    · exact (by decide : Toml.BareKey "layout_version")
    · exact (by decide : Toml.BareKey "requires")
    · exact (by decide : Toml.BareKey "file_count")
    · exact (by decide : Toml.BareKey "ended_after")
    · exact (by decide : Toml.BareKey "sealed_at")
    · exact (by decide : Toml.BareKey "front_index_sha256")
  values := by
    intro pair member
    have count := writable.fileCount
    have ended := writable.endedAfter
    rcases mem_table member with rfl | rfl | rfl | rfl | rfl | rfl | rfl
    · exact writable.label.plain_ascii.plain
    · exact (by decide : Toml.InRange 2)
    · exact fun feature inside => (writable.features feature inside).plain
    · exact ⟨by omega, by omega⟩
    · exact ⟨by omega, by omega⟩
    · exact writable.now.plain
    · exact writable.hash.plain

theorem table_ascii (writable : inputs.Writable) :
    ∀ pair ∈ inputs.table.pairs, ∀ c ∈ pair.2.chars, IsAscii c := by
  intro pair member c inside
  rcases mem_table member with rfl | rfl | rfl | rfl | rfl | rfl | rfl
  · exact (writable.label.plain_ascii c inside).2
  · cases inside
  · obtain ⟨feature, featureMember, inFeature⟩ := List.mem_flatMap.mp inside
    exact (writable.features feature featureMember c inFeature).2
  · cases inside
  · cases inside
  · exact (writable.now c inside).2
  · exact (writable.hash c inside).2

theorem plain (writable : inputs.Writable) : inputs.body.Plain :=
  plain_with_files writable.table_plain writable.files

theorem ascii (writable : inputs.Writable) : ∀ c ∈ inputs.body.render, IsAscii c :=
  ascii_with_files writable.table_plain writable.table_ascii writable.files

theorem marked (writable : inputs.Writable) :
    Marked "[seal]".toList (sealHeader inputs.label) inputs.body.render where
  nonempty := by decide
  skips := ((skips_table seal_title_chars).append (skips_table writable.label.chars)).append
    (skips_of_clear seal_prose_chars.1)
  starts := by
    have header : Toml.renderHeader .table "seal" = "[seal]".toList := by decide
    rw [← header]
    exact starts_with_header inputs.table rfl (filesEntries inputs.files)
  clean := by
    intro member
    simp only [sealHeader, List.mem_append] at member
    rcases member with ((inTitle | inLabel) | inProse) | inBody
    · exact (seal_title_chars _ inTitle).2 rfl
    · exact (writable.label.chars _ inLabel).2 rfl
    · exact seal_prose_chars.2 _ inProse rfl
    · exact clean_render writable.plain inBody

theorem map_m_as_string (items : List String) :
    items.mapM (Toml.Table.asString ∘ Toml.Value.string) = some items := by
  induction items with
  | nil => rfl
  | cons item items ih => simp [Toml.Table.asString, ih]

theorem decode_seal {root : Toml.Table} {entries : List FileEntryToml}
    (header : root.lookup "seal" = some (.table inputs.table.values))
    (files : decodeFiles root = some entries) :
    SealDoc.decode root = some (inputs.document entries) := by
  have volume : inputs.table.values.lookup "volume" = some (.string inputs.label) := rfl
  have version : inputs.table.values.lookup "layout_version" = some (.integer 2) := rfl
  have required : inputs.table.values.lookup "requires" =
    some (.array (inputs.features.map .string)) := rfl
  have count : inputs.table.values.lookup "file_count" = some (.integer inputs.fileCount) := rfl
  have ended : inputs.table.values.lookup "ended_after" = some (.integer inputs.endedAfter) := rfl
  have sealedAt : inputs.table.values.lookup "sealed_at" = some (.string inputs.now) := rfl
  have hash : inputs.table.values.lookup "front_index_sha256" =
    some (.string inputs.frontIndexSha256) := rfl
  simp only [SealDoc.decode, Toml.Table.requireTable, header, files, Toml.Table.requireString,
    volume, version, count, ended, sealedAt, hash, Toml.Table.requireInteger,
    Toml.Table.optionalInteger, Toml.Table.stringsOrEmpty, required, List.mapM_map,
    map_m_as_string, Option.bind_eq_bind, Option.bind_some, document]

theorem parse_stored (writable : inputs.Writable) {crate : Toml.Crate} (reads : crate.ReadsPlain)
    (nonempty : inputs.files ≠ []) (padding : Nat) :
    ∃ entries, entries.map FileEntryToml.toParsed = inputs.files.map FrontIndexFile.parsed ∧
      parseDocument crate SealDoc.decode "[seal]".toList "seal marker"
          (fromUtf8Lossy (stored inputs.text padding)) = .ok (inputs.document entries) := by
  have plain := writable.plain
  have assembled := assemble_with_files inputs.table inputs.files rfl
    (by simp [SealInputs.table, sealTable]) (by simp [SealInputs.table, sealTable]) nonempty
  obtain ⟨entries, decoded, parsed⟩ := decode_files_generated
    [("seal", .table inputs.table.values),
      ("files", .array (inputs.files.map fun file => .table file.block.values))]
    writable.files rfl
  have read := (reads.ok plain (List.prefix_refl _)).mpr ((Toml.parse_render plain).trans assembled)
  exact ⟨entries, parsed, parse_document_ok.mpr
    ⟨_, _, writable.marked.find_stored padding, read, decode_seal rfl decoded⟩⟩

/-- Whatever part of a generated seal is read, with its padding: if it parses as a seal, it binds
the front index the seal was generated for. -/
theorem parse_cut (writable : inputs.Writable) {crate : Toml.Crate} (reads : crate.ReadsPlain)
    (padding count : Nat) {document : SealDoc}
    (parsed : parseDocument crate SealDoc.decode "[seal]".toList "seal marker"
      (fromUtf8Lossy ((stored inputs.text padding).take count)) = .ok document) :
    document.frontIndexSha256 = inputs.frontIndexSha256 := by
  obtain ⟨body, root, found, read, decoded⟩ := parse_document_ok.mp parsed
  rcases writable.marked.find_cut writable.ascii padding count with hidden | ⟨kept, shown⟩
  · rw [text, hidden] at found
    cases found
  rw [text, shown] at found
  obtain ⟨_, starts⟩ := find_from_sound shown
  cases found
  have cut : inputs.body.render.take kept <+: inputs.body.render := List.take_prefix _ _
  have parses := (reads.ok writable.plain cut).mp read
  have header : Toml.renderHeader .table "seal" = "[seal]".toList := by decide
  have hash : ∀ entries, root.lookup "seal" = some (.table entries) →
      entries.lookup "front_index_sha256" = some (.string document.frontIndexSha256) := by
    intro entries lookup
    simp only [SealDoc.decode, Toml.Table.requireTable, lookup, Option.bind_eq_bind,
      Option.bind_some, Option.bind_eq_some_iff] at decoded
    obtain ⟨_, _, _, _, _, _, _, _, _, _, stated, required, _, _, _, _, same⟩ := decoded
    cases same
    simp only [Toml.Table.requireString] at required
    split at required
    · next text inside =>
        cases required
        exact inside
    · cases required
  rcases Toml.parse_cut inputs.table "front_index_sha256" inputs.frontIndexSha256 writable.plain rfl rfl (by simp) cut
      (by rw [show inputs.table.name = "seal" from rfl, header]; exact starts) parses with
    whole | ⟨entries, lookup, absent⟩
  · have stated := hash _ whole
    simpa [SealInputs.table, sealTable, Toml.Block.values, Toml.Scalar.value, List.lookup, eq_comm] using stated
  · rw [hash entries lookup] at absent
    cases absent

end Writable

def statement (inputs : SealInputs) : ParsedSeal where
  volume := inputs.label
  layoutVersion := 2
  fileCount := asI32 inputs.fileCount
  endedAfter := tryU64 inputs.endedAfter
  sealedAt := inputs.now
  frontIndexSha256 := inputs.frontIndexSha256
  requires := inputs.features
  files := inputs.files.map FrontIndexFile.parsed

/-- What the parse rules ask of a seal that ended after the data slice `ended`. -/
structure KeepsRules (inputs : SealInputs) (ended : Nat) : Prop where
  near : ended + 2 < 2 ^ 31
  features : inputs.features = requiresWhole ∨ inputs.features = requiresSpan
  stated : inputs.endedAfter = ended
  count : inputs.fileCount = ended + 2
  listed : inputs.files.length = ended + 2
  consistent : validateConsistency (inputs.files.map FrontIndexFile.parsed) = []
  slice : inputs.files[ended]?.map FrontIndexFile.typeLabel = some "data_slice"

namespace KeepsRules

variable {inputs : SealInputs} {ended : Nat}

theorem requires_short_seal (rules : inputs.KeepsRules ended) :
    inputs.statement.requiresShortSeal = true := by
  have known : ∀ features, features = requiresWhole ∨ features = requiresSpan →
      (features.any fun feature => feature == shortSeal) = true := by
    rintro features (rfl | rfl) <;> decide
  exact known _ rules.features

theorem statement_ended_after (rules : inputs.KeepsRules ended) :
    inputs.statement.endedAfter = some ended := by
  have near := rules.near
  simp only [statement, rules.stated, tryU64]
  simp

theorem statement_file_count (rules : inputs.KeepsRules ended) :
    inputs.statement.fileCount = (ended + 2 : Nat) := by
  have near := rules.near
  simp only [statement, rules.count]
  exact as_i32_of_lt (by omega) (by omega)

theorem effective_ended_after (rules : inputs.KeepsRules ended) :
    inputs.statement.effectiveEndedAfter = some ended := by
  rw [ParsedSeal.effectiveEndedAfter, rules.statement_ended_after]

theorem parse_rules (rules : inputs.KeepsRules ended) :
    inputs.statement.checkParseRules = .ok () := by
  have near := rules.near
  have slice : (inputs.statement.files[ended]?).map (·.typeLabel) = some "data_slice" := by
    rw [← rules.slice, statement, List.getElem?_map, Option.map_map]
    rfl
  have listed : inputs.statement.files.length = ended + 2 := by
    rw [statement, List.length_map, rules.listed]
  have consistent : validateConsistency inputs.statement.files = [] := rules.consistent
  have added : checkedAddU64 ended 2 = tryU64 ((ended + 2 : Nat) : Int) := by
    have small : ended + 2 < 2 ^ 64 := by omega
    have positive : (0 : Int) ≤ (ended + 2 : Nat) := by omega
    simp only [checkedAddU64, tryU64, small, positive, if_true]
    rfl
  simp only [ParsedSeal.checkParseRules, rules.requires_short_seal, rules.effective_ended_after,
    rules.statement_ended_after, rules.statement_file_count, listed, consistent, slice, added,
    Option.bind_some]
  simp

end KeepsRules

/-- A seal for a tape that ended after the data slice `ended`. -/
structure Sound (inputs : SealInputs) (ended : Nat) : Prop extends inputs.KeepsRules ended where
  writable : inputs.Writable

namespace Sound

variable {inputs : SealInputs} {ended : Nat}

theorem refusal (sound : inputs.Sound ended) : inputs.statement.refusal = none := by
  have known : ∀ features, features = requiresWhole ∨ features = requiresSpan →
      FormatClaims.refusal ⟨none, some 2, features, none⟩ "the seal marker" = none := by
    rintro features (rfl | rfl) <;> decide
  exact known _ sound.features

theorem parse (sound : inputs.Sound ended) {crate : Toml.Crate} (reads : crate.ReadsPlain)
    (padding : Nat) :
    parseSealMarker crate (fromUtf8Lossy (stored inputs.text padding)) = .ok inputs.statement := by
  have nonempty : inputs.files ≠ [] := by
    intro none
    have listed := sound.listed
    rw [none] at listed
    cases listed
  obtain ⟨entries, typed, read⟩ := sound.writable.parse_stored reads nonempty padding
  rw [parseSealMarker, read]
  have parsed : SealDoc.toParsed (inputs.document entries) = inputs.statement := by
    simp only [SealDoc.toParsed, document, typed, statement, Option.bind_some]
  have ends : (inputs.document entries).endedAfter = some inputs.endedAfter := rfl
  have positive : ¬ inputs.endedAfter < 0 := by
    rw [sound.stated]
    omega
  simp only [bind, Except.bind, judgeParsedSeal, parsed, ends, sound.refusal,
    sound.parse_rules, positive]
  rfl

end Sound

end SealInputs

/-- An entry with short texts and a size of a file takes at most four lines of a screen's width. -/
theorem length_file_render {file : FrontIndexFile} {place : Nat} (position : file.position = place)
    (near : place < 10 ^ 10) (label : file.typeLabel.toList.length ≤ 64)
    (size : ∀ size, file.sizeBytes = some size → size < 10 ^ 20)
    (hash : ∀ hash, file.sha256Encrypted = some hash → hash.toList.length ≤ 64) :
    file.block.render.length ≤ 250 := by
  obtain ⟨_, typeLabel, sizeBytes, sha256⟩ := file
  subst position
  have placeDigits := Toml.length_render_nat (by decide) near
  have header : (Toml.renderHeader .arrayOfTables "files").length = 9 := by decide
  have names : "position".toList.length = 8 ∧ "type".toList.length = 4 ∧
      "size_bytes".toList.length = 10 ∧ "sha256_encrypted".toList.length = 16 := by decide
  have sizeDigits : ∀ value, sizeBytes = some value → (Toml.renderInteger value).length ≤ 20 :=
    fun value sized => Toml.length_render_nat (by decide) (size value sized)
  simp only at label hash
  rw [Toml.length_block_render]
  cases sizeBytes <;> cases sha256 <;>
    simp only [FrontIndexFile.block, FrontIndexFile.pairs, header, List.append_nil,
      List.cons_append, List.nil_append, List.map_cons, List.map_nil, List.sum_cons, List.sum_nil,
      Toml.Scalar.render, Toml.quote, List.length_cons, List.length_append, List.length_nil, names,
      Option.some.injEq, forall_eq'] at sizeDigits hash ⊢ <;>
    omega

theorem length_files_entries {files : List FrontIndexFile}
    (short : ∀ file ∈ files, file.block.render.length ≤ 250) (table : Toml.Block) :
    (Toml.Document.render (table :: filesEntries files)).length ≤
      table.render.length + 251 * files.length := by
  have entries : ((filesEntries files).flatMap fun next => '\n' :: next.render).length ≤
      251 * files.length := by
    induction files with
    | nil => simp [filesEntries]
    | cons file files ih =>
      have first := short file (by simp)
      have rest := ih fun other member => short other (by simp [member])
      simp only [filesEntries, List.map_cons, List.flatMap_cons, List.length_append,
        List.length_cons] at rest ⊢
      omega
  rw [Toml.Document.render, List.length_append]
  omega

theorem front_index_header_length (label : String) :
    (frontIndexHeader label).length ≤ 1200 + label.toList.length := by
  have title : frontIndexTitle.toList.length ≤ 200 := by
    rw [show frontIndexTitle.toList = _ from String.toList_ofList]
    decide +kernel
  have prose : frontIndexProse.toList.length ≤ 1000 := by
    rw [show frontIndexProse.toList = _ from String.toList_ofList]
    decide +kernel
  simp only [frontIndexHeader, List.length_append]
  omega

theorem length_generate_front_index {files : List FrontIndexFile}
    (short : ∀ file ∈ files, file.block.render.length ≤ 250) (label : String) :
    (encodeUtf8 (generateFrontIndex label files)).length ≤
      4 * (1200 + label.toList.length + (indexTable label).render.length + 251 * files.length) := by
  have header := front_index_header_length label
  have body := length_files_entries short (indexTable label)
  have encoded := length_encode_utf8_le (generateFrontIndex label files)
  have text : (generateFrontIndex label files).length = (frontIndexHeader label).length +
      (Toml.Document.render (indexTable label :: filesEntries files)).length := List.length_append
  omega

theorem seal_header_length (label : String) :
    (sealHeader label).length ≤ 1200 + label.toList.length := by
  have title : sealTitle.toList.length ≤ 200 := by
    rw [show sealTitle.toList = _ from String.toList_ofList]
    decide +kernel
  have prose : sealProse.toList.length ≤ 1000 := by
    rw [show sealProse.toList = _ from String.toList_ofList]
    decide +kernel
  simp only [sealHeader, List.length_append]
  omega

theorem SealInputs.length_text {inputs : SealInputs}
    (short : ∀ file ∈ inputs.files, file.block.render.length ≤ 250) :
    (encodeUtf8 inputs.text).length ≤
      4 * (1200 + inputs.label.toList.length + inputs.table.render.length +
        251 * inputs.files.length) := by
  have header := seal_header_length inputs.label
  have body := length_files_entries short inputs.table
  have encoded := length_encode_utf8_le inputs.text
  have text : inputs.text.length = (sealHeader inputs.label).length +
      (Toml.Document.render (inputs.table :: filesEntries inputs.files)).length :=
    List.length_append
  omega

theorem id_thunk_header_length (params : IdThunkV2Params) :
    (idThunkHeader params).length ≤ 2000 + params.label.toList.length +
      params.mediaType.toList.length + params.createdAt.toList.length := by
  have title : idThunkTitle.toList.length ≤ 200 := by
    rw [show idThunkTitle.toList = _ from String.toList_ofList]
    decide +kernel
  have prose : idThunkProse.toList.length ≤ 1700 := by
    rw [show idThunkProse.toList = _ from String.toList_ofList]
    decide +kernel
  have between : "\nMedia:   ".toList.length ≤ 50 ∧ "\nCreated: ".toList.length ≤ 50 := by decide
  simp only [idThunkHeader, List.length_append]
  omega

theorem length_generate_id_thunk (params : IdThunkV2Params) (features : List String) :
    (encodeUtf8 (generateIdThunkV2Requiring params features)).length ≤
      4 * (2000 + params.label.toList.length + params.mediaType.toList.length +
        params.createdAt.toList.length + (Toml.Document.render
          [volumeTable params features, layoutTable params, mediaTable params]).length) := by
  have header := id_thunk_header_length params
  have encoded := length_encode_utf8_le (generateIdThunkV2Requiring params features)
  have text : (generateIdThunkV2Requiring params features).length = (idThunkHeader params).length +
      (Toml.Document.render
        [volumeTable params features, layoutTable params, mediaTable params]).length :=
    List.length_append
  omega

end Tapectl.Volume.Generate
