import Tapectl.Library.Effects
import Tapectl.Library.Toml

/-!
# The cross-volume index

`volume/index.rs`: `units.tsv` and `paths.tsv`, tab-separated text with four escapes, as they are written
and as they are read back. Two things the code takes from elsewhere are parameters: what chrono makes of
a catalog timestamp (`read`) and how a text prints under `{:?}` (`debug`).
-/

namespace Tapectl.Volume.Index

open StoredText

/-- `IndexHolderState`. -/
inductive HolderState where
  | sealed
  | quarantined
  | thisTape
  deriving DecidableEq, Repr

def HolderState.asStr : HolderState → Text
  | .sealed => "sealed".toList
  | .quarantined => "quarantined".toList
  | .thisTape => "this-tape".toList

structure IndexVersionRow where
  tenantId : Int
  tenant : Text
  unitId : Int
  unit : Text
  unitUuid : Text
  snapshotId : Int
  version : Int64
  numSlices : Int64
  versionBytes : Int64
  firstSlice : Int64
  lastSlice : Int64
  volume : Text
  volumeUuid : Text
  cartridgeSerial : Text
  generation : Text
  state : HolderState
  sealedAt : Text
  deriving DecidableEq

def unitsColumns : List Text :=
  ["unit", "unit_uuid", "version", "num_slices", "first_slice", "last_slice", "version_bytes", "volume",
    "volume_uuid", "cartridge_serial", "generation", "state", "sealed_at"].map String.toList

def pathsColumns : List Text :=
  ["unit", "version", "kind", "size_bytes", "sha256", "path"].map String.toList

/-- The bytes `write_escaped` puts for one character. -/
def escapeChar : Char → Text
  | '\\' => ['\\', '\\']
  | '\t' => ['\\', 't']
  | '\n' => ['\\', 'n']
  | '\r' => ['\\', 'r']
  | c => [c]

def escape (field : Text) : Text := field.flatMap escapeChar

/-- `{}` of an `i64`. -/
def renderI64 (value : Int64) : Text := Toml.renderInteger value.toInt

/-- `rfc3339_from_catalog`; `read` is chrono's reading of the trimmed text, as RFC 3339 UTC. -/
def rfc3339FromCatalog (read : Text → Option Text) (text : Text) : Text := (read text).getD []

def writeHeader (columns : List Text) (leading : Option Text) : Text :=
  ['\t'].intercalate (leading.toList ++ columns) ++ ['\n']

def writeUnitsRow (read : Text → Option Text) (operatorForm : Bool) (r : IndexVersionRow) : Text :=
  let field (text : Text) : Text := escape text ++ ['\t']
  (if operatorForm then field r.tenant else []) ++ field r.unit ++ field r.unitUuid ++
    (renderI64 r.version ++ ['\t']) ++
    (if 0 < r.numSlices then
      (renderI64 r.numSlices ++ ['\t']) ++
        (if 0 < r.firstSlice ∧ 0 < r.lastSlice then
          renderI64 r.firstSlice ++ ['\t'] ++ renderI64 r.lastSlice ++ ['\t']
        else ['\t', '\t']) ++
        (renderI64 r.versionBytes ++ ['\t'])
    else ['\t', '\t', '\t', '\t']) ++
    field r.volume ++ field r.volumeUuid ++ field r.cartridgeSerial ++ field r.generation ++
    field r.state.asStr ++ escape (rfc3339FromCatalog read r.sealedAt) ++ ['\n']

/-- `units.tsv` for these rows, in the operator's form or a tenant's. -/
def writeUnits (read : Text → Option Text) (operatorForm : Bool) (rows : List IndexVersionRow) : Text :=
  writeHeader unitsColumns (if operatorForm then some "tenant".toList else none) ++
    rows.flatMap (writeUnitsRow read operatorForm)

/-- One row of `VERSION_PATHS_SQL`; a `sha256` that is not recorded is NULL. -/
structure FileRow where
  kind : Int64
  sizeBytes : Int64
  path : Text
  sha256 : Option Bytes
  deriving DecidableEq

structure ListedVersion where
  unit : Text
  version : Int64
  rows : List FileRow

def kindLetter (kind : Int64) : Except String Char :=
  if kind = 0 then .ok 'd'
  else if kind = 1 then .ok 'f'
  else if kind = 2 then .ok 'l'
  else if kind = 3 then .ok 's'
  else .error ("cross-volume index: a file_versions row has kind " ++
    String.ofList (renderI64 kind) ++ ", outside 0-3")

def hexDigit (value : Nat) : Char := "0123456789abcdef".toList.getD value '0'

def writeHex (bytes : Bytes) : Text :=
  bytes.flatMap fun byte => [hexDigit (byte.toNat / 16), hexDigit (byte.toNat % 16)]

/-- The hash a row states: a regular file's, when 32 bytes are recorded. -/
def statedHash (kind : Char) (sha256 : Option Bytes) : Text :=
  match sha256 with
  | some bytes => if kind = 'f' ∧ bytes.length = 32 then writeHex bytes else []
  | none => []

def writePathRow (v : ListedVersion) (kind : Char) (row : FileRow) : Text :=
  escape v.unit ++ ['\t'] ++ renderI64 v.version ++ ['\t'] ++ [kind] ++ ['\t'] ++
    renderI64 row.sizeBytes ++ ['\t'] ++ statedHash kind row.sha256 ++ ['\t'] ++ escape row.path ++
    ['\n']

variable (debug : Text → String)

/-- The bytewise order of `paths.tsv`: a path that does not come after the one before it is refused. -/
def checkOrder (v : ListedVersion) (path : Text) : Option Text → Except String Unit
  | some previous =>
    if encodeUtf8 previous < encodeUtf8 path then .ok ()
    else .error ("cross-volume index: the catalog returned unit " ++ debug v.unit ++ " version " ++
      String.ofList (renderI64 v.version) ++ "'s paths out of order or twice (" ++ debug previous ++
      " then " ++ debug path ++ ")")
  | none => .ok ()

/-- The rows of one version; `previous` is the path of the row before, if there was one. -/
def writeVersionPaths (debug : Text → String) (v : ListedVersion) :
    Option Text → List FileRow → Except String Text
  | _, [] => .ok []
  | previous, row :: rest => do
    let kind ← kindLetter row.kind
    checkOrder debug v row.path previous
    let later ← writeVersionPaths debug v (some row.path) rest
    return writePathRow v kind row ++ later

def writePaths (versions : List ListedVersion) : Except String Text := do
  let texts ← versions.mapM fun v => writeVersionPaths debug v none v.rows
  return writeHeader pathsColumns none ++ texts.flatten

def unescape : Text → Except String Text
  | [] => .ok []
  | ['\\'] => .error "a backslash ends the field"
  | '\\' :: '\\' :: rest => (unescape rest).map ('\\' :: ·)
  | '\\' :: 't' :: rest => (unescape rest).map ('\t' :: ·)
  | '\\' :: 'n' :: rest => (unescape rest).map ('\n' :: ·)
  | '\\' :: 'r' :: rest => (unescape rest).map ('\r' :: ·)
  | '\\' :: other :: _ => .error ("unknown escape `\\" ++ String.ofList [other] ++ "`")
  | c :: rest => (unescape rest).map (c :: ·)

/-- `str::parse::<i64>`. -/
def parseI64 (text : Text) : Option Int64 :=
  let value :=
    match text with
    | '+' :: digits => (Toml.parseDigits digits).map Int.ofNat
    | _ => Toml.parseSigned text
  value.bind fun n => if -2 ^ 63 ≤ n ∧ n < 2 ^ 63 then some (Int64.ofInt n) else none

/-- `header_columns`: the names of the header, with every required one among them. -/
def headerColumns (file : String) (header : Text) (required : List Text) : Except String (List Text) :=
  let names := header.splitOn '\t'
  match required.find? fun name => !names.contains name with
  | some name =>
    .error (file ++ ": the header has no `" ++ String.ofList name ++ "` column (it names: " ++
      String.ofList (", ".toList.intercalate names) ++ ")")
  | none => .ok names

/-- `cols.get(name)`: a name given twice is its last column. -/
def column (names : List Text) (name : Text) : Option Nat :=
  (names.zipIdx.filter fun entry => entry.1 = name).getLast?.map Prod.snd

def lineFields (file : String) (columns n : Nat) (line : Text) : Except String (List Text) :=
  let fields := line.splitOn '\t'
  if fields.length ≠ columns then
    .error (file ++ ": line " ++ toString n ++ " has " ++ toString fields.length ++
      " field(s), the header names " ++ toString columns)
  else fields.mapM fun field => (unescape field).mapError fun e =>
    file ++ ": line " ++ toString n ++ ": " ++ e

/-- `rows_of`: the data lines that are not empty, with their numbers. -/
def dataLines (text : Text) : List (Nat × Text) :=
  (((text.splitOn '\n').zipIdx 1).drop 1).filterMap fun entry =>
    if entry.1 = [] then none else some (entry.2, entry.1)

def intField (file : String) (line : Nat) (name value : Text) : Except String (Option Int64) :=
  if value = [] then .ok none
  else
    match parseI64 value with
    | some number => .ok (some number)
    | none => .error (file ++ ": line " ++ toString line ++ ": `" ++ String.ofList name ++
        "` is not a number: " ++ debug value)

structure UnitsRow where
  tenant : Text
  unit : Text
  unitUuid : Text
  version : Int64
  numSlices : Option Int64
  firstSlice : Option Int64
  lastSlice : Option Int64
  versionBytes : Option Int64
  volume : Text
  volumeUuid : Text
  cartridgeSerial : Text
  generation : Text
  state : Text
  sealedAt : Text
  deriving DecidableEq

structure PathsRow where
  unit : Text
  version : Int64
  kind : Text
  sizeBytes : Option Int64
  sha256 : Text
  path : Text
  deriving DecidableEq

section Fields

variable (debug : Text → String) (file : String) (names : List Text) (n : Nat) (fields : List Text)

def textOf (name : String) : Text :=
  ((column names name.toList).map fun i => fields.getD i []).getD []

def intOf (name : String) : Except String (Option Int64) :=
  match column names name.toList with
  | some i => intField debug file n name.toList (fields.getD i [])
  | none => .ok none

def requiredInt (name : String) (value : Except String (Option Int64)) : Except String Int64 := do
  match ← value with
  | some number => return number
  | none => throw (file ++ ": line " ++ toString n ++ ": `" ++ name ++ "` is empty")

def unitsRow : Except String UnitsRow := do
  let version ← requiredInt file n "version" (intOf debug file names n fields "version")
  let numSlices ← intOf debug file names n fields "num_slices"
  let firstSlice ← intOf debug file names n fields "first_slice"
  let lastSlice ← intOf debug file names n fields "last_slice"
  let versionBytes ← intOf debug file names n fields "version_bytes"
  return {
    tenant := textOf names fields "tenant"
    unit := textOf names fields "unit"
    unitUuid := textOf names fields "unit_uuid"
    version, numSlices, firstSlice, lastSlice, versionBytes
    volume := textOf names fields "volume"
    volumeUuid := textOf names fields "volume_uuid"
    cartridgeSerial := textOf names fields "cartridge_serial"
    generation := textOf names fields "generation"
    state := textOf names fields "state"
    sealedAt := textOf names fields "sealed_at" }

def pathsRow : Except String PathsRow := do
  let version ← requiredInt file n "version"
    (intField debug file n "version".toList (textOf names fields "version"))
  let sizeBytes ← intField debug file n "size_bytes".toList (textOf names fields "size_bytes")
  return {
    unit := textOf names fields "unit"
    version, sizeBytes
    kind := textOf names fields "kind"
    sha256 := textOf names fields "sha256"
    path := textOf names fields "path" }

end Fields

/-- The shape `parse_units` and `parse_paths` share. -/
def parseTable {Row : Type} (file : String) (required : List String)
    (row : List Text → Nat → List Text → Except String Row) (text : Text) : Except String (List Row) := do
  let header := (text.splitOn '\n').headD []
  let names ← headerColumns file header (required.map String.toList)
  (dataLines text).mapM fun entry => do
    let fields ← lineFields file (header.splitOn '\t').length entry.1 entry.2
    row names entry.1 fields

def parseUnits (text : Text) : Except String (List UnitsRow) :=
  parseTable "index/units.tsv" ["unit", "version", "volume"] (unitsRow debug "index/units.tsv") text

def parsePaths (text : Text) : Except String (List PathsRow) :=
  parseTable "index/paths.tsv" ["unit", "version", "path"] (pathsRow debug "index/paths.tsv") text

def Unsplit (field : Text) : Prop := '\t' ∉ field ∧ '\n' ∉ field

instance : DecidablePred Unsplit := fun _ => inferInstanceAs (Decidable (_ ∧ _))

theorem escape_char_unsplit (c : Char) : Unsplit (escapeChar c) := by
  unfold escapeChar
  split
  · decide
  · decide
  · decide
  · decide
  · next _ notTab notLine _ =>
      constructor
      · simpa using fun same => notTab same.symm
      · simpa using fun same => notLine same.symm

theorem escape_unsplit (field : Text) : Unsplit (escape field) := by
  constructor
  · intro member
    obtain ⟨c, _, inside⟩ := List.mem_flatMap.mp member
    exact (escape_char_unsplit c).1 inside
  · intro member
    obtain ⟨c, _, inside⟩ := List.mem_flatMap.mp member
    exact (escape_char_unsplit c).2 inside

theorem unescape_cons_plain {c : Char} (plain : c ≠ '\\') (rest : Text) :
    unescape (c :: rest) = (unescape rest).map (c :: ·) := by
  rw [unescape.eq_def]
  split <;> simp_all

theorem unescape_escape_char (c : Char) (rest : Text) :
    unescape (escapeChar c ++ rest) = (unescape rest).map (c :: ·) := by
  unfold escapeChar
  split
  · rw [List.cons_append, List.cons_append, List.nil_append, unescape]
  · rw [List.cons_append, List.cons_append, List.nil_append, unescape]
  · rw [List.cons_append, List.cons_append, List.nil_append, unescape]
  · rw [List.cons_append, List.cons_append, List.nil_append, unescape]
  · next notBackslash _ _ _ => exact unescape_cons_plain notBackslash rest

theorem unescape_escape (field : Text) : unescape (escape field) = .ok field := by
  induction field with
  | nil => rfl
  | cons c rest hyp =>
    have shape : escape (c :: rest) = escapeChar c ++ escape rest := List.flatMap_cons
    rw [shape, unescape_escape_char, hyp]
    rfl

theorem unescape_of_no_backslash {field : Text} (plain : '\\' ∉ field) : unescape field = .ok field := by
  induction field with
  | nil => rfl
  | cons c rest hyp =>
    rw [List.mem_cons, not_or] at plain
    rw [unescape_cons_plain (fun same => plain.1 same.symm), hyp plain.2]
    rfl

theorem mem_render_i64 {value : Int64} {c : Char} (member : c ∈ renderI64 value) :
    c.isDigit = true ∨ c = '-' := by
  unfold renderI64 at member
  cases shape : value.toInt with
  | ofNat digits =>
    rw [shape] at member
    exact Or.inl (Nat.isDigit_of_mem_toDigits (by decide) (by decide) member)
  | negSucc digits =>
    rw [shape, Toml.renderInteger, List.mem_cons] at member
    cases member with
    | inl minus => exact Or.inr minus
    | inr inside => exact Or.inl (Nat.isDigit_of_mem_toDigits (by decide) (by decide) inside)

theorem not_mem_render_i64 {c : Char} (other : ¬ (c.isDigit = true ∨ c = '-')) (value : Int64) :
    c ∉ renderI64 value := fun member => other (mem_render_i64 member)

theorem parse_render_i64 (value : Int64) : parseI64 (renderI64 value) = some value := by
  obtain ⟨head, rest, shape, leading⟩ := Toml.render_integer_head value.toInt
  have notPlus : head ≠ '+' := by
    rintro rfl
    revert leading
    decide
  have signed : parseI64 (renderI64 value) = (Toml.parseSigned (renderI64 value)).bind fun n =>
      if -2 ^ 63 ≤ n ∧ n < 2 ^ 63 then some (Int64.ofInt n) else none := by
    unfold parseI64 renderI64
    rw [shape]
    split
    · next same => exact absurd (List.cons.inj same).1 notPlus
    · rfl
  have range : -2 ^ 63 ≤ value.toInt ∧ value.toInt < 2 ^ 63 := ⟨value.le_toInt, value.toInt_lt⟩
  rw [signed, renderI64, Toml.parse_signed_render, Option.bind_some, if_pos range, Int64.ofInt_toInt]

def stated : Option Int64 → Text
  | some value => renderI64 value
  | none => []

theorem stated_unsplit (value : Option Int64) : Unsplit (stated value) := by
  cases value with
  | none => exact ⟨List.not_mem_nil, List.not_mem_nil⟩
  | some value => exact ⟨not_mem_render_i64 (by decide) value, not_mem_render_i64 (by decide) value⟩

theorem unescape_stated (value : Option Int64) : unescape (stated value) = .ok (stated value) := by
  cases value with
  | none => rfl
  | some value => exact unescape_of_no_backslash (not_mem_render_i64 (by decide) value)

theorem int_field_stated (file : String) (line : Nat) (name : Text)
    (value : Option Int64) : intField debug file line name (stated value) = .ok value := by
  cases value with
  | none => rfl
  | some value =>
    obtain ⟨head, rest, shape, _⟩ := Toml.render_integer_head value.toInt
    have nonempty : renderI64 value ≠ [] := by
      rw [renderI64, shape]
      exact List.cons_ne_nil head rest
    rw [stated, intField, if_neg nonempty, parse_render_i64]

section Table

variable {Row Result : Type} (fieldsOf : Row → List Text)

/-- A header and a line of fields for each row, as both files are written. -/
def table (names : List Text) (rows : List Row) : Text :=
  ['\t'].intercalate names ++ ['\n'] ++ rows.flatMap fun row => ['\t'].intercalate (fieldsOf row) ++ ['\n']

theorem not_mem_intercalate {c : Char} {parts : List Text} (other : c ≠ '\t')
    (none : ∀ part ∈ parts, c ∉ part) : c ∉ ['\t'].intercalate parts := by
  induction parts with
  | nil => exact List.not_mem_nil
  | cons part rest hyp =>
    obtain ⟨first, later⟩ := List.forall_mem_cons.mp none
    cases rest with
    | nil => rwa [List.intercalate_singleton]
    | cons next rest =>
      rw [List.intercalate_cons_cons, List.mem_append, List.mem_append, List.mem_singleton]
      rintro ((inside | same) | inside)
      · exact first inside
      · exact other same
      · exact hyp later inside

theorem split_lines (lines : List Text) (whole : ∀ line ∈ lines, '\n' ∉ line) :
    (lines.flatMap (· ++ ['\n'])).splitOn '\n' = lines ++ [[]] := by
  induction lines with
  | nil => exact List.splitOn_nil _
  | cons line rest hyp =>
    obtain ⟨first, later⟩ := List.forall_mem_cons.mp whole
    rw [List.flatMap_cons, List.append_assoc, List.singleton_append,
      List.splitOn_append_cons_self_of_not_mem first, hyp later]
    rfl

variable {fieldsOf} {names : List Text} {rows : List Row}

theorem split_table (named : ∀ name ∈ names, Unsplit name)
    (unsplit : ∀ row ∈ rows, ∀ field ∈ fieldsOf row, Unsplit field) :
    (table fieldsOf names rows).splitOn '\n' =
      ['\t'].intercalate names :: (rows.map fun row => ['\t'].intercalate (fieldsOf row)) ++ [[]] := by
  have lines : table fieldsOf names rows =
      (['\t'].intercalate names :: rows.map fun row => ['\t'].intercalate (fieldsOf row)).flatMap
        (· ++ ['\n']) := by
    rw [table, List.flatMap_cons, List.flatMap_map]
  rw [lines, split_lines]
  intro line member
  cases List.mem_cons.mp member with
  | inl same =>
    rw [same]
    exact not_mem_intercalate (by decide) fun name inside => (named name inside).2
  | inr inside =>
    obtain ⟨row, listed, rfl⟩ := List.mem_map.mp inside
    exact not_mem_intercalate (by decide) fun field held => (unsplit row listed field held).2

theorem intercalate_ne_nil {parts : List Text} (several : 2 ≤ parts.length) :
    ['\t'].intercalate parts ≠ [] := by
  match parts, several with
  | first :: second :: rest, _ =>
    rw [List.intercalate_cons_cons]
    simp

theorem data_lines_table (named : ∀ name ∈ names, Unsplit name)
    (unsplit : ∀ row ∈ rows, ∀ field ∈ fieldsOf row, Unsplit field)
    (several : ∀ row ∈ rows, 2 ≤ (fieldsOf row).length) :
    dataLines (table fieldsOf names rows) =
      (rows.zipIdx 2).map fun entry => (entry.2, ['\t'].intercalate (fieldsOf entry.1)) := by
  rw [dataLines, split_table named unsplit, List.cons_append, List.zipIdx_cons, List.drop_one,
    List.tail_cons, List.zipIdx_append, List.filterMap_append, List.zipIdx_singleton]
  have last : ∀ n, List.filterMap (fun entry : Text × Nat =>
      if entry.1 = [] then none else some (entry.2, entry.1)) [([], n)] = [] := fun n => rfl
  rw [last, List.append_nil, List.zipIdx_map, List.filterMap_map]
  rw [← List.filterMap_eq_map]
  apply List.filterMap_congr
  intro entry member
  have listed : entry.1 ∈ rows := List.fst_mem_of_mem_zipIdx member
  simp only [Function.comp_apply, Prod.map_fst, Prod.map_snd, id_eq,
    if_neg (intercalate_ne_nil (several _ listed))]

theorem line_fields_row {file : String} {columns n : Nat} {fields values : List Text}
    (unsplit : ∀ field ∈ fields, Unsplit field) (width : fields.length = columns) (several : 2 ≤ columns)
    (unescaped : fields.mapM unescape = .ok values) :
    lineFields file columns n (['\t'].intercalate fields) = .ok values := by
  have nonempty : fields ≠ [] := by
    rintro rfl
    simp only [List.length_nil] at width
    omega
  have split : (['\t'].intercalate fields).splitOn '\t' = fields :=
    List.splitOn_intercalate _ (fun field inside => (unsplit field inside).1) nonempty
  rw [lineFields, split, if_neg (not_not_intro width)]
  clear unsplit width nonempty split
  induction fields generalizing values with
  | nil => exact unescaped
  | cons field rest hyp =>
    rw [List.mapM_cons] at unescaped
    obtain ⟨value, first, unescaped⟩ := Effects.bind_ok unescaped
    obtain ⟨others, later, same⟩ := Effects.bind_ok unescaped
    rw [List.mapM_cons, first, hyp later]
    exact same

/-- A table of unsplit fields reads back row by row, whatever the file and the type of its rows. -/
theorem parse_table {file : String} {required : List String}
    {row : List Text → Nat → List Text → Except String Result}
    {values : Row → List Text} {result : Row → Result}
    (named : ∀ name ∈ names, Unsplit name) (nonempty : names ≠ [])
    (present : ∀ name ∈ required, name.toList ∈ names)
    (unsplit : ∀ item ∈ rows, ∀ field ∈ fieldsOf item, Unsplit field)
    (several : 2 ≤ names.length) (width : ∀ item ∈ rows, (fieldsOf item).length = names.length)
    (unescaped : ∀ item ∈ rows, (fieldsOf item).mapM unescape = .ok (values item))
    (reads : ∀ item ∈ rows, ∀ n, row names n (values item) = .ok (result item)) :
    parseTable file required row (table fieldsOf names rows) = .ok (rows.map result) := by
  have header : ((table fieldsOf names rows).splitOn '\n').headD [] = ['\t'].intercalate names := by
    rw [split_table named unsplit]
    rfl
  have split : (['\t'].intercalate names).splitOn '\t' = names :=
    List.splitOn_intercalate _ (fun name inside => (named name inside).1) nonempty
  have columns : headerColumns file (['\t'].intercalate names) (required.map String.toList) = .ok names := by
    have all : (required.map String.toList).find? (fun name => !names.contains name) = none := by
      rw [List.find?_eq_none]
      intro name member
      obtain ⟨given, inside, rfl⟩ := List.mem_map.mp member
      simpa using present given inside
    rw [headerColumns, split, all]
  have wide : ∀ item ∈ rows, 2 ≤ (fieldsOf item).length := fun item member => by
    rw [width item member]
    exact several
  have line : ∀ entry ∈ rows.zipIdx 2,
      (lineFields file names.length entry.2 (['\t'].intercalate (fieldsOf entry.1)) >>= row names entry.2) =
        .ok (result entry.1) := by
    intro entry member
    have listed : entry.1 ∈ rows := List.fst_mem_of_mem_zipIdx member
    rw [line_fields_row (unsplit _ listed) (width _ listed) several (unescaped _ listed)]
    exact reads _ listed _
  have mapped := Effects.map_m_eq_ok line
  have results : ((rows.zipIdx 2).map fun entry => result entry.1) = rows.map result := by
    calc ((rows.zipIdx 2).map fun entry => result entry.1)
        = ((rows.zipIdx 2).map Prod.fst).map result := List.map_map.symm
      _ = rows.map result := by rw [List.zipIdx_map_fst]
  rw [results] at mapped
  simp only [parseTable, header, columns, split, data_lines_table named unsplit wide]
  rw [← mapped]
  exact List.mapM_map

end Table

section Units

variable (read : Text → Option Text) (debug : Text → String) (operatorForm : Bool) (r : IndexVersionRow)

def unitsNames : List Text := (if operatorForm then ["tenant".toList] else []) ++ unitsColumns

/-- What the row states of its slices: nothing without slices, no run where it is not known. -/
def statedSlices (value : Int64) : Option Int64 := if 0 < r.numSlices then some value else none

def statedRun (value : Int64) : Option Int64 :=
  if 0 < r.numSlices ∧ 0 < r.firstSlice ∧ 0 < r.lastSlice then some value else none

/-- The row a written row reads back as: `sealed_at` in its RFC 3339 form, the tenant only in the
operator's. -/
def readBackUnits : UnitsRow where
  tenant := if operatorForm then r.tenant else []
  unit := r.unit
  unitUuid := r.unitUuid
  version := r.version
  numSlices := statedSlices r r.numSlices
  firstSlice := statedRun r r.firstSlice
  lastSlice := statedRun r r.lastSlice
  versionBytes := statedSlices r r.versionBytes
  volume := r.volume
  volumeUuid := r.volumeUuid
  cartridgeSerial := r.cartridgeSerial
  generation := r.generation
  state := r.state.asStr
  sealedAt := rfc3339FromCatalog read r.sealedAt

/-- The row's fields; `put` is what becomes of a text. -/
def unitsFields (put : Text → Text) : List Text :=
  (if operatorForm then [put r.tenant] else []) ++
    [put r.unit, put r.unitUuid, stated (some r.version), stated (statedSlices r r.numSlices),
      stated (statedRun r r.firstSlice), stated (statedRun r r.lastSlice),
      stated (statedSlices r r.versionBytes), put r.volume, put r.volumeUuid, put r.cartridgeSerial,
      put r.generation, put r.state.asStr, put (rfc3339FromCatalog read r.sealedAt)]

theorem write_units_row_eq : writeUnitsRow read operatorForm r =
    ['\t'].intercalate (unitsFields read operatorForm r escape) ++ ['\n'] := by
  unfold writeUnitsRow unitsFields statedSlices statedRun
  by_cases sliced : 0 < r.numSlices
  · by_cases run : 0 < r.firstSlice ∧ 0 < r.lastSlice
    · cases operatorForm <;> simp [sliced, run, stated, List.intercalate_cons_cons]
    · cases operatorForm <;> simp [sliced, run, stated, List.intercalate_cons_cons]
  · cases operatorForm <;> simp [sliced, stated, List.intercalate_cons_cons]

theorem write_units_table (rows : List IndexVersionRow) : writeUnits read operatorForm rows =
    table (unitsFields read operatorForm · escape) (unitsNames operatorForm) rows := by
  have lines : writeUnitsRow read operatorForm =
      fun row => ['\t'].intercalate (unitsFields read operatorForm row escape) ++ ['\n'] :=
    funext (write_units_row_eq read operatorForm)
  rw [writeUnits, table, lines]
  cases operatorForm <;> rfl

theorem units_fields_unsplit : ∀ field ∈ unitsFields read operatorForm r escape, Unsplit field := by
  unfold unitsFields
  cases operatorForm <;> simp [escape_unsplit, stated_unsplit]

theorem unescape_units_fields :
    (unitsFields read operatorForm r escape).mapM unescape = .ok (unitsFields read operatorForm r id) := by
  unfold unitsFields
  cases operatorForm <;> simp [unescape_escape, unescape_stated] <;> rfl

theorem columns_tenant_form :
    column (unitsNames false) "tenant".toList = none ∧
    column (unitsNames false) "unit".toList = some 0 ∧
    column (unitsNames false) "unit_uuid".toList = some 1 ∧
    column (unitsNames false) "version".toList = some 2 ∧
    column (unitsNames false) "num_slices".toList = some 3 ∧
    column (unitsNames false) "first_slice".toList = some 4 ∧
    column (unitsNames false) "last_slice".toList = some 5 ∧
    column (unitsNames false) "version_bytes".toList = some 6 ∧
    column (unitsNames false) "volume".toList = some 7 ∧
    column (unitsNames false) "volume_uuid".toList = some 8 ∧
    column (unitsNames false) "cartridge_serial".toList = some 9 ∧
    column (unitsNames false) "generation".toList = some 10 ∧
    column (unitsNames false) "state".toList = some 11 ∧
    column (unitsNames false) "sealed_at".toList = some 12 := by
  decide +kernel

theorem columns_operator_form :
    column (unitsNames true) "tenant".toList = some 0 ∧
    column (unitsNames true) "unit".toList = some 1 ∧
    column (unitsNames true) "unit_uuid".toList = some 2 ∧
    column (unitsNames true) "version".toList = some 3 ∧
    column (unitsNames true) "num_slices".toList = some 4 ∧
    column (unitsNames true) "first_slice".toList = some 5 ∧
    column (unitsNames true) "last_slice".toList = some 6 ∧
    column (unitsNames true) "version_bytes".toList = some 7 ∧
    column (unitsNames true) "volume".toList = some 8 ∧
    column (unitsNames true) "volume_uuid".toList = some 9 ∧
    column (unitsNames true) "cartridge_serial".toList = some 10 ∧
    column (unitsNames true) "generation".toList = some 11 ∧
    column (unitsNames true) "state".toList = some 12 ∧
    column (unitsNames true) "sealed_at".toList = some 13 := by
  decide +kernel

theorem units_row_fields (file : String) (n : Nat) :
    unitsRow debug file (unitsNames operatorForm) n (unitsFields read operatorForm r id) =
      .ok (readBackUnits read operatorForm r) := by
  cases operatorForm with
  | false =>
    simp only [unitsRow, requiredInt, intOf, textOf, columns_tenant_form, unitsFields, readBackUnits, id,
      List.nil_append, List.getD_cons_zero, List.getD_cons_succ, Option.map_some, Option.map_none,
      Option.getD_some, Option.getD_none, int_field_stated, Bool.false_eq_true, if_false]
    rfl
  | true =>
    simp only [unitsRow, requiredInt, intOf, textOf, columns_operator_form, unitsFields, readBackUnits, id,
      List.singleton_append, List.getD_cons_zero, List.getD_cons_succ, Option.map_some,
      Option.getD_some, int_field_stated, if_true]
    rfl

theorem units_read_back (rows : List IndexVersionRow) :
    parseUnits debug (writeUnits read operatorForm rows) =
      .ok (rows.map (readBackUnits read operatorForm)) := by
  rw [write_units_table]
  apply parse_table
  · cases operatorForm <;> decide
  · cases operatorForm <;> decide
  · cases operatorForm <;> decide
  · exact fun row _ => units_fields_unsplit read operatorForm row
  · cases operatorForm <;> decide
  · intro row _
    cases operatorForm <;> rfl
  · exact fun row _ => unescape_units_fields read operatorForm row
  · exact fun row _ n => units_row_fields read debug operatorForm row _ n

end Units

section Paths

variable (debug : Text → String) (v : ListedVersion) (row : FileRow)

def kindText (kind : Int64) : Text :=
  match kindLetter kind with
  | .ok letter => [letter]
  | .error _ => []

/-- The hash of a regular file with 32 bytes recorded, in hexadecimal. -/
def recordedHash : Text :=
  match row.sha256 with
  | some bytes => if row.kind = 1 ∧ bytes.length = 32 then writeHex bytes else []
  | none => []

def readBackPath : PathsRow where
  unit := v.unit
  version := v.version
  kind := kindText row.kind
  sizeBytes := some row.sizeBytes
  sha256 := recordedHash row
  path := row.path

def pathFields (put : Text → Text) : List Text :=
  [put v.unit, stated (some v.version), kindText row.kind, stated (some row.sizeBytes), recordedHash row,
    put row.path]

variable {kind : Int64} {versions : List ListedVersion}

theorem kind_letter_ok {letter : Char} (ok : kindLetter kind = .ok letter) :
    kind = 0 ∧ letter = 'd' ∨ kind = 1 ∧ letter = 'f' ∨ kind = 2 ∧ letter = 'l' ∨
      kind = 3 ∧ letter = 's' := by
  unfold kindLetter at ok
  split_ifs at ok with directory file link special
  · exact .inl ⟨directory, (Except.ok.inj ok).symm⟩
  · exact .inr (.inl ⟨file, (Except.ok.inj ok).symm⟩)
  · exact .inr (.inr (.inl ⟨link, (Except.ok.inj ok).symm⟩))
  · exact .inr (.inr (.inr ⟨special, (Except.ok.inj ok).symm⟩))

theorem letter_f_iff {letter : Char} (ok : kindLetter kind = .ok letter) :
    letter = 'f' ↔ kind = 1 := by
  rcases kind_letter_ok ok with ⟨rfl, rfl⟩ | ⟨rfl, rfl⟩ | ⟨rfl, rfl⟩ | ⟨rfl, rfl⟩ <;> decide

theorem kind_text_plain (kind : Int64) : ∀ c ∈ kindText kind, c ∈ ['d', 'f', 'l', 's'] := by
  intro c member
  unfold kindText at member
  split at member
  · next letter ok =>
      rw [List.mem_singleton] at member
      subst member
      rcases kind_letter_ok ok with ⟨_, rfl⟩ | ⟨_, rfl⟩ | ⟨_, rfl⟩ | ⟨_, rfl⟩ <;> decide
  · exact absurd member List.not_mem_nil

theorem hex_digit_plain (value : Nat) : hexDigit value ∈ "0123456789abcdef".toList := by
  by_cases inside : value < "0123456789abcdef".toList.length
  · rw [hexDigit, List.getD_eq_getElem _ _ inside]
    exact List.getElem_mem inside
  · rw [hexDigit, List.getD_eq_default _ _ (not_lt.mp inside)]
    decide

theorem recorded_hash_plain : ∀ c ∈ recordedHash row, c ∈ "0123456789abcdef".toList := by
  intro c member
  unfold recordedHash at member
  split at member
  · split_ifs at member
    · obtain ⟨byte, _, digit⟩ := List.mem_flatMap.mp member
      simp only [List.mem_cons, List.not_mem_nil, or_false] at digit
      rcases digit with rfl | rfl
      · exact hex_digit_plain _
      · exact hex_digit_plain _
    · exact absurd member List.not_mem_nil
  · exact absurd member List.not_mem_nil

theorem recorded_hash_ne_nil : recordedHash row ≠ [] ↔
    row.kind = 1 ∧ ∃ bytes, row.sha256 = some bytes ∧ bytes.length = 32 := by
  unfold recordedHash
  split
  · next bytes held =>
      split_ifs with regular
      · have nonempty : writeHex bytes ≠ [] := by
          match bytes, regular.2 with
          | byte :: rest, _ => exact List.cons_ne_nil _ _
        exact ⟨fun _ => ⟨regular.1, bytes, held, regular.2⟩, fun _ => nonempty⟩
      · constructor
        · exact fun absent => absurd rfl absent
        · rintro ⟨kind, other, same, long⟩
          rw [held, Option.some.injEq] at same
          exact absurd ⟨kind, same ▸ long⟩ regular
  · next none =>
      constructor
      · exact fun absent => absurd rfl absent
      · rintro ⟨_, other, same, _⟩
        rw [none] at same
        cases same

theorem unsplit_of_plain {field allowed : Text} (plain : ∀ c ∈ field, c ∈ allowed)
    (free : Unsplit allowed) : Unsplit field :=
  ⟨fun member => free.1 (plain _ member), fun member => free.2 (plain _ member)⟩

theorem path_fields_unsplit : ∀ field ∈ pathFields v row escape, Unsplit field := by
  have kind := unsplit_of_plain (kind_text_plain row.kind) (by decide)
  have hash := unsplit_of_plain (recorded_hash_plain row) (by decide)
  simp [pathFields, escape_unsplit, stated_unsplit, kind, hash]

theorem unescape_path_fields : (pathFields v row escape).mapM unescape = .ok (pathFields v row id) := by
  have kind : unescape (kindText row.kind) = .ok (kindText row.kind) :=
    unescape_of_no_backslash fun member => absurd (kind_text_plain _ _ member) (by decide)
  have hash : unescape (recordedHash row) = .ok (recordedHash row) :=
    unescape_of_no_backslash fun member => absurd (recorded_hash_plain _ _ member) (by decide)
  simp only [pathFields, List.mapM_cons, List.mapM_nil, unescape_escape, unescape_stated, kind, hash]
  rfl

theorem columns_paths :
    column pathsColumns "unit".toList = some 0 ∧ column pathsColumns "version".toList = some 1 ∧
    column pathsColumns "kind".toList = some 2 ∧ column pathsColumns "size_bytes".toList = some 3 ∧
    column pathsColumns "sha256".toList = some 4 ∧ column pathsColumns "path".toList = some 5 := by
  decide +kernel

theorem paths_row_fields (file : String) (n : Nat) :
    pathsRow debug file pathsColumns n (pathFields v row id) = .ok (readBackPath v row) := by
  simp only [pathsRow, requiredInt, textOf, columns_paths, pathFields, readBackPath, id,
    List.getD_cons_zero, List.getD_cons_succ, Option.map_some, Option.getD_some, int_field_stated]
  rfl

theorem write_path_row_eq {kind : Char} (ok : kindLetter row.kind = .ok kind) :
    writePathRow v kind row = ['\t'].intercalate (pathFields v row escape) ++ ['\n'] := by
  have letter : kindText row.kind = [kind] := by rw [kindText, ok]
  have hash : statedHash kind row.sha256 = recordedHash row := by
    unfold statedHash recordedHash
    simp only [letter_f_iff ok]
  simp [writePathRow, pathFields, letter, hash, stated, List.intercalate_cons_cons]

theorem write_version_paths_ok {previous : Option Text} {rows : List FileRow} {text : Text}
    (ok : writeVersionPaths debug v previous rows = .ok text) :
    text = rows.flatMap fun row => ['\t'].intercalate (pathFields v row escape) ++ ['\n'] := by
  induction rows generalizing previous text with
  | nil => exact (Except.ok.inj ok).symm
  | cons row rest hyp =>
    obtain ⟨kind, letter, ok⟩ := Effects.bind_ok ok
    obtain ⟨_, _, ok⟩ := Effects.bind_ok ok
    obtain ⟨later, tail, same⟩ := Effects.bind_ok ok
    cases same
    rw [List.flatMap_cons, ← write_path_row_eq v row letter, ← hyp tail]

/-- What `VERSION_PATHS_SQL` returns: kinds the column's check admits, each path once and in order. -/
structure ListedVersion.Ordered : Prop where
  kinds : ∀ row ∈ v.rows, row.kind = 0 ∨ row.kind = 1 ∨ row.kind = 2 ∨ row.kind = 3
  paths : v.rows.Pairwise fun before after => encodeUtf8 before.path < encodeUtf8 after.path

theorem kind_letter_total (known : kind = 0 ∨ kind = 1 ∨ kind = 2 ∨ kind = 3) :
    ∃ letter, kindLetter kind = .ok letter := by
  rcases known with rfl | rfl | rfl | rfl
  · exact ⟨'d', rfl⟩
  · exact ⟨'f', rfl⟩
  · exact ⟨'l', rfl⟩
  · exact ⟨'s', rfl⟩

theorem write_version_paths_total {previous : Option Text} {rows : List FileRow}
    (kinds : ∀ row ∈ rows, row.kind = 0 ∨ row.kind = 1 ∨ row.kind = 2 ∨ row.kind = 3)
    (paths : rows.Pairwise fun before after => encodeUtf8 before.path < encodeUtf8 after.path)
    (after : ∀ before ∈ previous, ∀ row ∈ rows, encodeUtf8 before < encodeUtf8 row.path) :
    ∃ text, writeVersionPaths debug v previous rows = .ok text := by
  induction rows generalizing previous with
  | nil => exact ⟨[], rfl⟩
  | cons row rest hyp =>
    obtain ⟨known, others⟩ := List.forall_mem_cons.mp kinds
    obtain ⟨below, ordered⟩ := List.pairwise_cons.mp paths
    obtain ⟨letter, named⟩ := kind_letter_total known
    have next : ∀ before ∈ some row.path, ∀ row ∈ rest, encodeUtf8 before < encodeUtf8 row.path := by
      intro before same
      rw [← Option.some.inj same]
      exact below
    obtain ⟨text, later⟩ := hyp others ordered next
    have order : checkOrder debug v row.path previous = .ok () := by
      cases previous with
      | none => rfl
      | some before => exact if_pos (after before rfl row List.mem_cons_self)
    exact ⟨writePathRow v letter row ++ text, by rw [writeVersionPaths, named, order, later]; rfl⟩

theorem write_paths_table {text : Text} (ok : writePaths debug versions = .ok text) :
    text = table (fun entry : ListedVersion × FileRow => pathFields entry.1 entry.2 escape) pathsColumns
      (versions.flatMap fun v => v.rows.map (v, ·)) := by
  obtain ⟨texts, mapped, same⟩ := Effects.bind_ok ok
  cases same
  have lines : texts.flatten = versions.flatMap fun v => v.rows.flatMap fun row =>
      ['\t'].intercalate (pathFields v row escape) ++ ['\n'] := by
    have each := Effects.map_m_ok mapped
    clear mapped ok
    induction each with
    | nil => rfl
    | cons written _ hyp =>
      rw [List.flatten_cons, List.flatMap_cons, hyp, write_version_paths_ok debug _ written]
  rw [lines, table, List.flatMap_assoc]
  simp only [List.flatMap_map]
  rfl

theorem paths_read_back {text : Text} (ok : writePaths debug versions = .ok text) :
    parsePaths debug text = .ok (versions.flatMap fun v => v.rows.map (readBackPath v)) := by
  rw [write_paths_table debug ok]
  have rows : (versions.flatMap fun v => v.rows.map (readBackPath v)) =
      (versions.flatMap fun v => v.rows.map (v, ·)).map fun entry => readBackPath entry.1 entry.2 := by
    simp only [List.map_flatMap, List.map_map]
    rfl
  rw [rows]
  apply parse_table
  · decide
  · decide
  · decide
  · exact fun entry _ => path_fields_unsplit entry.1 entry.2
  · decide
  · exact fun _ _ => rfl
  · exact fun entry _ => unescape_path_fields entry.1 entry.2
  · exact fun entry _ n => paths_row_fields debug entry.1 entry.2 _ n

theorem write_paths_total (ordered : ∀ v ∈ versions, v.Ordered) :
    ∃ text, writePaths debug versions = .ok text := by
  obtain ⟨texts, mapped⟩ := Effects.map_m_total fun v member =>
    write_version_paths_total debug v (ordered v member).kinds (ordered v member).paths
      (fun _ absent => absurd absent (Option.not_mem_none _))
  exact ⟨_, by rw [writePaths, mapped]; rfl⟩

end Paths

/-- The index reads back row for row. A timestamp is read back as the RFC 3339 text it was written as;
every other text, and every number, is the row's own, with the slice figures absent where they are not
known and a hash exactly where a regular file recorded one. -/
theorem index_reads_back (read : Text → Option Text) (debug : Text → String) :
    (∀ operatorForm rows, parseUnits debug (writeUnits read operatorForm rows) =
      .ok (rows.map (readBackUnits read operatorForm))) ∧
    (∀ versions text, writePaths debug versions = .ok text →
      parsePaths debug text = .ok (versions.flatMap fun v => v.rows.map (readBackPath v))) ∧
    (∀ versions, (∀ v ∈ versions, v.Ordered) → ∃ text, writePaths debug versions = .ok text) ∧
    ∀ v row, (readBackPath v row).sha256 ≠ [] ↔
      row.kind = 1 ∧ ∃ bytes, row.sha256 = some bytes ∧ bytes.length = 32 :=
  ⟨units_read_back read debug, fun _ _ => paths_read_back debug, fun _ => write_paths_total debug,
    fun _ => recorded_hash_ne_nil⟩

def catalogTime (text : Text) : Option Text :=
  if text = "2026-10-01 10:00:00".toList then some "2026-10-01T10:00:00Z".toList else none

def sealedRow : IndexVersionRow where
  tenantId := 1
  tenant := "lab\tone".toList
  unitId := 1
  unit := "runs\\".toList
  unitUuid := "u-1".toList
  snapshotId := 1
  version := 2
  numSlices := 3
  versionBytes := 4096
  firstSlice := 1
  lastSlice := 3
  volume := "L6-0001".toList
  volumeUuid := []
  cartridgeSerial := []
  generation := "LTO-6".toList
  state := .sealed
  sealedAt := "2026-10-01 10:00:00".toList

def listedVersion : ListedVersion where
  unit := "runs\\".toList
  version := 2
  rows := [⟨0, 0, "a\tb".toList, none⟩, ⟨1, 7, "a\tb/c\n".toList, some (List.replicate 32 171)⟩]

theorem index_reads_back_two_paths :
    parseUnits String.ofList (writeUnits catalogTime false [sealedRow]) =
      .ok [readBackUnits catalogTime false sealedRow] ∧
    ∃ text, writePaths String.ofList [listedVersion] = .ok text ∧
      parsePaths String.ofList text = .ok (listedVersion.rows.map (readBackPath listedVersion)) := by
  obtain ⟨units, paths, total, _⟩ := index_reads_back catalogTime String.ofList
  have ordered : listedVersion.Ordered := ⟨by decide, by decide⟩
  obtain ⟨text, written⟩ := total [listedVersion] (by
    intro v member
    rw [List.mem_singleton.mp member]
    exact ordered)
  exact ⟨units false [sealedRow], text, written, paths [listedVersion] text written⟩

/-- The text of `sealed_at` does not come back: the file states its RFC 3339 form. -/
theorem sealed_at_reads_back_rewritten :
    ∃ row, parseUnits String.ofList (writeUnits catalogTime true [sealedRow]) = .ok [row] ∧
      row.sealedAt = "2026-10-01T10:00:00Z".toList ∧ row.sealedAt ≠ sealedRow.sealedAt :=
  ⟨_, units_read_back catalogTime String.ofList true [sealedRow], by decide, by decide⟩

end Tapectl.Volume.Index
