import Tapectl.Library.Toml

/-!
# Parsers of the on-tape documents

A transcription of `volume/format.rs`: the plaintext front index (File 3), the seal marker (the
last file) and the ID thunk (File 0), from the text a tape read decodes to. The TOML library is
the parameter `crate`; every check around it, its order, its narrowing casts and its messages are
the source's.
-/

namespace Tapectl.Volume.Format

open StoredText

/-- `as i32` on an `i64`, and on a list index. -/
def asI32 (value : Int) : Int := Int.bmod value (2 ^ 32)

/-- `as u32` on an `i32`. -/
def asU32 (value : Int) : Nat := (value % 2 ^ 32).toNat

/-- `as u64` on an `i64`. -/
def asU64 (value : Int) : Nat := (value % 2 ^ 64).toNat

/-- `u64::try_from`. -/
def tryU64 (value : Int) : Option Nat := if 0 ≤ value then some value.toNat else none

def cargoPkgVersion : String := "1.9.0"

structure ParsedIndexEntry where
  position : Int
  typeLabel : String
  sizeBytes : Option Nat
  sha256Encrypted : Option String
  deriving DecidableEq, Repr

structure ParsedSeal where
  volume : String
  layoutVersion : Int
  fileCount : Int
  endedAfter : Option Nat
  sealedAt : String
  frontIndexSha256 : String
  requires : List String
  files : List ParsedIndexEntry
  deriving DecidableEq, Repr

def layoutVersion : Int := 2
def magic : String := "tapectl-volume-v2"
def shortSeal : String := "short-seal"
def spanning : String := "spanning"
def knownFeatures : List String := [shortSeal, spanning]

structure FormatClaims where
  magic : Option String
  layoutVersion : Option Int
  requires : List String
  tapectlVersion : Option String
  deriving DecidableEq, Repr

/-- `{:?}` of one character of a string. -/
def escapeDebug (c : Char) : String :=
  if c = '"' then "\\\""
  else if c = '\\' then "\\\\"
  else if c = '\n' then "\\n"
  else if c = '\r' then "\\r"
  else if c = '\t' then "\\t"
  else if c.toNat = 0 then "\\0"
  else String.singleton c

def debugString (text : String) : String :=
  "\"" ++ String.join (text.toList.map escapeDebug) ++ "\""

def debugStrings (items : List String) : String :=
  "[" ++ ", ".intercalate (items.map debugString) ++ "]"

def FormatClaims.refusal (claims : FormatClaims) (what : String) : Option String :=
  let ours := cargoPkgVersion
  let wanted := Format.magic
  let reads := Format.layoutVersion
  let writer := match claims.tapectlVersion with
    | some version => s!" (it was written by tapectl {version})"
    | none => ""
  let unknown := claims.requires.filter fun feature => !knownFeatures.contains feature
  let badMagic := match claims.magic with
    | some stated => if stated ≠ wanted then some stated else none
    | none => none
  let badLayout := match claims.layoutVersion with
    | some stated => if stated ≠ reads then some stated else none
    | none => none
  match badMagic, badLayout with
  | some stated, _ =>
    some (s!"{what} says magic = \"{stated}\", not \"{wanted}\": this tapectl ({ours}) " ++
      s!"cannot read it{writer}. Read it with a newer tapectl, or with the " ++
      "RESTORE.sh at the tape's own file 2")
  | none, some stated =>
    some (s!"{what} says layout_version = {stated}: this tapectl ({ours}) reads layout " ++
      s!"{reads} only{writer}. Read it with a newer tapectl, or with the " ++
      "RESTORE.sh at the tape's own file 2")
  | none, none =>
    if unknown ≠ [] then
      let named := ", ".intercalate (unknown.map fun feature => s!"\"{feature}\"")
      let stated := debugStrings claims.requires
      some (s!"this tape requires {named} that this tapectl ({ours}) does not know ({what} " ++
        s!"states requires = {stated}){writer}: it needs a newer tapectl, or the RESTORE.sh " ++
        "at the tape's own file 2. Nothing has been read past it")
    else none

def ParsedSeal.refusal (sealed : ParsedSeal) : Option String :=
  FormatClaims.refusal
    { magic := none
      layoutVersion := some sealed.layoutVersion
      requires := sealed.requires
      tapectlVersion := none } "the seal marker"

def ParsedSeal.requiresShortSeal (sealed : ParsedSeal) : Bool :=
  sealed.requires.any fun feature => feature == shortSeal

/-- The last file before the seal, also on a seal that does not state it. -/
def ParsedSeal.effectiveEndedAfter (sealed : ParsedSeal) : Option Nat :=
  match sealed.endedAfter with
  | some position => some position
  | none => (tryU64 sealed.fileCount).bind fun count =>
    if 2 ≤ count then some (count - 2) else none

inductive ConsistencyViolation where
  | positionOutOfSequence (index : Nat) (expected actual : Int)
  | frontIndexCount (found : Nat)
  | frontIndexNotAtThree (position : Int)
  | sealMarkerCount (found : Nat)
  | sealMarkerNotLast (position : Int) (lastIndex : Nat)
  | missingSize (position : Int)
  | missingHash (position : Int)
  deriving DecidableEq, Repr

def ConsistencyViolation.display : ConsistencyViolation → String
  | .positionOutOfSequence index expected actual =>
    s!"entry {index} claims position {actual}, expected {expected} " ++
      "(positions must run 0, 1, 2, … with no gaps)"
  | .frontIndexCount found => s!"{found} front_index entries (exactly one is required)"
  | .frontIndexNotAtThree position =>
    s!"the front_index entry is at position {position}, not position 3"
  | .sealMarkerCount found => s!"{found} seal_marker entries (exactly one is required)"
  | .sealMarkerNotLast position lastIndex =>
    s!"the seal_marker entry is at position {position}, not the last " ++
      s!"position ({lastIndex})"
  | .missingSize position => s!"position {position} carries no size_bytes"
  | .missingHash position => s!"position {position} carries no sha256_encrypted"

def sequenceViolations : Nat → List ParsedIndexEntry → List ConsistencyViolation
  | _, [] => []
  | index, entry :: entries =>
    (if entry.position ≠ asI32 index then
      [.positionOutOfSequence index (asI32 index) entry.position] else []) ++
    sequenceViolations (index + 1) entries

def ofType (label : String) (entries : List ParsedIndexEntry) : List ParsedIndexEntry :=
  entries.filter fun entry => entry.typeLabel == label

def frontIndexViolations (entries : List ParsedIndexEntry) : List ConsistencyViolation :=
  match ofType "front_index" entries with
  | [entry] => if entry.position ≠ 3 then [.frontIndexNotAtThree entry.position] else []
  | found => [.frontIndexCount found.length]

def sealMarkerViolations (entries : List ParsedIndexEntry) : List ConsistencyViolation :=
  let lastIndex := entries.length - 1
  match ofType "seal_marker" entries with
  | [entry] =>
    if entry.position ≠ asI32 lastIndex then [.sealMarkerNotLast entry.position lastIndex]
    else []
  | found => [.sealMarkerCount found.length]

/-- The two plaintext tail files carry neither size nor hash in the front index. -/
def isSelfReferential (entry : ParsedIndexEntry) : Bool :=
  entry.typeLabel == "front_index" || entry.typeLabel == "seal_marker"

def completenessViolations (entry : ParsedIndexEntry) : List ConsistencyViolation :=
  (if !isSelfReferential entry && entry.sizeBytes.isNone then
    [.missingSize entry.position] else []) ++
  (if !isSelfReferential entry && entry.sha256Encrypted.isNone then
    [.missingHash entry.position] else [])

def validateConsistency (entries : List ParsedIndexEntry) : List ConsistencyViolation :=
  sequenceViolations 0 entries ++ frontIndexViolations entries ++ sealMarkerViolations entries ++
    entries.flatMap completenessViolations

/-! What the checks come to when they find nothing. -/

theorem as_i32_of_lt {value : Int} (low : -2 ^ 31 ≤ value) (high : value < 2 ^ 31) :
    asI32 value = value :=
  Int.bmod_eq_of_le_mul_two (by omega) (by omega)

structure Consistent (entries : List ParsedIndexEntry) : Prop where
  sequence : ∀ (index : Nat) entry, entries[index]? = some entry → entry.position = asI32 index
  frontIndex : ∃ entry, ofType "front_index" entries = [entry] ∧ entry.position = 3
  sealMarker : ∃ entry, ofType "seal_marker" entries = [entry] ∧
    entry.position = asI32 (entries.length - 1 : Nat)
  complete : ∀ entry ∈ entries, isSelfReferential entry = false →
    entry.sizeBytes.isSome = true ∧ entry.sha256Encrypted.isSome = true

variable {entries : List ParsedIndexEntry} {crate : Crate}

theorem sequence_violations_nil {start : Nat} :
    sequenceViolations start entries = [] ↔
      ∀ (index : Nat) entry, entries[index]? = some entry →
        entry.position = asI32 (start + index : Nat) := by
  induction entries generalizing start with
  | nil => simp [sequenceViolations]
  | cons head entries ih =>
    simp only [sequenceViolations, List.append_eq_nil_iff, ih]
    constructor
    · rintro ⟨first, rest⟩ index entry found
      cases index with
      | zero =>
        simp only [List.getElem?_cons_zero, Option.some.injEq] at found
        subst found
        by_contra different
        rw [if_pos (by simpa using different)] at first
        cases first
      | succ index =>
        have placed := rest index entry (by simpa using found)
        rw [placed, Nat.add_assoc, Nat.add_comm 1 index]
    · intro placed
      refine ⟨?_, ?_⟩
      · have first := placed 0 head (by simp)
        simp only [Nat.add_zero] at first
        rw [if_neg (by simpa using first)]
      · intro index entry found
        have later := placed (index + 1) entry (by simpa using found)
        rw [later, Nat.add_assoc, Nat.add_comm 1 index]

theorem front_index_violations_nil :
    frontIndexViolations entries = [] ↔
      ∃ entry, ofType "front_index" entries = [entry] ∧ entry.position = 3 := by
  unfold frontIndexViolations
  split
  · next entry single =>
      by_cases three : entry.position = 3 <;> simp [three, single]
  · next found other =>
      simp only [List.cons_ne_self, false_iff]
      rintro ⟨entry, single, _⟩
      exact other entry single

theorem seal_marker_violations_nil :
    sealMarkerViolations entries = [] ↔
      ∃ entry, ofType "seal_marker" entries = [entry] ∧
        entry.position = asI32 (entries.length - 1 : Nat) := by
  unfold sealMarkerViolations
  simp only
  split
  · next entry single =>
      by_cases last : entry.position = asI32 (entries.length - 1 : Nat) <;> simp [last, single]
  · next found other =>
      simp only [reduceCtorEq, false_iff]
      rintro ⟨entry, single, _⟩
      exact other entry single

theorem completeness_violations_nil {entry : ParsedIndexEntry} :
    completenessViolations entry = [] ↔ (isSelfReferential entry = false →
      entry.sizeBytes.isSome = true ∧ entry.sha256Encrypted.isSome = true) := by
  unfold completenessViolations
  cases isSelfReferential entry <;> cases entry.sizeBytes <;> cases entry.sha256Encrypted <;> simp

theorem validate_consistency_nil :
    validateConsistency entries = [] ↔ Consistent entries := by
  simp only [validateConsistency, List.append_eq_nil_iff, sequence_violations_nil,
    front_index_violations_nil, seal_marker_violations_nil, List.flatMap_eq_nil_iff,
    completeness_violations_nil, Nat.zero_add]
  constructor
  · rintro ⟨⟨⟨sequence, frontIndex⟩, sealMarker⟩, complete⟩
    exact ⟨sequence, frontIndex, sealMarker, complete⟩
  · rintro ⟨sequence, frontIndex, sealMarker, complete⟩
    exact ⟨⟨⟨sequence, frontIndex⟩, sealMarker⟩, complete⟩

inductive SealRuleViolation where
  | endedAfterNotFileCountLessTwo (endedAfter fileCount : Int)
  | missingEndedAfter
  | entryCount (entries : Nat) (fileCount : Int)
  | inconsistent (violations : List ConsistencyViolation)
  | endedAfterNotDataSlice (endedAfter : Nat) (found : Option String)
  deriving DecidableEq, Repr

def SealRuleViolation.display : SealRuleViolation → String
  | .endedAfterNotFileCountLessTwo endedAfter fileCount =>
    s!"rule S1: it states ended_after = {endedAfter} and file_count = {fileCount}; " ++
      "ended_after must be a non-negative integer two less than file_count"
  | .missingEndedAfter => s!"rule S2: it requires \"{shortSeal}\" but states no ended_after"
  | .entryCount entries fileCount =>
    s!"rule S4: its copy of the front index has {entries} entries, but it states " ++
      s!"file_count = {fileCount}"
  | .inconsistent violations =>
    let listed := "; ".intercalate (violations.map ConsistencyViolation.display)
    s!"rule S4: its copy of the front index is inconsistent: {listed}"
  | .endedAfterNotDataSlice endedAfter (some kind) =>
    s!"rule S5: the file before it (position {endedAfter}) is a {kind}, not a " ++ "data slice"
  | .endedAfterNotDataSlice endedAfter none =>
    "rule S5: its copy of the front index has no entry at position " ++
      s!"{endedAfter}, the file before it"

/-- `u64::checked_add`. -/
def checkedAddU64 (left right : Nat) : Option Nat :=
  if left + right < 2 ^ 64 then some (left + right) else none

/-- `i64::try_from(u64).unwrap_or(i64::MAX)`. -/
def saturatingI64 (value : Nat) : Int := if value < 2 ^ 63 then value else 2 ^ 63 - 1

def ParsedSeal.checkParseRules (sealed : ParsedSeal) : Except SealRuleViolation Unit :=
  let brokenS1 : Option SealRuleViolation := match sealed.endedAfter with
    | some position =>
      if checkedAddU64 position 2 ≠ tryU64 sealed.fileCount then
        some (.endedAfterNotFileCountLessTwo (saturatingI64 position) sealed.fileCount)
      else none
    | none => none
  let violations := validateConsistency sealed.files
  let endedAfter := sealed.effectiveEndedAfter
  let found := (endedAfter.bind fun position => sealed.files[position]?).map (·.typeLabel)
  if sealed.requiresShortSeal && sealed.endedAfter.isNone then .error .missingEndedAfter
  else match brokenS1 with
    | some rule => .error rule
    | none =>
      if (sealed.files.length : Int) ≠ sealed.fileCount then
        .error (.entryCount sealed.files.length sealed.fileCount)
      else if violations ≠ [] then .error (.inconsistent violations)
      else if found ≠ some "data_slice" then
        .error (.endedAfterNotDataSlice (endedAfter.getD 0) found)
      else .ok ()

inductive SealEnding where
  | full
  | short (endedAfter : Nat)
  | disagrees (sealFileCount : Int) (plannedFileCount : Nat)
  deriving DecidableEq, Repr

def classifySealEnding (sealed : ParsedSeal) (plannedFileCount : Nat) : SealEnding :=
  let disagrees := SealEnding.disagrees sealed.fileCount plannedFileCount
  match tryU64 sealed.fileCount with
  | none => disagrees
  | some count =>
    if count = plannedFileCount then .full
    else if count < plannedFileCount then
      match sealed.effectiveEndedAfter with
      | some endedAfter => .short endedAfter
      | none => disagrees
    else disagrees

open Toml (Table Crate)

structure FileEntryToml where
  position : Int
  typeLabel : String
  sizeBytes : Option Int
  sha256Encrypted : Option String
  deriving DecidableEq, Repr

variable (table : Table)

def FileEntryToml.decode : Option FileEntryToml := do
  let position ← table.requireInteger "position"
  let typeLabel ← table.requireString "type"
  let sizeBytes ← table.optionalInteger "size_bytes"
  let sha256Encrypted ← table.optionalString "sha256_encrypted"
  some { position, typeLabel, sizeBytes, sha256Encrypted }

def FileEntryToml.toParsed (entry : FileEntryToml) : ParsedIndexEntry where
  position := asI32 entry.position
  typeLabel := entry.typeLabel
  sizeBytes := entry.sizeBytes.map asU64
  sha256Encrypted := entry.sha256Encrypted

def decodeFiles : Option (List FileEntryToml) := do
  let files ← table.tablesOrEmpty "files"
  files.mapM FileEntryToml.decode

structure FrontIndexDoc where
  volume : String
  layoutVersion : Int
  mayEndEarly : Bool
  files : List FileEntryToml

def FrontIndexDoc.decode : Option FrontIndexDoc := do
  let index ← table.requireTable "index"
  let volume ← index.requireString "volume"
  let layoutVersion ← index.requireInteger "layout_version"
  let mayEndEarly ← Toml.Table.booleanOr false index "may_end_early"
  let files ← decodeFiles table
  some { volume, layoutVersion, mayEndEarly, files }

structure SealDoc where
  volume : String
  layoutVersion : Int
  fileCount : Int
  endedAfter : Option Int
  sealedAt : String
  frontIndexSha256 : String
  requires : List String
  files : List FileEntryToml

def SealDoc.decode : Option SealDoc := do
  let header ← table.requireTable "seal"
  let volume ← header.requireString "volume"
  let layoutVersion ← header.requireInteger "layout_version"
  let fileCount ← header.requireInteger "file_count"
  let endedAfter ← header.optionalInteger "ended_after"
  let sealedAt ← header.requireString "sealed_at"
  let frontIndexSha256 ← header.requireString "front_index_sha256"
  let requires ← header.stringsOrEmpty "requires"
  let files ← decodeFiles table
  some { volume, layoutVersion, fileCount, endedAfter, sealedAt, frontIndexSha256, requires, files }

/-- The text of a document from its TOML marker on, the block padding stripped. -/
def tomlBody (raw marker : Text) (what : String) : Except String Text :=
  match findFrom marker (trimEndMatches '\x00' raw) with
  | some body => .ok body
  | none =>
    let named := String.ofList marker
    .error s!"{what}: no {named} marker found"

/-- A typed document behind `marker`, with the library's message as the source words it. -/
def parseDocument {Shape : Type} (crate : Crate) (decode : Table → Option Shape) (marker : Text)
    (what : String) (raw : Text) : Except String Shape := do
  let body ← tomlBody raw marker what
  match crate.deserialize decode body with
  | .ok document => .ok document
  | .error message => .error s!"{what}: TOML parse failed: {message}"

theorem parse_document_ok {Shape : Type} {decode : Table → Option Shape} {marker raw : Text}
    {what : String} {document : Shape} :
    parseDocument crate decode marker what raw = .ok document ↔
      ∃ body table, findFrom marker (trimEndMatches '\x00' raw) = some body ∧
        crate.fromStr body = .ok table ∧ decode table = some document := by
  unfold parseDocument tomlBody
  cases findFrom marker (trimEndMatches '\x00' raw) with
  | none => simp [bind, Except.bind]
  | some body =>
    have typed := Crate.deserialize_ok crate decode body document
    simp only [bind, Except.bind, Option.some.injEq, exists_eq_left', exists_and_left]
    rw [← typed]
    cases crate.deserialize decode body <;> simp

structure ParsedFrontIndex where
  volume : String
  mayEndEarly : Bool
  files : List ParsedIndexEntry
  deriving DecidableEq, Repr

def parseFrontIndexDocument (crate : Crate) (raw : Text) : Except String ParsedFrontIndex := do
  let document ← parseDocument crate FrontIndexDoc.decode "[index]".toList "front index" raw
  if document.layoutVersion ≠ layoutVersion then
    let stated := document.layoutVersion
    .error (s!"front index: layout_version {stated} — this tapectl ({cargoPkgVersion}) reads " ++
      s!"layout {layoutVersion} only; " ++
      "read the tape with a newer tapectl or the RESTORE.sh at its file 2")
  else
    .ok { volume := document.volume
          mayEndEarly := document.mayEndEarly
          files := document.files.map FileEntryToml.toParsed }

def parseFrontIndex (crate : Crate) (raw : Text) : Except String (List ParsedIndexEntry) := do
  let document ← parseFrontIndexDocument crate raw
  .ok document.files

theorem parse_front_index_ok {raw : Text} {claims : List ParsedIndexEntry} :
    parseFrontIndex crate raw = .ok claims ↔
      ∃ document, parseDocument crate FrontIndexDoc.decode "[index]".toList "front index" raw =
        .ok document ∧ document.layoutVersion = layoutVersion ∧
        claims = document.files.map FileEntryToml.toParsed := by
  unfold parseFrontIndex parseFrontIndexDocument
  cases parseDocument crate FrontIndexDoc.decode "[index]".toList "front index" raw with
  | error message => simp [bind, Except.bind]
  | ok document =>
    by_cases current : document.layoutVersion = layoutVersion
    · simp [bind, Except.bind, current, eq_comm]
    · simp [bind, Except.bind, current]

theorem length_decode_files {table : Table} {files : List FileEntryToml}
    (decoded : decodeFiles table = some files) :
    files = [] ∨ ∃ items, table.lookup "files" = some (.array items) ∧
      files.length = items.length := by
  simp only [decodeFiles, Option.bind_eq_bind, Option.bind_eq_some_iff, Table.tablesOrEmpty]
    at decoded
  obtain ⟨tables, shaped, typed⟩ := decoded
  split at shaped
  · cases shaped
    cases typed
    exact Or.inl rfl
  · next items found =>
      exact Or.inr ⟨items, found, (Toml.length_map_m typed).trans (Toml.length_map_m shaped)⟩
  · cases shaped

theorem length_parse_front_index (counts : crate.CountsArrays) {raw : Text}
    {claims : List ParsedIndexEntry} (parses : parseFrontIndex crate raw = .ok claims) :
    claims.length ≤ raw.length := by
  obtain ⟨document, parsed, _, rfl⟩ := parse_front_index_ok.mp parses
  obtain ⟨body, table, found, read, decoded⟩ := parse_document_ok.mp parsed
  have bodyShort : body.length ≤ raw.length :=
    (find_from_sound found).1.length_le.trans (List.rdropWhile_prefix _ _).length_le
  have files : decodeFiles table = some document.files := by
    simp only [FrontIndexDoc.decode, Option.bind_eq_bind, Option.bind_eq_some_iff] at decoded
    obtain ⟨_, _, _, _, _, _, _, _, files, decodedFiles, same⟩ := decoded
    cases same
    exact decodedFiles
  rw [List.length_map]
  rcases length_decode_files files with none | ⟨items, entry, same⟩
  · simp [none]
  · rw [same]
    exact (counts _ _ _ _ read entry).trans bodyShort

def SealDoc.toParsed (document : SealDoc) : ParsedSeal where
  volume := document.volume
  layoutVersion := document.layoutVersion
  fileCount := asI32 document.fileCount
  endedAfter := document.endedAfter.bind tryU64
  sealedAt := document.sealedAt
  frontIndexSha256 := document.frontIndexSha256
  requires := document.requires
  files := document.files.map FileEntryToml.toParsed

/-- The rules a seal of 1.6.0 or later must keep, in the parser's order: a seal that must not be
read parses uninterpreted, and one from before 1.6.0 is a full seal. -/
def judgeParsedSeal (document : SealDoc) : Except String ParsedSeal :=
  let parsed := document.toParsed
  if parsed.refusal.isSome then .ok parsed
  else if document.endedAfter.isNone && !parsed.requiresShortSeal then .ok parsed
  else
    let broken : Option SealRuleViolation := match document.endedAfter with
      | some position =>
        if position < 0 then some (.endedAfterNotFileCountLessTwo position parsed.fileCount)
        else match parsed.checkParseRules with
          | .error rule => some rule
          | .ok _ => none
      | none => match parsed.checkParseRules with
          | .error rule => some rule
          | .ok _ => none
    match broken with
    | some rule =>
      let named := rule.display
      .error s!"seal marker: {named}"
    | none => .ok parsed

def parseSealMarker (crate : Crate) (raw : Text) : Except String ParsedSeal := do
  let document ← parseDocument crate SealDoc.decode "[seal]".toList "seal marker" raw
  judgeParsedSeal document

theorem judge_parsed_seal_ok {document : SealDoc} {parsed : ParsedSeal}
    (judged : judgeParsedSeal document = .ok parsed) : parsed = document.toParsed := by
  unfold judgeParsedSeal at judged
  simp only at judged
  split at judged
  · exact (Except.ok.inj judged).symm
  split at judged
  · exact (Except.ok.inj judged).symm
  split at judged
  · cases judged
  · exact (Except.ok.inj judged).symm

theorem parse_seal_marker_ok {raw : Text} {parsed : ParsedSeal}
    (parses : parseSealMarker crate raw = .ok parsed) :
    ∃ document, parseDocument crate SealDoc.decode "[seal]".toList "seal marker" raw =
      .ok document ∧ judgeParsedSeal document = .ok parsed := by
  unfold parseSealMarker at parses
  cases read : parseDocument crate SealDoc.decode "[seal]".toList "seal marker" raw with
  | error message =>
    rw [read] at parses
    cases parses
  | ok document =>
    rw [read] at parses
    exact ⟨document, rfl, parses⟩

def withoutNulPadding (raw : Bytes) : Bytes := raw.rdropWhile (· == 0)

inductive SealVerdict where
  | sealed (parsed : ParsedSeal)
  | unsealed (why : String)
  | refused (why : String)
  deriving DecidableEq, Repr

/-- `sealRead` is what reading the seal's file gave, `frontIndex` the front index's true bytes. -/
def judgeSeal (crate : Crate) (sha256Hex : Bytes → String) (sealRead : Except String Bytes)
    (frontIndex : Bytes) (frontIndexPosition sealPosition : Nat) : SealVerdict :=
  match sealRead with
  | .error why => .unsealed
      s!"no seal marker reads at file {sealPosition}, where File 0 says it is: {why}"
  | .ok raw =>
    match parseSealMarker crate (fromUtf8Lossy raw) with
    | .error message => .unsealed s!"file {sealPosition} is not a seal marker: {message}"
    | .ok parsed =>
      match parsed.refusal with
      | some why => .refused why
      | none =>
        let frontIndexSha256 := sha256Hex frontIndex
        if parsed.frontIndexSha256 ≠ frontIndexSha256 then
          let stated := parsed.frontIndexSha256
          .unsealed (s!"the seal marker binds a front index hashing to {stated}, but the front " ++
            s!"index (file {frontIndexPosition}) on this tape hashes to {frontIndexSha256}")
        else .sealed parsed

def decodeClaims : Option FormatClaims := do
  let volume ← table.requireTable "volume"
  let magic ← volume.optionalString "magic"
  let layoutVersion ← volume.optionalInteger "layout_version"
  let requires ← volume.stringsOrEmpty "requires"
  let tapectlVersion ← volume.optionalString "tapectl_version"
  some { magic, layoutVersion, requires, tapectlVersion }

def parseIdThunkClaims (crate : Crate) (raw : Text) : Except String FormatClaims :=
  parseDocument crate decodeClaims "[volume]".toList "id thunk" raw

structure IdThunkIdentity where
  label : String
  uuid : String
  deriving DecidableEq, Repr

def decodeIdentity : Option IdThunkIdentity := do
  let volume ← table.requireTable "volume"
  let label ← volume.requireString "label"
  let uuid ← volume.requireString "uuid"
  some { label, uuid }

def parseIdThunkIdentity (crate : Crate) (raw : Text) : Except String IdThunkIdentity :=
  parseDocument crate decodeIdentity "[volume]".toList "id thunk" raw

structure IdThunkLayoutPointers where
  frontIndex : Int
  sealMarker : Int
  totalFiles : Int
  deriving DecidableEq, Repr

def decodeLayoutPointers : Option IdThunkLayoutPointers := do
  let layout ← table.requireTable "layout"
  let frontIndex ← layout.requireInteger "front_index"
  let sealMarker ← layout.requireInteger "seal_marker"
  let totalFiles ← layout.requireInteger "total_files"
  some
    { frontIndex := asI32 frontIndex
      sealMarker := asI32 sealMarker
      totalFiles := asI32 totalFiles }

def parseIdThunkLayoutPointers (crate : Crate) (raw : Text) :
    Except String IdThunkLayoutPointers :=
  parseDocument crate decodeLayoutPointers "[layout]".toList "id thunk layout" raw

end Tapectl.Volume.Format
