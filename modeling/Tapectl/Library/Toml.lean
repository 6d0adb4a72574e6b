import Tapectl.Library.Text

/-!
# TOML documents

`Value` is what a TOML document means. A program reads documents through a library, here the
parameter `Crate`: its parser and the message of a document that has another shape than the one
asked for. What the program writes is the plain line-oriented fragment `Document`: tables and
arrays of tables of one `key = value` per line, with integers, booleans, strings that need no
escape and lists of such strings.

`parse` is the meaning the TOML specification gives this fragment, as an executable function on
text, and `parse_render` is its round trip. `Crate.ReadsPlain` says that the library agrees with
it on every rendered document and on every document cut short, which is all that a proof about
written documents needs of the library.
-/

namespace Toml

open StoredText

inductive Value where
  | string (text : String)
  | integer (value : Int)
  | float (text : String)
  | boolean (value : Bool)
  | datetime (text : String)
  | array (items : List Value)
  | table (entries : List (String × Value))

abbrev Table := List (String × Value)

/-! ## Typed access

The shapes a derived deserializer asks for: a required key, an optional one (absent is fine,
another type is not), and a key with a default. -/

namespace Table

variable (table : Table)

def requireString (key : String) : Option String :=
  match table.lookup key with
  | some (.string text) => some text
  | _ => none

def requireInteger (key : String) : Option Int :=
  match table.lookup key with
  | some (.integer value) => some value
  | _ => none

def requireTable (key : String) : Option Table :=
  match table.lookup key with
  | some (.table entries) => some entries
  | _ => none

def optionalString (key : String) : Option (Option String) :=
  match table.lookup key with
  | none => some none
  | some (.string text) => some (some text)
  | some _ => none

def optionalInteger (key : String) : Option (Option Int) :=
  match table.lookup key with
  | none => some none
  | some (.integer value) => some (some value)
  | some _ => none

def booleanOr (fallback : Bool) (table : Table) (key : String) : Option Bool :=
  match table.lookup key with
  | none => some fallback
  | some (.boolean value) => some value
  | some _ => none

def asString : Value → Option String
  | .string text => some text
  | _ => none

def asTable : Value → Option Table
  | .table entries => some entries
  | _ => none

def stringsOrEmpty (key : String) : Option (List String) :=
  match table.lookup key with
  | none => some []
  | some (.array items) => items.mapM asString
  | some _ => none

def tablesOrEmpty (key : String) : Option (List Table) :=
  match table.lookup key with
  | none => some []
  | some (.array items) => items.mapM asTable
  | some _ => none

end Table

structure Crate where
  fromStr : Text → Except String Table
  /-- The message for a document that is TOML and has another shape than the one asked for. -/
  describe : Text → String

/-- Parse a document and give it the shape `decode` asks for. -/
def Crate.deserialize {Shape : Type} (crate : Crate) (decode : Table → Option Shape)
    (text : Text) : Except String Shape :=
  match crate.fromStr text with
  | .error message => .error message
  | .ok table =>
    match decode table with
    | some shape => .ok shape
    | none => .error (crate.describe text)

theorem Crate.deserialize_ok {Shape : Type} (crate : Crate) (decode : Table → Option Shape)
    (text : Text) (shape : Shape) :
    crate.deserialize decode text = .ok shape ↔
      ∃ table, crate.fromStr text = .ok table ∧ decode table = some shape := by
  unfold Crate.deserialize
  cases crate.fromStr text with
  | error message => simp
  | ok table => cases decoded : decode table <;> simp [decoded]

inductive Scalar where
  | integer (value : Int)
  | string (text : String)
  | boolean (value : Bool)
  | strings (items : List String)
  deriving DecidableEq, Repr

def Scalar.value : Scalar → Value
  | .integer value => .integer value
  | .string text => .string text
  | .boolean value => .boolean value
  | .strings items => .array (items.map .string)

inductive SectionKind where
  | table
  | arrayOfTables
  deriving DecidableEq, Repr

/-- One `[name]` or `[[name]]` with its `key = value` lines. -/
structure Block where
  kind : SectionKind
  name : String
  pairs : List (String × Scalar)
  deriving DecidableEq, Repr

abbrev Document := List Block

def isBareKeyChar (c : Char) : Bool := c.isAlphanum || c == '_' || c == '-'

def isPlainChar (c : Char) : Bool :=
  c != '"' && c != '\\' && 0x20 ≤ c.toNat && c.toNat != 0x7F

def BareKey (key : String) : Prop := key.toList ≠ [] ∧ ∀ c ∈ key.toList, isBareKeyChar c = true

instance : DecidablePred BareKey := fun key =>
  inferInstanceAs (Decidable (key.toList ≠ [] ∧ ∀ c ∈ key.toList, isBareKeyChar c = true))

def PlainString (text : String) : Prop := ∀ c ∈ text.toList, isPlainChar c = true

def PlainAscii (text : String) : Prop := ∀ c ∈ text.toList, isPlainChar c = true ∧ IsAscii c

instance : DecidablePred PlainAscii := fun text =>
  inferInstanceAs (Decidable (∀ c ∈ text.toList, isPlainChar c = true ∧ IsAscii c))

theorem PlainAscii.plain {text : String} (ascii : PlainAscii text) : PlainString text :=
  fun c member => (ascii c member).1

def InRange (value : Int) : Prop := -2 ^ 63 ≤ value ∧ value < 2 ^ 63

instance : DecidablePred InRange := fun value =>
  inferInstanceAs (Decidable (-2 ^ 63 ≤ value ∧ value < 2 ^ 63))

def Scalar.Plain : Scalar → Prop
  | .integer value => InRange value
  | .string text => PlainString text
  | .boolean _ => True
  | .strings items => ∀ item ∈ items, PlainString item

structure Block.Plain (block : Block) : Prop where
  name : BareKey block.name
  keys : ∀ pair ∈ block.pairs, BareKey pair.1
  values : ∀ pair ∈ block.pairs, pair.2.Plain

def Document.Plain (document : Document) : Prop := ∀ block ∈ document, block.Plain

def renderInteger : Int → Text
  | .ofNat value => Nat.toDigits 10 value
  | .negSucc value => '-' :: Nat.toDigits 10 (value + 1)

def quote (text : String) : Text := '"' :: (text.toList ++ ['"'])

def Scalar.render : Scalar → Text
  | .integer value => renderInteger value
  | .string text => quote text
  | .boolean value => if value then "true".toList else "false".toList
  | .strings items => '[' :: (", ".toList.intercalate (items.map quote) ++ [']'])

def renderPair (pair : String × Scalar) : Text :=
  pair.1.toList ++ (' ' :: '=' :: ' ' :: pair.2.render)

def renderHeader : SectionKind → String → Text
  | .table, name => '[' :: (name.toList ++ [']'])
  | .arrayOfTables, name => '[' :: '[' :: (name.toList ++ [']', ']'])

variable (block : Block)

def Block.lines : List Text :=
  renderHeader block.kind block.name :: block.pairs.map renderPair

def renderLines (lines : List Text) : Text := lines.flatMap (· ++ ['\n'])

def Block.render : Text := renderLines block.lines

def Document.render : Document → Text
  | [] => []
  | block :: rest => block.render ++ rest.flatMap (fun next => '\n' :: next.render)

inductive Line where
  | blank
  | header (kind : SectionKind) (name : String)
  | pair (key : String) (value : Scalar)
  deriving DecidableEq, Repr

/-- A bare key up to `close`, which must end the line. -/
def parseName (close text : Text) : Option String :=
  if text.takeWhile isBareKeyChar ≠ [] ∧ text.dropWhile isBareKeyChar = close then
    some (String.ofList (text.takeWhile isBareKeyChar))
  else none

def parseDigits (text : Text) : Option Nat :=
  if text ≠ [] ∧ text.all Char.isDigit = true then some (Nat.ofDigitChars 10 text 0) else none

def parseSigned : Text → Option Int
  | '-' :: digits => (parseDigits digits).map fun value => -Int.ofNat value
  | digits => (parseDigits digits).map Int.ofNat

def parseInteger (text : Text) : Option Scalar :=
  match parseSigned text with
  | some value => if InRange value then some (.integer value) else none
  | none => none

def parseItems : Nat → Text → Option (List String)
  | fuel + 1, '"' :: rest =>
    let item := String.ofList (rest.takeWhile isPlainChar)
    match rest.dropWhile isPlainChar with
    | ['"', ']'] => some [item]
    | '"' :: ',' :: ' ' :: more => (parseItems fuel more).map (item :: ·)
    | _ => none
  | _, _ => none

def parseScalar : Text → Option Scalar
  | '"' :: rest =>
    if rest.dropWhile isPlainChar = ['"'] then
      some (.string (String.ofList (rest.takeWhile isPlainChar)))
    else none
  | ['[', ']'] => some (.strings [])
  | '[' :: rest => (parseItems rest.length rest).map .strings
  | text =>
    if text = "true".toList then some (.boolean true)
    else if text = "false".toList then some (.boolean false)
    else parseInteger text

def parsePair (text : Text) : Option Line :=
  match text.dropWhile isBareKeyChar with
  | ' ' :: '=' :: ' ' :: value =>
    if text.takeWhile isBareKeyChar ≠ [] then
      (parseScalar value).map (.pair (String.ofList (text.takeWhile isBareKeyChar)))
    else none
  | _ => none

def parseLine : Text → Option Line
  | [] => some .blank
  | '[' :: '[' :: rest => (parseName [']', ']'] rest).map (.header .arrayOfTables)
  | '[' :: rest => (parseName [']'] rest).map (.header .table)
  | text => parsePair text

/-- The blocks of a sequence of lines, `current` being the block they continue. -/
def collect (current : Block) : List Line → List Block
  | [] => [current]
  | .blank :: lines => collect current lines
  | .pair key value :: lines =>
    collect { current with pairs := current.pairs ++ [(key, value)] } lines
  | .header kind name :: lines => current :: collect ⟨kind, name, []⟩ lines

def blocks : List Line → Option (List Block)
  | [] => some []
  | .blank :: lines => blocks lines
  | .header kind name :: lines => some (collect ⟨kind, name, []⟩ lines)
  -- A key before the first header belongs to the root table, which the fragment leaves empty.
  | .pair _ _ :: _ => none

def Block.values : Table := block.pairs.map fun pair => (pair.1, pair.2.value)

/-- `[[name]]`: one more element of the array `name`. -/
def push (name : String) (element : Value) : Table → Option Table
  | [] => some [(name, .array [element])]
  | (key, old) :: rest =>
    if key = name then
      match old with
      | .array items => some ((key, .array (items ++ [element])) :: rest)
      | _ => none
    else (push name element rest).map ((key, old) :: ·)

/-- Enter a block into the table of the document; a key or a table given twice is refused. -/
def addBlock (table : Table) (block : Block) : Option Table :=
  if (block.pairs.map Prod.fst).Nodup then
    match block.kind with
    | .table =>
      if (table.lookup block.name).isSome then none
      else some (table ++ [(block.name, .table block.values)])
    | .arrayOfTables => push block.name (.table block.values) table
  else none

def assemble (document : Document) : Option Table := document.foldlM addBlock []

def parse (text : Text) : Option Table := do
  let lines ← (text.splitOn '\n').mapM parseLine
  let document ← blocks lines
  assemble document

/-- The library reads the plain fragment as the specification does, and a document that was cut
off anywhere as the specification reads what is left of it. -/
def Crate.ReadsPlain (crate : Crate) : Prop :=
  ∀ document : Document, document.Plain → ∀ text, text <+: document.render →
    (crate.fromStr text).toOption = parse text

variable {document : Document} {name key : String} {scalar : Scalar} {piece : Text} {token : Line}
  {final : Table} {bound : Nat}

theorem Crate.ReadsPlain.ok {crate : Crate} (reads : crate.ReadsPlain) (plain : document.Plain)
    {text : Text} (cut : text <+: document.render) {table : Table} :
    crate.fromStr text = .ok table ↔ parse text = some table := by
  rw [← reads document plain text cut]
  cases crate.fromStr text with
  | error message => simp [Except.toOption]
  | ok found => simp [Except.toOption]

theorem take_while_append_stop {p : Char → Bool} {front : Text} (all : ∀ c ∈ front, p c = true)
    (stop : Text) (stops : ∀ c ∈ stop.head?, p c = false) :
    (front ++ stop).takeWhile p = front ∧ (front ++ stop).dropWhile p = stop := by
  rw [List.takeWhile_append_of_pos all, List.dropWhile_append_of_pos all]
  cases stop with
  | nil => simp
  | cons c rest =>
    have ends : p c = false := stops c (by simp)
    simp [ends]

theorem parse_name_render (bare : BareKey name) (close : Text)
    (stops : ∀ c ∈ close.head?, isBareKeyChar c = false) :
    parseName close (name.toList ++ close) = some name := by
  obtain ⟨taken, dropped⟩ := take_while_append_stop bare.2 _ stops
  rw [parseName, taken, dropped, if_pos ⟨bare.1, rfl⟩, String.ofList_toList]

theorem parse_digits_render (value : Nat) : parseDigits (Nat.toDigits 10 value) = some value := by
  have digits : (Nat.toDigits 10 value).all Char.isDigit = true :=
    List.all_eq_true.mpr fun c member =>
      Nat.isDigit_of_mem_toDigits (by decide) (by decide) member
  rw [parseDigits, if_pos ⟨Nat.toDigits_ne_nil, digits⟩, Nat.ofDigitChars_ten_toDigits]

theorem render_integer_head (value : Int) :
    ∃ head rest, renderInteger value = head :: rest ∧ (head.isDigit = true ∨ head = '-') := by
  cases value with
  | ofNat value =>
    obtain ⟨head, rest, shape⟩ :=
      List.exists_cons_of_ne_nil (Nat.toDigits_ne_nil (n := value) (b := 10))
    have member : head ∈ Nat.toDigits 10 value := by simp [shape]
    exact ⟨head, rest, shape,
      Or.inl (Nat.isDigit_of_mem_toDigits (by decide) (by decide) member)⟩
  | negSucc value => exact ⟨'-', _, rfl, Or.inr rfl⟩

theorem parse_signed_render (value : Int) : parseSigned (renderInteger value) = some value := by
  cases value with
  | ofNat value =>
    have notMinus : ∀ tail, Nat.toDigits 10 value ≠ '-' :: tail := by
      intro tail same
      have member : '-' ∈ Nat.toDigits 10 value := by simp [same]
      exact absurd (Nat.isDigit_of_mem_toDigits (by decide) (by decide) member) (by decide)
    rw [renderInteger, parseSigned, parse_digits_render]
    · rfl
    · exact fun tail same => notMinus tail same
  | negSucc value =>
    rw [renderInteger, parseSigned, parse_digits_render]
    rfl

theorem parse_integer_render {value : Int} (range : InRange value) :
    parseInteger (renderInteger value) = some (.integer value) := by
  simp only [parseInteger, parse_signed_render, range, if_true]

theorem parse_items_render (items : List String) (last : String) (fuel : Nat)
    (enough : items.length < fuel) (plain : ∀ item ∈ items, PlainString item)
    (plainLast : PlainString last) :
    parseItems fuel (", ".toList.intercalate ((items ++ [last]).map quote) ++ [']']) =
      some (items ++ [last]) := by
  induction items generalizing fuel with
  | nil =>
    obtain ⟨fuel, rfl⟩ := Nat.exists_eq_succ_of_ne_zero (Nat.ne_of_gt enough)
    obtain ⟨taken, dropped⟩ := take_while_append_stop (p := isPlainChar) plainLast
      ['"', ']'] (by simp [isPlainChar])
    have text : ", ".toList.intercalate (([] ++ [last]).map quote) ++ [']'] =
        '"' :: (last.toList ++ ['"', ']']) := by
      simp [quote, List.intercalate]
    rw [text]
    simp only [parseItems, taken, dropped, String.ofList_toList, List.nil_append]
  | cons item items ih =>
    obtain ⟨fuel, rfl⟩ := Nat.exists_eq_succ_of_ne_zero (Nat.ne_of_gt (Nat.zero_lt_of_lt enough))
    obtain ⟨next, others, shape⟩ :=
      List.exists_cons_of_ne_nil (l := items ++ [last]) (by simp)
    let more := ", ".toList.intercalate ((items ++ [last]).map quote) ++ [']']
    have text : ", ".toList.intercalate (((item :: items) ++ [last]).map quote) ++ [']'] =
        '"' :: (item.toList ++ '"' :: ',' :: ' ' :: more) := by
      simp only [more, List.cons_append, List.map_cons, shape, List.intercalate_cons_cons]
      simp [quote]
    obtain ⟨taken, dropped⟩ := take_while_append_stop (p := isPlainChar)
      (plain item (by simp)) ('"' :: ',' :: ' ' :: more) (by simp [isPlainChar])
    have tail := ih fuel (by simpa using enough) (fun other member => plain other (by simp [member]))
    rw [text]
    simp only [parseItems, taken, dropped, String.ofList_toList]
    rw [tail]
    rfl

theorem intercalate_quote_shape (item : String) (items : List String) :
    ∃ tail, ", ".toList.intercalate ((item :: items).map quote) = '"' :: tail ∧
      items.length ≤ tail.length := by
  induction items generalizing item with
  | nil => exact ⟨item.toList ++ ['"'], by simp [quote, List.intercalate], by simp⟩
  | cons next items ih =>
    obtain ⟨tail, shape, long⟩ := ih next
    refine ⟨item.toList ++ ['"'] ++ ", ".toList ++ '"' :: tail, ?_, ?_⟩
    · rw [List.map_cons, List.map_cons, List.intercalate_cons_cons, ← List.map_cons, shape]
      simp [quote]
    · simp only [List.length_append, List.length_cons]
      omega

theorem parse_scalar_render (plain : scalar.Plain) :
    parseScalar scalar.render = some scalar := by
  cases scalar with
  | integer value =>
    obtain ⟨head, rest, shape, digit⟩ := render_integer_head value
    have parsed := parse_integer_render plain
    have excluded : head ≠ '"' ∧ head ≠ '[' ∧ head ≠ 't' ∧ head ≠ 'f' := by
      rcases digit with digit | rfl
      · refine ⟨?_, ?_, ?_, ?_⟩ <;> rintro rfl <;> exact absurd digit (by decide)
      · decide
    simp only [Scalar.render, shape] at parsed ⊢
    simp [parseScalar, excluded, parsed]
  | string text =>
    obtain ⟨taken, dropped⟩ := take_while_append_stop (p := isPlainChar) plain ['"']
      (by simp [isPlainChar])
    simp only [Scalar.render, quote, parseScalar, taken, dropped, if_true, String.ofList_toList]
  | boolean value => cases value <;> rfl
  | strings items =>
    rcases List.eq_nil_or_concat' items with rfl | ⟨front, last, rfl⟩
    · rfl
    · obtain ⟨first, others, shape⟩ :=
        List.exists_cons_of_ne_nil (l := front ++ [last]) (by simp)
      obtain ⟨tail, text, long⟩ := intercalate_quote_shape first others
      have count : front.length < (", ".toList.intercalate ((front ++ [last]).map quote) ++
          [']']).length := by
        have size := congrArg List.length shape
        simp only [List.length_append, List.length_cons, List.length_nil] at size
        rw [shape, text]
        simp only [List.length_append, List.length_cons, List.length_nil]
        omega
      have parsed := parse_items_render front last _ count
        (fun item member => plain item (by simp [member])) (plain last (by simp))
      rw [shape, text] at parsed
      simp only [Scalar.render, shape, text, List.cons_append] at parsed ⊢
      simpa [parseScalar] using parsed

theorem parse_pair_render (bare : BareKey key) (plain : scalar.Plain) :
    parsePair (renderPair (key, scalar)) = some (.pair key scalar) := by
  obtain ⟨taken, dropped⟩ := take_while_append_stop bare.2
    (' ' :: '=' :: ' ' :: scalar.render) (by simp [isBareKeyChar])
  simp only [renderPair, parsePair, taken, dropped, bare.1, parse_scalar_render plain,
    Option.map_some, String.ofList_toList, ne_eq, not_false_eq_true, if_true]

theorem parse_line_of_bare {head : Char} {rest : Text} (bare : isBareKeyChar head = true) :
    parseLine (head :: rest) = parsePair (head :: rest) := by
  have notBracket : head ≠ '[' := by
    rintro rfl
    exact absurd bare (by decide)
  unfold parseLine
  split
  · next same => cases same
  · next same => exact absurd (List.cons.inj same).1 notBracket
  · next same => exact absurd (List.cons.inj same).1 notBracket
  · rfl

theorem BareKey.head (bare : BareKey key) :
    ∃ head rest, key.toList = head :: rest ∧ isBareKeyChar head = true := by
  obtain ⟨head, rest, shape⟩ := List.exists_cons_of_ne_nil bare.1
  exact ⟨head, rest, shape, bare.2 head (by simp [shape])⟩

theorem parse_line_pair (bare : BareKey key) (plain : scalar.Plain) :
    parseLine (renderPair (key, scalar)) = some (.pair key scalar) := by
  obtain ⟨head, rest, shape, bareHead⟩ := bare.head
  rw [← parse_pair_render bare plain, renderPair, shape]
  exact parse_line_of_bare bareHead

theorem parse_line_header (bare : BareKey name) (kind : SectionKind) :
    parseLine (renderHeader kind name) = some (.header kind name) := by
  obtain ⟨head, rest, shape, bareHead⟩ := bare.head
  have notBracket : head ≠ '[' := by
    rintro rfl
    exact absurd bareHead (by decide)
  cases kind with
  | table =>
    have parsed := parse_name_render bare [']'] (by simp [isBareKeyChar])
    simp only [renderHeader]
    rw [shape] at parsed ⊢
    simp only [List.cons_append] at parsed ⊢
    simp [parseLine, notBracket, parsed]
  | arrayOfTables =>
    have parsed := parse_name_render bare [']', ']'] (by simp [isBareKeyChar])
    simp [renderHeader, parseLine, parsed]

/-! Lines of a document, and what they parse to. -/

def Block.tokens : List Line :=
  .header block.kind block.name :: block.pairs.map fun pair => .pair pair.1 pair.2

def Document.lines : Document → List Text
  | [] => []
  | block :: rest => block.lines ++ rest.flatMap (fun next => [] :: next.lines)

def Document.tokens : Document → List Line
  | [] => []
  | block :: rest => block.tokens ++ rest.flatMap (fun next => .blank :: next.tokens)

@[simp] theorem render_lines_append (left right : List Text) :
    renderLines (left ++ right) = renderLines left ++ renderLines right :=
  List.flatMap_append

theorem Document.render_eq_lines (document : Document) :
    document.render = renderLines document.lines := by
  cases document with
  | nil => rfl
  | cons block rest =>
    simp only [Document.render, Document.lines, Block.render, render_lines_append]
    apply congrArg (renderLines block.lines ++ ·)
    induction rest with
    | nil => rfl
    | cons next rest ih =>
      simp only [List.flatMap_cons, render_lines_append, ih]
      rfl

theorem parse_block_lines {block : Block} (plain : block.Plain) :
    block.lines.mapM parseLine = some block.tokens := by
  have pairs : ∀ list : List (String × Scalar), (∀ pair ∈ list, BareKey pair.1) →
      (∀ pair ∈ list, pair.2.Plain) →
      (list.map renderPair).mapM parseLine =
        some (list.map fun pair => Line.pair pair.1 pair.2) := by
    intro list keys values
    induction list with
    | nil => rfl
    | cons pair list ih =>
      have first := parse_line_pair (keys pair (by simp)) (values pair (by simp))
      have rest := ih (fun other member => keys other (by simp [member]))
        (fun other member => values other (by simp [member]))
      simp only [List.map_cons, List.mapM_cons, first, rest]
      rfl
  simp only [Block.lines, Block.tokens, List.mapM_cons, parse_line_header plain.name,
    pairs _ plain.keys plain.values]
  rfl

theorem parse_document_lines (plain : document.Plain) :
    document.lines.mapM parseLine = some document.tokens := by
  cases document with
  | nil => rfl
  | cons block rest =>
    have tail : (rest.flatMap fun next => [] :: next.lines).mapM parseLine =
        some (rest.flatMap fun next => .blank :: next.tokens) := by
      have plainRest : ∀ next ∈ rest, next.Plain := fun next member => plain next (by simp [member])
      clear plain
      induction rest with
      | nil => rfl
      | cons next rest ih =>
        have first := parse_block_lines (plainRest next (by simp))
        have others := ih fun other member => plainRest other (by simp [member])
        simp only [List.flatMap_cons, List.mapM_append, List.mapM_cons, first, others]
        rfl
    simp only [Document.lines, Document.tokens, List.mapM_append,
      parse_block_lines (plain block (by simp)), tail]
    rfl

theorem collect_pairs (current : Block) (pairs : List (String × Scalar)) (lines : List Line) :
    collect current ((pairs.map fun pair => Line.pair pair.1 pair.2) ++ lines) =
      collect { current with pairs := current.pairs ++ pairs } lines := by
  induction pairs generalizing current with
  | nil => simp
  | cons pair pairs ih =>
    simp only [List.map_cons, List.cons_append, collect, ih, List.append_assoc, List.nil_append]

theorem collect_block (current block : Block) (lines : List Line) :
    collect current (block.tokens ++ lines) = current :: collect block lines := by
  rw [Block.tokens, List.cons_append, collect, collect_pairs]
  rfl

theorem blocks_block (lines : List Line) :
    blocks (block.tokens ++ lines) = some (collect block lines) := by
  rw [Block.tokens, List.cons_append, blocks, collect_pairs]
  rfl

theorem collect_blocks (current : Block) (rest : Document) :
    collect current ((rest.flatMap fun next => Line.blank :: next.tokens) ++ [.blank]) =
      current :: rest := by
  induction rest generalizing current with
  | nil => rfl
  | cons next rest ih =>
    rw [List.flatMap_cons, List.cons_append, List.cons_append, collect, List.append_assoc,
      collect_block, ih]

theorem blocks_tokens (document : Document) :
    blocks (document.tokens ++ [.blank]) = some document := by
  cases document with
  | nil => rfl
  | cons block rest => rw [Document.tokens, List.append_assoc, blocks_block, collect_blocks]

theorem mem_of_mem_intercalate {c : Char} {separator : Text} {pieces : List Text}
    (member : c ∈ separator.intercalate pieces) :
    c ∈ separator ∨ ∃ piece ∈ pieces, c ∈ piece := by
  induction pieces with
  | nil => simp at member
  | cons piece pieces ih =>
    cases pieces with
    | nil => exact Or.inr ⟨piece, by simp, by simpa using member⟩
    | cons next pieces =>
      rw [List.intercalate_cons_cons, List.mem_append, List.mem_append] at member
      rcases member with (inside | between) | later
      · exact Or.inr ⟨piece, by simp, inside⟩
      · exact Or.inl between
      · rcases ih later with between | ⟨other, otherMember, inside⟩
        · exact Or.inl between
        · exact Or.inr ⟨other, List.mem_cons_of_mem _ otherMember, inside⟩

/-- The characters a rendering has of its own: keys, digits and punctuation. -/
def isMark (c : Char) : Bool := isBareKeyChar c || ['[', ']', '"', ' ', '=', ','].contains c

def Scalar.chars : Scalar → Text
  | .string text => text.toList
  | .strings items => items.flatMap String.toList
  | .integer _ => []
  | .boolean _ => []

theorem plain_of_mem_chars (plain : scalar.Plain) {c : Char} (member : c ∈ scalar.chars) :
    isPlainChar c = true := by
  cases scalar with
  | integer value => cases member
  | boolean value => cases member
  | string text => exact plain c member
  | strings items =>
    obtain ⟨item, itemMember, inItem⟩ := List.mem_flatMap.mp member
    exact plain item itemMember c inItem

theorem mark_of_bare {c : Char} (bare : isBareKeyChar c = true) : isMark c = true := by
  simp [isMark, bare]

theorem ascii_of_mark {c : Char} (mark : isMark c = true) : IsAscii c := by
  simp only [isMark, isBareKeyChar, Char.isAlphanum, Char.isAlpha, Char.isUpper, Char.isLower,
    Char.isDigit, List.contains_eq_mem, List.mem_cons, List.not_mem_nil, or_false,
    Bool.or_eq_true, Bool.and_eq_true, decide_eq_true_eq, beq_iff_eq] at mark
  rcases mark with ((((upper | lower) | digit) | rfl) | rfl) | (rfl | rfl | rfl | rfl | rfl | rfl)
  · exact (UInt32.le_iff_toNat_le.mp upper.2).trans (by decide)
  · exact (UInt32.le_iff_toNat_le.mp lower.2).trans (by decide)
  · exact (UInt32.le_iff_toNat_le.mp digit.2).trans (by decide)
  all_goals decide

theorem mark_of_digit {c : Char} (digit : c.isDigit = true) : isMark c = true :=
  mark_of_bare (by simp [isBareKeyChar, Char.isAlphanum, digit])

theorem mem_quote {text : String} {c : Char} (member : c ∈ quote text) :
    isMark c = true ∨ c ∈ text.toList := by
  simp only [quote, List.mem_cons, List.mem_append, List.not_mem_nil, or_false] at member
  rcases member with rfl | inside | rfl
  · exact Or.inl (by decide)
  · exact Or.inr inside
  · exact Or.inl (by decide)

theorem mem_render_scalar {c : Char} (member : c ∈ scalar.render) :
    isMark c = true ∨ c ∈ scalar.chars := by
  cases scalar with
  | integer value =>
    have digit : ∀ number, c ∈ Nat.toDigits 10 number → isMark c = true := fun number inside =>
      mark_of_digit (Nat.isDigit_of_mem_toDigits (by decide) (by decide) inside)
    left
    cases value with
    | ofNat value => exact digit _ member
    | negSucc value =>
      rcases List.mem_cons.mp member with rfl | inside
      · decide
      · exact digit _ inside
  | string text => exact mem_quote member
  | boolean value =>
    left
    have letters : ∀ d ∈ "true".toList ++ "false".toList, isMark d = true := by decide
    cases value with
    | true => exact letters c (List.mem_append_left _ member)
    | false => exact letters c (List.mem_append_right _ member)
  | strings items =>
    simp only [Scalar.render, List.mem_cons, List.mem_append, List.not_mem_nil, or_false] at member
    rcases member with rfl | inside | rfl
    · exact Or.inl (by decide)
    · rcases mem_of_mem_intercalate inside with between | ⟨piece, pieceMember, inPiece⟩
      · have separator : ∀ d ∈ ", ".toList, isMark d = true := by decide
        exact Or.inl (separator c between)
      · obtain ⟨item, itemMember, rfl⟩ := List.mem_map.mp pieceMember
        rcases mem_quote inPiece with mark | own
        · exact Or.inl mark
        · exact Or.inr (List.mem_flatMap.mpr ⟨item, itemMember, own⟩)
    · exact Or.inl (by decide)

theorem mem_block_lines {block : Block} (plain : block.Plain) {line : Text}
    (lineMember : line ∈ block.lines) {c : Char} (member : c ∈ line) :
    isMark c = true ∨ ∃ pair ∈ block.pairs, c ∈ pair.2.chars := by
  simp only [Block.lines, List.mem_cons, List.mem_map] at lineMember
  rcases lineMember with rfl | ⟨pair, pairMember, rfl⟩
  · left
    have named : c ∈ block.name.toList → isMark c = true := fun inside =>
      mark_of_bare (plain.name.2 c inside)
    cases kind : block.kind with
    | table =>
      rw [kind] at member
      simp only [renderHeader, List.mem_cons, List.mem_append, List.not_mem_nil, or_false]
        at member
      rcases member with rfl | inside | rfl
      · decide
      · exact named inside
      · decide
    | arrayOfTables =>
      rw [kind] at member
      simp only [renderHeader, List.mem_cons, List.mem_append, List.not_mem_nil, or_false,
        or_self] at member
      rcases member with rfl | rfl | inside | rfl
      · decide
      · decide
      · exact named inside
      · decide
  · simp only [renderPair, List.mem_append, List.mem_cons] at member
    rcases member with inKey | rfl | rfl | rfl | inValue
    · exact Or.inl (mark_of_bare ((plain.keys pair pairMember).2 c inKey))
    · exact Or.inl (by decide)
    · exact Or.inl (by decide)
    · exact Or.inl (by decide)
    · rcases mem_render_scalar inValue with mark | own
      · exact Or.inl mark
      · exact Or.inr ⟨pair, pairMember, own⟩

/-- Every character of a rendered line is a mark or comes from one of the document's strings. -/
theorem mem_document_lines (plain : document.Plain) {line : Text}
    (lineMember : line ∈ document.lines) {c : Char} (member : c ∈ line) :
    isMark c = true ∨ ∃ block ∈ document, ∃ pair ∈ block.pairs, c ∈ pair.2.chars := by
  have inBlock : ∀ block ∈ document, line ∈ block.lines → isMark c = true ∨
      ∃ block ∈ document, ∃ pair ∈ block.pairs, c ∈ pair.2.chars := by
    intro block blockMember ofBlock
    rcases mem_block_lines (plain block blockMember) ofBlock member with mark | own
    · exact Or.inl mark
    · exact Or.inr ⟨block, blockMember, own⟩
  cases document with
  | nil => simp [Document.lines] at lineMember
  | cons block rest =>
    simp only [Document.lines, List.mem_append, List.mem_flatMap, List.mem_cons] at lineMember
    rcases lineMember with first | ⟨next, nextMember, rfl | later⟩
    · exact inBlock block (by simp) first
    · cases member
    · exact inBlock next (by simp [nextMember]) later

theorem newline_not_mem_lines (plain : document.Plain) :
    ∀ line ∈ document.lines, '\n' ∉ line := by
  intro line lineMember member
  rcases mem_document_lines plain lineMember member with mark | ⟨block, blockMember, pair, pairs, own⟩
  · exact absurd mark (by decide)
  · have plainChar := plain_of_mem_chars ((plain block blockMember).values pair pairs) own
    exact absurd plainChar (by decide)

/-- What holds of the marks, of the line ends and of the document's strings holds of its text. -/
theorem forall_mem_render (plain : document.Plain) {P : Char → Prop} (newline : P '\n')
    (marks : ∀ c, isMark c = true → P c)
    (strings : ∀ block ∈ document, ∀ pair ∈ block.pairs, ∀ c ∈ pair.2.chars, P c) :
    ∀ c ∈ document.render, P c := by
  intro c member
  rw [Document.render_eq_lines, renderLines, List.mem_flatMap] at member
  obtain ⟨line, lineMember, inside⟩ := member
  rcases List.mem_append.mp inside with inLine | ends
  · rcases mem_document_lines plain lineMember inLine with mark | ⟨block, blockMember, pair, pairs, own⟩
    · exact marks c mark
    · exact strings block blockMember pair pairs c own
  · rw [List.mem_singleton.mp ends]
    exact newline

theorem split_render_lines (lines : List Text) (clean : ∀ line ∈ lines, '\n' ∉ line)
    (rest : Text) : (renderLines lines ++ rest).splitOn '\n' = lines ++ rest.splitOn '\n' := by
  induction lines with
  | nil => rfl
  | cons line lines ih =>
    have text : renderLines (line :: lines) ++ rest =
        line ++ '\n' :: (renderLines lines ++ rest) := by
      simp [renderLines]
    rw [text, List.splitOn_append_cons_self_of_not_mem (clean line (by simp)),
      ih fun other member => clean other (by simp [member])]
    rfl

theorem parse_render (plain : document.Plain) :
    parse document.render = assemble document := by
  have lines : document.render.splitOn '\n' = document.lines ++ [[]] := by
    have split := split_render_lines document.lines (newline_not_mem_lines plain) []
    rwa [List.append_nil, ← Document.render_eq_lines] at split
  have tokens : (document.lines ++ [[]]).mapM parseLine = some (document.tokens ++ [.blank]) := by
    simp only [List.mapM_append, parse_document_lines plain]
    rfl
  simp only [parse, lines, tokens, Option.bind_eq_bind, Option.bind_some, blocks_tokens]

theorem prefix_append_cases {Item : Type} {cut left right : List Item}
    (starts : cut <+: left ++ right) :
    cut <+: left ∨ ∃ more, cut = left ++ more ∧ more <+: right := by
  rcases List.prefix_or_prefix_of_prefix starts (List.prefix_append left right) with inside | past
  · exact Or.inl inside
  · obtain ⟨more, rfl⟩ := past
    exact Or.inr ⟨more, rfl, (List.prefix_append_right_inj left).mp starts⟩

theorem cut_render_lines {lines : List Text} {text : Text} (cut : text <+: renderLines lines) :
    ∃ whole later piece, lines = whole ++ later ∧ text = renderLines whole ++ piece ∧
      (piece = [] ∨ ∃ line more, later = line :: more ∧ piece <+: line) := by
  induction lines generalizing text with
  | nil =>
    have empty : text = [] := List.prefix_nil.mp cut
    exact ⟨[], [], [], rfl, by rw [empty]; rfl, Or.inl rfl⟩
  | cons line lines ih =>
    have shape : renderLines (line :: lines) = line ++ '\n' :: renderLines lines := by
      simp [renderLines]
    rw [shape] at cut
    rcases prefix_append_cases cut with inside | ⟨more, rfl, past⟩
    · exact ⟨[], line :: lines, text, rfl, rfl, Or.inr ⟨line, lines, rfl, inside⟩⟩
    · rcases List.prefix_cons_iff.mp past with rfl | ⟨tail, rfl, tailCut⟩
      · exact ⟨[], line :: lines, line, rfl, by simp [renderLines],
          Or.inr ⟨line, lines, rfl, List.prefix_rfl⟩⟩
      · obtain ⟨whole, later, piece, split, rfl, ends⟩ := ih tailCut
        refine ⟨line :: whole, later, piece, by rw [split]; rfl, ?_, ends⟩
        simp [renderLines]

/-- A piece of a `key = value` line is blank, no line at all, or a line with the same key. -/
theorem parse_line_cut_pair (bare : BareKey key) (cut : piece <+: renderPair (key, scalar))
    (parsed : parseLine piece = some token) :
    (piece = [] ∧ token = .blank) ∨ ∃ more rest, piece = key.toList ++ ' ' :: '=' :: ' ' :: more ∧
      ' ' :: '=' :: ' ' :: scalar.render = ' ' :: '=' :: ' ' :: more ++ rest ∧
      (parseScalar more).map (Line.pair key) = some token := by
  obtain ⟨head, tail, shape, bareHead⟩ := bare.head
  cases piece with
  | nil =>
    simp only [parseLine, Option.some.injEq] at parsed
    exact Or.inl ⟨rfl, parsed.symm⟩
  | cons c piece =>
    have sameHead : c = head := by
      rw [renderPair, shape, List.cons_append] at cut
      exact (List.cons_prefix_cons.mp cut).1
    rw [parse_line_of_bare (sameHead ▸ bareHead)] at parsed
    right
    rcases prefix_append_cases cut with inside | ⟨more, whole, past⟩
    · -- The cut falls inside the key: nothing follows it.
      have bareAll : ∀ d ∈ c :: piece, isBareKeyChar d = true := fun d member =>
        bare.2 d (inside.subset member)
      have dropped := (take_while_append_stop bareAll [] (by simp)).2
      rw [List.append_nil] at dropped
      simp [parsePair, dropped] at parsed
    · have stops : ∀ d ∈ more.head?, isBareKeyChar d = false := by
        intro d member
        rcases List.prefix_cons_iff.mp past with rfl | ⟨rest, rfl, _⟩
        · simp at member
        · simp only [List.head?_cons, Option.mem_def, Option.some.injEq] at member
          rw [← member]
          decide
      obtain ⟨taken, dropped⟩ := take_while_append_stop bare.2 _ stops
      rw [whole] at parsed
      simp only [parsePair, taken, dropped, String.ofList_toList] at parsed
      split at parsed
      · next value =>
          obtain ⟨rest, restEq⟩ := past
          refine ⟨value, rest, whole, restEq.symm, ?_⟩
          simpa [bare.1] using parsed
      · cases parsed

theorem parse_scalar_cut_string {text : String} (plain : PlainString text)
    (cut : piece <+: quote text) (parsed : parseScalar piece = some scalar) :
    scalar = .string text := by
  cases piece with
  | nil => simp [parseScalar, parseInteger, parseSigned, parseDigits] at parsed
  | cons c piece =>
    rw [quote] at cut
    obtain ⟨rfl, inner⟩ := List.cons_prefix_cons.mp cut
    rcases prefix_append_cases inner with inside | ⟨more, rfl, past⟩
    · have plainAll : ∀ d ∈ piece, isPlainChar d = true := fun d member =>
        plain d (inside.subset member)
      have dropped := (take_while_append_stop plainAll [] (by simp)).2
      rw [List.append_nil] at dropped
      simp [parseScalar, dropped] at parsed
    · have stops : ∀ d ∈ more.head?, isPlainChar d = false := by
        intro d member
        rcases List.prefix_cons_iff.mp past with rfl | ⟨rest, rfl, _⟩
        · simp at member
        · simp only [List.head?_cons, Option.mem_def, Option.some.injEq] at member
          rw [← member]
          decide
      obtain ⟨taken, dropped⟩ := take_while_append_stop plain _ stops
      simp only [parseScalar, taken, dropped, String.ofList_toList] at parsed
      split at parsed
      · exact (Option.some.inj parsed).symm
      · cases parsed

theorem parse_name_cut (bare : BareKey name) {close : Text}
    (stops : ∀ c ∈ close.head?, isBareKeyChar c = false) (closed : close ≠ [])
    (cut : piece <+: name.toList ++ close) {found : String}
    (parsed : parseName close piece = some found) : found = name := by
  rcases prefix_append_cases cut with inside | ⟨more, rfl, past⟩
  · have bareAll : ∀ c ∈ piece, isBareKeyChar c = true := fun c member =>
      bare.2 c (inside.subset member)
    have dropped := (take_while_append_stop bareAll [] (by simp)).2
    rw [List.append_nil] at dropped
    simp [parseName, dropped, Ne.symm closed] at parsed
  · have moreStops : ∀ c ∈ more.head?, isBareKeyChar c = false := by
      obtain ⟨rest, rfl⟩ := past
      intro c member
      apply stops
      cases more with
      | nil => simp at member
      | cons d more => simpa using member
    obtain ⟨taken, dropped⟩ := take_while_append_stop bare.2 _ moreStops
    simp only [parseName, taken, dropped, String.ofList_toList] at parsed
    split at parsed
    · exact (Option.some.inj parsed).symm
    · cases parsed

theorem parse_line_cut_header {kind : SectionKind} (bare : BareKey name)
    (cut : piece <+: renderHeader kind name) (parsed : parseLine piece = some token) :
    token = .blank ∨ token = .header kind name := by
  obtain ⟨head, tail, shape, bareHead⟩ := bare.head
  have notBracket : head ≠ '[' := by
    rintro rfl
    exact absurd bareHead (by decide)
  cases piece with
  | nil =>
    simp only [parseLine, Option.some.injEq] at parsed
    exact Or.inl parsed.symm
  | cons c piece =>
    right
    cases kind with
    | table =>
      obtain ⟨rfl, inner⟩ := List.cons_prefix_cons.mp cut
      have single : parseLine ('[' :: piece) = (parseName [']'] piece).map (.header .table) := by
        cases piece with
        | nil => rfl
        | cons d piece =>
          have sameHead : d = head := by
            rw [shape, List.cons_append] at inner
            exact (List.cons_prefix_cons.mp inner).1
          subst sameHead
          simp [parseLine, notBracket]
      rw [single, Option.map_eq_some_iff] at parsed
      obtain ⟨found, parsedName, rfl⟩ := parsed
      rw [parse_name_cut bare (by simp [isBareKeyChar]) (by simp) inner parsedName]
    | arrayOfTables =>
      obtain ⟨rfl, inner⟩ := List.cons_prefix_cons.mp cut
      rcases List.prefix_cons_iff.mp inner with rfl | ⟨rest, rfl, innermost⟩
      · simp [parseLine, parseName] at parsed
      · rw [parseLine, Option.map_eq_some_iff] at parsed
        obtain ⟨found, parsedName, rfl⟩ := parsed
        rw [parse_name_cut bare (by simp [isBareKeyChar]) (by simp) innermost parsedName]

theorem add_block_keeps_table {table next : Table} {block : Block} {entries : Table}
    (held : table.lookup key = some (.table entries)) (added : addBlock table block = some next) :
    next.lookup key = some (.table entries) := by
  unfold addBlock at added
  split at added
  · split at added
    · split at added
      · cases added
      · cases added
        rw [List.lookup_append, held]
        rfl
    · clear * - held added
      induction table generalizing next with
      | nil => simp at held
      | cons entry table ih =>
        obtain ⟨name, old⟩ := entry
        simp only [push] at added
        split at added
        · next same =>
            split at added
            · next items =>
                cases added
                by_cases own : key = name
                · subst own
                  simp at held
                · have different : (key == name) = false := beq_eq_false_iff_ne.mpr own
                  simpa only [List.lookup_cons, different] using held
            · cases added
        · obtain ⟨pushed, pushedEq, rfl⟩ := Option.map_eq_some_iff.mp added
          by_cases own : (key == name) = true
          · simpa only [List.lookup_cons, own] using held
          · have different : (key == name) = false := by simpa using own
            simp only [List.lookup_cons, different] at held ⊢
            exact ih held pushedEq
  · cases added

theorem assemble_keeps_table {table : Table} {entries : Table}
    (held : table.lookup key = some (.table entries))
    (assembled : document.foldlM addBlock table = some final) :
    final.lookup key = some (.table entries) := by
  induction document generalizing table with
  | nil =>
    cases assembled
    exact held
  | cons block document ih =>
    rw [List.foldlM_cons, Option.bind_eq_bind, Option.bind_eq_some_iff] at assembled
    obtain ⟨next, added, rest⟩ := assembled
    exact ih (add_block_keeps_table held added) rest

theorem assemble_head {others : Document} (kind : block.kind = .table)
    (assembled : assemble (block :: others) = some final) :
    final.lookup block.name = some (.table block.values) := by
  rw [assemble, List.foldlM_cons, Option.bind_eq_bind, Option.bind_eq_some_iff] at assembled
  obtain ⟨next, added, rest⟩ := assembled
  refine assemble_keeps_table ?_ rest
  simp only [addBlock, kind] at added
  split at added
  · cases added
    simp
  · cases added

/-- What the lines after a block add to it when they are cut: nothing, because the next line that
is not blank is a header. -/
theorem collect_cut_rest {rest : Document} (plain : Document.Plain rest)
    {whole later : List Text} {tokens : List Line}
    (split : (rest.flatMap fun next => [] :: next.lines) = whole ++ later)
    (wholeParsed : whole.mapM parseLine = some tokens)
    (ends : piece = [] ∨ ∃ line more, later = line :: more ∧ piece <+: line)
    (pieceParsed : parseLine piece = some token) :
    ∃ others, collect block (tokens ++ [token]) = block :: others := by
  have blank : ∀ line, parseLine [] = some line → line = .blank := by
    intro line parsed
    simpa [parseLine] using parsed.symm
  cases rest with
  | nil =>
    obtain ⟨rfl, rfl⟩ := List.append_eq_nil_iff.mp split.symm
    cases wholeParsed
    have empty : piece = [] := by
      rcases ends with empty | ⟨line, more, impossible, _⟩
      · exact empty
      · cases impossible
    subst empty
    exact ⟨[], by rw [blank _ pieceParsed]; rfl⟩
  | cons next rest =>
    simp only [List.flatMap_cons, List.cons_append, Block.lines] at split
    cases whole with
    | nil =>
      cases wholeParsed
      have empty : piece = [] := by
        rcases ends with empty | ⟨line, more, rfl, cut⟩
        · exact empty
        · have first := (List.cons.inj split).1
          exact List.prefix_nil.mp (first ▸ cut)
      subst empty
      exact ⟨[], by rw [blank _ pieceParsed]; rfl⟩
    | cons first whole =>
      obtain ⟨rfl, splitRest⟩ := List.cons.inj split
      rw [List.mapM_cons] at wholeParsed
      cases whole with
      | nil =>
        cases wholeParsed
        have headerOrBlank : token = .blank ∨ token = .header next.kind next.name := by
          rcases ends with rfl | ⟨line, more, rfl, cut⟩
          · exact Or.inl (blank _ pieceParsed)
          · have first := (List.cons.inj splitRest).1
            exact parse_line_cut_header (plain next (by simp)).name (first ▸ cut) pieceParsed
        rcases headerOrBlank with rfl | rfl
        · exact ⟨[], rfl⟩
        · exact ⟨_, rfl⟩
      | cons second whole =>
        obtain ⟨rfl, _⟩ := List.cons.inj splitRest
        rw [List.mapM_cons, parse_line_header (plain next (by simp)).name] at wholeParsed
        simp only [parseLine, Option.pure_def, Option.bind_eq_bind, Option.bind_some,
          Option.bind_eq_some_iff, Option.some.injEq] at wholeParsed
        obtain ⟨_, ⟨parsed, _, rfl⟩, rfl⟩ := wholeParsed
        exact ⟨_, rfl⟩

theorem lookup_values_none {block : Block} (absent : ∀ pair ∈ block.pairs, pair.1 ≠ key) :
    block.values.lookup key = none := by
  rw [List.lookup_eq_none_iff]
  intro entry member
  obtain ⟨pair, pairMember, rfl⟩ := List.mem_map.mp member
  simpa using (absent pair pairMember).symm

theorem map_m_concat {Item Result : Type} {f : Item → Option Result} {front : List Item}
    {last : Item} {results : List Result} (mapped : (front ++ [last]).mapM f = some results) :
    ∃ parsed final, front.mapM f = some parsed ∧ f last = some final ∧
      results = parsed ++ [final] := by
  rw [List.mapM_append, Option.bind_eq_bind, Option.bind_eq_some_iff] at mapped
  obtain ⟨parsed, frontParsed, rest⟩ := mapped
  rw [Option.bind_eq_some_iff] at rest
  obtain ⟨tail, lastParsed, rest⟩ := rest
  rw [List.mapM_cons, Option.bind_eq_bind, Option.bind_eq_some_iff] at lastParsed
  obtain ⟨final, finalParsed, tailEq⟩ := lastParsed
  cases tailEq
  exact ⟨parsed, final, frontParsed, finalParsed, (Option.some.inj rest).symm⟩

/-- A table whose last key is a string, at the head of a document that was cut: if what is left
parses, the table is read whole or without its last key. -/
theorem parse_cut {rest : Document} {front : List (String × Scalar)}
    (last value : String) (plain : Document.Plain (block :: rest)) (kind : block.kind = .table)
    (pairs : block.pairs = front ++ [(last, .string value)])
    (fresh : ∀ pair ∈ front, pair.1 ≠ last) {text : Text}
    (cut : text <+: Document.render (block :: rest))
    (starts : renderHeader .table block.name <+: text) {table : Table}
    (parsed : parse text = some table) :
    table.lookup block.name = some (.table block.values) ∨
      ∃ entries, table.lookup block.name = some (.table entries) ∧ entries.lookup last = none := by
  have plainBlock := plain block (by simp)
  have clean := newline_not_mem_lines plain
  rw [Document.render_eq_lines] at cut
  obtain ⟨whole, later, piece, split, rfl, ends⟩ := cut_render_lines cut
  have pieceClean : '\n' ∉ piece := by
    rcases ends with rfl | ⟨line, more, rfl, inside⟩
    · simp
    · exact fun member => clean line (by rw [split]; simp) (inside.subset member)
  have lines : (renderLines whole ++ piece).splitOn '\n' = whole ++ [piece] := by
    rw [split_render_lines whole fun line member => clean line (by rw [split]; simp [member]),
      List.splitOn_eq_singleton pieceClean]
  simp only [parse, lines, Option.bind_eq_bind, Option.bind_eq_some_iff] at parsed
  obtain ⟨all, allParsed, document, blocksEq, assembled⟩ := parsed
  obtain ⟨tokens, token, wholeParsed, pieceParsed, rfl⟩ := map_m_concat allParsed
  have complete : ∀ extra, whole = block.lines ++ extra →
      (rest.flatMap fun next => [] :: next.lines) = extra ++ later →
      table.lookup block.name = some (.table block.values) := by
    rintro extra rfl restEq
    rw [List.mapM_append, parse_block_lines plainBlock] at wholeParsed
    simp only [Option.bind_eq_bind, Option.bind_some, Option.bind_eq_some_iff] at wholeParsed
    obtain ⟨extraTokens, extraParsed, tokensEq⟩ := wholeParsed
    cases tokensEq
    obtain ⟨others, collected⟩ := collect_cut_rest block
      (fun next member => plain next (by simp [member])) restEq extraParsed ends pieceParsed
    rw [List.append_assoc, blocks_block, collected] at blocksEq
    cases blocksEq
    exact assemble_head block kind assembled
  rcases List.append_eq_append_iff.mp split with ⟨extra, wholeEq, restEq⟩ | ⟨extra, linesEq, laterEq⟩
  · exact Or.inl (complete extra wholeEq restEq)
  cases extra with
  | nil =>
    exact Or.inl (complete [] (by simpa using linesEq.symm) (by simpa using laterEq.symm))
  | cons line extra =>
    have pieceCut : piece <+: line := by
      rcases ends with rfl | ⟨other, more, rfl, inside⟩
      · exact List.nil_prefix
      · rw [(List.cons.inj laterEq).1] at inside
        exact inside
    cases whole with
    | nil =>
      obtain ⟨lineEq, _⟩ := List.cons.inj linesEq
      rw [← lineEq, kind] at pieceCut
      have pieceEq : piece = renderHeader .table block.name :=
        pieceCut.eq_of_length_le starts.length_le
      rw [pieceEq, parse_line_header plainBlock.name] at pieceParsed
      cases wholeParsed
      cases pieceParsed
      cases blocksEq
      have found := assemble_head ⟨.table, block.name, []⟩ rfl assembled
      exact Or.inr ⟨_, found, rfl⟩
    | cons first whole =>
      obtain ⟨rfl, pairsEq⟩ := List.cons.inj linesEq
      obtain ⟨before, after, pairsSplit, rfl, afterEq⟩ := List.map_eq_append_iff.mp pairsEq
      obtain ⟨pair, remaining, rfl, rfl, _⟩ := List.map_eq_cons_iff.mp afterEq
      have inBlock : ∀ other ∈ before, other ∈ block.pairs := fun other member => by
        rw [pairsSplit]
        exact List.mem_append_left _ member
      let sub : Block := { block with pairs := before }
      have plainSub : sub.Plain :=
        { name := plainBlock.name
          keys := fun other member => plainBlock.keys other (inBlock other member)
          values := fun other member => plainBlock.values other (inBlock other member) }
      have subLines : renderHeader block.kind block.name :: before.map renderPair = sub.lines := rfl
      rw [subLines, parse_block_lines plainSub] at wholeParsed
      cases wholeParsed
      rw [blocks_block] at blocksEq
      -- Either the cut line is the last one, or it belongs to the keys before the last.
      have order : (before = front ∧ pair = (last, .string value)) ∨
          ∃ between, front = before ++ pair :: between := by
        rw [pairs] at pairsSplit
        rcases List.eq_nil_or_concat' remaining with rfl | ⟨between, final, rfl⟩
        · obtain ⟨same, single⟩ := List.append_inj' pairsSplit rfl
          exact Or.inl ⟨same.symm, (List.cons.inj single).1.symm⟩
        · rw [← List.cons_append, ← List.append_assoc] at pairsSplit
          exact Or.inr ⟨between, (List.append_inj' pairsSplit rfl).1⟩
      have keptKeys : ∀ other ∈ before, other.1 ≠ last := by
        intro other member
        rcases order with ⟨rfl, _⟩ | ⟨between, rfl⟩
        · exact fresh other member
        · exact fresh other (by simp [member])
      have blankCase : token = .blank → ∃ entries,
          table.lookup block.name = some (.table entries) ∧ entries.lookup last = none := by
        rintro rfl
        cases blocksEq
        exact ⟨_, assemble_head sub kind assembled, lookup_values_none keptKeys⟩
      rcases parse_line_cut_pair (plainBlock.keys pair (by rw [pairsSplit]; simp)) pieceCut
        pieceParsed with ⟨_, blank⟩ | ⟨more, tail, _, scalarEq, tokenEq⟩
      · exact Or.inr (blankCase blank)
      · obtain ⟨scalar, scalarParsed, rfl⟩ := Option.map_eq_some_iff.mp tokenEq
        cases blocksEq
        have found := assemble_head { sub with pairs := before ++ [(pair.1, scalar)] }
          kind assembled
        rcases order with ⟨rfl, rfl⟩ | ⟨between, rfl⟩
        · have scalarCut : more <+: quote value :=
            ⟨tail, (List.cons.inj (List.cons.inj (List.cons.inj scalarEq).2).2).2.symm⟩
          have plainValue : PlainString value :=
            plainBlock.values (last, .string value) (by rw [pairs]; simp)
          rw [parse_scalar_cut_string plainValue scalarCut scalarParsed] at found
          left
          rw [found, Block.values, Block.values, pairs]
        · refine Or.inr ⟨_, found, lookup_values_none ?_⟩
          intro other member
          rcases List.mem_append.mp member with inside | own
          · exact keptKeys other inside
          · rw [List.mem_singleton.mp own]
            exact fresh pair (by simp)

theorem length_render_nat {value : Nat} (positive : 0 < bound) (small : value < 10 ^ bound) :
    (renderInteger value).length ≤ bound :=
  (Nat.length_toDigits_le_iff (by decide) positive).mpr small

theorem length_block_render :
    block.render.length = (renderHeader block.kind block.name).length + 1 +
      (block.pairs.map fun pair => pair.1.toList.length + 4 + pair.2.render.length).sum := by
  have lines : ∀ pairs : List (String × Scalar),
      (renderLines (pairs.map renderPair)).length =
        (pairs.map fun pair => pair.1.toList.length + 4 + pair.2.render.length).sum := by
    intro pairs
    induction pairs with
    | nil => rfl
    | cons pair pairs ih =>
      simp only [renderLines, List.map_cons, List.flatMap_cons, List.length_append,
        List.sum_cons, renderPair, List.length_cons, List.length_nil] at ih ⊢
      omega
  have rest := lines block.pairs
  simp only [Block.render, Block.lines, renderLines, List.flatMap_cons,
    List.length_append, List.length_cons, List.length_nil] at rest ⊢
  omega

theorem push_arrays (name : String) (front : Table) (absent : ∀ entry ∈ front, entry.1 ≠ name)
    (items : List Value) (element : Value) :
    push name element (front ++ [(name, .array items)]) =
      some (front ++ [(name, .array (items ++ [element]))]) := by
  induction front with
  | nil => simp [push]
  | cons entry front ih =>
    obtain ⟨key, old⟩ := entry
    have different : key ≠ name := absent (key, old) (by simp)
    have rest := ih fun entry member => absent entry (by simp [member])
    simp [push, different, rest]

theorem push_first (name : String) (front : Table) (absent : ∀ entry ∈ front, entry.1 ≠ name)
    (element : Value) :
    push name element front = some (front ++ [(name, .array [element])]) := by
  induction front with
  | nil => rfl
  | cons entry front ih =>
    obtain ⟨key, old⟩ := entry
    have different : key ≠ name := absent (key, old) (by simp)
    have rest := ih fun entry member => absent entry (by simp [member])
    simp [push, different, rest]

theorem assemble_arrays (name : String) (front : Table) (absent : ∀ entry ∈ front, entry.1 ≠ name)
    (blocks : Document) (elements : ∀ block ∈ blocks, block.kind = .arrayOfTables ∧
      block.name = name ∧ (block.pairs.map Prod.fst).Nodup) (items : List Value) :
    blocks.foldlM addBlock (front ++ [(name, .array items)]) =
      some (front ++ [(name, .array (items ++ blocks.map fun block => .table block.values))]) := by
  induction blocks generalizing items with
  | nil => simp
  | cons block blocks ih =>
    obtain ⟨kind, named, keys⟩ := elements block (by simp)
    have rest := ih (fun other member => elements other (by simp [member]))
      (items ++ [.table block.values])
    rw [List.foldlM_cons]
    simp only [addBlock, keys, if_true, kind, named, push_arrays name front absent,
      Option.bind_eq_bind, Option.bind_some, rest, List.map_cons, List.append_assoc,
      List.singleton_append]

theorem assemble_table_and_array {block first : Block} {rest : Document}
    (kind : block.kind = .table) (keys : (block.pairs.map Prod.fst).Nodup)
    (other : block.name ≠ first.name)
    (elements : ∀ element ∈ first :: rest, element.kind = .arrayOfTables ∧
      element.name = first.name ∧ (element.pairs.map Prod.fst).Nodup) :
    assemble (block :: first :: rest) = some
      [(block.name, .table block.values),
        (first.name, .array ((first :: rest).map fun element => .table element.values))] := by
  obtain ⟨firstKind, _, firstKeys⟩ := elements first (by simp)
  have absent : ∀ entry ∈ [(block.name, Value.table block.values)], entry.1 ≠ first.name := by
    simpa using other
  have entered : addBlock [] block = some [(block.name, .table block.values)] := by
    simp [addBlock, keys, kind]
  have started : addBlock [(block.name, .table block.values)] first =
      some ([(block.name, .table block.values)] ++
        [(first.name, .array [.table first.values])]) := by
    simp only [addBlock, firstKeys, if_true, firstKind, push_first first.name _ absent]
  have arrays := assemble_arrays first.name _ absent rest
    (fun element member => elements element (by simp [member])) [.table first.values]
  rw [assemble, List.foldlM_cons, entered, Option.bind_eq_bind, Option.bind_some,
    List.foldlM_cons, started, Option.bind_eq_bind, Option.bind_some, arrays]
  rfl

theorem length_map_m {Item Result : Type} {f : Item → Option Result} {items : List Item}
    {results : List Result} (mapped : items.mapM f = some results) :
    results.length = items.length := by
  induction items generalizing results with
  | nil =>
    cases mapped
    rfl
  | cons item items ih =>
    simp only [List.mapM_cons, Option.bind_eq_bind, Option.bind_eq_some_iff] at mapped
    obtain ⟨result, first, others, rest, same⟩ := mapped
    cases same
    simp [ih rest]

/-- An array of a document has no more elements than the document has characters. -/
def Crate.CountsArrays (crate : Crate) : Prop :=
  ∀ text table key items, crate.fromStr text = .ok table →
    table.lookup key = some (.array items) → items.length ≤ text.length

def plainCrate : Crate where
  fromStr text := match parse text with
    | some table => .ok table
    | none => .error "TOML parse error"
  describe _ := "invalid type"

theorem plain_crate_ok {text : Text} {table : Table} :
    plainCrate.fromStr text = .ok table ↔ parse text = some table := by
  simp only [plainCrate]
  cases parse text <;> simp

theorem plain_crate_reads_plain : plainCrate.ReadsPlain := by
  intro document plain text cut
  simp only [plainCrate]
  cases parse text <;> rfl

theorem count_nonempty_lines (text : Text) :
    (text.splitOn '\n').countP (· ≠ []) ≤ text.length := by
  induction text with
  | nil => decide
  | cons c text ih =>
    rw [List.splitOn_cons_eq_if_modifyHead]
    split
    · rw [List.countP_cons_of_neg (by simp), List.length_cons]
      omega
    · obtain ⟨line, lines, shape⟩ :=
        List.exists_cons_of_ne_nil (List.splitOn_ne_nil '\n' text)
      rw [shape, List.countP_cons] at ih
      rw [shape, List.modifyHead_cons, List.countP_cons_of_pos (by simp), List.length_cons]
      omega

def Line.isHeader : Line → Bool
  | .header _ _ => true
  | _ => false

theorem count_headers {lines : List Text} {tokens : List Line}
    (parsed : lines.mapM parseLine = some tokens) :
    tokens.countP Line.isHeader ≤ lines.countP (· ≠ []) := by
  induction lines generalizing tokens with
  | nil =>
    cases parsed
    simp
  | cons line lines ih =>
    simp only [List.mapM_cons, Option.bind_eq_bind, Option.bind_eq_some_iff] at parsed
    obtain ⟨token, first, others, rest, same⟩ := parsed
    cases same
    have fewer := ih rest
    cases line with
    | nil =>
      cases first
      rw [List.countP_cons_of_neg (by simp [Line.isHeader]), List.countP_cons_of_neg (by simp)]
      exact fewer
    | cons c line =>
      rw [List.countP_cons, List.countP_cons_of_pos (a := c :: line) (by simp)]
      split <;> omega

theorem length_collect (current : Block) (tokens : List Line) :
    (collect current tokens).length = tokens.countP Line.isHeader + 1 := by
  induction tokens generalizing current with
  | nil => rfl
  | cons token tokens ih => cases token <;> simp [collect, List.countP_cons, Line.isHeader, ih]

theorem length_blocks {tokens : List Line} (found : blocks tokens = some document) :
    document.length = tokens.countP Line.isHeader := by
  induction tokens with
  | nil =>
    cases found
    rfl
  | cons token tokens ih =>
    cases token with
    | blank => simpa [Line.isHeader] using ih found
    | pair key value => cases found
    | header kind name =>
      cases found
      simp [length_collect, List.countP_cons, Line.isHeader]

/-- Every array at the top of the table has at most `bound` elements. -/
def ArraysUpTo (bound : Nat) (table : Table) : Prop :=
  ∀ key items, (key, Value.array items) ∈ table → items.length ≤ bound

theorem arrays_up_to_push {table next : Table} {element : Value} (upTo : ArraysUpTo bound table)
    (pushed : push name element table = some next) :
    ArraysUpTo (bound + 1) next := by
  induction table generalizing next with
  | nil =>
    cases pushed
    intro key items found
    simp only [List.mem_singleton, Prod.mk.injEq, Value.array.injEq] at found
    simp [found.2]
  | cons entry table ih =>
    obtain ⟨first, old⟩ := entry
    have later : ArraysUpTo bound table :=
      fun key items member => upTo key items (List.mem_cons_of_mem _ member)
    have head : ∀ items, old = .array items → items.length ≤ bound :=
      fun items shape => upTo first items (by simp [shape])
    simp only [push] at pushed
    split at pushed
    · split at pushed
      · next items =>
          cases pushed
          intro key found member
          rcases List.mem_cons.mp member with same | member
          · cases same
            simpa using head items rfl
          · exact Nat.le_succ_of_le (later key found member)
      · cases pushed
    · obtain ⟨rest, pushedRest, same⟩ := Option.map_eq_some_iff.mp pushed
      subst same
      intro key found member
      rcases List.mem_cons.mp member with same | member
      · cases same
        exact Nat.le_succ_of_le (head found rfl)
      · exact ih later pushedRest key found member

theorem arrays_up_to_add_block {table next : Table} {block : Block}
    (upTo : ArraysUpTo bound table) (added : addBlock table block = some next) :
    ArraysUpTo (bound + 1) next := by
  unfold addBlock at added
  split at added
  · split at added
    · split at added
      · cases added
      · cases added
        intro key items member
        rcases List.mem_append.mp member with member | member
        · exact Nat.le_succ_of_le (upTo key items member)
        · simp at member
    · exact arrays_up_to_push upTo added
  · cases added

theorem arrays_up_to_assemble (bound : Nat) {table : Table} (upTo : ArraysUpTo bound table)
    (assembled : document.foldlM addBlock table = some final) :
    ArraysUpTo (bound + document.length) final := by
  induction document generalizing bound table with
  | nil =>
    cases assembled
    exact upTo
  | cons block document ih =>
    rw [List.foldlM_cons, Option.bind_eq_bind, Option.bind_eq_some_iff] at assembled
    obtain ⟨next, added, rest⟩ := assembled
    have grown := ih _ (arrays_up_to_add_block upTo added) rest
    rwa [List.length_cons, Nat.add_comm document.length 1, ← Nat.add_assoc]

theorem plain_crate_counts_arrays : plainCrate.CountsArrays := by
  intro text table key items read found
  rw [plain_crate_ok] at read
  simp only [parse, Option.bind_eq_bind, Option.bind_eq_some_iff] at read
  obtain ⟨tokens, parsed, document, collected, assembled⟩ := read
  have upTo := arrays_up_to_assemble 0 (by simp [ArraysUpTo]) assembled
  have member : (key, Value.array items) ∈ table := by
    obtain ⟨before, after, split, _⟩ := List.lookup_eq_some_iff.mp found
    simp [split]
  calc
    items.length ≤ 0 + document.length := upTo key items member
    _ = tokens.countP Line.isHeader := by rw [Nat.zero_add, length_blocks collected]
    _ ≤ (text.splitOn '\n').countP (· ≠ []) := count_headers parsed
    _ ≤ text.length := count_nonempty_lines text

end Toml
