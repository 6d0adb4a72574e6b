import Tapectl.Library.Text

/-!
# dar's slice layer

`dar/slice.rs`: the parser of a slice header, `cut_stream`, which cuts dar's archive on standard
output into slices, and `Join`, which puts the slices back together. The stream is a list of what
the reads of it give; the sinks of the slices are their bytes, and the caller's `open`, `close` and
`tick` are left out. Errors are the messages of the refusals.
-/

namespace Tapectl.Dar

open StoredText

def magic : Bytes := [0x00, 0x00, 0x00, 0x7b]
def labelLen : Nat := 10
def tlvSliceSize : Nat := 1
def tlvDataName : Nat := 3
/-- `N` -/
def notLast : UInt8 := 0x4e
/-- `T` -/
def last : UInt8 := 0x54
/-- `E` -/
def flagAtEnd : UInt8 := 0x45
def infinintGroup : Nat := 4
def maxHeader : Nat := 4096

def cutVerb : String := "cut the archive"
def joinVerb : String := "join the slices"

def refuseTo (verb what : String) : String :=
  s!"dar slice framing: {what} — refusing to {verb} rather than guess " ++
    "(a dar version whose slice header tapectl does not know would land here)"

def hexDigits (value : Nat) : String := String.ofList (Nat.toDigits 16 value)

/-- `{:?}` of a byte as a character. -/
def debugByte (byte : UInt8) : String :=
  let value := byte.toNat
  let text :=
    if value = 0 then "\\0"
    else if value = 9 then "\\t"
    else if value = 10 then "\\n"
    else if value = 13 then "\\r"
    else if value = 39 then "\\'"
    else if value = 92 then "\\\\"
    else if (32 ≤ value ∧ value < 127) ∨ (160 < value ∧ value ≠ 173) then
      String.singleton (Char.ofNat value)
    else "\\u\x7b" ++ hexDigits value ++ "\x7d"
  "'" ++ text ++ "'"

structure Header where
  bytes : Bytes
  flag : UInt8
  dataNameAt : Nat
  sliceSize : Option Nat
  deriving DecidableEq, Repr

structure Recorder where
  left : Bytes
  bytes : Bytes
  deriving DecidableEq, Repr

namespace Recorder

variable (verb : String)

def byte (recorder : Recorder) : Except String (UInt8 × Recorder) :=
  if maxHeader ≤ recorder.bytes.length then
    .error (refuseTo verb s!"a header longer than {maxHeader} bytes")
  else match recorder.left with
    | [] => .error (refuseTo verb "the header ends early")
    | next :: left => .ok (next, ⟨left, recorder.bytes ++ [next]⟩)

def take : Nat → Recorder → Except String (Bytes × Recorder)
  | 0, recorder => .ok ([], recorder)
  | count + 1, recorder => do
    let (first, recorder) ← recorder.byte verb
    let (rest, recorder) ← take count recorder
    .ok (first :: rest, recorder)

/-- The zeros before an infinint's width byte, and that byte. A header has no room for more than
`maxHeader` of them: without turns left the next byte is refused. -/
def preamble : Nat → Nat → Recorder → Except String ((Nat × UInt8) × Recorder)
  | 0, _, _ => .error (refuseTo verb s!"a header longer than {maxHeader} bytes")
  | turns + 1, zeros, recorder => do
    let (next, recorder) ← recorder.byte verb
    if next ≠ 0 then .ok ((zeros, next), recorder) else preamble turns (zeros + 1) recorder

def countOnes (byte : UInt8) : Nat := (List.range 8).countP fun bit => byte.toNat.testBit bit

def leadingZeros (byte : UInt8) : Nat := 8 - (List.range 9).countP fun bits => 2 ^ bits ≤ byte.toNat

def infinint (recorder : Recorder) : Except String (Nat × Recorder) := do
  let ((zeros, width), recorder) ← preamble verb (maxHeader + 1) 0 recorder
  if countOnes width ≠ 1 then
    let digits := hexDigits width.toNat
    let padded := if digits.length < 2 then "0" ++ digits else digits
    .error (refuseTo verb s!"an integer width byte 0x{padded} with more than one bit set")
  else
    let groups := zeros * 8 + leadingZeros width + 1
    let width := groups * infinintGroup
    let (value, recorder) ← recorder.take verb width
    if 8 < (value.dropWhile (· == 0)).length then
      .error (refuseTo verb s!"an integer {width} bytes wide")
    else .ok (value.foldl (fun sum next => sum * 256 + next.toNat) 0, recorder)

/-- The data name's place and the slice size, of the fields read so far. -/
abbrev Fields := Option Nat × Option Nat

def fieldValue (found : Fields) (tlvType len : Nat) (recorder : Recorder) :
    Except String (Fields × Recorder) :=
  let place := recorder.bytes.length
  if maxHeader < len then .error (refuseTo verb s!"a header field {len} bytes long")
  else if tlvType = tlvDataName then
    if len ≠ labelLen ∨ found.1.isSome = true then
      .error (refuseTo verb s!"a data-name field {len} bytes long")
    else do
      let (_, recorder) ← recorder.take verb len
      .ok ((some place, found.2), recorder)
  else if tlvType = tlvSliceSize then
    if found.2.isSome = true then .error (refuseTo verb "two slice-size fields")
    else do
      let (size, recorder) ← recorder.infinint verb
      if recorder.bytes.length - place ≠ len then
        .error (refuseTo verb "a slice-size field whose length disagrees with it")
      else .ok ((found.1, some size), recorder)
  else .error (refuseTo verb s!"an unknown header field type {tlvType}")

def field (found : Fields) (recorder : Recorder) : Except String (Fields × Recorder) := do
  let (tag, recorder) ← recorder.take verb 2
  let (len, recorder) ← recorder.infinint verb
  fieldValue verb found (tag.foldl (fun sum next => sum * 256 + next.toNat) 0) len recorder

def fields : Nat → Fields → Recorder → Except String (Fields × Recorder)
  | 0, found, recorder => .ok (found, recorder)
  | count + 1, found, recorder => do
    let (found, recorder) ← field verb found recorder
    fields count found recorder

end Recorder

def parseHeaderTo (verb : String) (input : Bytes) : Except String (Header × Bytes) := do
  let (start, recorder) ← Recorder.take verb magic.length ⟨input, []⟩
  if start ≠ magic then
    .error (refuseTo verb "the data does not start with dar's magic number")
  else
    let (_, recorder) ← recorder.take verb labelLen
    let (flag, recorder) ← recorder.byte verb
    if flag ≠ last ∧ flag ≠ notLast ∧ flag ≠ flagAtEnd then
      let shown := debugByte flag
      .error (refuseTo verb s!"an unknown slice flag {shown}")
    else
      let (extension, recorder) ← recorder.byte verb
      if extension ≠ last then
        let shown := debugByte extension
        .error (refuseTo verb s!"header extension {shown}, not a TLV list")
      else
        let (count, recorder) ← recorder.infinint verb
        if 16 < count then .error (refuseTo verb s!"{count} header fields")
        else
          let (found, recorder) ← recorder.fields verb count (none, none)
          match found.1 with
          | none => .error (refuseTo verb "no data-name field")
          | some place => .ok (⟨recorder.bytes, flag, place, found.2⟩, recorder.left)

def parseHeader (input : Bytes) : Except String (Header × Bytes) := parseHeaderTo cutVerb input

/-- `copy_from_slice` of a label over the bytes at `place`. -/
def relabel (bytes : Bytes) (place : Nat) (label : Bytes) : Bytes :=
  bytes.take place ++ label ++ bytes.drop (place + labelLen)

def labelAt (bytes : Bytes) (place : Nat) : Bytes := (bytes.drop place).take labelLen

structure SliceFrame where
  header : Bytes
  sliceSize : Nat
  deriving DecidableEq, Repr

def SliceFrame.new (template : Bytes) (streamHeader : Header) : Except String SliceFrame := do
  let (tmpl, _) ← parseHeader template
  if tmpl.flag ≠ flagAtEnd then
    let shown := debugByte tmpl.flag
    .error (refuseTo cutVerb s!"the template slice's flag is {shown}, not 'E' (flag at the end)")
  else match tmpl.sliceSize with
  | none => .error (refuseTo cutVerb "the template slice records no slice size")
  | some sliceSize =>
    if streamHeader.flag ≠ last ∨ streamHeader.sliceSize.isSome = true then
      .error (refuseTo cutVerb
        "dar's standard output is not a single-slice archive (flag 'T', no slice size)")
    else
      let named := relabel tmpl.bytes magic.length (labelAt streamHeader.bytes magic.length)
      let header := relabel named tmpl.dataNameAt
        (labelAt streamHeader.bytes streamHeader.dataNameAt)
      if sliceSize ≤ header.length + 1 then
        let length := header.length
        .error (refuseTo cutVerb (s!"a slice size of {sliceSize} bytes leaves no room for data " ++
          s!"after a {length}-byte header"))
      else .ok ⟨header, sliceSize⟩

def SliceFrame.payloadPerSlice (frame : SliceFrame) : Nat :=
  frame.sliceSize - frame.header.length - 1

/-- What one read of the stream gives: some bytes, or an interruption. -/
inductive Delivery where
  | bytes (first : UInt8) (more : Bytes)
  | interrupted
  deriving DecidableEq, Repr

def Delivery.content : Delivery → Bytes
  | .bytes first more => first :: more
  | .interrupted => []

/-- A stream as its reads give it; after the last delivery it is at its end. -/
abbrev Reader := List Delivery

namespace Reader

def stream (reader : Reader) : Bytes := reader.flatMap Delivery.content

def putBack (left : Bytes) (reader : Reader) : Reader :=
  match left with
  | [] => reader
  | first :: more => .bytes first more :: reader

/-- The stream after the header's bytes have been read one by one. -/
def advance : Nat → Reader → Reader
  | _, [] => []
  | count, delivery :: rest =>
    if delivery.content.length ≤ count then advance (count - delivery.content.length) rest
    else putBack (delivery.content.drop count) rest

/-- One read into a buffer of `room` bytes; an interrupted one is `none`. -/
def read (room : Nat) : Reader → Option Bytes × Reader
  | [] => (some [], [])
  | .interrupted :: rest => (none, rest)
  | .bytes first more :: rest =>
    (some ((first :: more).take room), putBack ((first :: more).drop room) rest)

end Reader

def payloadBuffer : Nat := 2 ^ 20

/-- `buffered` is the buffer from `start` to `end`. -/
structure Payload where
  inner : Reader
  buffered : Bytes
  eof : Bool
  consumed : Nat
  deriving DecidableEq, Repr

namespace Payload

def new (inner : Reader) (headerLen : Nat) : Payload := ⟨inner, [], false, headerLen⟩

variable (payload : Payload)

/-- One turn of `fill`. -/
def readOnce : Payload :=
  match payload.inner.read (payloadBuffer - payload.buffered.length) with
  | (none, inner) => { payload with inner }
  | (some [], inner) => { payload with inner, eof := true }
  | (some bytes, inner) =>
    { payload with
      inner
      buffered := payload.buffered ++ bytes
      consumed := payload.consumed + bytes.length }

def fillWithin : Nat → Payload → Payload
  | 0, payload => payload
  | turns + 1, payload =>
    if payload.buffered.length < 2 ∧ payload.eof = false then fillWithin turns payload.readOnce
    else payload

/-- Every turn uses up a delivery, and one more sees the end. -/
def fill : Payload := payload.fillWithin (payload.inner.length + 1)

/-- `peek` on a filled payload. -/
def peek (max : Nat) : Bytes :=
  payload.buffered.take (min (payload.buffered.length - 1) max)

def consume (count : Nat) : Payload :=
  { payload with buffered := payload.buffered.drop count }

/-- `at_end` on a filled payload. -/
def atEnd : Bool := payload.eof && payload.buffered.length ≤ 1

def trailer : Option UInt8 :=
  match payload.buffered with
  | [byte] => some byte
  | _ => none

def remaining : Bytes := payload.buffered ++ payload.inner.stream

end Payload

structure CutSummary where
  slices : Nat
  streamBytes : Nat
  sliceSize : Nat
  deriving DecidableEq, Repr

/-- The payload of one slice: up to `left` bytes, a read at a time. -/
def fillSlice : Nat → Nat → Bytes → Payload → Bytes × Payload
  | 0, _, sink, payload => (sink, payload)
  | turns + 1, left, sink, payload =>
    if left = 0 then (sink, payload)
    else
      let payload := payload.fill
      let chunk := payload.peek left
      if chunk = [] then (sink, payload)
      else fillSlice turns (left - chunk.length) (sink ++ chunk) (payload.consume chunk.length)

def maxU32 : Nat := 2 ^ 32 - 1

/-- The slices from number `n + 1` on. -/
def cutSlices (frame : SliceFrame) : Nat → Nat → Payload → List Bytes →
    Except String (List Bytes × CutSummary)
  | 0, _, _, _ => .error (refuseTo cutVerb "more than 2^32 slices")
  | turns + 1, n, payload, done =>
    if maxU32 < n + 1 then .error (refuseTo cutVerb "more than 2^32 slices")
    else
      let (sink, payload) := fillSlice (payload.remaining.length + 1) frame.payloadPerSlice
        frame.header payload
      let payload := payload.fill
      if payload.atEnd = true then
        match payload.trailer with
        | some byte =>
          if byte = last then
            .ok (done ++ [sink ++ [last]], ⟨n + 1, payload.consumed, frame.sliceSize⟩)
          else
            let shown := debugByte byte
            .error (refuseTo cutVerb
              s!"the stream ends with {shown}, not dar's last-slice flag 'T'")
        | none => .error (refuseTo cutVerb "the stream ends without a trailer")
      else cutSlices frame turns (n + 1) payload (done ++ [sink ++ [notLast]])

/-- Every slice but the last takes a byte of the payload, so the turns are enough. -/
def cutStream (stream : Reader) (template : Bytes) : Except String (List Bytes × CutSummary) := do
  let (streamHeader, _) ← parseHeader stream.stream
  let frame ← SliceFrame.new template streamHeader
  let payload := Payload.new (stream.advance streamHeader.bytes.length) streamHeader.bytes.length
  cutSlices frame (payload.remaining.length + 1) 0 payload []

structure StreamTemplate where
  header : Header
  deriving DecidableEq, Repr

def StreamTemplate.new (bytes : Bytes) : Except String StreamTemplate := do
  let (header, _) ← parseHeaderTo joinVerb bytes
  if header.flag ≠ last ∨ header.sliceSize.isSome = true then
    .error (refuseTo joinVerb
      ("the stream template is not a single-slice archive's header (flag 'T', no " ++
        "slice size)"))
  else .ok ⟨header⟩

def StreamTemplate.headerFor (template : StreamTemplate) (slice1 : Header) :
    Except String Bytes :=
  if slice1.flag ≠ flagAtEnd ∨ slice1.sliceSize.isNone = true then
    let shown := debugByte slice1.flag
    let article := if slice1.sliceSize.isSome then "a" else "no"
    .error (refuseTo joinVerb
      (s!"slice 1's header has flag {shown} and {article} slice size, not a sliced archive's " ++
        "('E', with one)"))
  else
    let tmpl := template.header
    let named := relabel tmpl.bytes magic.length (labelAt slice1.bytes magic.length)
    .ok (relabel named tmpl.dataNameAt (labelAt slice1.bytes slice1.dataNameAt))

/-- `out` is what was written; `head` pairs slice 1's first bytes with which of them are holes. -/
structure Join where
  out : Bytes
  template : StreamTemplate
  frame : Option (Bytes × Nat)
  slice : Nat
  isOpen : Bool
  isLast : Bool
  taken : Nat
  head : List (UInt8 × Bool)
  held : Option (UInt8 × Bool)
  ended : Bool
  deriving DecidableEq, Repr

namespace Join

def new (template : StreamTemplate) : Join :=
  ⟨[], template, none, 0, false, false, 0, [], none, false⟩

variable (join : Join)

def emit (bytes : Bytes) : Join :=
  { join with out := join.out ++ bytes }

def start (n : Nat) (isLast : Bool) : Except String Join :=
  if join.ended = true then
    .error (refuseTo joinVerb s!"slice {n} after the archive's last slice")
  else if join.isOpen = true then
    let begun := join.slice
    .error (refuseTo joinVerb s!"slice {n} begun before slice {begun} ended")
  else if n ≠ join.slice + 1 ∨ maxU32 < n then
    let due := min (join.slice + 1) maxU32
    .error (refuseTo joinVerb s!"slice {n} where slice {due} was due")
  else .ok { join with slice := n, isOpen := true, isLast, taken := 0, held := none }

/-- Payload bytes: every one but the newest goes out, which is held back. -/
def payload (bytes : Bytes) (hole : Bool) : Join :=
  match bytes.getLast? with
  | none => join
  | some newest =>
    let join := match join.held with
      | some (byte, _) => emit { join with held := none } [byte]
      | none => join
    { emit join bytes.dropLast with held := some (newest, hole) }

def runs : List (UInt8 × Bool) → List (Bytes × Bool)
  | [] => []
  | (byte, hole) :: rest =>
    match runs rest with
    | (bytes, same) :: more =>
      if same = hole then (byte :: bytes, hole) :: more
      else ([byte], hole) :: (bytes, same) :: more
    | [] => [([byte], hole)]

/-- The header of slice 1, unless a hole reaches into what the parser may have read. -/
def firstHeader (head : List (UInt8 × Bool)) : Except String Header :=
  let firstHole := head.findIdx? fun byte => byte.2
  let isHole := refuseTo joinVerb
    ("slice 1's header is a hole (bytes of the slice nobody could give whole), " ++
      "and it is where the stream's labels come from")
  match parseHeaderTo joinVerb (head.map Prod.fst) with
  | .ok (header, _) =>
    if (firstHole.all fun place => header.bytes.length ≤ place) = true then .ok header
    else .error isHole
  | .error message =>
    if (firstHole.all fun place => maxHeader ≤ place) = true then .error message
    else .error isHole

def readFirstHeader : Except String Join := do
  let header ← firstHeader join.head
  let streamHeader ← join.template.headerFor header
  let framed := { emit { join with head := [] } streamHeader with
    frame := some (header.bytes, header.sliceSize.getD 0) }
  .ok ((runs (join.head.drop header.bytes.length)).foldl
    (fun join run => join.payload run.1 run.2) framed)

def take (join : Join) (bytes : Bytes) (hole : Bool) : Except String Join :=
  if join.isOpen = false then .error (refuseTo joinVerb "bytes outside any slice")
  else if bytes = [] then .ok join
  else match join.frame with
  | none =>
    let join := { join with
      head := join.head ++ bytes.map fun byte => (byte, hole)
      taken := join.taken + bytes.length }
    if maxHeader ≤ join.head.length then join.readFirstHeader else .ok join
  | some (header, _) =>
    let count := min (header.length - join.taken) bytes.length
    if hole = false ∧ bytes.take count ≠ (header.drop join.taken).take count then
      let n := join.slice
      .error (refuseTo joinVerb s!"slice {n}'s header is not slice 1's")
    else
      .ok ({ join with taken := join.taken + bytes.length }.payload (bytes.drop count) hole)

def write (bytes : Bytes) : Except String Join := join.take bytes false

def zerosLen : Nat := 16 * 1024

def hole (len : Nat) : Except String Join :=
  (piecesOf zerosLen len).foldlM (fun join piece => join.take (List.replicate piece 0) true) join

def finish : Except String Join := do
  if join.isOpen = false then
    .error (refuseTo joinVerb "a slice ended that was never begun")
  else
    let join ← if join.frame.isNone = true then join.readFirstHeader else .ok join
    let n := join.slice
    let taken := join.taken
    let (headerLen, sliceSize) := match join.frame with
      | some (header, size) => (header.length, size)
      | none => (0, 0)
    match join.held with
    | none => .error (refuseTo joinVerb s!"slice {n} ends without a trailer")
    | some (trailer, hole) =>
      let join := { join with held := none }
      if taken < headerLen + 1 then
        .error (refuseTo joinVerb s!"slice {n} ends inside its header")
      else if sliceSize < taken ∨ (join.isLast = false ∧ taken ≠ sliceSize) then
        let note := if join.isLast then "" else " and it is not the last"
        .error (refuseTo joinVerb
          (s!"slice {n} is {taken} bytes long, where its header's slice size is " ++
            s!"{sliceSize}{note}"))
      else
        let want := if join.isLast then last else notLast
        if hole = false ∧ trailer ≠ want then
          let shown := debugByte trailer
          let wanted := debugByte want
          .error (refuseTo joinVerb s!"slice {n} ends with {shown}, not {wanted}")
        else if join.isLast then .ok { emit { join with isOpen := false } [last] with ended := true }
        else .ok { join with isOpen := false }

end Join

end Tapectl.Dar
