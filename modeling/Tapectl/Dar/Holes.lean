import Tapectl.Dar.Cut

/-!
# The join with holes

A slice is given to `Join` in calls of `write` and `hole`. Each byte given carries a mark that says
whether it stands for one nobody could give; the state of the join after any calls depends on the
marks alone. A hole is not compared with the header and the trailer, and in the payload goes out as
the zeros it is, so every later byte keeps its place.
-/

namespace Tapectl.Dar

open StoredText

abbrev Mark := UInt8 × Bool

inductive Call where
  | write (bytes : Bytes)
  | hole (len : Nat)
  deriving DecidableEq, Repr

def markAs (piece : Bytes × Bool) : List Mark := piece.1.map fun byte => (byte, piece.2)

@[simp] theorem mark_as_nil (hole : Bool) : markAs ([], hole) = [] := rfl

@[simp] theorem length_mark_as (bytes : Bytes) (hole : Bool) :
    (markAs (bytes, hole)).length = bytes.length := List.length_map _

@[simp] theorem bytes_mark_as (piece : Bytes × Bool) : (markAs piece).map Prod.fst = piece.1 := by
  rw [markAs, List.map_map]
  exact List.map_id _

theorem mark_as_append (front back : Bytes) (hole : Bool) :
    markAs (front ++ back, hole) = markAs (front, hole) ++ markAs (back, hole) := List.map_append

theorem drop_mark_as (bytes : Bytes) (hole : Bool) (count : Nat) :
    markAs (bytes.drop count, hole) = (markAs (bytes, hole)).drop count := List.map_drop

theorem drop_past_marks (bytes : Bytes) (hole : Bool) (rest : List Mark) :
    (markAs (bytes, hole) ++ rest).drop bytes.length = rest := List.drop_left' (length_mark_as _ _)

namespace Call

def give (join : Join) : Call → Except String Join
  | .write bytes => join.write bytes
  | .hole len => join.hole len

def marks : Call → List Mark
  | .write bytes => bytes.map fun byte => (byte, false)
  | .hole len => List.replicate len (0, true)

def pieces : Call → List (Bytes × Bool)
  | .write bytes => [(bytes, false)]
  | .hole len => (piecesOf Join.zerosLen len).map fun piece => (List.replicate piece 0, true)

end Call

def given (calls : List Call) : List Mark := calls.flatMap Call.marks

theorem zeros_marked (pieces : List Nat) :
    (pieces.map fun piece => (List.replicate piece (0 : UInt8), true)).flatMap markAs =
      List.replicate pieces.sum (0, true) := by
  induction pieces with
  | nil => rfl
  | cons piece pieces ih =>
    rw [List.map_cons, List.flatMap_cons, ih, List.sum_cons, List.replicate_add, markAs,
      List.map_replicate]

namespace Call

theorem marks_pieces (call : Call) : call.marks = call.pieces.flatMap markAs := by
  cases call with
  | write bytes => simp [marks, pieces, markAs]
  | hole len => rw [marks, pieces, zeros_marked, sum_pieces_of]

theorem give_pieces (join : Join) (call : Call) :
    give join call = call.pieces.foldlM (fun join piece => join.take piece.1 piece.2) join := by
  cases call with
  | write bytes => simp [give, pieces, Join.write]
  | hole len => rw [give, pieces, Join.hole, List.foldlM_map]

end Call

theorem given_pieces (calls : List Call) :
    given calls = (calls.flatMap Call.pieces).flatMap markAs := by
  rw [given, List.flatMap_assoc]
  exact congrArg (calls.flatMap ·) (funext Call.marks_pieces)

theorem give_calls (calls : List Call) (join : Join) :
    calls.foldlM Call.give join =
      (calls.flatMap Call.pieces).foldlM (fun join piece => join.take piece.1 piece.2) join := by
  induction calls generalizing join with
  | nil => rfl
  | cons call calls ih =>
    rw [List.foldlM_cons, List.flatMap_cons, List.foldlM_append, Call.give_pieces]
    exact bind_congr ih

def StandsFor (mark : Mark) (byte : UInt8) : Prop := mark = (byte, false) ∨ mark = (0, true)

instance (mark : Mark) (byte : UInt8) : Decidable (StandsFor mark byte) :=
  inferInstanceAs (Decidable (_ ∨ _))

def blanked (holes : List Bool) (bytes : Bytes) : Bytes :=
  List.zipWith (fun hole byte => if hole = true then 0 else byte) holes bytes

theorem blanked_append {holes more : List Bool} {front back : Bytes}
    (aligned : holes.length = front.length) :
    blanked (holes ++ more) (front ++ back) = blanked holes front ++ blanked more back :=
  List.zipWith_append aligned

theorem blanked_whole (bytes : Bytes) : blanked (List.replicate bytes.length false) bytes = bytes := by
  induction bytes with
  | nil => rfl
  | cons byte bytes ih => exact congrArg (byte :: ·) ih

theorem marks_blank {marks : List Mark} {bytes : Bytes} (stands : List.Forall₂ StandsFor marks bytes) :
    marks.map Prod.fst = blanked (marks.map Prod.snd) bytes := by
  induction stands with
  | nil => rfl
  | cons stands rest ih =>
    rw [List.map_cons, List.map_cons, blanked, List.zipWith_cons_cons, ← blanked, ih]
    rcases stands with rfl | rfl <;> rfl

theorem stands_mark_as (bytes : Bytes) : List.Forall₂ StandsFor (markAs (bytes, false)) bytes := by
  induction bytes with
  | nil => exact .nil
  | cons byte bytes ih => exact .cons (.inl rfl) ih

theorem stands_whole {marks : List Mark} {bytes : Bytes} (stands : List.Forall₂ StandsFor marks bytes)
    (noHole : ∀ mark ∈ marks, mark.2 = false) : marks = markAs (bytes, false) := by
  induction stands with
  | nil => rfl
  | @cons mark byte marks bytes isFor rest ih =>
    rw [ih fun mark isIn => noHole mark (List.mem_cons_of_mem _ isIn)]
    rcases isFor with rfl | rfl
    · rfl
    · cases noHole _ List.mem_cons_self

/-- What is no hole in the place of the header is the header's byte. -/
def Carries (header : Bytes) (marks : List Mark) : Prop :=
  ∀ (k : Nat) (mark : Mark), marks[k]? = some mark → mark.2 = false → k < header.length →
    header[k]? = some mark.1

variable {header : Bytes}

theorem Carries.of_append {front back : List Mark} (carries : Carries header (front ++ back)) :
    Carries header front := by
  intro k mark found whole inside
  refine carries k mark ?_ whole inside
  rw [List.getElem?_append_left (List.getElem?_eq_some_iff.mp found).1]
  exact found

theorem carries_whole {marks rest : List Mark} (whole : marks <+: markAs (header, false) ++ rest) :
    Carries header marks := by
  rintro k mark found - inside
  obtain ⟨after, isWhole⟩ := whole
  have there : (markAs (header, false) ++ rest)[k]? = some mark := by
    rw [← isWhole, List.getElem?_append_left (List.getElem?_eq_some_iff.mp found).1]
    exact found
  rw [List.getElem?_append_left (by rw [length_mark_as]; exact inside), markAs,
    List.getElem?_map] at there
  obtain ⟨byte, isByte, rfl⟩ := Option.map_eq_some_iff.mp there
  exact isByte

theorem carries_of_stands {front : List Mark} (stands : List.Forall₂ StandsFor front header)
    (rest : List Mark) :
    Carries header (front ++ rest) := by
  intro k mark found whole inside
  rw [List.getElem?_append_left (by rw [stands.length_eq]; exact inside)] at found
  obtain ⟨short, rfl⟩ := List.getElem?_eq_some_iff.mp found
  rw [List.getElem?_eq_getElem inside]
  rcases stands.get short inside with isByte | isHole
  · rw [List.get_eq_getElem, List.get_eq_getElem] at isByte
    rw [isByte]
  · rw [List.get_eq_getElem] at isHole
    rw [isHole] at whole
    cases whole

theorem runs_marks (marks : List Mark) : (Join.runs marks).flatMap markAs = marks := by
  induction marks with
  | nil => rfl
  | cons mark marks ih =>
    obtain ⟨byte, hole⟩ := mark
    rw [Join.runs]
    split
    · next bytes same more isRuns =>
      rw [isRuns, List.flatMap_cons] at ih
      split
      · next isSame =>
        subst isSame
        rw [List.flatMap_cons, ← ih]
        rfl
      · rw [List.flatMap_cons, List.flatMap_cons, ih]
        rfl
    · next isRuns =>
      rw [isRuns] at ih
      rw [← ih]
      rfl

/-- The payload of a slice: what is past its header and before its trailer. -/
def payloadOf {α : Type} (headerLen : Nat) (slice : List α) : List α :=
  (slice.drop headerLen).dropLast

namespace Join

variable {join : Join} {header : Bytes} {size : Nat}

/-- A join that has taken some bytes of a slice, those past its header `past`. -/
def fedPast (join : Join) (taken : Nat) (past : List Mark) : Join :=
  { join with taken, out := join.out ++ past.dropLast.map Prod.fst, held := past.getLast? }

theorem payload_fed_past (join : Join) (taken : Nat) (past : List Mark) (more : Bytes) (hole : Bool) :
    (join.fedPast taken past).payload more hole = join.fedPast taken (past ++ markAs (more, hole)) := by
  rcases List.eq_nil_or_concat' more with rfl | ⟨front, newest, rfl⟩
  · simp [payload]
  have marks : past ++ markAs (front ++ [newest], hole) =
      (past ++ markAs (front, hole)) ++ [(newest, hole)] := by
    rw [mark_as_append, ← List.append_assoc]
    rfl
  rw [marks]
  rcases List.eq_nil_or_concat' past with rfl | ⟨before, held, rfl⟩
  · simp [payload, fedPast, emit]
  · simp only [payload, fedPast, emit, List.getLast?_concat, List.dropLast_concat, List.map_append,
      bytes_mark_as, List.map_singleton]
    simp only [List.append_assoc]

/-- A join after the bytes `seen` of a slice whose header it knows. -/
def fed (join : Join) (header : Bytes) (seen : List Mark) : Join :=
  join.fedPast seen.length (seen.drop header.length)

theorem take_framed (isOpen : join.isOpen = true) (framed : join.frame = some (header, size))
    {bytes : Bytes} (some_bytes : bytes ≠ []) {hole : Bool} {count : Nat}
    (counted : count = min (header.length - join.taken) bytes.length)
    (agrees : hole = false → bytes.take count = (header.drop join.taken).take count) :
    join.take bytes hole =
      .ok ({ join with taken := join.taken + bytes.length }.payload (bytes.drop count) hole) := by
  subst counted
  rw [take, if_neg (by simp [isOpen]), if_neg some_bytes, framed]
  dsimp only
  rw [if_neg (fun ⟨whole, differs⟩ => differs (agrees whole))]

theorem take_fed (isOpen : join.isOpen = true) (framed : join.frame = some (header, size))
    {seen : List Mark} {piece : Bytes} {hole : Bool}
    (carries : Carries header (seen ++ markAs (piece, hole))) :
    (join.fed header seen).take piece hole =
      .ok (join.fed header (seen ++ markAs (piece, hole))) := by
  by_cases empty : piece = []
  · subst empty
    rw [mark_as_nil, List.append_nil, take, if_neg (by simp [fed, fedPast, isOpen]), if_pos rfl]
  generalize isCount : min (header.length - seen.length) piece.length = count
  have agrees : hole = false → piece.take count = (header.drop seen.length).take count := by
    rintro rfl
    refine List.ext_getElem (by simp only [List.length_take, List.length_drop]; omega) ?_
    intro k inside _
    have within : k < piece.length := by simp only [List.length_take] at inside; omega
    have short : seen.length + k < header.length := by simp only [List.length_take] at inside; omega
    have place : (seen ++ markAs (piece, false))[seen.length + k]? = some (piece[k], false) := by
      rw [List.getElem?_append_right (by omega), Nat.add_sub_cancel_left, markAs, List.getElem?_map,
        List.getElem?_eq_getElem within]
      rfl
    have same := carries _ _ place rfl short
    rw [List.getElem?_eq_getElem short] at same
    simpa using (Option.some.inj same).symm
  -- what is past the header after the piece
  have past : seen.drop header.length ++ markAs (piece.drop count, hole) =
      (seen ++ markAs (piece, hole)).drop header.length := by
    rw [List.drop_append, drop_mark_as]
    congr 1
    rcases Nat.lt_or_ge (header.length - seen.length) piece.length with ends | within
    · rw [(by omega : count = header.length - seen.length)]
    · rw [List.drop_eq_nil_of_le (by rw [length_mark_as]; omega),
        List.drop_eq_nil_of_le (by rw [length_mark_as]; omega)]
  rw [@take_framed (join.fed header seen) header size isOpen framed piece empty hole count
    isCount.symm agrees]
  have payload : (join.fedPast (seen.length + piece.length) (seen.drop header.length)).payload
      (piece.drop count) hole = join.fed header (seen ++ markAs (piece, hole)) := by
    rw [payload_fed_past, past, fed, List.length_append, length_mark_as]
  exact congrArg Except.ok payload

theorem take_parts_fed (isOpen : join.isOpen = true) (framed : join.frame = some (header, size))
    {seen : List Mark} {parts : List (Bytes × Bool)}
    (carries : Carries header (seen ++ parts.flatMap markAs)) :
    parts.foldlM (fun join part => join.take part.1 part.2) (join.fed header seen) =
      .ok (join.fed header (seen ++ parts.flatMap markAs)) := by
  induction parts generalizing seen with
  | nil =>
    rw [List.flatMap_nil, List.append_nil]
    rfl
  | cons part parts ih =>
    rw [List.flatMap_cons, ← List.append_assoc] at carries ⊢
    rw [List.foldlM_cons, take_fed isOpen framed carries.of_append]
    exact ih carries

/-- A join whose slice ended after the payload `piece`. -/
def closed (join : Join) (taken : Nat) (piece : Bytes) : Join :=
  { join with
    taken
    out := join.out ++ piece ++ (if join.isLast = true then [last] else [])
    held := none
    isOpen := false
    ended := join.isLast || join.ended }

/-- The byte a slice ends with: only the archive's last ends like the stream. -/
def trailerOf (isLast : Bool) : UInt8 := if isLast = true then last else notLast

/-- A slice given with holes: its header, its payload `piece` and its trailer. -/
structure Marked (header : Bytes) (isLast : Bool) (piece marks : List Mark) : Prop where
  carries : Carries header marks
  past : ∃ newest : Mark, marks.drop header.length = piece ++ [newest] ∧
    (newest.2 = false → newest.1 = trailerOf isLast)

theorem Marked.length {isLast : Bool} {piece marks : List Mark}
    (marked : Marked header isLast piece marks) :
    marks.length = header.length + piece.length + 1 := by
  obtain ⟨newest, past, -⟩ := marked.past
  have count := congrArg List.length past
  rw [List.length_drop, List.length_append, List.length_singleton] at count
  omega

theorem finish_held (isOpen : join.isOpen = true) (framed : join.frame = some (header, size))
    {newest : Mark} (held : join.held = some newest)
    (trailer : newest.2 = false → newest.1 = trailerOf join.isLast)
    (long : header.length + 1 ≤ join.taken) (fits : join.taken ≤ size)
    (full : join.isLast = false → join.taken = size) :
    join.finish = .ok (join.closed join.taken []) := by
  rw [finish, if_neg (by simp [isOpen]), if_neg (by simp [framed])]
  simp only [framed, held, bind, Except.bind]
  rw [if_neg (by omega), if_neg (by
    rintro (long | ⟨notLast, short⟩)
    · omega
    · exact short (full notLast)), if_neg (fun ⟨whole, differs⟩ => differs (trailer whole))]
  cases isLast : join.isLast <;> simp [closed, emit, isLast, framed]

theorem finish_fed (isOpen : join.isOpen = true) (framed : join.frame = some (header, size))
    {piece marks : List Mark} (marked : Marked header join.isLast piece marks)
    (fits : marks.length ≤ size) (full : join.isLast = false → marks.length = size) :
    (join.fed header marks).finish = .ok (join.closed marks.length (piece.map Prod.fst)) := by
  have length := marked.length
  obtain ⟨newest, past, trailer⟩ := marked.past
  have held : (join.fed header marks).held = some newest := by simp [fed, fedPast, past]
  rw [@finish_held (join.fed header marks) header size isOpen framed newest held trailer
    (by simp only [fed, fedPast]; omega) fits full]
  simp [fed, fedPast, closed, past]

theorem payload_runs (join : Join) (taken : Nat) (past marks : List Mark) :
    (runs marks).foldl (fun join run => join.payload run.1 run.2) (join.fedPast taken past) =
      join.fedPast taken (past ++ marks) := by
  have whole : ∀ (parts : List (Bytes × Bool)) (past : List Mark),
      parts.foldl (fun join run => join.payload run.1 run.2) (join.fedPast taken past) =
        join.fedPast taken (past ++ parts.flatMap markAs) := by
    intro parts
    induction parts with
    | nil => simp
    | cons part parts ih =>
      intro past
      rw [List.foldl_cons, payload_fed_past, ih, List.flatMap_cons, List.append_assoc]
  rw [whole, runs_marks]

section FirstSlice

variable {frame : SliceFrame} {stream : Header} {place : Nat}

theorem first_header_whole (framed : frame.For stream place) (past : List Mark) :
    firstHeader (markAs (frame.header, false) ++ past) =
      .ok ⟨frame.header, flagAtEnd, place, some frame.sliceSize⟩ := by
  have bytes : (markAs (frame.header, false) ++ past).map Prod.fst =
      frame.header ++ past.map Prod.fst := by
    rw [List.map_append, bytes_mark_as]
  have pastHeader : ((markAs (frame.header, false) ++ past).findIdx? fun byte => byte.2).all
      (fun hole => decide (frame.header.length ≤ hole)) = true := by
    rw [Option.all_eq_true]
    intro hole found
    obtain ⟨inside, isHole, -⟩ := List.findIdx?_eq_some_iff_getElem.mp found
    rw [decide_eq_true_iff]
    by_contra before
    rw [List.getElem_append_left (by rw [length_mark_as]; omega)] at isHole
    simp [markAs] at isHole
  rw [firstHeader, bytes, framed.parses joinVerb (past.map Prod.fst)]
  dsimp only
  rw [if_pos pastHeader]

/-- A join that knows slice 1's header and sent the stream's own in its place. -/
def framedBy (join : Join) (frame : SliceFrame) (stream : Header) : Join :=
  { join with out := join.out ++ stream.bytes, frame := some (frame.header, frame.sliceSize) }

structure Begun (join : Join) (frame : SliceFrame) (stream : Header) (place : Nat) : Prop where
  framed : frame.For stream place
  relabelled : join.template.headerFor ⟨frame.header, flagAtEnd, place, some frame.sliceSize⟩ =
    .ok stream.bytes
  isOpen : join.isOpen = true
  noFrame : join.frame = none
  noHead : join.head = []
  noHeld : join.held = none

theorem read_first_header_whole (begun : join.Begun frame stream place) (taken : Nat)
    (past : List Mark) :
    readFirstHeader { join with taken, head := markAs (frame.header, false) ++ past } =
      .ok ((join.framedBy frame stream).fedPast taken past) := by
  have later : (markAs (frame.header, false) ++ past).drop frame.header.length = past :=
    drop_past_marks _ _ _
  have start : (join.framedBy frame stream).fedPast taken [] =
      { join.framedBy frame stream with taken } := by
    simp [fedPast, framedBy, begun.noHeld]
  have run := payload_runs (join.framedBy frame stream) taken [] past
  rw [List.nil_append] at run
  rw [readFirstHeader, first_header_whole begun.framed]
  simp only [bind, Except.bind, begun.relabelled, later, emit, Option.getD_some]
  rw [← run, start]
  simp [framedBy, begun.noHead]

/-- A join after the bytes `seen` of slice 1, whose header it reads once enough came. -/
def fedFirst (join : Join) (frame : SliceFrame) (stream : Header) (seen : List Mark) : Join :=
  if seen.length < maxHeader then { join with head := seen, taken := seen.length }
  else (join.framedBy frame stream).fed frame.header seen

theorem take_fed_first (begun : join.Begun frame stream place) {seen rest : List Mark}
    {piece : Bytes} {hole : Bool}
    (whole : seen ++ markAs (piece, hole) <+: markAs (frame.header, false) ++ rest) :
    (join.fedFirst frame stream seen).take piece hole =
      .ok (join.fedFirst frame stream (seen ++ markAs (piece, hole))) := by
  by_cases read : seen.length < maxHeader
  swap
  · rw [fedFirst, if_neg read, fedFirst, if_neg (by rw [List.length_append]; omega)]
    exact @take_fed (join.framedBy frame stream) _ _ begun.isOpen rfl _ _ _ (carries_whole whole)
  by_cases empty : piece = []
  · subst empty
    rw [mark_as_nil, List.append_nil, fedFirst, if_pos read, take, if_neg (by simp [begun.isOpen]),
      if_pos rfl]
  have length : (seen ++ markAs (piece, hole)).length = seen.length + piece.length := by
    rw [List.length_append, length_mark_as]
  rw [fedFirst, if_pos read, take, if_neg (by simp [begun.isOpen]), if_neg empty]
  simp only [begun.noFrame]
  rw [show (piece.map fun byte => ((byte, hole) : Mark)) = markAs (piece, hole) from rfl, ← length]
  by_cases enough : maxHeader ≤ (seen ++ markAs (piece, hole)).length
  · have long : (markAs (frame.header, false)).length ≤ (seen ++ markAs (piece, hole)).length := by
      rw [length_mark_as]
      exact begun.framed.short.trans enough
    obtain ⟨past, isWhole⟩ := List.prefix_of_prefix_length_le (List.prefix_append _ _) whole long
    rw [if_pos enough, fedFirst, if_neg (by omega), ← isWhole, fed, drop_past_marks]
    have read := read_first_header_whole begun (markAs (frame.header, false) ++ past).length past
    simpa only [begun.noFrame] using read
  · rw [if_neg enough, fedFirst, if_pos (by omega), begun.noFrame]

theorem take_parts_fed_first (begun : join.Begun frame stream place) {seen rest : List Mark}
    {parts : List (Bytes × Bool)}
    (whole : seen ++ parts.flatMap markAs <+: markAs (frame.header, false) ++ rest) :
    parts.foldlM (fun join part => join.take part.1 part.2) (join.fedFirst frame stream seen) =
      .ok (join.fedFirst frame stream (seen ++ parts.flatMap markAs)) := by
  induction parts generalizing seen with
  | nil =>
    rw [List.flatMap_nil, List.append_nil]
    rfl
  | cons part parts ih =>
    rw [List.flatMap_cons, ← List.append_assoc] at whole ⊢
    rw [List.foldlM_cons, take_fed_first begun ((List.prefix_append _ _).trans whole)]
    exact ih whole

theorem finish_fed_first (begun : join.Begun frame stream place) {piece marks rest : List Mark}
    (whole : marks = markAs (frame.header, false) ++ rest)
    (marked : Marked frame.header join.isLast piece marks) (fits : marks.length ≤ frame.sliceSize)
    (full : join.isLast = false → marks.length = frame.sliceSize) :
    (join.fedFirst frame stream marks).finish =
      .ok ((join.framedBy frame stream).closed marks.length (piece.map Prod.fst)) := by
  have closes := @finish_fed (join.framedBy frame stream) frame.header frame.sliceSize
    begun.isOpen rfl piece marks marked fits full
  by_cases read : marks.length < maxHeader
  swap
  · rw [fedFirst, if_neg read, closes]
  have reads := read_first_header_whole begun marks.length rest
  have past : rest = marks.drop frame.header.length := by
    rw [whole, drop_past_marks]
  rw [← whole, past] at reads
  -- the end of a short slice 1 reads its header first
  rw [fedFirst, if_pos read, finish, if_neg (by simp [begun.isOpen]), if_pos (by simp [begun.noFrame]), reads]
  rw [fed, finish, if_neg (by simp [fedPast, framedBy, begun.isOpen]),
    if_neg (by simp [fedPast, framedBy])] at closes
  exact closes

end FirstSlice

def giveSlice (join : Join) (n : Nat) (isLast : Bool) (calls : List Call) : Except String Join := do
  let join ← join.start n isLast
  let join ← calls.foldlM Call.give join
  join.finish

/-- The slices after number `n` in order, the last one flagged. -/
def giveAll : Nat → List (List Call) → Join → Except String Join
  | _, [], join => .ok join
  | n, calls :: rest, join => do
    let join ← join.giveSlice (n + 1) rest.isEmpty calls
    giveAll (n + 1) rest join

/-- Between two slices: `n` of them came, and their data is out. -/
structure Between (join : Join) (header : Bytes) (size n : Nat) (out : Bytes) : Prop where
  framed : join.frame = some (header, size)
  slice : join.slice = n
  isOpen : join.isOpen = false
  ended : join.ended = false
  out : join.out = out

theorem start_ok {n : Nat} (slice : join.slice = n) (isOpen : join.isOpen = false)
    (ended : join.ended = false) (few : n + 1 ≤ maxU32) (isLast : Bool) :
    join.start (n + 1) isLast =
      .ok { join with slice := n + 1, isOpen := true, isLast, taken := 0, held := none } := by
  rw [start, if_neg (by simp [ended]), if_neg (by simp [isOpen]), if_neg (by omega)]

theorem give_slice_between {n : Nat} {out : Bytes} (between : join.Between header size n out)
    (few : n + 1 ≤ maxU32) {isLast : Bool} {calls : List Call} {piece : List Mark}
    (marked : Marked header isLast piece (given calls)) (fits : (given calls).length ≤ size)
    (full : isLast = false → (given calls).length = size) :
    join.giveSlice (n + 1) isLast calls =
      .ok ({ join with slice := n + 1, isOpen := true, isLast, taken := 0, held := none }.closed
        (given calls).length (piece.map Prod.fst)) := by
  rw [giveSlice, start_ok between.slice between.isOpen between.ended few]
  generalize begun : { join with slice := n + 1, isOpen := true, isLast, taken := 0, held := none } =
    next
  have isOpen : next.isOpen = true := by rw [← begun]
  have lastFlag : next.isLast = isLast := by rw [← begun]
  have framed : next.frame = some (header, size) := by rw [← begun, between.framed]
  have nothing : next.fed header [] = next := by
    rw [← begun]
    simp [fed, fedPast]
  have carries : Carries header ([] ++ (calls.flatMap Call.pieces).flatMap markAs) := by
    rw [List.nil_append, ← given_pieces]
    exact marked.carries
  have taken := take_parts_fed isOpen framed carries
  rw [nothing, List.nil_append, ← give_calls, ← given_pieces] at taken
  rw [← finish_fed isOpen framed (lastFlag ▸ marked) fits (lastFlag ▸ full)]
  simp only [bind, Except.bind, taken]

theorem give_slice_first {template : StreamTemplate} {frame : SliceFrame} {stream : Header}
    {place : Nat} (framed : frame.For stream place)
    (relabelled : template.headerFor ⟨frame.header, flagAtEnd, place, some frame.sliceSize⟩ =
      .ok stream.bytes) {isLast : Bool} {calls : List Call} {piece rest : List Mark}
    (whole : given calls = markAs (frame.header, false) ++ rest)
    (marked : Marked frame.header isLast piece (given calls))
    (fits : (given calls).length ≤ frame.sliceSize)
    (full : isLast = false → (given calls).length = frame.sliceSize) :
    (new template).giveSlice 1 isLast calls =
      .ok (({ new template with slice := 1, isOpen := true, isLast }.framedBy frame stream).closed
        (given calls).length (piece.map Prod.fst)) := by
  have first := @start_ok (new template) 0 rfl rfl rfl (by decide) isLast
  rw [giveSlice, first]
  have begun : Begun { new template with slice := 1, isOpen := true, isLast } frame stream place :=
    ⟨framed, relabelled, rfl, rfl, rfl, rfl⟩
  have nothing : fedFirst { new template with slice := 1, isOpen := true, isLast } frame stream [] =
      { new template with slice := 1, isOpen := true, isLast } := by
    rw [fedFirst, if_pos (by decide)]
    rfl
  have inOrder : [] ++ (calls.flatMap Call.pieces).flatMap markAs <+:
      markAs (frame.header, false) ++ rest := by
    rw [List.nil_append, ← given_pieces, whole]
  have taken := take_parts_fed_first begun inOrder
  rw [nothing, List.nil_append, ← give_calls, ← given_pieces] at taken
  rw [← finish_fed_first begun whole marked fits full]
  simp only [bind, Except.bind]
  exact taken ▸ rfl

theorem closed_between (framed : join.frame = some (header, size)) (notLast : join.isLast = false)
    (ended : join.ended = false) (taken : Nat) (piece : Bytes) :
    (join.closed taken piece).Between header size join.slice (join.out ++ piece) :=
  ⟨framed, rfl, rfl, by simp [closed, notLast, ended], by simp [closed, notLast]⟩

def GivenAs (calls : List Call) (slice : Bytes) : Prop := List.Forall₂ StandsFor (given calls) slice

instance (calls : List Call) (slice : Bytes) : Decidable (GivenAs calls slice) :=
  inferInstanceAs (Decidable (List.Forall₂ _ _ _))

structure GivenParts (header piece : Bytes) (isLast : Bool) (marks front : List Mark)
    (newest : Mark) : Prop where
  whole : marks = front ++ payloadOf header.length marks ++ [newest]
  front : List.Forall₂ StandsFor front header
  payload : List.Forall₂ StandsFor (payloadOf header.length marks) piece
  trailer : StandsFor newest (trailerOf isLast)

theorem GivenAs.parts {calls : List Call} {piece : Bytes} {isLast : Bool}
    (isGiven : GivenAs calls (header ++ piece ++ [trailerOf isLast])) :
    ∃ front newest, GivenParts header piece isLast (given calls) front newest := by
  rw [GivenAs, List.append_assoc] at isGiven
  have front := List.forall₂_take_append _ _ _ isGiven
  have past := List.forall₂_drop_append _ _ _ isGiven
  have payload := List.forall₂_take_append _ _ _ past
  obtain ⟨newest, none, trailer, onward, isNewest⟩ :=
    List.forall₂_cons_right_iff.mp (List.forall₂_drop_append _ _ _ past)
  obtain rfl := List.forall₂_nil_right_iff.mp onward
  have split : (given calls).drop header.length =
      ((given calls).drop header.length).take piece.length ++ [newest] := by
    rw [← isNewest, List.take_append_drop]
  have isPayload : payloadOf header.length (given calls) =
      ((given calls).drop header.length).take piece.length := by
    rw [payloadOf, split, List.dropLast_concat, ← split]
  refine ⟨(given calls).take header.length, newest, ?_, front, isPayload ▸ payload, trailer⟩
  rw [List.append_assoc, isPayload, ← split, List.take_append_drop]

theorem GivenAs.marked {calls : List Call} {piece : Bytes} {isLast : Bool}
    (isGiven : GivenAs calls (header ++ piece ++ [trailerOf isLast])) :
    Marked header isLast (payloadOf header.length (given calls)) (given calls) := by
  obtain ⟨front, newest, parts⟩ := isGiven.parts
  refine ⟨?_, newest, ?_, ?_⟩
  · rw [parts.whole, List.append_assoc]
    exact carries_of_stands parts.front _
  · conv_lhs => rw [parts.whole, List.append_assoc]
    exact List.drop_left' parts.front.length_eq
  · intro whole
    rcases parts.trailer with rfl | rfl
    · rfl
    · cases whole

theorem GivenAs.header_whole {calls : List Call} {piece : Bytes} {isLast : Bool}
    (isGiven : GivenAs calls (header ++ piece ++ [trailerOf isLast]))
    (noHole : ∀ mark ∈ (given calls).take header.length, mark.2 = false) :
    ∃ rest, given calls = markAs (header, false) ++ rest := by
  obtain ⟨front, newest, parts⟩ := isGiven.parts
  have isFront : front = markAs (header, false) := by
    refine stands_whole parts.front fun mark isIn => noHole mark ?_
    rw [parts.whole, List.append_assoc, List.take_left' parts.front.length_eq]
    exact isIn
  exact ⟨_, by rw [← isFront, ← List.append_assoc]; exact parts.whole⟩

variable {slices : List (List Call)} {data : Bytes}

theorem others_left {pieces : List Bytes}
    (isGiven : List.Forall₂ GivenAs slices (slicesOf header pieces))
    (some_left : 0 < pieces.length) :
    slices.isEmpty = false := by
  have count := isGiven.length_eq
  rw [length_slices_of] at count
  cases slices with
  | nil => exact absurd count (by simp; omega)
  | cons calls rest => rfl

theorem give_between {pieces : List Bytes} (cut : Pieces (size - header.length - 1) data pieces)
    (room : header.length + 1 < size) {n : Nat} {out : Bytes}
    (between : join.Between header size n out) (few : n + pieces.length ≤ maxU32)
    (isGiven : List.Forall₂ GivenAs slices (slicesOf header pieces)) :
    ∃ done, giveAll n slices join = .ok done ∧ done.ended = true ∧
      done.out = out ++ (slices.flatMap fun calls =>
        (payloadOf header.length (given calls)).map Prod.fst) ++ [last] := by
  induction cut generalizing n out join slices with
  | @last data fits =>
    obtain ⟨calls, rest, isSlice, onward, rfl⟩ := List.forall₂_cons_right_iff.mp isGiven
    obtain rfl := List.forall₂_nil_right_iff.mp onward
    have length := isSlice.length_eq
    rw [slice_length] at length
    have gave := @give_slice_between join header size n out between few true calls _
      (@GivenAs.marked header calls data true isSlice) (by omega) nofun
    refine ⟨_, by rw [giveAll, List.isEmpty_nil, gave]; rfl, by simp [closed], ?_⟩
    simp [closed, between.out]
  | @more piece rest pieces full left later ih =>
    rw [slices_of_more _ _ later.length_pos] at isGiven
    obtain ⟨calls, others, isSlice, onward, rfl⟩ := List.forall₂_cons_right_iff.mp isGiven
    have length := isSlice.length_eq
    rw [slice_length] at length
    rw [List.length_cons] at few
    have gave := @give_slice_between join header size n out between (by omega) false calls _
      (@GivenAs.marked header calls piece false isSlice) (by omega) (fun _ => by omega)
    have next := @closed_between
      { join with slice := n + 1, isOpen := true, isLast := false, taken := 0, held := none }
      header size between.framed rfl between.ended (given calls).length
      ((payloadOf header.length (given calls)).map Prod.fst)
    obtain ⟨done, ran, ended, isOut⟩ := ih next (by simp only; omega) onward
    refine ⟨done, ?_, ended, ?_⟩
    · rw [giveAll, others_left onward later.length_pos, gave]
      exact ran
    · rw [isOut, between.out, List.flatMap_cons, List.append_assoc out]

theorem give_new {template : StreamTemplate} {frame : SliceFrame} {stream : Header} {place : Nat}
    (framed : frame.For stream place)
    (relabelled : template.headerFor ⟨frame.header, flagAtEnd, place, some frame.sliceSize⟩ =
      .ok stream.bytes) {pieces : List Bytes}
    (cut : Pieces frame.payloadPerSlice data pieces) (few : pieces.length ≤ maxU32)
    (isGiven : List.Forall₂ GivenAs slices (slicesOf frame.header pieces))
    (noHole : ∀ calls ∈ slices.head?, ∀ mark ∈ (given calls).take frame.header.length,
      mark.2 = false) :
    ∃ done, giveAll 0 slices (new template) = .ok done ∧ done.ended = true ∧
      done.out = stream.bytes ++ (slices.flatMap fun calls =>
        (payloadOf frame.header.length (given calls)).map Prod.fst) ++ [last] := by
  have room := framed.room
  rw [SliceFrame.payloadPerSlice] at cut
  cases cut with
  | last fits =>
    obtain ⟨calls, rest, isSlice, onward, rfl⟩ := List.forall₂_cons_right_iff.mp isGiven
    obtain rfl := List.forall₂_nil_right_iff.mp onward
    have length := isSlice.length_eq
    rw [slice_length] at length
    obtain ⟨rest, whole⟩ := @GivenAs.header_whole frame.header calls data true isSlice
      (noHole calls rfl)
    have gave := @give_slice_first template frame stream place framed relabelled true calls _ rest
      whole (@GivenAs.marked frame.header calls data true isSlice) (by omega) (by rintro ⟨⟩)
    refine ⟨_, by rw [giveAll, List.isEmpty_nil, gave]; rfl, by simp [closed, framedBy], ?_⟩
    simp [closed, framedBy, new]
  | @more piece left pieces full _ later =>
    rw [slices_of_more _ _ later.length_pos] at isGiven
    obtain ⟨calls, others, isSlice, onward, rfl⟩ := List.forall₂_cons_right_iff.mp isGiven
    have length := isSlice.length_eq
    rw [slice_length] at length
    rw [List.length_cons] at few
    obtain ⟨rest, whole⟩ := @GivenAs.header_whole frame.header calls piece false isSlice
      (noHole calls rfl)
    have gave := @give_slice_first template frame stream place framed relabelled false calls _ rest
      whole (@GivenAs.marked frame.header calls piece false isSlice) (by omega) (fun _ => by omega)
    have next := @closed_between
      (framedBy { new template with slice := 1, isOpen := true, isLast := false } frame stream)
      frame.header frame.sliceSize rfl rfl rfl (given calls).length
      ((payloadOf frame.header.length (given calls)).map Prod.fst)
    obtain ⟨done, ran, ended, isOut⟩ :=
      give_between later room next (by simp only [framedBy]; omega) onward
    refine ⟨done, ?_, ended, ?_⟩
    · rw [giveAll, others_left onward later.length_pos, gave]
      exact ran
    · rw [isOut]
      simp [framedBy, new]

theorem payload_given {pieces : List Bytes} (cut : Pieces size data pieces)
    (isGiven : List.Forall₂ GivenAs slices (slicesOf header pieces)) :
    List.Forall₂ StandsFor (slices.flatMap fun calls => payloadOf header.length (given calls)) data := by
  induction cut generalizing slices with
  | @last data fits =>
    obtain ⟨calls, rest, isSlice, onward, rfl⟩ := List.forall₂_cons_right_iff.mp isGiven
    obtain rfl := List.forall₂_nil_right_iff.mp onward
    obtain ⟨front, newest, parts⟩ := @GivenAs.parts header calls data true isSlice
    rw [List.flatMap_singleton]
    exact parts.payload
  | @more piece left pieces full _ later ih =>
    rw [slices_of_more _ _ later.length_pos] at isGiven
    obtain ⟨calls, others, isSlice, onward, rfl⟩ := List.forall₂_cons_right_iff.mp isGiven
    obtain ⟨front, newest, parts⟩ := @GivenAs.parts header calls piece false isSlice
    rw [List.flatMap_cons]
    exact List.rel_append parts.payload (ih onward)

end Join

end Tapectl.Dar
