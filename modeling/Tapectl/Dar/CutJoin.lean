import Tapectl.Dar.Holes

/-!
# Cutting a stream and joining its slices

What `Join` makes of an archive's slices is the stream it was cut from, in whatever chunks the stream
was read and the slices are given, with zeros for the payload bytes given as holes.
-/

namespace Tapectl.Dar

open StoredText

namespace Join

variable {join : Join}

def feedSlice (join : Join) (n : Nat) (isLast : Bool) (parts : List Bytes) :
    Except String Join := do
  let join ← join.start n isLast
  let join ← parts.foldlM write join
  join.finish

/-- The slices after number `n` in order, the last one flagged. -/
def feed : Nat → List (List Bytes) → Join → Except String Join
  | _, [], join => .ok join
  | n, parts :: rest, join => do
    let join ← join.feedSlice (n + 1) rest.isEmpty parts
    feed (n + 1) rest join

theorem feed_slice_given (n : Nat) (isLast : Bool) (parts : List Bytes) :
    join.feedSlice n isLast parts = join.giveSlice n isLast (parts.map Call.write) := by
  simp only [feedSlice, giveSlice, List.foldlM_map]
  rfl

theorem feed_given (n : Nat) (slices : List (List Bytes)) (join : Join) :
    feed n slices join = giveAll n (slices.map fun parts => parts.map Call.write) join := by
  induction slices generalizing n join with
  | nil => rfl
  | cons parts slices ih =>
    rw [feed, List.map_cons, giveAll, feed_slice_given, List.isEmpty_map]
    exact bind_congr fun join => ih (n + 1) join

end Join

theorem given_parts (parts : List Bytes) :
    given (parts.map Call.write) = markAs (parts.flatten, false) := by
  induction parts with
  | nil => rfl
  | cons part parts ih =>
    rw [given, List.map_cons, List.flatMap_cons, ← given, ih, List.flatten_cons, mark_as_append]
    rfl

theorem given_as_parts {slices : List Bytes} {parts : List (List Bytes)}
    (split : parts.map List.flatten = slices) :
    List.Forall₂ Join.GivenAs (parts.map fun parts => parts.map Call.write) slices := by
  subst split
  rw [List.forall₂_map_left_iff, List.forall₂_map_right_iff, List.forall₂_same]
  intro parts _
  rw [Join.GivenAs, given_parts]
  exact stands_mark_as _

theorem mark_as_whole {bytes : Bytes} {mark : Mark} (isIn : mark ∈ markAs (bytes, false)) :
    mark.2 = false := by
  obtain ⟨byte, -, rfl⟩ := List.mem_map.mp isIn
  rfl

theorem given_parts_whole {headerLen : Nat} {slices : List (List Bytes)} {mark : Mark}
    (isIn : mark ∈ (slices.map fun parts => parts.map Call.write).flatMap fun calls =>
      payloadOf headerLen (given calls)) : mark.2 = false := by
  obtain ⟨calls, isCalls, within⟩ := List.mem_flatMap.mp isIn
  obtain ⟨parts, -, rfl⟩ := List.mem_map.mp isCalls
  rw [given_parts] at within
  exact mark_as_whole (List.mem_of_mem_drop (List.mem_of_mem_dropLast within))

theorem slices_payload {header data : Bytes} {size : Nat} {pieces : List Bytes}
    (cut : Pieces size data pieces) :
    (slicesOf header pieces).flatMap (payloadOf header.length) = data := by
  have payload (piece : Bytes) (trailer : UInt8) :
      payloadOf header.length (header ++ piece ++ [trailer]) = piece := by
    rw [payloadOf, List.append_assoc, List.drop_left, List.dropLast_concat]
  induction cut with
  | last fits =>
    rw [slicesOf, List.flatMap_singleton]
    exact payload _ _
  | more full left later ih =>
    rw [slices_of_more _ _ later.length_pos, List.flatMap_cons, ih, payload]

/-- The bytes of the stream that were in holes: those of its payload, which each slice has past its
header and before its trailer. -/
def streamHoles (streamHeader sliceHeader : Nat) (slices : List (List Call)) : List Bool :=
  List.replicate streamHeader false ++
    (slices.flatMap fun calls => payloadOf sliceHeader (given calls)).map Prod.snd ++ [false]

/-- Cutting and joining are inverse, in whatever chunks the stream is read and the slices are
given, and the slices are as long and as many as the slice size asks for. -/
theorem join_of_cut_is_stream {stream : Reader} {template : Bytes} {slices : List Bytes}
    {summary : CutSummary} (cut : cutStream stream template = .ok (slices, summary))
    {header : Header} {rest : Bytes} (parsed : parseHeader stream.stream = .ok (header, rest)) :
    (∀ bytes streamTemplate, StreamTemplate.new bytes = .ok streamTemplate →
      SameButLabels streamTemplate.header header →
      ∀ parts : List (List Bytes), parts.map List.flatten = slices →
        ∃ join, Join.feed 0 parts (Join.new streamTemplate) = .ok join ∧ join.out = stream.stream ∧
          join.ended = true) ∧
    (∀ slice ∈ slices.dropLast, slice.length = summary.sliceSize) ∧
    (∀ slice ∈ slices.getLast?, slice.length ≤ summary.sliceSize) ∧
    ∃ frame payload, SliceFrame.new template header = .ok frame ∧ rest = payload ++ [last] ∧
      frame.sliceSize = summary.sliceSize ∧ slices.length = summary.slices ∧
      slices.length = max 1 (payload.length ⌈/⌉ (summary.sliceSize - frame.header.length - 1)) := by
  obtain ⟨header', rest', frame, place, between, back, data, pieces, parsed', made, parts, framed,
    into⟩ := cut_stream_ok cut
  obtain ⟨rfl, rfl⟩ : header' = header ∧ rest' = rest := by
    rw [parsed] at parsed'
    cases parsed'
    exact ⟨rfl, rfl⟩
  have room := framed.room
  have isSize : summary.sliceSize = frame.sliceSize := by rw [into.counted]
  have isRest : rest' = data ++ [last] := by
    have whole := into.whole
    rw [(parse_header_ok parsed).1, List.append_assoc] at whole
    exact List.append_cancel_left whole
  have perSlice : frame.header.length + frame.payloadPerSlice + 1 = summary.sliceSize := by
    rw [SliceFrame.payloadPerSlice]
    omega
  obtain ⟨full, fits⟩ := @Pieces.slice_lengths _ _ _ frame.header into.divided
  rw [perSlice, ← into.framed] at full fits
  have count : slices.length = pieces.length := by rw [into.framed, length_slices_of]
  refine ⟨fun bytes streamTemplate new same given split => ?_, full, fits, frame, data, made, isRest,
    isSize.symm, by rw [count, into.counted], ?_⟩
  · have isGiven := given_as_parts (split.trans into.framed)
    have payload := stands_whole (Join.payload_given into.divided isGiven)
      fun mark isIn => given_parts_whole isIn
    obtain ⟨join, gave, ended, out⟩ := Join.give_new framed (header_for_frame new parts same framed)
      into.divided into.few isGiven (by
        intro calls isFirst mark isIn
        obtain ⟨parts, -, rfl⟩ := List.mem_map.mp (List.mem_of_mem_head? isFirst)
        rw [given_parts] at isIn
        exact mark_as_whole (List.mem_of_mem_take isIn))
    refine ⟨join, by rw [Join.feed_given, gave], ?_, ended⟩
    rw [out, ← List.map_flatMap, payload, bytes_mark_as, into.whole]
  · rw [count, into.divided.count (by rw [SliceFrame.payloadPerSlice]; omega), isSize]
    rfl

/-- A single-slice header with the two labels; every integer is four bytes behind its width. -/
def smallHeader (internal name : UInt8) : Header :=
  ⟨magic ++ List.replicate 10 internal ++ [last, last, 0x80, 0, 0, 0, 1, 0, 3, 0x80, 0, 0, 0, 10] ++
    List.replicate 10 name, last, 28, none⟩

def smallSliceHeader (internal name : UInt8) : Bytes :=
  magic ++ List.replicate 10 internal ++
    [flagAtEnd, last, 0x80, 0, 0, 0, 2, 0, 3, 0x80, 0, 0, 0, 10] ++ List.replicate 10 name ++
    [0, 1, 0x80, 0, 0, 0, 5, 0x80, 0, 0, 0, 54]

/-- Read byte by byte, cut into a full slice and a shorter one, given back in two parts each. -/
theorem join_of_cut_is_stream_two_slices :
    ∃ join, Join.feed 0
        [[smallSliceHeader 1 2, [11, 12, 13, notLast]], [smallSliceHeader 1 2, [14, 15, last]]]
        (Join.new ⟨smallHeader 5 6⟩) = .ok join ∧
      join.out = (smallHeader 1 2).bytes ++ [11, 12, 13, 14, 15, last] ∧ join.ended = true :=
  have cut : cutStream (((smallHeader 1 2).bytes ++ [11, 12, 13, 14, 15, last]).map
      fun byte => .bytes byte []) (smallSliceHeader 3 4) =
      .ok ([smallSliceHeader 1 2 ++ [11, 12, 13, notLast], smallSliceHeader 1 2 ++ [14, 15, last]],
        ⟨2, 44, 54⟩) := by decide +kernel
  have parsed : parseHeader (Reader.stream (((smallHeader 1 2).bytes ++
      [11, 12, 13, 14, 15, last]).map fun byte => .bytes byte [])) =
      .ok (smallHeader 1 2, [11, 12, 13, 14, 15, last]) := by decide +kernel
  (join_of_cut_is_stream cut parsed).1 (smallHeader 5 6).bytes ⟨smallHeader 5 6⟩
    (by decide +kernel) ⟨by decide +kernel, by decide +kernel⟩ _ (by decide +kernel)

/-- An archive joined with holes anywhere but in slice 1's header is the stream it was cut from, byte
for byte where it was, with zeros for the payload bytes in holes. -/
theorem join_of_holes_is_blanked {stream : Reader} {template : Bytes} {slices : List Bytes}
    {summary : CutSummary} (cut : cutStream stream template = .ok (slices, summary))
    {header : Header} {rest : Bytes} (parsed : parseHeader stream.stream = .ok (header, rest))
    {frame : SliceFrame} (made : SliceFrame.new template header = .ok frame)
    {bytes : Bytes} {streamTemplate : StreamTemplate}
    (new : StreamTemplate.new bytes = .ok streamTemplate)
    (same : SameButLabels streamTemplate.header header) {calls : List (List Call)}
    (isGiven : List.Forall₂ Join.GivenAs calls slices)
    (noHole : ∀ first ∈ calls.head?, ∀ mark ∈ (given first).take frame.header.length,
      mark.2 = false) :
    stream.stream = header.bytes ++ slices.flatMap (payloadOf frame.header.length) ++ [last] ∧
    (streamHoles header.bytes.length frame.header.length calls).length = stream.stream.length ∧
    ∃ join, Join.giveAll 0 calls (Join.new streamTemplate) = .ok join ∧ join.ended = true ∧
      join.out.length = stream.stream.length ∧
      join.out =
        blanked (streamHoles header.bytes.length frame.header.length calls) stream.stream := by
  obtain ⟨header', rest', frame', place, between, back, data, pieces, parsed', made', parts, framed,
    into⟩ := cut_stream_ok cut
  obtain ⟨rfl, rfl⟩ : header' = header ∧ rest' = rest := by
    rw [parsed] at parsed'
    cases parsed'
    exact ⟨rfl, rfl⟩
  obtain rfl : frame' = frame := by
    rw [made] at made'
    cases made'
    rfl
  have givenSlices : List.Forall₂ Join.GivenAs calls (slicesOf frame'.header pieces) := by
    rw [← into.framed]
    exact isGiven
  have payload := Join.payload_given into.divided givenSlices
  have aligned : (streamHoles header'.bytes.length frame'.header.length calls).length =
      stream.stream.length := by
    rw [into.whole, streamHoles]
    simp only [List.length_append, List.length_replicate, List.length_map, payload.length_eq,
      List.length_singleton]
  obtain ⟨join, gave, ended, out⟩ := Join.give_new framed (header_for_frame new parts same framed)
    into.divided into.few givenSlices noHole
  have isBlanked : join.out =
      blanked (streamHoles header'.bytes.length frame'.header.length calls) stream.stream := by
    rw [out, into.whole, streamHoles, ← List.map_flatMap, marks_blank payload,
      blanked_append (by simp [payload.length_eq]), blanked_append (by simp), blanked_whole]
    rfl
  refine ⟨?_, aligned, join, gave, ended, ?_, isBlanked⟩
  · rw [into.framed, slices_payload into.divided, into.whole]
  · rw [isBlanked, blanked, List.length_zipWith, aligned, Nat.min_self]

/-- A hole over the end of slice 1 and its trailer, one over slice 2's header and first byte, and one
over the last trailer. -/
theorem join_of_holes_is_blanked_two_slices :
    ∃ join, Join.giveAll 0
        [[.write (smallSliceHeader 1 2), .write [11, 12], .hole 2],
          [.hole 51, .write [15], .hole 1]]
        (Join.new ⟨smallHeader 5 6⟩) = .ok join ∧
      join.out = (smallHeader 1 2).bytes ++ [11, 12, 0, 0, 15, last] :=
  have cut : cutStream (((smallHeader 1 2).bytes ++ [11, 12, 13, 14, 15, last]).map
      fun byte => .bytes byte []) (smallSliceHeader 3 4) =
      .ok ([smallSliceHeader 1 2 ++ [11, 12, 13, notLast], smallSliceHeader 1 2 ++ [14, 15, last]],
        ⟨2, 44, 54⟩) := by decide +kernel
  have parsed : parseHeader (Reader.stream (((smallHeader 1 2).bytes ++
      [11, 12, 13, 14, 15, last]).map fun byte => .bytes byte [])) =
      .ok (smallHeader 1 2, [11, 12, 13, 14, 15, last]) := by decide +kernel
  have made : SliceFrame.new (smallSliceHeader 3 4) (smallHeader 1 2) =
      .ok ⟨smallSliceHeader 1 2, 54⟩ := by decide +kernel
  have isGiven : List.Forall₂ Join.GivenAs
      [[.write (smallSliceHeader 1 2), .write [11, 12], .hole 2], [.hole 51, .write [15], .hole 1]]
      [smallSliceHeader 1 2 ++ [11, 12, 13, notLast], smallSliceHeader 1 2 ++ [14, 15, last]] := by
    decide +kernel
  have whole := join_of_holes_is_blanked cut parsed made
    (by decide +kernel : StreamTemplate.new (smallHeader 5 6).bytes = .ok ⟨smallHeader 5 6⟩)
    ⟨by decide +kernel, by decide +kernel⟩ isGiven (by decide +kernel)
  have ⟨join, gave, _, _, out⟩ := whole.2.2
  ⟨join, gave, out.trans (by decide +kernel)⟩

end Tapectl.Dar
