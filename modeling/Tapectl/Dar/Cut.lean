import Tapectl.Dar.Slice

/-!
# What cutting makes of a stream

A header is determined by the bytes it takes, and two labels in it may be any bytes: so the header of
every slice parses as the template's does. The payload is cut into pieces of one length and a last
one that is not longer, however the stream's reads are divided.
-/

namespace Tapectl.Dar

open StoredText

theorem bind_ok {First Second : Type} {first : Except String First}
    {next : First → Except String Second} {result : Second} :
    (first >>= next) = .ok result ↔ ∃ value, first = .ok value ∧ next value = .ok result := by
  cases first with
  | error message => simp [bind, Except.bind]
  | ok value => simp [bind, Except.bind]

/-- Between the two recorders `bytes` were read, within the longest header. -/
structure Took (before after : Recorder) (bytes : Bytes) : Prop where
  left : before.left = bytes ++ after.left
  recorded : after.bytes = before.bytes ++ bytes
  within : before.bytes.length ≤ maxHeader → after.bytes.length ≤ maxHeader

theorem Took.none (recorder : Recorder) : Took recorder recorder [] :=
  ⟨rfl, (List.append_nil _).symm, id⟩

theorem Took.trans {first second third : Recorder} {one two : Bytes} (took : Took first second one)
    (more : Took second third two) : Took first third (one ++ two) :=
  ⟨by rw [took.left, more.left, List.append_assoc],
    by rw [more.recorded, took.recorded, List.append_assoc], more.within ∘ took.within⟩

/-- After `start` bytes the parser makes `value` of `bytes`, whatever follows them. -/
def Reads {Value : Type} (parse : Recorder → Except String (Value × Recorder)) (start : Nat)
    (bytes : Bytes) (value : Value) : Prop :=
  ∀ recorded tail, recorded.length = start →
    parse ⟨bytes ++ tail, recorded⟩ = .ok (value, ⟨tail, recorded ++ bytes⟩)

theorem Reads.step {First Second : Type} {parse : Recorder → Except String (First × Recorder)}
    {next : First × Recorder → Except String Second} {start : Nat} {one : Bytes} {value : First}
    (reads : Reads parse start one value) {recorded : Bytes} (length : recorded.length = start)
    (rest : Bytes) :
    (parse ⟨one ++ rest, recorded⟩ >>= next) = next (value, ⟨rest, recorded ++ one⟩) := by
  rw [reads recorded rest length]
  rfl

namespace Recorder

variable {verb : String} {recorder : Recorder} {found : Fields}

theorem byte_ok {after : Recorder} {next : UInt8} (read : recorder.byte verb = .ok (next, after)) :
    Took recorder after [next] ∧ recorder.bytes.length < maxHeader := by
  unfold byte at read
  split at read
  · cases read
  next room =>
  split at read
  · cases read
  next first left shape =>
  cases read
  refine ⟨⟨shape, rfl, fun _ => ?_⟩, by omega⟩
  rw [List.length_append, List.length_singleton]
  omega

theorem byte_reads (verb : String) {start : Nat} (room : start < maxHeader) (next : UInt8) :
    Reads (byte verb) start [next] next := by
  intro recorded tail length
  simp only [byte, List.singleton_append, length, not_le.mpr room, if_false]

theorem take_ok {count : Nat} {after : Recorder} {bytes : Bytes}
    (read : recorder.take verb count = .ok (bytes, after)) :
    Took recorder after bytes ∧ bytes.length = count ∧
      (0 < count → recorder.bytes.length + count ≤ maxHeader) := by
  induction count generalizing recorder bytes with
  | zero =>
    cases read
    exact ⟨.none _, rfl, by omega⟩
  | succ count ih =>
    obtain ⟨⟨first, middle⟩, one, rest⟩ := bind_ok.mp read
    obtain ⟨⟨more, last⟩, two, same⟩ := bind_ok.mp rest
    cases same
    obtain ⟨tookFirst, room⟩ := byte_ok one
    obtain ⟨tookMore, length, within⟩ := ih two
    refine ⟨tookFirst.trans tookMore, by rw [List.length_cons, length], fun _ => ?_⟩
    have recorded := congrArg List.length tookFirst.recorded
    rw [List.length_append, List.length_singleton] at recorded
    rcases Nat.eq_zero_or_pos count with rfl | positive
    · omega
    · have := within positive
      omega

theorem take_reads (verb : String) {start count : Nat} (room : 0 < count → start + count ≤ maxHeader)
    {bytes : Bytes} (length : bytes.length = count) : Reads (take verb count) start bytes bytes := by
  induction count generalizing start bytes with
  | zero =>
    obtain rfl := List.length_eq_zero_iff.mp length
    intro recorded tail _
    simp [take]
  | succ count ih =>
    obtain ⟨first, rest, rfl⟩ := List.exists_cons_of_length_eq_add_one length
    have here := room (by omega)
    have one := byte_reads verb (by omega : start < maxHeader) first
    have two := @ih (start + 1) (fun _ => by omega) rest (by simpa using length)
    intro recorded tail size
    rw [take, ← List.singleton_append, List.append_assoc, one.step size]
    dsimp only
    rw [two.step (by simp [size]), List.append_assoc]
    rfl

def Local {Value : Type} (parse : String → Recorder → Except String (Value × Recorder)) : Prop :=
  ∀ verb recorder value after, parse verb recorder = .ok (value, after) →
    ∃ bytes, Took recorder after bytes ∧
      ∀ other, Reads (parse other) recorder.bytes.length bytes value

theorem preamble_local (turns zeros : Nat) : Local fun verb => preamble verb turns zeros := by
  induction turns generalizing zeros with
  | zero =>
    intro verb recorder value after read
    cases read
  | succ turns ih =>
    intro verb recorder value after read
    obtain ⟨⟨next, middle⟩, one, rest⟩ := bind_ok.mp read
    obtain ⟨took, room⟩ := byte_ok one
    by_cases zero : next = 0
    · simp only [zero, ne_eq, not_true_eq_false, if_false] at rest
      obtain ⟨more, tookMore, reads⟩ := ih (zeros + 1) verb middle value after rest
      refine ⟨[next] ++ more, took.trans tookMore, fun other recorded tail size => ?_⟩
      have later := reads other (recorded ++ [next]) tail (by rw [took.recorded]; simp [size])
      dsimp only at later ⊢
      rw [preamble, List.append_assoc, (byte_reads other room next).step size]
      rw [List.append_assoc, zero] at later
      simp only [zero, ne_eq, not_true_eq_false, if_false]
      exact later
    · simp only [zero, ne_eq, not_false_eq_true, if_true] at rest
      cases rest
      refine ⟨[next], took, fun other recorded tail size => ?_⟩
      dsimp only
      rw [preamble, (byte_reads other room next).step size]
      simp only [zero, ne_eq, not_false_eq_true, if_true]

theorem infinint_local : Local infinint := by
  intro verb recorder value after read
  obtain ⟨⟨⟨zeros, width⟩, middle⟩, one, rest⟩ := bind_ok.mp read
  obtain ⟨front, tookFront, readsFront⟩ := preamble_local _ _ _ _ _ _ one
  dsimp only at rest
  split at rest
  · cases rest
  next oneBit =>
  obtain ⟨⟨digits, last⟩, two, tail⟩ := bind_ok.mp rest
  obtain ⟨tookDigits, length, room⟩ := take_ok two
  dsimp only at tail
  split at tail
  · cases tail
  next small =>
  cases tail
  refine ⟨front ++ digits, tookFront.trans tookDigits, fun other recorded tail size => ?_⟩
  rw [infinint, List.append_assoc, (readsFront other).step size]
  dsimp only
  have start : middle.bytes.length = (recorded ++ front).length := by
    rw [tookFront.recorded, List.length_append, List.length_append, size]
  rw [if_neg oneBit, (take_reads other (start ▸ room) length).step rfl]
  simp only [small, if_false, List.append_assoc]

theorem Took.length {before after : Recorder} {bytes : Bytes} (took : Took before after bytes) :
    after.bytes.length = before.bytes.length + bytes.length := by
  rw [took.recorded, List.length_append]

theorem field_value_ok {result : Fields} {tlvType len : Nat} {after : Recorder}
    (read : fieldValue verb found tlvType len recorder = .ok (result, after)) :
    ∃ front name, Took recorder after (front ++ name) ∧
      ((name = [] ∧ result.1 = found.1) ∨ (found.1 = none ∧ name.length = labelLen ∧
        result.1 = some (recorder.bytes.length + front.length))) ∧
      ∀ other name', name'.length = name.length →
        Reads (fieldValue other found tlvType len) recorder.bytes.length (front ++ name') result := by
  unfold fieldValue at read
  dsimp only at read
  split at read
  · cases read
  next short =>
  split at read
  · next isName =>
    split at read
    · cases read
    next fits =>
    obtain ⟨⟨name, last⟩, one, same⟩ := bind_ok.mp read
    cases same
    obtain ⟨took, length, room⟩ := take_ok one
    have isTen : len = labelLen := by
      by_contra different
      exact fits (.inl different)
    have unnamed : found.1 = none := by
      cases known : found.1 with
      | none => rfl
      | some place => exact absurd (.inr (by rw [known]; rfl)) fits
    refine ⟨[], name, took, .inr ⟨unnamed, length.trans isTen, rfl⟩,
      fun other name' same recorded tail size => ?_⟩
    rw [List.nil_append, fieldValue, if_neg short, if_pos isName, if_neg fits,
      (take_reads other room (same.trans length)).step size, size]
  next notName =>
  split at read
  · next isSize =>
    split at read
    · cases read
    next fresh =>
    obtain ⟨⟨value, last⟩, one, same⟩ := bind_ok.mp read
    obtain ⟨bytes, took, reads⟩ := infinint_local _ _ _ _ one
    dsimp only at same
    split at same
    · cases same
    next agrees =>
    cases same
    refine ⟨bytes, [], by rw [List.append_nil]; exact took, .inl ⟨rfl, rfl⟩,
      fun other name' length recorded tail size => ?_⟩
    obtain rfl := List.length_eq_zero_iff.mp length
    have width := Took.length took
    have same : (recorded ++ bytes).length - recorded.length = len := by
      rw [List.length_append]
      omega
    rw [List.append_nil, fieldValue, if_neg short, if_neg notName, if_pos isSize, if_neg fresh,
      (reads other).step size]
    exact if_neg (not_not.mpr same)
  · cases read

theorem field_ok {result : Fields} {after : Recorder}
    (read : field verb found recorder = .ok (result, after)) :
    ∃ front name, Took recorder after (front ++ name) ∧
      ((name = [] ∧ result.1 = found.1) ∨ (found.1 = none ∧ name.length = labelLen ∧
        result.1 = some (recorder.bytes.length + front.length))) ∧
      ∀ other name', name'.length = name.length →
        Reads (field other found) recorder.bytes.length (front ++ name') result := by
  obtain ⟨⟨tag, second⟩, one, rest⟩ := bind_ok.mp read
  obtain ⟨tookTag, tagLength, tagRoom⟩ := take_ok one
  obtain ⟨⟨len, third⟩, two, rest⟩ := bind_ok.mp rest
  obtain ⟨lenBytes, tookLen, readsLen⟩ := infinint_local _ _ _ _ two
  obtain ⟨front, name, tookValue, placed, readsValue⟩ := field_value_ok rest
  have start := Took.length (tookTag.trans tookLen)
  refine ⟨(tag ++ lenBytes) ++ front, name, ?_, ?_, fun other name' length recorded tail size => ?_⟩
  · rw [List.append_assoc]
    exact (tookTag.trans tookLen).trans tookValue
  · refine placed.imp_right fun ⟨unnamed, length, place⟩ => ⟨unnamed, length, ?_⟩
    rw [place, start, List.length_append, List.length_append, List.length_append]
    congr 1
    omega
  · have value := readsValue other name' length ((recorded ++ tag) ++ lenBytes) tail
      (by rw [start, List.append_assoc, List.length_append, size])
    simp only [List.append_assoc] at value ⊢
    rw [field, (take_reads other tagRoom tagLength).step size]
    dsimp only
    rw [(readsLen other).step (by rw [Took.length tookTag, List.length_append, size])]
    simp only [List.append_assoc]
    exact value

theorem fields_ok {count : Nat} {result : Fields} {after : Recorder}
    (read : fields verb count found recorder = .ok (result, after)) :
    ∃ front name back, Took recorder after (front ++ name ++ back) ∧
      ((name = [] ∧ result.1 = found.1) ∨ (found.1 = none ∧ name.length = labelLen ∧
        result.1 = some (recorder.bytes.length + front.length))) ∧
      ∀ other name', name'.length = name.length →
        Reads (fields other count found) recorder.bytes.length (front ++ name' ++ back) result := by
  induction count generalizing found recorder with
  | zero =>
    cases read
    refine ⟨[], [], [], .none _, .inl ⟨rfl, rfl⟩,
      fun other name' length recorded tail _ => ?_⟩
    obtain rfl := List.length_eq_zero_iff.mp length
    simp [fields]
  | succ count ih =>
    obtain ⟨⟨middleFound, middle⟩, one, rest⟩ := bind_ok.mp read
    obtain ⟨front, name, took, placed, reads⟩ := field_ok one
    obtain ⟨front', name', back', took', placed', reads'⟩ := ih rest
    have start := Took.length took
    -- the data name is in this field, or in one of the rest
    rcases placed with ⟨rfl, same⟩ | ⟨unnamed, length, place⟩
    · refine ⟨front ++ front', name', back', ?_, ?_, fun other label size recorded tail here => ?_⟩
      · have both := took.trans took'
        simp only [List.append_nil, List.append_assoc] at both ⊢
        exact both
      · rw [same] at placed'
        refine placed'.imp_right fun ⟨unnamed, length, place⟩ => ⟨unnamed, length, ?_⟩
        rw [place, start, List.append_nil, List.length_append]
        congr 1
        omega
      · have first := reads other [] rfl
        have later := reads' other label size (recorded ++ (front ++ [])) tail
          (by rw [start, List.length_append, here])
        simp only [List.append_nil, List.append_assoc] at first later ⊢
        rw [fields, first.step here]
        exact later
    · have known : middleFound.1 ≠ none := by simp [place]
      obtain ⟨rfl, same⟩ := placed'.resolve_right fun unnamed' => known unnamed'.1
      refine ⟨front, name, front' ++ back', ?_, .inr ⟨unnamed, length, same.trans place⟩,
        fun other label size recorded tail here => ?_⟩
      · have both := took.trans took'
        simp only [List.append_nil, List.append_assoc] at both ⊢
        exact both
      · have first := reads other label size
        have later := reads' other [] rfl (recorded ++ (front ++ label)) tail
          (by rw [start, List.length_append, List.length_append, List.length_append, here, size])
        simp only [List.append_nil, List.append_assoc] at first later ⊢
        have step := @Reads.step _ _ _ (fun found => fields other count found.1 found.2) _ _ _ first _ here
          (front' ++ (back' ++ tail))
        simp only [List.append_assoc] at step
        rw [fields]
        exact step.trans later

end Recorder

/-- The parts of a header: it may carry any two labels in their places. -/
structure Header.Parts (header : Header) (between back : Bytes) : Prop where
  bytes : ∃ internal name, internal.length = labelLen ∧ name.length = labelLen ∧
    header.bytes = magic ++ internal ++ between ++ name ++ back
  place : header.dataNameAt = magic.length + labelLen + between.length
  short : header.bytes.length ≤ maxHeader
  parses : ∀ verb internal name tail, internal.length = labelLen → name.length = labelLen →
    parseHeaderTo verb (magic ++ internal ++ between ++ name ++ back ++ tail) =
      .ok (⟨magic ++ internal ++ between ++ name ++ back, header.flag, header.dataNameAt,
        header.sliceSize⟩, tail)

open Recorder in
theorem parse_header_ok {verb : String} {input rest : Bytes} {header : Header}
    (parsed : parseHeaderTo verb input = .ok (header, rest)) :
    input = header.bytes ++ rest ∧ ∃ between back, header.Parts between back := by
  obtain ⟨⟨start, first⟩, one, parsed⟩ := bind_ok.mp parsed
  obtain ⟨tookStart, _, _⟩ := take_ok one
  dsimp only at parsed
  split at parsed
  · cases parsed
  next isMagic =>
  obtain rfl := not_not.mp isMagic
  obtain ⟨⟨internal, second⟩, two, parsed⟩ := bind_ok.mp parsed
  obtain ⟨tookInternal, internalLength, internalRoom⟩ := take_ok two
  obtain ⟨⟨flag, third⟩, three, parsed⟩ := bind_ok.mp parsed
  obtain ⟨tookFlag, flagRoom⟩ := byte_ok three
  dsimp only at parsed
  split at parsed
  · cases parsed
  next knownFlag =>
  obtain ⟨⟨extension, fourth⟩, four, parsed⟩ := bind_ok.mp parsed
  obtain ⟨tookExtension, extensionRoom⟩ := byte_ok four
  dsimp only at parsed
  split at parsed
  · cases parsed
  next isList =>
  obtain ⟨⟨count, fifth⟩, five, parsed⟩ := bind_ok.mp parsed
  obtain ⟨countBytes, tookCount, readsCount⟩ := infinint_local _ _ _ _ five
  dsimp only at parsed
  split at parsed
  · cases parsed
  next few =>
  obtain ⟨⟨found, sixth⟩, six, parsed⟩ := bind_ok.mp parsed
  obtain ⟨front, name, back, tookFields, placed, readsFields⟩ := fields_ok six
  dsimp only at parsed
  split at parsed
  · cases parsed
  next place isPlace =>
  cases parsed
  obtain ⟨_, nameLength, atPlace⟩ := placed.resolve_left fun none => by
    rw [isPlace] at none
    cases none.2
  have took := ((((tookStart.trans tookInternal).trans tookFlag).trans tookExtension).trans
    tookCount).trans tookFields
  have one := Took.length tookStart
  have two := Took.length tookInternal
  have three := Took.length tookFlag
  have four := Took.length tookExtension
  have five := Took.length tookCount
  simp only [List.length_nil, List.length_singleton, Nat.zero_add] at one two three four five
  dsimp only at flagRoom extensionRoom readsCount
  refine ⟨took.left.trans (by rw [took.recorded, List.nil_append]), [flag] ++ [extension] ++
    countBytes ++ front, back, ⟨internal, name, internalLength, nameLength, ?_⟩, ?_,
    took.within (Nat.zero_le _), ?_⟩
  · rw [took.recorded]
    simp only [List.nil_append, List.append_assoc]
  · have shown := Option.some.inj (isPlace.symm.trans atPlace)
    simp only [List.length_append, List.length_singleton]
    omega
  · intro other label dataName tail labelSize nameSize
    have readStart := @take_reads other 0 magic.length (fun _ => by decide) magic rfl
    have readLabel := take_reads other internalRoom (labelSize.trans rfl)
    have fieldBytes := readsFields other dataName (nameSize.trans nameLength.symm)
      (magic ++ label ++ [flag] ++ [extension] ++ countBytes) tail (by
        simp only [List.length_append, List.length_singleton]
        omega)
    simp only [List.append_assoc] at fieldBytes ⊢
    rw [parseHeaderTo, readStart.step rfl]
    dsimp only
    rw [if_neg (not_not.mpr rfl), List.nil_append, readLabel.step one.symm]
    dsimp only
    rw [(byte_reads other flagRoom flag).step (by
      rw [List.length_append, labelSize]
      omega)]
    dsimp only
    rw [if_neg knownFlag, (byte_reads other extensionRoom extension).step (by
      simp only [List.length_append, List.length_singleton, labelSize]
      omega)]
    dsimp only
    rw [if_neg isList, (readsCount other).step (by
      simp only [List.length_append, List.length_singleton, labelSize]
      omega)]
    dsimp only
    rw [if_neg few]
    simp only [List.append_assoc]
    rw [fieldBytes]
    simp only [bind, Except.bind, isPlace]

theorem relabel_append {front old back new : Bytes} {place : Nat} (length : front.length = place)
    (ten : old.length = labelLen) : relabel (front ++ old ++ back) place new = front ++ new ++ back := by
  subst length
  have after : (front ++ old ++ back).drop (front.length + labelLen) = back := by
    rw [← ten, ← List.length_append, List.drop_left]
  rw [relabel, after, List.append_assoc front old back, List.take_left]

theorem label_at_append {front label back : Bytes} {place : Nat} (length : front.length = place)
    (ten : label.length = labelLen) : labelAt (front ++ label ++ back) place = label := by
  subst length
  rw [labelAt, List.append_assoc, List.drop_left, ← ten, List.take_left]

/-- The stream's labels put in their places make the template's header the stream's. -/
structure SameButLabels (template stream : Header) : Prop where
  length : template.bytes.length = stream.bytes.length
  bytes : relabel (relabel template.bytes magic.length (labelAt stream.bytes magic.length))
    stream.dataNameAt (labelAt stream.bytes stream.dataNameAt) = stream.bytes

namespace Header.Parts

variable {header : Header} {between back : Bytes}

theorem relabel_both (place : header.dataNameAt = magic.length + labelLen + between.length)
    {internal name label dataName : Bytes} (ten : internal.length = labelLen)
    (nameTen : name.length = labelLen) (labelTen : label.length = labelLen) :
    relabel (relabel (magic ++ internal ++ between ++ name ++ back) magic.length label)
      header.dataNameAt dataName = magic ++ label ++ between ++ dataName ++ back := by
  have first : relabel (magic ++ internal ++ between ++ name ++ back) magic.length label =
      magic ++ label ++ between ++ name ++ back := by
    have one := @relabel_append magic internal (between ++ name ++ back) label _ rfl ten
    simpa only [List.append_assoc] using one
  rw [first]
  exact relabel_append (by rw [place, List.length_append, List.length_append, labelTen]) nameTen

theorem labels (parts : header.Parts between back) :
    ∃ internal name, internal.length = labelLen ∧ name.length = labelLen ∧
      header.bytes = magic ++ internal ++ between ++ name ++ back ∧
      labelAt header.bytes magic.length = internal ∧
      labelAt header.bytes header.dataNameAt = name := by
  obtain ⟨internal, name, ten, nameTen, bytes⟩ := parts.bytes
  refine ⟨internal, name, ten, nameTen, bytes, ?_, ?_⟩
  · have one := @label_at_append magic internal (between ++ name ++ back) _ rfl ten
    rw [bytes]
    simpa only [List.append_assoc] using one
  · rw [bytes]
    exact label_at_append (by rw [parts.place, List.length_append, List.length_append, ten]) nameTen

end Header.Parts

/-- The header of the slices: it parses as a slice's, with the stream's labels. -/
structure SliceFrame.For (frame : SliceFrame) (stream : Header) (place : Nat) : Prop where
  short : frame.header.length ≤ maxHeader
  room : frame.header.length + 1 < frame.sliceSize
  single : stream.flag = last ∧ stream.sliceSize = none
  parses : ∀ verb tail, parseHeaderTo verb (frame.header ++ tail) =
    .ok (⟨frame.header, flagAtEnd, place, some frame.sliceSize⟩, tail)
  internal : labelAt frame.header magic.length = labelAt stream.bytes magic.length
  dataName : labelAt frame.header place = labelAt stream.bytes stream.dataNameAt

variable {between back : Bytes} {frame : SliceFrame}

theorem slice_frame_new {template : Bytes} {stream : Header} (parts : stream.Parts between back)
    (made : SliceFrame.new template stream = .ok frame) : ∃ place, frame.For stream place := by
  obtain ⟨⟨tmpl, rest⟩, parsed, made⟩ := bind_ok.mp made
  obtain ⟨_, tmplBetween, tmplBack, tmplParts⟩ := parse_header_ok parsed
  obtain ⟨old, oldName, oldTen, oldNameTen, tmplBytes, _, _⟩ := tmplParts.labels
  obtain ⟨internal, name, ten, nameTen, _, atInternal, atName⟩ := parts.labels
  dsimp only at made
  split at made
  · cases made
  next isEnd =>
  split at made
  · cases made
  next size isSize =>
  split at made
  · cases made
  next single =>
  have header : relabel (relabel tmpl.bytes magic.length internal) tmpl.dataNameAt name =
      magic ++ internal ++ tmplBetween ++ name ++ tmplBack := by
    rw [tmplBytes]
    exact Header.Parts.relabel_both tmplParts.place oldTen oldNameTen ten
  rw [atInternal, atName, header] at made
  split at made
  · cases made
  next room =>
  cases made
  have parses := fun verb tail => tmplParts.parses verb internal name tail ten nameTen
  rw [not_not.mp isEnd, isSize] at parses
  have length : (magic ++ internal ++ tmplBetween ++ name ++ tmplBack).length = tmpl.bytes.length := by
    rw [tmplBytes]
    simp only [List.length_append, ten, nameTen, oldTen, oldNameTen]
  refine ⟨tmpl.dataNameAt, length ▸ tmplParts.short, Nat.lt_of_not_le room, ?_, parses, ?_, ?_⟩
  · simp only [ne_eq, not_or, not_not, Bool.not_eq_true, Option.isSome_eq_false_iff,
      Option.isNone_iff_eq_none] at single
    exact single
  · have one := @label_at_append magic internal (tmplBetween ++ name ++ tmplBack) _ rfl ten
    rw [atInternal]
    simpa only [List.append_assoc] using one
  · rw [atName]
    exact label_at_append
      (by rw [tmplParts.place, List.length_append, List.length_append, ten]) nameTen

theorem split_at {bytes : Bytes} {count : Nat} (enough : count ≤ bytes.length) :
    ∃ front back, bytes = front ++ back ∧ front.length = count :=
  ⟨bytes.take count, bytes.drop count, (List.take_append_drop count bytes).symm,
    by rw [List.length_take, Nat.min_eq_left enough]⟩

theorem Header.Parts.of_same {template stream : Header} (parts : stream.Parts between back)
    (same : SameButLabels template stream) :
    ∃ internal name, internal.length = labelLen ∧ name.length = labelLen ∧
      template.bytes = magic ++ internal ++ between ++ name ++ back := by
  obtain ⟨label, dataName, labelTen, dataNameTen, bytes, atLabel, atName⟩ := parts.labels
  have total : template.bytes.length =
      magic.length + labelLen + between.length + labelLen + back.length := by
    rw [same.length, bytes]
    simp only [List.length_append, labelTen, dataNameTen]
  obtain ⟨front, rest, split, frontLength⟩ := split_at (by omega : magic.length ≤ template.bytes.length)
  rw [split, List.length_append] at total
  obtain ⟨internal, rest, rfl, ten⟩ := split_at (by omega : labelLen ≤ rest.length)
  rw [List.length_append] at total
  obtain ⟨middle, rest, rfl, middleLength⟩ := split_at (by omega : between.length ≤ rest.length)
  rw [List.length_append] at total
  obtain ⟨name, after, rfl, nameTen⟩ := split_at (by omega : labelLen ≤ rest.length)
  have swapped := same.bytes
  have first := @relabel_append front internal (middle ++ (name ++ after)) label _ frontLength ten
  have second := @relabel_append (front ++ label ++ middle) name after dataName stream.dataNameAt
    (by rw [parts.place, List.length_append, List.length_append, labelTen]; omega) nameTen
  simp only [List.append_assoc] at first second
  rw [atLabel, atName, split, first, second, bytes] at swapped
  simp only [List.append_assoc] at swapped
  obtain ⟨sameFront, swapped⟩ := List.append_inj swapped frontLength
  obtain ⟨sameMiddle, swapped⟩ := List.append_inj (List.append_cancel_left swapped) middleLength
  obtain rfl := List.append_cancel_left swapped
  refine ⟨internal, name, ten, nameTen, ?_⟩
  rw [split, sameFront, sameMiddle]
  simp only [List.append_assoc]

/-- A template that differs from the stream's header in the labels alone is made the stream's header
by a slice's labels. -/
theorem header_for_frame {bytes : Bytes} {template : StreamTemplate} {stream : Header}
    (made : StreamTemplate.new bytes = .ok template) (parts : stream.Parts between back)
    (same : SameButLabels template.header stream) {place : Nat} (framed : frame.For stream place) :
    template.headerFor ⟨frame.header, flagAtEnd, place, some frame.sliceSize⟩ = .ok stream.bytes := by
  obtain ⟨⟨header, rest⟩, parsed, made⟩ := bind_ok.mp made
  obtain ⟨input, _⟩ := parse_header_ok parsed
  dsimp only at made
  split at made
  · cases made
  cases made
  have dataNameAt : header.dataNameAt = stream.dataNameAt := by
    obtain ⟨internal, name, ten, nameTen, bytes⟩ := parts.of_same same
    have again := parts.parses joinVerb internal name rest ten nameTen
    rw [← bytes, ← input, parsed] at again
    exact congrArg (Header.dataNameAt ∘ Prod.fst) (Except.ok.inj again)
  rw [StreamTemplate.headerFor, if_neg (by simp)]
  simp only [framed.internal, framed.dataName, dataNameAt]
  exact congrArg Except.ok same.bytes

namespace Reader

theorem stream_put_back (left : Bytes) (reader : Reader) :
    stream (putBack left reader) = left ++ stream reader := by
  cases left <;> rfl

theorem stream_advance (count : Nat) (reader : Reader) :
    stream (advance count reader) = (stream reader).drop count := by
  induction reader generalizing count with
  | nil => simp [advance, stream]
  | cons delivery rest ih =>
    have content : stream (delivery :: rest) = delivery.content ++ stream rest := rfl
    rw [advance, content]
    split
    case isTrue whole => rw [ih, List.drop_append, List.drop_eq_nil_of_le whole, List.nil_append]
    case isFalse part => rw [stream_put_back, List.drop_append_of_le_length (by omega)]

end Reader

namespace Payload

def Settled (payload : Payload) : Prop := payload.eof = true → payload.inner.stream = []

structure SameStream (before after : Payload) : Prop where
  remaining : after.remaining = before.remaining
  consumed : after.consumed + after.inner.stream.length =
    before.consumed + before.inner.stream.length

theorem SameStream.refl (payload : Payload) : SameStream payload payload := ⟨rfl, rfl⟩

theorem SameStream.trans {first second third : Payload} (one : SameStream first second)
    (two : SameStream second third) : SameStream first third :=
  ⟨two.remaining.trans one.remaining, two.consumed.trans one.consumed⟩

/-- One turn keeps the stream, and uses up a delivery or fills the buffer or sees the end. -/
theorem read_once_spec {payload : Payload} (few : payload.buffered.length < 2)
    (more : payload.eof = false) :
    SameStream payload payload.readOnce ∧ payload.readOnce.Settled ∧
      (payload.readOnce.inner.length < payload.inner.length ∨
        2 ≤ payload.readOnce.buffered.length ∨ payload.readOnce.eof = true) := by
  obtain ⟨inner, buffered, eof, consumed⟩ := payload
  obtain rfl : eof = false := more
  cases inner with
  | nil => exact ⟨⟨rfl, rfl⟩, fun _ => rfl, .inr (.inr rfl)⟩
  | cons delivery rest =>
    cases delivery with
    | interrupted =>
      exact ⟨⟨rfl, rfl⟩, (fun ended => nomatch ended), .inl (Nat.lt_succ_self _)⟩
    | bytes first more =>
      have big : 2 ≤ payloadBuffer := by decide
      obtain ⟨room, isRoom⟩ : ∃ room, payloadBuffer - buffered.length = room + 1 :=
        ⟨payloadBuffer - buffered.length - 1, by dsimp only at few; omega⟩
      have once : readOnce ⟨.bytes first more :: rest, buffered, false, consumed⟩ =
          ⟨Reader.putBack (more.drop room) rest, buffered ++ first :: more.take room, false,
            consumed + ((more.take room).length + 1)⟩ := by
        simp [readOnce, Reader.read, isRoom]
      rw [once]
      refine ⟨⟨?_, ?_⟩, (fun ended => nomatch ended), ?_⟩
      · have stream : Reader.stream (.bytes first more :: rest) =
            first :: (more.take room ++ (more.drop room ++ Reader.stream rest)) := by
          rw [← List.append_assoc, List.take_append_drop]
          rfl
        rw [remaining, remaining, Reader.stream_put_back, stream, List.append_assoc,
          List.cons_append]
      · have whole := congrArg List.length (List.take_append_drop room more)
        have stream : Reader.stream (.bytes first more :: rest) = first :: (more ++ Reader.stream rest) :=
          rfl
        simp only [Reader.stream_put_back, stream, List.length_append, List.length_cons] at whole ⊢
        omega
      · rcases Nat.lt_or_ge room more.length with long | whole
        · refine .inr (.inl ?_)
          simp only [List.length_append, List.length_cons, List.length_take]
          dsimp only at few
          omega
        · rw [List.drop_eq_nil_of_le whole]
          exact .inl (Nat.lt_succ_self _)

theorem fill_within_of_full {payload : Payload}
    (full : ¬ (payload.buffered.length < 2 ∧ payload.eof = false)) (turns : Nat) :
    payload.fillWithin turns = payload := by
  cases turns with
  | zero => rfl
  | succ turns => rw [fillWithin, if_neg full]

theorem fill_within_spec {turns : Nat} {payload : Payload} (settled : payload.Settled)
    (enough : payload.inner.length < turns) :
    SameStream payload (payload.fillWithin turns) ∧ (payload.fillWithin turns).Settled ∧
      (2 ≤ (payload.fillWithin turns).buffered.length ∨ (payload.fillWithin turns).eof = true) := by
  induction turns generalizing payload with
  | zero => omega
  | succ turns ih =>
    by_cases needs : payload.buffered.length < 2 ∧ payload.eof = false
    · obtain ⟨same, settledOnce, progress⟩ := read_once_spec needs.1 needs.2
      rw [fillWithin, if_pos needs]
      by_cases less : payload.readOnce.inner.length < payload.inner.length
      · obtain ⟨later, settledLater, filled⟩ := ih settledOnce (by omega)
        exact ⟨same.trans later, settledLater, filled⟩
      · have filled := progress.resolve_left less
        have full : ¬ (payload.readOnce.buffered.length < 2 ∧ payload.readOnce.eof = false) := by
          rintro ⟨few, more⟩
          rcases filled with many | ended
          · omega
          · rw [more] at ended
            cases ended
        rw [fill_within_of_full full]
        exact ⟨same, settledOnce, filled⟩
    · rw [fill_within_of_full needs]
      refine ⟨.refl _, settled, ?_⟩
      by_cases many : payload.buffered.length < 2
      · exact .inr (by simpa using fun more => needs ⟨many, more⟩)
      · exact .inl (not_lt.mp many)

theorem fill_spec {payload : Payload} (settled : payload.Settled) :
    SameStream payload payload.fill ∧ payload.fill.Settled ∧
      (2 ≤ payload.fill.buffered.length ∨ payload.fill.eof = true) :=
  fill_within_spec settled (Nat.lt_succ_self _)

def total (payload : Payload) : Nat := payload.consumed + payload.inner.stream.length

variable {data : Bytes}

/-- A filled payload before the end of `data`: what is buffered is part of the data, and the data's
last byte is not taken for the trailer. -/
theorem filled_part {payload : Payload} {trailer : UInt8} (settled : payload.Settled)
    (filled : 2 ≤ payload.buffered.length ∨ payload.eof = true)
    (remaining : payload.remaining = data ++ [trailer]) :
    0 < payload.buffered.length ∧ payload.buffered.length ≤ data.length + 1 ∧
      (payload.buffered.length = 1 → data = []) := by
  have length := congrArg List.length remaining
  rw [Payload.remaining, List.length_append, List.length_append, List.length_singleton] at length
  rcases filled with many | ended
  · exact ⟨by omega, by omega, by omega⟩
  · rw [settled ended, List.length_nil] at length
    refine ⟨by omega, by omega, fun one => ?_⟩
    exact List.length_eq_zero_iff.mp (by omega)

theorem peek_filled {payload : Payload} {trailer : UInt8} (settled : payload.Settled)
    (filled : 2 ≤ payload.buffered.length ∨ payload.eof = true)
    (remaining : payload.remaining = data ++ [trailer]) (left : Nat) :
    payload.peek left = data.take (min (payload.buffered.length - 1) left) := by
  obtain ⟨some_byte, part, _⟩ := filled_part settled filled remaining
  have front := congrArg (List.take (min (payload.buffered.length - 1) left)) remaining
  rw [Payload.remaining, List.take_append_of_le_length (by omega),
    List.take_append_of_le_length (by omega)] at front
  exact front

theorem fill_at_trailer {payload : Payload} {trailer : UInt8} (settled : payload.Settled)
    (remaining : payload.remaining = [trailer]) :
    payload.fill.atEnd = true ∧ payload.fill.trailer = some trailer ∧
      payload.fill.consumed = payload.total := by
  obtain ⟨same, settledFill, filled⟩ := fill_spec settled
  have stillThere : payload.fill.remaining = [] ++ [trailer] := same.remaining.trans remaining
  obtain ⟨some_byte, part, _⟩ := filled_part settledFill filled stillThere
  have ended : payload.fill.eof = true := by
    refine filled.resolve_left fun many => ?_
    rw [List.length_nil] at part
    omega
  have only : payload.fill.buffered = [trailer] := by
    rw [Payload.remaining, settledFill ended, List.append_nil] at stillThere
    exact stillThere
  have counted := same.consumed
  rw [settledFill ended, List.length_nil, Nat.add_zero] at counted
  exact ⟨by simp [atEnd, ended, only], by simp [Payload.trailer, only], counted⟩

theorem fill_before_trailer {payload : Payload} {trailer : UInt8} (settled : payload.Settled)
    (remaining : payload.remaining = data ++ [trailer]) (left : data ≠ []) :
    payload.fill.atEnd = false := by
  obtain ⟨same, settledFill, filled⟩ := fill_spec settled
  have stillThere := same.remaining.trans remaining
  obtain ⟨some_byte, _, one⟩ := filled_part settledFill filled stillThere
  have many : ¬ payload.fill.buffered.length ≤ 1 := fun few => left (one (by omega))
  simp [atEnd, many]

end Payload

/-- The payload of a slice is the next bytes of the data, as many as there is room for. -/
theorem fill_slice_spec {turns left : Nat} {sink data : Bytes} {trailer : UInt8} {payload : Payload}
    (settled : payload.Settled) (remaining : payload.remaining = data ++ [trailer])
    (enough : data.length < turns) :
    (fillSlice turns left sink payload).1 = sink ++ data.take left ∧
      (fillSlice turns left sink payload).2.remaining = data.drop left ++ [trailer] ∧
      (fillSlice turns left sink payload).2.Settled ∧
      (fillSlice turns left sink payload).2.total = payload.total := by
  induction turns generalizing left sink data payload with
  | zero => omega
  | succ turns ih =>
    by_cases none : left = 0
    · rw [fillSlice, if_pos none, none]
      exact ⟨by simp, by simpa using remaining, settled, rfl⟩
    obtain ⟨same, settledFill, filled⟩ := Payload.fill_spec settled
    have stillThere := same.remaining.trans remaining
    have peeked := Payload.peek_filled settledFill filled stillThere left
    obtain ⟨some_byte, part, lastOne⟩ := Payload.filled_part settledFill filled stillThere
    have length : (payload.fill.peek left).length = min (payload.fill.buffered.length - 1) left := by
      rw [peeked, List.length_take]
      omega
    rw [fillSlice, if_neg none]
    dsimp only
    split
    case isTrue empty =>
      rw [empty, List.length_nil] at length
      obtain rfl := lastOne (by omega)
      exact ⟨by simp, by simpa using stillThere, settledFill, same.consumed⟩
    case isFalse some_chunk =>
      generalize isCount : (payload.fill.peek left).length = count at length ⊢
      have positive : 0 < count := by
        rw [← isCount]
        exact List.length_pos_of_ne_nil some_chunk
      rw [← length] at peeked
      have after : (payload.fill.consume count).remaining = data.drop count ++ [trailer] := by
        have dropped := congrArg (List.drop count) stillThere
        rw [Payload.remaining, List.drop_append_of_le_length (by omega),
          List.drop_append_of_le_length (by omega)] at dropped
        exact dropped
      obtain ⟨taken, later, settledLater, total⟩ := @ih (left - count)
        (sink ++ payload.fill.peek left) (data.drop count) (payload.fill.consume count) settledFill
        after (by rw [List.length_drop]; omega)
      have split : count + (left - count) = left := by omega
      refine ⟨?_, ?_, settledLater, total.trans same.consumed⟩
      · rw [taken, peeked, List.append_assoc, ← List.take_add, split]
      · rw [later, List.drop_drop, split]

/-- `data` cut into pieces of `size` bytes, and a last one that is not longer. -/
inductive Pieces (size : Nat) : Bytes → List Bytes → Prop
  | last {data : Bytes} (fits : data.length ≤ size) : Pieces size data [data]
  | more {piece rest : Bytes} {pieces : List Bytes} (full : piece.length = size) (left : rest ≠ [])
      (later : Pieces size rest pieces) : Pieces size (piece ++ rest) (piece :: pieces)

theorem exists_pieces {size : Nat} (positive : 0 < size) (data : Bytes) :
    ∃ pieces, Pieces size data pieces := by
  induction count : data.length using Nat.strong_induction_on generalizing data with
  | _ count ih =>
    rcases Nat.lt_or_ge size data.length with long | fits
    · obtain ⟨pieces, later⟩ := ih (data.drop size).length (by rw [List.length_drop]; omega) _ rfl
      refine ⟨data.take size :: pieces, ?_⟩
      conv => arg 2; rw [← List.take_append_drop size data]
      refine .more (by rw [List.length_take]; omega) (fun none => ?_) later
      have short := congrArg List.length none
      rw [List.length_drop, List.length_nil] at short
      omega
    · exact ⟨[data], .last fits⟩

theorem Pieces.length_pos {size : Nat} {data : Bytes} {pieces : List Bytes}
    (cut : Pieces size data pieces) : 0 < pieces.length := by
  cases cut <;> simp

def slicesOf (header : Bytes) : List Bytes → List Bytes
  | [] => []
  | [piece] => [header ++ piece ++ [last]]
  | piece :: rest => (header ++ piece ++ [notLast]) :: slicesOf header rest

theorem slices_of_more (header piece : Bytes) {rest : List Bytes} (some_left : 0 < rest.length) :
    slicesOf header (piece :: rest) = (header ++ piece ++ [notLast]) :: slicesOf header rest := by
  cases rest with
  | nil => cases some_left
  | cons next rest => rfl

theorem length_slices_of (header : Bytes) (pieces : List Bytes) :
    (slicesOf header pieces).length = pieces.length := by
  induction pieces with
  | nil => rfl
  | cons piece rest ih =>
    cases rest with
    | nil => rfl
    | cons next rest =>
      rw [@slices_of_more header piece (next :: rest) (Nat.succ_pos _), List.length_cons, ih]
      rfl

theorem slice_length (header piece : Bytes) (trailer : UInt8) :
    (header ++ piece ++ [trailer]).length = header.length + piece.length + 1 := by
  rw [List.length_append, List.length_append, List.length_singleton]

namespace Pieces

variable {size : Nat} {data : Bytes} {pieces : List Bytes} {header : Bytes}

theorem count (cut : Pieces size data pieces) (positive : 0 < size) :
    pieces.length = max 1 (data.length ⌈/⌉ size) := by
  rw [Nat.ceilDiv_eq_add_pred_div]
  induction cut with
  | @last data fits =>
    have few : (data.length + size - 1) / size ≤ 1 := by
      rw [Nat.div_le_iff_le_mul_add_pred positive]
      omega
    rw [List.length_singleton]
    omega
  | @more piece rest pieces full left later ih =>
    have some_left := List.length_pos_of_ne_nil left
    have next : ((piece ++ rest).length + size - 1) / size = (rest.length + size - 1) / size + 1 := by
      rw [← Nat.add_div_right _ positive, List.length_append, full]
      congr 1
      omega
    have one : 1 ≤ (rest.length + size - 1) / size := by
      rw [Nat.le_div_iff_mul_le positive]
      omega
    rw [List.length_cons, ih, next]
    omega

theorem slice_lengths (cut : Pieces size data pieces) :
    (∀ slice ∈ (slicesOf header pieces).dropLast, slice.length = header.length + size + 1) ∧
      ∀ slice ∈ (slicesOf header pieces).getLast?, slice.length ≤ header.length + size + 1 := by
  induction cut with
  | @last data fits =>
    refine ⟨nofun, fun slice isLast => ?_⟩
    obtain rfl : header ++ data ++ [Dar.last] = slice := Option.some.inj isLast
    rw [slice_length]
    omega
  | @more piece rest pieces full left later ih =>
    have some_left : slicesOf header pieces ≠ [] := by
      have count := length_slices_of header pieces
      have pos := later.length_pos
      exact List.ne_nil_of_length_pos (by omega)
    rw [slices_of_more _ _ later.length_pos, List.dropLast_cons_of_ne_nil some_left,
      List.getLast?_cons_of_ne_nil some_left]
    refine ⟨?_, ih.2⟩
    rintro slice (_ | ⟨_, later⟩)
    · rw [slice_length, full]
    · exact ih.1 slice later

end Pieces

theorem cut_slices_eq (positive : 0 < frame.payloadPerSlice) {data : Bytes} {pieces : List Bytes}
    (cut : Pieces frame.payloadPerSlice data pieces) {trailer : UInt8} {turns n : Nat}
    {payload : Payload} {done : List Bytes} (settled : payload.Settled)
    (remaining : payload.remaining = data ++ [trailer]) (enough : data.length < turns) :
    cutSlices frame turns n payload done =
      if n + pieces.length ≤ maxU32 then
        if trailer = last then .ok (done ++ slicesOf frame.header pieces,
          ⟨n + pieces.length, payload.total, frame.sliceSize⟩)
        else
          let shown := debugByte trailer
          .error (refuseTo cutVerb s!"the stream ends with {shown}, not dar's last-slice flag 'T'")
      else .error (refuseTo cutVerb "more than 2^32 slices") := by
  induction cut generalizing turns n payload done with
  | @last data fits =>
    obtain ⟨turns, rfl⟩ := Nat.exists_eq_succ_of_ne_zero (by omega : turns ≠ 0)
    have start : data.length < payload.remaining.length + 1 := by
      rw [remaining, List.length_append]
      omega
    obtain ⟨sink, left, settledLeft, total⟩ := @fill_slice_spec _ frame.payloadPerSlice frame.header
      data trailer payload settled remaining start
    rw [cutSlices]
    generalize fillSlice (payload.remaining.length + 1) frame.payloadPerSlice frame.header payload =
      filledSlice at sink left settledLeft total ⊢
    obtain ⟨written, after⟩ := filledSlice
    dsimp only at sink left settledLeft total ⊢
    rw [List.take_of_length_le fits] at sink
    rw [List.drop_eq_nil_of_le fits, List.nil_append] at left
    obtain ⟨ended, only, counted⟩ := Payload.fill_at_trailer settledLeft left
    by_cases many : maxU32 < n + 1
    · rw [if_pos many, if_neg (by simpa using many)]
    · rw [if_neg many, if_pos ended, only, if_pos (by simpa using many), sink, counted, total]
      rfl
  | @more piece rest pieces full left later ih =>
    obtain ⟨turns, rfl⟩ := Nat.exists_eq_succ_of_ne_zero (by omega : turns ≠ 0)
    have start : (piece ++ rest).length < payload.remaining.length + 1 := by
      rw [remaining, List.length_append, List.length_append, List.length_append]
      omega
    obtain ⟨sink, after, settledAfter, total⟩ := @fill_slice_spec _ frame.payloadPerSlice
      frame.header (piece ++ rest) trailer payload settled remaining start
    rw [cutSlices]
    generalize fillSlice (payload.remaining.length + 1) frame.payloadPerSlice frame.header payload =
      filledSlice at sink after settledAfter total ⊢
    obtain ⟨written, next⟩ := filledSlice
    dsimp only at sink after settledAfter total ⊢
    rw [← full, List.take_left] at sink
    rw [← full, List.drop_left] at after
    have more := Payload.fill_before_trailer settledAfter after left
    obtain ⟨same, settledFill, _⟩ := Payload.fill_spec settledAfter
    have some_left := later.length_pos
    by_cases many : maxU32 < n + 1
    · rw [if_pos many, if_neg (by rw [List.length_cons]; omega)]
    · rw [List.length_append] at enough
      have totals : next.fill.total = payload.total := same.consumed.trans total
      rw [if_neg many, if_neg (by simp [more]), ih settledFill (same.remaining.trans after)
        (by omega), sink, slices_of_more _ _ some_left, List.length_cons,
        totals,
        (by omega : n + 1 + pieces.length = n + (pieces.length + 1)), List.append_assoc]
      rfl

theorem cut_slices_empty {frame : SliceFrame} {payload : Payload} (settled : payload.Settled)
    (none : payload.remaining = []) (done : List Bytes) :
    ∃ message, cutSlices frame 1 0 payload done = .error message := by
  have empty : ∀ {other : Payload}, other.Settled → other.remaining = [] →
      other.fill.buffered = [] ∧ other.fill.eof = true ∧ other.fill.Settled ∧
        other.fill.remaining = [] := by
    intro other settledOther noneLeft
    obtain ⟨same, settledFill, filled⟩ := Payload.fill_spec settledOther
    have nothing := same.remaining.trans noneLeft
    have buffered := (List.append_eq_nil_iff.mp nothing).1
    exact ⟨buffered, filled.resolve_left (by simp [buffered]), settledFill, nothing⟩
  obtain ⟨buffered, ended, settledFill, nothing⟩ := empty settled none
  have slice : ∀ left, fillSlice 1 left frame.header payload = (frame.header, payload) ∨
      fillSlice 1 left frame.header payload = (frame.header, payload.fill) := by
    intro left
    by_cases zero : left = 0
    · exact .inl (by rw [fillSlice, if_pos zero])
    · exact .inr (by simp [fillSlice, zero, Payload.peek, buffered])
  rw [cutSlices, none, List.length_nil, Nat.zero_add]
  have few : ¬ maxU32 < 0 + 1 := by decide
  rw [if_neg few]
  rcases slice frame.payloadPerSlice with same | same
  · rw [same]
    simp [Payload.atEnd, Payload.trailer, ended, buffered]
  · obtain ⟨buffered', ended', _, _⟩ := empty settledFill nothing
    rw [same]
    simp [Payload.atEnd, Payload.trailer, ended', buffered']

structure CutInto (stream : Reader) (header : Header) (frame : SliceFrame) (data : Bytes)
    (pieces slices : List Bytes) (summary : CutSummary) : Prop where
  whole : stream.stream = header.bytes ++ data ++ [last]
  divided : Pieces frame.payloadPerSlice data pieces
  framed : slices = slicesOf frame.header pieces
  counted : summary = ⟨pieces.length, stream.stream.length, frame.sliceSize⟩
  few : pieces.length ≤ maxU32

theorem cut_stream_ok {stream : Reader} {template : Bytes} {slices : List Bytes}
    {summary : CutSummary} (cut : cutStream stream template = .ok (slices, summary)) :
    ∃ header rest frame place between back data pieces,
      parseHeader stream.stream = .ok (header, rest) ∧ SliceFrame.new template header = .ok frame ∧
      header.Parts between back ∧ frame.For header place ∧
      CutInto stream header frame data pieces slices summary := by
  obtain ⟨⟨header, rest⟩, parsed, framing⟩ := bind_ok.mp cut
  obtain ⟨frame, made, looped⟩ := bind_ok.mp framing
  clear cut framing
  obtain ⟨input, between, back, parts⟩ := parse_header_ok parsed
  obtain ⟨place, framed⟩ := slice_frame_new parts made
  have room := framed.room
  have positive : 0 < frame.payloadPerSlice := by
    rw [SliceFrame.payloadPerSlice]
    omega
  dsimp only at looped
  have settled : (Payload.new (stream.advance header.bytes.length) header.bytes.length).Settled :=
    fun ended => nomatch ended
  have after : stream.stream.drop header.bytes.length = rest := by
    rw [input, List.drop_left]
  have remaining :
      (Payload.new (stream.advance header.bytes.length) header.bytes.length).remaining = rest := by
    rw [Payload.remaining, Payload.new, List.nil_append, Reader.stream_advance, after]
  have total : (Payload.new (stream.advance header.bytes.length) header.bytes.length).total =
      stream.stream.length := by
    rw [Payload.total, Payload.new, Reader.stream_advance, after, input, List.length_append]
  rcases List.eq_nil_or_concat' rest with rfl | ⟨data, trailer, rfl⟩
  · rw [remaining] at looped
    obtain ⟨message, failed⟩ := @cut_slices_empty frame _ settled remaining []
    rw [List.length_nil, Nat.zero_add, failed] at looped
    cases looped
  · obtain ⟨pieces, inPieces⟩ := exists_pieces positive data
    have enough : data.length < (Payload.new (stream.advance header.bytes.length)
        header.bytes.length).remaining.length + 1 := by
      rw [remaining, List.length_append]
      omega
    rw [cut_slices_eq positive inPieces settled remaining enough, total, Nat.zero_add,
      List.nil_append] at looped
    split at looped
    · next few =>
      split at looped
      · next isLast =>
        cases looped
        refine ⟨header, _, frame, place, between, back, data, pieces, parsed, made, parts,
          framed, ?_, inPieces, rfl, rfl, few⟩
        rw [input, isLast, List.append_assoc]
      · cases looped
    · cases looped

end Tapectl.Dar
