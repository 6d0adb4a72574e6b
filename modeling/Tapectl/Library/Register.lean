import Mathlib

/-!
# Byte-wise shift registers

A 32-bit register takes a byte by shifting it in at the bottom and folding the byte that leaves at the
top back in through a table. With a linear table the register is linear in its state and its input, so
the bytes of an input can be looked up independently (`run_eq_spread`) and an error in the input shows
as the run of the error alone (`run_xor`). When the table keeps the byte it is given at the bottom, no
step loses anything (`step_injective`), and an error of one register's width never runs out to zero.
-/

namespace Register

def top (register : BitVec 32) : BitVec 8 := (register >>> 24).setWidth 8

def toBytes (register : BitVec 32) : List (BitVec 8) :=
  [top register, (register >>> 16).setWidth 8, (register >>> 8).setWidth 8, register.setWidth 8]

def ofBytes (b3 b2 b1 b0 : BitVec 8) : BitVec 32 := b3 ++ b2 ++ b1 ++ b0

/-- A word as the sum of the table's words for the single bits set in a byte. -/
def combine (word : Nat → BitVec 32) (byte : BitVec 8) : Nat → BitVec 32
  | 0 => 0#32
  | bit + 1 => combine word byte bit ^^^ if byte.getLsbD bit then word bit else 0#32

theorem combine_xor (word : Nat → BitVec 32) (one other : BitVec 8) (bits : Nat) :
    combine word (one ^^^ other) bits = combine word one bits ^^^ combine word other bits := by
  induction bits with
  | zero => simp [combine]
  | succ bit ih =>
    simp only [combine, ih, BitVec.getLsbD_xor]
    cases one.getLsbD bit <;> cases other.getLsbD bit <;> simp
    · ac_rfl
    · ac_rfl
    · rw [show combine word one bit ^^^ word bit ^^^ (combine word other bit ^^^ word bit) =
        combine word one bit ^^^ combine word other bit ^^^ (word bit ^^^ word bit) by ac_rfl]
      simp

/-- A table whose words add as their bytes do, and that keeps the byte at the bottom. -/
structure Linear (table : BitVec 8 → BitVec 32) : Prop where
  xor : ∀ one other, table (one ^^^ other) = table one ^^^ table other
  keeps : ∀ byte, (table byte).setWidth 8 = byte

section

variable (table : BitVec 8 → BitVec 32)

def step (register : BitVec 32) (byte : BitVec 8) : BitVec 32 :=
  (register <<< 8) ^^^ table (top register ^^^ byte)

def run (register : BitVec 32) (bytes : List (BitVec 8)) : BitVec 32 :=
  bytes.foldl (step table) register

/-- The register after `count` zero bytes. -/
def advance : Nat → BitVec 32 → BitVec 32
  | 0, register => register
  | count + 1, register => advance count (step table register 0#8)

/-- What the bytes of an input add to the register, each by itself. -/
def spread : List (BitVec 8) → BitVec 32
  | [] => 0#32
  | byte :: rest => advance table rest.length (table byte) ^^^ spread rest

end

variable {table : BitVec 8 → BitVec 32}

theorem top_xor (one other : BitVec 32) : top (one ^^^ other) = top one ^^^ top other := by
  simp [top, BitVec.ushiftRight_xor_distrib, BitVec.setWidth_xor]

theorem Linear.zero (linear : Linear table) : table 0#8 = 0#32 := by
  have twice := linear.xor 0#8 0#8
  simpa using twice

theorem step_xor (linear : Linear table) (one other : BitVec 32) (byte another : BitVec 8) :
    step table (one ^^^ other) (byte ^^^ another) =
      step table one byte ^^^ step table other another := by
  have mixed : top one ^^^ top other ^^^ (byte ^^^ another) =
      (top one ^^^ byte) ^^^ (top other ^^^ another) := by ac_rfl
  simp only [step, top_xor, mixed, linear.xor, BitVec.shiftLeft_xor_distrib]
  ac_rfl

theorem step_eq (linear : Linear table) (register : BitVec 32) (byte : BitVec 8) :
    step table register byte = step table register 0#8 ^^^ table byte := by
  simp only [step, linear.xor, linear.zero]
  simp [BitVec.xor_assoc]

theorem step_zero (linear : Linear table) : step table 0#32 0#8 = 0#32 := by
  simp [step, top, linear.zero]

theorem advance_xor (linear : Linear table) (count : Nat) (one other : BitVec 32) :
    advance table count (one ^^^ other) = advance table count one ^^^ advance table count other := by
  induction count generalizing one other with
  | zero => rfl
  | succ count ih =>
    have added := step_xor linear one other 0#8 0#8
    rw [BitVec.xor_self] at added
    rw [advance, added, ih]
    rfl

theorem advance_zero (linear : Linear table) (count : Nat) : advance table count 0#32 = 0#32 := by
  induction count with
  | zero => rfl
  | succ count ih => rw [advance, step_zero linear, ih]

theorem advance_succ (count : Nat) (register : BitVec 32) :
    advance table (count + 1) register = step table (advance table count register) 0#8 := by
  induction count generalizing register with
  | zero => rfl
  | succ count ih => rw [advance, ih, advance]

theorem advance_add (first second : Nat) (register : BitVec 32) :
    advance table (first + second) register = advance table second (advance table first register) := by
  induction first generalizing register with
  | zero => rw [Nat.zero_add, advance]
  | succ first ih => rw [Nat.succ_add, advance, ih, advance]

theorem run_eq_spread (linear : Linear table) (register : BitVec 32) (bytes : List (BitVec 8)) :
    run table register bytes = advance table bytes.length register ^^^ spread table bytes := by
  induction bytes generalizing register with
  | nil => simp [run, advance, spread]
  | cons byte rest ih =>
    have taken : run table register (byte :: rest) = run table (step table register byte) rest := rfl
    rw [taken, ih, step_eq linear, advance_xor linear, spread, List.length_cons, advance,
      BitVec.xor_assoc]

theorem run_append (register : BitVec 32) (first second : List (BitVec 8)) :
    run table register (first ++ second) = run table (run table register first) second :=
  List.foldl_append

theorem run_replicate (count : Nat) (register : BitVec 32) :
    run table register (List.replicate count 0#8) = advance table count register := by
  induction count generalizing register with
  | zero => rfl
  | succ count ih =>
    rw [List.replicate_succ]
    exact ih (step table register 0#8)

theorem run_xor (linear : Linear table) {one other : List (BitVec 8)}
    (length : one.length = other.length) (register another : BitVec 32) :
    run table (register ^^^ another) (List.zipWith (· ^^^ ·) one other) =
      run table register one ^^^ run table another other := by
  induction one generalizing other register another with
  | nil =>
    obtain rfl := List.eq_nil_of_length_eq_zero length.symm
    rfl
  | cons byte rest ih =>
    cases other with
    | nil => cases length
    | cons first others =>
      have stepped := step_xor linear register another byte first
      rw [List.zipWith_cons_cons]
      change run table (step table (register ^^^ another) (byte ^^^ first)) _ = _
      rw [stepped, ih (Nat.succ.inj length)]
      rfl

theorem step_injective (linear : Linear table) (byte : BitVec 8) :
    Function.Injective fun register => step table register byte := by
  intro one other same
  simp only [step] at same
  have low : ∀ register : BitVec 32,
      ((register <<< 8) ^^^ table (top register ^^^ byte)).setWidth 8 = top register ^^^ byte := by
    intro register
    rw [BitVec.setWidth_xor, linear.keeps]
    have cleared : (register <<< 8).setWidth 8 = 0#8 := by
      apply BitVec.eq_of_getLsbD_eq
      intro i inside
      simp [inside]
    rw [cleared]
    simp
  have tops : top one = top other := by
    have bottoms := congrArg (BitVec.setWidth 8) same
    rw [low, low] at bottoms
    exact (BitVec.xor_left_inj _).mp bottoms
  rw [tops] at same
  have shifted : one <<< 8 = other <<< 8 := (BitVec.xor_left_inj _).mp same
  apply BitVec.eq_of_getLsbD_eq
  intro i inside
  by_cases upper : 24 ≤ i
  · have bit := congrArg (fun byte => byte.getLsbD (i - 24)) tops
    simpa [top, BitVec.getLsbD_setWidth, BitVec.getLsbD_ushiftRight, show i - 24 < 8 by omega,
      show 24 + (i - 24) = i by omega] using bit
  · have bit := congrArg (fun word => word.getLsbD (i + 8)) shifted
    simpa [BitVec.getLsbD_shiftLeft, show i + 8 < 32 by omega, inside] using bit

theorem advance_injective (linear : Linear table) (count : Nat) :
    Function.Injective (advance table count) := by
  induction count with
  | zero => exact Function.injective_id
  | succ count ih => exact ih.comp (step_injective linear 0#8)

theorem step_top (linear : Linear table) {register : BitVec 32} {byte : BitVec 8}
    (same : byte = top register) : step table register byte = register <<< 8 := by
  rw [step, same, BitVec.xor_self, linear.zero, BitVec.xor_zero]

theorem top_shift (register : BitVec 32) (shift : Nat) (small : shift ≤ 24) :
    top (register <<< shift) = (register >>> (24 - shift)).setWidth 8 := by
  apply BitVec.eq_of_getLsbD_eq
  intro i inside
  simp only [top, BitVec.getLsbD_setWidth, BitVec.getLsbD_ushiftRight, BitVec.getLsbD_shiftLeft,
    inside, decide_true, Bool.true_and]
  rw [show 24 + i - shift = 24 - shift + i by omega]
  simp [show 24 + i < 32 by omega, show ¬24 + i < shift by omega]

theorem run_to_bytes (linear : Linear table) (register : BitVec 32) :
    run table register (toBytes register) = 0#32 := by
  have second : (register >>> 16).setWidth 8 = top (register <<< 8) :=
    (top_shift register 8 (by decide)).symm
  have third : (register >>> 8).setWidth 8 = top (register <<< 8 <<< 8) := by
    rw [← BitVec.shiftLeft_add]
    exact (top_shift register 16 (by decide)).symm
  have fourth : register.setWidth 8 = top (register <<< 8 <<< 8 <<< 8) := by
    rw [← BitVec.shiftLeft_add, ← BitVec.shiftLeft_add, top_shift register _ (by decide)]
    simp
  simp only [run, toBytes, List.foldl_cons, List.foldl_nil]
  rw [step_top linear rfl, step_top linear second, step_top linear third, step_top linear fourth]
  simp only [← BitVec.shiftLeft_add]
  exact BitVec.shiftLeft_eq_zero (by decide)

theorem spread_to_bytes (linear : Linear table) (register : BitVec 32) :
    spread table (toBytes register) = advance table 4 register := by
  have ran := run_to_bytes linear register
  rw [run_eq_spread linear, BitVec.xor_eq_zero_iff] at ran
  exact ran.symm

theorem to_bytes_of_bytes (b3 b2 b1 b0 : BitVec 8) :
    toBytes (ofBytes b3 b2 b1 b0) = [b3, b2, b1, b0] := by
  have bit : ∀ (place i : Nat), (ofBytes b3 b2 b1 b0).getLsbD (place + i) =
      if place + i < 8 then b0.getLsbD (place + i)
      else if place + i < 16 then b1.getLsbD (place + i - 8)
      else if place + i < 24 then b2.getLsbD (place + i - 16)
      else b3.getLsbD (place + i - 24) := by
    intro place i
    simp only [ofBytes, BitVec.getLsbD_append]
    split_ifs <;> first | rfl | omega
  simp only [toBytes, top, List.cons.injEq, and_true]
  refine ⟨?_, ?_, ?_, ?_⟩
  all_goals
    apply BitVec.eq_of_getLsbD_eq
    intro i inside
    simp only [BitVec.getLsbD_setWidth, BitVec.getLsbD_ushiftRight, inside, decide_true, Bool.true_and]
  · rw [bit 24, if_neg (by omega), if_neg (by omega), if_neg (by omega), Nat.add_sub_cancel_left]
  · rw [bit 16, if_neg (by omega), if_neg (by omega), if_pos (by omega), Nat.add_sub_cancel_left]
  · rw [bit 8, if_neg (by omega), if_pos (by omega), Nat.add_sub_cancel_left]
  · have low := bit 0 i
    rwa [Nat.zero_add, if_pos inside] at low

/-- Four bytes of the input and the register they meet are one register's bytes from zero. -/
theorem run_four (linear : Linear table) (register : BitVec 32) (b3 b2 b1 b0 : BitVec 8) :
    run table register [b3, b2, b1, b0] =
      spread table (toBytes (register ^^^ ofBytes b3 b2 b1 b0)) := by
  rw [run_eq_spread linear, ← to_bytes_of_bytes, spread_to_bytes linear, spread_to_bytes linear,
    advance_xor linear]
  rfl

theorem run_four_eq_zero (linear : Linear table) {register : BitVec 32} {b3 b2 b1 b0 : BitVec 8} :
    run table register [b3, b2, b1, b0] = 0#32 ↔ ofBytes b3 b2 b1 b0 = register := by
  rw [run_four linear, spread_to_bytes linear]
  constructor
  · intro zero
    have same := advance_injective linear 4 (zero.trans (advance_zero linear 4).symm)
    exact (BitVec.xor_eq_zero_iff.1 same).symm
  · rintro rfl
    rw [BitVec.xor_self, advance_zero linear]

theorem run_sixteen (linear : Linear table) (register : BitVec 32)
    (c0 c1 c2 c3 c4 c5 c6 c7 c8 c9 c10 c11 c12 c13 c14 c15 : BitVec 8) :
    run table register [c0, c1, c2, c3, c4, c5, c6, c7, c8, c9, c10, c11, c12, c13, c14, c15] =
      let x := register ^^^ ofBytes c0 c1 c2 c3
      let at_ := fun k byte => advance table k (table byte)
      at_ 15 ((x >>> 24).setWidth 8) ^^^ at_ 14 ((x >>> 16).setWidth 8) ^^^
        at_ 13 ((x >>> 8).setWidth 8) ^^^ at_ 12 (x.setWidth 8) ^^^ at_ 11 c4 ^^^ at_ 10 c5 ^^^
        at_ 9 c6 ^^^ at_ 8 c7 ^^^ at_ 7 c8 ^^^ at_ 6 c9 ^^^ at_ 5 c10 ^^^ at_ 4 c11 ^^^
        at_ 3 c12 ^^^ at_ 2 c13 ^^^ at_ 1 c14 ^^^ at_ 0 c15 := by
  have split : [c0, c1, c2, c3, c4, c5, c6, c7, c8, c9, c10, c11, c12, c13, c14, c15] =
      [c0, c1, c2, c3] ++ [c4, c5, c6, c7, c8, c9, c10, c11, c12, c13, c14, c15] := rfl
  rw [split, run_append, run_four linear, run_eq_spread linear]
  simp only [toBytes, top, spread, List.length_cons, List.length_nil, advance_xor linear,
    ← advance_add, Nat.reduceAdd, BitVec.xor_zero, BitVec.xor_assoc]

theorem run_window_ne_zero (linear : Linear table) {window : List (BitVec 8)}
    (four : window.length = 4) (differs : ∃ byte ∈ window, byte ≠ 0#8) (before after : Nat) :
    run table 0#32 (List.replicate before 0#8 ++ window ++ List.replicate after 0#8) ≠ 0#32 := by
  obtain ⟨word, rfl⟩ : ∃ word, window = toBytes word := by
    match window, four with
    | [b3, b2, b1, b0], _ => exact ⟨ofBytes b3 b2 b1 b0, (to_bytes_of_bytes _ _ _ _).symm⟩
  rw [run_append, run_append, run_replicate, run_replicate, advance_zero linear, run_eq_spread linear,
    advance_zero linear, BitVec.zero_xor, spread_to_bytes linear]
  intro gone
  have zero : word = 0#32 := by
    apply advance_injective linear 4
    apply advance_injective linear after
    rw [gone, advance_zero linear, advance_zero linear]
  obtain ⟨byte, member, nonzero⟩ := differs
  rw [zero] at member
  have bytes : toBytes 0#32 = [0#8, 0#8, 0#8, 0#8] := by decide
  rw [bytes] at member
  simp at member
  exact nonzero member

end Register
