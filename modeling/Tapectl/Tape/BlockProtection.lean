import Tapectl.Library.Register

/-!
# Logical Block Protection: the Reed-Solomon CRC

`tape/lbp.rs`: the CRC appended to every block written and checked on every block read. It is a byte-wise
shift register (`Register`) whose table `T0` is linear, computed sixteen bytes at a time from tables
derived of `T0`. The mode page that turns the protection on is not modelled here.
-/

namespace Tapectl.Tape

open Register

abbrev Block := List (BitVec 8)

def crcLen : Nat := 4

/-- ECMA-319's table, `T0[a]`: the register after the byte `a` from state 0. -/
def table0 : Array (BitVec 32) :=
  #[0x00000000, 0x38CF3801, 0x70837002, 0x484C4803, 0xE01BE004, 0xD8D4D805,
    0x90989006, 0xA857A807, 0xDD36DD08, 0xE5F9E509, 0xADB5AD0A, 0x957A950B,
    0x3D2D3D0C, 0x05E2050D, 0x4DAE4D0E, 0x7561750F, 0xA76CA710, 0x9FA39F11,
    0xD7EFD712, 0xEF20EF13, 0x47774714, 0x7FB87F15, 0x37F43716, 0x0F3B0F17,
    0x7A5A7A18, 0x42954219, 0x0AD90A1A, 0x3216321B, 0x9A419A1C, 0xA28EA21D,
    0xEAC2EA1E, 0xD20DD21F, 0x53D85320, 0x6B176B21, 0x235B2322, 0x1B941B23,
    0xB3C3B324, 0x8B0C8B25, 0xC340C326, 0xFB8FFB27, 0x8EEE8E28, 0xB621B629,
    0xFE6DFE2A, 0xC6A2C62B, 0x6EF56E2C, 0x563A562D, 0x1E761E2E, 0x26B9262F,
    0xF4B4F430, 0xCC7BCC31, 0x84378432, 0xBCF8BC33, 0x14AF1434, 0x2C602C35,
    0x642C6436, 0x5CE35C37, 0x29822938, 0x114D1139, 0x5901593A, 0x61CE613B,
    0xC999C93C, 0xF156F13D, 0xB91AB93E, 0x81D5813F, 0xA6ADA640, 0x9E629E41,
    0xD62ED642, 0xEEE1EE43, 0x46B64644, 0x7E797E45, 0x36353646, 0x0EFA0E47,
    0x7B9B7B48, 0x43544349, 0x0B180B4A, 0x33D7334B, 0x9B809B4C, 0xA34FA34D,
    0xEB03EB4E, 0xD3CCD34F, 0x01C10150, 0x390E3951, 0x71427152, 0x498D4953,
    0xE1DAE154, 0xD915D955, 0x91599156, 0xA996A957, 0xDCF7DC58, 0xE438E459,
    0xAC74AC5A, 0x94BB945B, 0x3CEC3C5C, 0x0423045D, 0x4C6F4C5E, 0x74A0745F,
    0xF575F560, 0xCDBACD61, 0x85F68562, 0xBD39BD63, 0x156E1564, 0x2DA12D65,
    0x65ED6566, 0x5D225D67, 0x28432868, 0x108C1069, 0x58C0586A, 0x600F606B,
    0xC858C86C, 0xF097F06D, 0xB8DBB86E, 0x8014806F, 0x52195270, 0x6AD66A71,
    0x229A2272, 0x1A551A73, 0xB202B274, 0x8ACD8A75, 0xC281C276, 0xFA4EFA77,
    0x8F2F8F78, 0xB7E0B779, 0xFFACFF7A, 0xC763C77B, 0x6F346F7C, 0x57FB577D,
    0x1FB71F7E, 0x2778277F, 0x51475180, 0x69886981, 0x21C42182, 0x190B1983,
    0xB15CB184, 0x89938985, 0xC1DFC186, 0xF910F987, 0x8C718C88, 0xB4BEB489,
    0xFCF2FC8A, 0xC43DC48B, 0x6C6A6C8C, 0x54A5548D, 0x1CE91C8E, 0x2426248F,
    0xF62BF690, 0xCEE4CE91, 0x86A88692, 0xBE67BE93, 0x16301694, 0x2EFF2E95,
    0x66B36696, 0x5E7C5E97, 0x2B1D2B98, 0x13D21399, 0x5B9E5B9A, 0x6351639B,
    0xCB06CB9C, 0xF3C9F39D, 0xBB85BB9E, 0x834A839F, 0x029F02A0, 0x3A503AA1,
    0x721C72A2, 0x4AD34AA3, 0xE284E2A4, 0xDA4BDAA5, 0x920792A6, 0xAAC8AAA7,
    0xDFA9DFA8, 0xE766E7A9, 0xAF2AAFAA, 0x97E597AB, 0x3FB23FAC, 0x077D07AD,
    0x4F314FAE, 0x77FE77AF, 0xA5F3A5B0, 0x9D3C9DB1, 0xD570D5B2, 0xEDBFEDB3,
    0x45E845B4, 0x7D277DB5, 0x356B35B6, 0x0DA40DB7, 0x78C578B8, 0x400A40B9,
    0x084608BA, 0x308930BB, 0x98DE98BC, 0xA011A0BD, 0xE85DE8BE, 0xD092D0BF,
    0xF7EAF7C0, 0xCF25CFC1, 0x876987C2, 0xBFA6BFC3, 0x17F117C4, 0x2F3E2FC5,
    0x677267C6, 0x5FBD5FC7, 0x2ADC2AC8, 0x121312C9, 0x5A5F5ACA, 0x629062CB,
    0xCAC7CACC, 0xF208F2CD, 0xBA44BACE, 0x828B82CF, 0x508650D0, 0x684968D1,
    0x200520D2, 0x18CA18D3, 0xB09DB0D4, 0x885288D5, 0xC01EC0D6, 0xF8D1F8D7,
    0x8DB08DD8, 0xB57FB5D9, 0xFD33FDDA, 0xC5FCC5DB, 0x6DAB6DDC, 0x556455DD,
    0x1D281DDE, 0x25E725DF, 0xA432A4E0, 0x9CFD9CE1, 0xD4B1D4E2, 0xEC7EECE3,
    0x442944E4, 0x7CE67CE5, 0x34AA34E6, 0x0C650CE7, 0x790479E8, 0x41CB41E9,
    0x098709EA, 0x314831EB, 0x991F99EC, 0xA1D0A1ED, 0xE99CE9EE, 0xD153D1EF,
    0x035E03F0, 0x3B913BF1, 0x73DD73F2, 0x4B124BF3, 0xE345E3F4, 0xDB8ADBF5,
    0x93C693F6, 0xAB09ABF7, 0xDE68DEF8, 0xE6A7E6F9, 0xAEEBAEFA, 0x962496FB,
    0x3E733EFC, 0x06BC06FD, 0x4EF04EFE, 0x763F76FF]

/-- `T0[a as usize]`. -/
def t0 (byte : BitVec 8) : BitVec 32 := table0.getD byte.toNat 0

/-- `slicing_tables`: `T0` advanced by `k` zero bytes. -/
def slicingTable : Nat → Array (BitVec 32)
  | 0 => table0
  | k + 1 => (slicingTable k).map fun prev : BitVec 32 => (prev <<< 8) ^^^ t0 (top prev)

/-- `t[k][byte as usize]`. -/
def slice (k : Nat) (byte : BitVec 8) : BitVec 32 := (slicingTable k).getD byte.toNat 0

/-- Sixteen bytes of one step, the register folded into the first four. -/
def sliceStep (crc : BitVec 32) (c : Block) : BitVec 32 :=
  let at_ (i : Nat) : BitVec 8 := c.getD i 0
  let x := crc ^^^ ofBytes (at_ 0) (at_ 1) (at_ 2) (at_ 3)
  slice 15 ((x >>> 24).setWidth 8) ^^^ slice 14 ((x >>> 16).setWidth 8) ^^^
    slice 13 ((x >>> 8).setWidth 8) ^^^ slice 12 (x.setWidth 8) ^^^
    slice 11 (at_ 4) ^^^ slice 10 (at_ 5) ^^^ slice 9 (at_ 6) ^^^ slice 8 (at_ 7) ^^^
    slice 7 (at_ 8) ^^^ slice 6 (at_ 9) ^^^ slice 5 (at_ 10) ^^^ slice 4 (at_ 11) ^^^
    slice 3 (at_ 12) ^^^ slice 2 (at_ 13) ^^^ slice 1 (at_ 14) ^^^ slice 0 (at_ 15)

def byteStep (crc : BitVec 32) (byte : BitVec 8) : BitVec 32 :=
  (crc <<< 8) ^^^ t0 ((crc >>> 24).setWidth 8 ^^^ byte)

/-- `chunks_exact(size)` and its remainder. -/
def chunksExact (size : Nat) (data : Block) : List Block :=
  (List.range (data.length / size)).map fun k => (data.drop (size * k)).take size

def chunksRemainder (size : Nat) (data : Block) : Block := data.drop (size * (data.length / size))

def rsCrc (data : Block) (seed : BitVec 32) : BitVec 32 :=
  (chunksRemainder 16 data).foldl byteStep ((chunksExact 16 data).foldl sliceStep seed)

/-- `protect`; `none` is its panic on a block with no room for the CRC. -/
def protect (block : Block) : Option Block :=
  if crcLen ≤ block.length then
    let data := block.take (block.length - crcLen)
    some (data ++ toBytes (rsCrc data 0))
  else none

structure CrcMismatch where
  got : BitVec 32
  want : BitVec 32
  deriving DecidableEq, Repr

def check (block : Block) : Except CrcMismatch Unit :=
  if block.length < crcLen then .error ⟨0, 0⟩
  else
    let n := block.length - crcLen
    let byte (i : Nat) : BitVec 8 := block.getD (n + i) 0
    let got := ofBytes (byte 0) (byte 1) (byte 2) (byte 3)
    let want := rsCrc (block.take n) 0
    if got = want then .ok () else .error ⟨got, want⟩

theorem t0_combines : ∀ byte : BitVec 8, t0 byte = combine (fun bit => t0 (1#8 <<< bit)) byte 8 := by
  decide +kernel

theorem t0_keeps : ∀ byte : BitVec 8, (t0 byte).setWidth 8 = byte := by
  decide +kernel

theorem t0_linear : Linear t0 where
  xor one other := by
    rw [t0_combines (one ^^^ other), combine_xor, ← t0_combines, ← t0_combines]
  keeps := t0_keeps

theorem slicing_table_size (k : Nat) : (slicingTable k).size = 256 := by
  induction k with
  | zero => decide +kernel
  | succ k ih => rw [slicingTable, Array.size_map, ih]

theorem slice_eq_advance (k : Nat) (byte : BitVec 8) : slice k byte = advance t0 k (t0 byte) := by
  induction k with
  | zero => rfl
  | succ k ih =>
    have inside : byte.toNat < (slicingTable k).size := by
      rw [slicing_table_size]
      exact byte.isLt
    rw [advance_succ, ← ih, slice, slicingTable]
    simp [slice, Array.getD, inside, step]

theorem slice_step_eq_run (crc : BitVec 32) {c : Block} (sixteen : c.length = 16) :
    sliceStep crc c = run t0 crc c := by
  match c, sixteen with
  | [c0, c1, c2, c3, c4, c5, c6, c7, c8, c9, c10, c11, c12, c13, c14, c15], _ =>
    rw [run_sixteen t0_linear, sliceStep]
    simp only [slice_eq_advance, List.getD_cons_zero, List.getD_cons_succ]

theorem byte_step_eq : byteStep = step t0 := rfl

theorem chunks_exact_length {size : Nat} {data chunk : Block} (member : chunk ∈ chunksExact size data) :
    chunk.length = size := by
  obtain ⟨k, inside, rfl⟩ := List.mem_map.1 member
  have whole : size * (k + 1) ≤ data.length :=
    (Nat.mul_le_mul_left size (List.mem_range.1 inside)).trans (Nat.mul_div_le _ _)
  rw [List.length_take, List.length_drop]
  rw [Nat.mul_succ] at whole
  omega

theorem chunks_exact_flatten (size : Nat) (data : Block) :
    (chunksExact size data).flatten ++ chunksRemainder size data = data := by
  have front : ∀ count, ((List.range count).map fun k => (data.drop (size * k)).take size).flatten =
      data.take (size * count) := by
    intro count
    induction count with
    | zero => simp
    | succ count ih =>
      rw [List.range_succ, List.map_append, List.flatten_append, ih, Nat.mul_succ, List.take_add]
      simp
  rw [chunksExact, chunksRemainder, front, List.take_append_drop]

theorem rs_crc_eq_run (data : Block) (seed : BitVec 32) : rsCrc data seed = run t0 seed data := by
  have chunks : ∀ (pieces : List Block) (crc : BitVec 32), (∀ chunk ∈ pieces, chunk.length = 16) →
      pieces.foldl sliceStep crc = run t0 crc pieces.flatten := by
    intro pieces
    induction pieces with
    | nil => intro crc _; rfl
    | cons chunk rest ih =>
      intro crc sixteen
      rw [List.foldl_cons, slice_step_eq_run crc (sixteen chunk List.mem_cons_self),
        ih _ fun other member => sixteen other (List.mem_cons_of_mem _ member), List.flatten_cons,
        run_append]
  rw [rsCrc, chunks _ _ fun chunk member => chunks_exact_length member, byte_step_eq]
  conv_rhs => rw [← chunks_exact_flatten 16 data, run_append]
  rfl

theorem check_iff {block : Block} (long : crcLen ≤ block.length) :
    check block = .ok () ↔ run t0 0#32 block = 0#32 := by
  obtain ⟨data, b3, b2, b1, b0, rfl⟩ : ∃ data b3 b2 b1 b0, block = data ++ [b3, b2, b1, b0] := by
    have split := List.take_append_drop (block.length - crcLen) block
    have four : (block.drop (block.length - crcLen)).length = 4 := by
      rw [List.length_drop]
      simp only [crcLen] at long ⊢
      omega
    match back : block.drop (block.length - crcLen), four with
    | [b3, b2, b1, b0], _ => exact ⟨_, b3, b2, b1, b0, by rw [← back, split]⟩
  have length : (data ++ [b3, b2, b1, b0]).length - crcLen = data.length := by
    simp [crcLen]
  have byte : ∀ i, (data ++ [b3, b2, b1, b0]).getD (data.length + i) 0 = [b3, b2, b1, b0].getD i 0 := by
    intro i
    rw [List.getD_append_right _ _ _ _ (Nat.le_add_right _ _), Nat.add_sub_cancel_left]
  rw [check, if_neg (Nat.not_lt.2 long)]
  simp only [length, byte, List.take_left, List.getD_cons_zero, List.getD_cons_succ]
  rw [run_append, run_four_eq_zero t0_linear, ← rs_crc_eq_run]
  split <;> simp_all

theorem protect_spec {block wire : Block} (guarded : protect block = some wire) :
    crcLen ≤ wire.length ∧ run t0 0#32 wire = 0#32 := by
  unfold protect at guarded
  split at guarded
  · cases guarded
    refine ⟨?_, ?_⟩
    · rw [List.length_append]
      exact Nat.le_add_left _ _
    · rw [run_append, rs_crc_eq_run]
      exact run_to_bytes t0_linear _
  · cases guarded

theorem difference_window {one other : Block} {i : Nat} (long : crcLen ≤ one.length)
    (length : other.length = one.length)
    (within : ∀ j, other[j]? ≠ one[j]? → i ≤ j ∧ j < i + 4) :
    ∃ before window after, window.length = 4 ∧ List.zipWith (· ^^^ ·) one other =
      List.replicate before 0#8 ++ window ++ List.replicate after 0#8 := by
  let before := min i (one.length - 4)
  let diff := List.zipWith (· ^^^ ·) one other
  have diff_length : diff.length = one.length := by simp [diff, length]
  rw [crcLen] at long
  have zero : ∀ j byte, diff[j]? = some byte → ¬(i ≤ j ∧ j < i + 4) → byte = 0#8 := by
    intro j byte found outside
    have same : other[j]? = one[j]? := by
      by_contra differs
      exact outside (within j differs)
    obtain ⟨a, b, first, second, rfl⟩ := (List.getElem?_zipWith_eq_some).1 found
    rw [first, second, Option.some.injEq] at same
    rw [same, BitVec.xor_self]
  refine ⟨before, (diff.drop before).take 4, one.length - 4 - before, ?_, ?_⟩
  · rw [List.length_take, List.length_drop, diff_length]
    omega
  · have front : diff.take before = List.replicate before 0#8 := by
      rw [List.eq_replicate_iff]
      refine ⟨by rw [List.length_take]; omega, fun byte member => ?_⟩
      obtain ⟨j, found⟩ := List.mem_iff_getElem?.1 member
      have inside := (List.getElem?_eq_some_iff.1 found).1
      rw [List.length_take] at inside
      rw [List.getElem?_take_of_lt (by omega)] at found
      exact zero j byte found (by omega)
    have back : diff.drop (before + 4) = List.replicate (one.length - 4 - before) 0#8 := by
      rw [List.eq_replicate_iff]
      refine ⟨by rw [List.length_drop]; omega, fun byte member => ?_⟩
      obtain ⟨j, found⟩ := List.mem_iff_getElem?.1 member
      rw [List.getElem?_drop] at found
      have inside := (List.getElem?_eq_some_iff.1 found).1
      exact zero _ byte found (by omega)
    change diff = _
    conv_lhs => rw [← List.take_append_drop before diff, ← List.take_append_drop 4 (diff.drop before),
      List.drop_drop]
    rw [front, back, List.append_assoc]

theorem zip_xor_zero {one other : Block} (length : other.length = one.length)
    (zero : ∀ byte ∈ List.zipWith (· ^^^ ·) one other, byte = 0#8) : other = one := by
  induction one generalizing other with
  | nil => exact List.eq_nil_of_length_eq_zero length
  | cons byte rest ih =>
    cases other with
    | nil => cases length
    | cons first others =>
      rw [List.zipWith_cons_cons, List.forall_mem_cons] at zero
      rw [(BitVec.xor_eq_zero_iff.1 zero.1), ih (Nat.succ.inj length) zero.2]

/-- A block that differs from an accepted one only within four bytes in a row is not accepted. -/
theorem burst_rejected {wire changed : Block} {i : Nat} (long : crcLen ≤ wire.length)
    (accepted : run t0 0#32 wire = 0#32) (length : changed.length = wire.length)
    (differs : changed ≠ wire) (within : ∀ j, changed[j]? ≠ wire[j]? → i ≤ j ∧ j < i + 4) :
    check changed ≠ .ok () := by
  rw [ne_eq, check_iff (by omega)]
  intro passes
  have both := run_xor t0_linear length.symm 0#32 0#32
  rw [BitVec.xor_self, accepted, passes, BitVec.xor_self] at both
  obtain ⟨before, window, after, four, diff⟩ := difference_window long length within
  rw [diff] at both
  refine run_window_ne_zero t0_linear four ?_ before after both
  by_contra all_zero
  push Not at all_zero
  apply differs
  apply zip_xor_zero length
  intro byte member
  rw [diff, List.mem_append, List.mem_append] at member
  rcases member with (member | member) | member
  · exact List.eq_of_mem_replicate member
  · exact all_zero byte member
  · exact List.eq_of_mem_replicate member

theorem rs_crc_exact_and_catches_bursts :
    (∀ (data : Block) (seed : BitVec 32), rsCrc data seed =
      data.foldl (fun (crc : BitVec 32) byte => (crc <<< 8) ^^^ t0 ((crc >>> 24).setWidth 8 ^^^ byte)) seed) ∧
    (∀ (first second : Block) (seed : BitVec 32),
      rsCrc (first ++ second) seed = rsCrc second (rsCrc first seed)) ∧
    (∀ (block wire : Block), protect block = some wire → check wire = .ok ()) ∧
    (∀ (block wire changed : Block) (i : Nat), protect block = some wire →
      changed.length = wire.length → changed ≠ wire →
      (∀ j, changed[j]? ≠ wire[j]? → i ≤ j ∧ j < i + 4) → ∃ mismatch, check changed = .error mismatch) := by
  refine ⟨rs_crc_eq_run, ?_, ?_, ?_⟩
  · intro first second seed
    rw [rs_crc_eq_run, rs_crc_eq_run, rs_crc_eq_run, run_append]
  · intro block wire guarded
    obtain ⟨long, accepted⟩ := protect_spec guarded
    exact (check_iff long).2 accepted
  · intro block wire changed i guarded length differs within
    obtain ⟨long, accepted⟩ := protect_spec guarded
    have rejected := burst_rejected long accepted length differs within
    cases verdict : check changed with
    | ok accepted => exact absurd verdict rejected
    | error mismatch => exact ⟨mismatch, rfl⟩

/-- A block of three bytes and its CRC, with one bit of the last payload byte flipped. -/
theorem rs_crc_catches_a_flipped_bit :
    protect [1, 2, 3, 0, 0, 0, 0] = some ([1, 2, 3] ++ toBytes (rsCrc [1, 2, 3] 0)) ∧
      ∃ mismatch, check ([1, 2, 2] ++ toBytes (rsCrc [1, 2, 3] 0)) = .error mismatch := by
  have guarded : protect [1, 2, 3, 0, 0, 0, 0] = some ([1, 2, 3] ++ toBytes (rsCrc [1, 2, 3] 0)) := rfl
  obtain ⟨_, _, _, catches⟩ := rs_crc_exact_and_catches_bursts
  refine ⟨guarded, catches _ _ _ 2 guarded rfl ?_ ?_⟩
  · intro same
    have byte := congrArg (fun block => block[2]?) same
    simp at byte
  · intro j differs
    generalize toBytes (rsCrc [1, 2, 3] 0) = crc at differs
    match j with
    | 0 => exact absurd rfl differs
    | 1 => exact absurd rfl differs
    | 2 => exact ⟨le_rfl, by decide⟩
    | j + 3 => exact absurd rfl differs

end Tapectl.Tape
