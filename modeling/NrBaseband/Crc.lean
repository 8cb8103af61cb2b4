import NrBaseband.Types
import NrBaseband.Foundation.CyclicRedundancy

/-!
# Cyclic redundancy check

The five checks of `crc.cpp`, computed bit by bit in the low bits of a 32-bit word.
`compute_crc_ok` says that the word holds the register of the check's own width, and
`crc_attach_ok` that an attached check passes.
-/

namespace NrBaseband

open Foundation Foundation.CyclicRedundancy

/-- `CrcType`. -/
inductive CrcType where
  | crc24a
  | crc24b
  | crc16
  | crc11
  | crc6
  deriving DecidableEq, Repr

/-- `CrcSpec`; the polynomial includes its leading 1. -/
structure CrcSpec where
  polyFull : BitVec 32
  len : Nat
  deriving DecidableEq, Repr

/-- `spec`. -/
def crcSpec : CrcType → CrcSpec
  | .crc24a => { polyFull := 0x1864CFB, len := 24 }
  | .crc24b => { polyFull := 0x1800063, len := 24 }
  | .crc16 => { polyFull := 0x11021, len := 16 }
  | .crc11 => { polyFull := 0xE21, len := 11 }
  | .crc6 => { polyFull := 0x61, len := 6 }

/-- The variable `mask` of `compute_crc`. -/
def CrcSpec.mask (s : CrcSpec) : BitVec 32 :=
  if s.len = 32 then 0xFFFFFFFF else (1 <<< s.len) - 1

/-- The variable `top` of `compute_crc`. -/
def CrcSpec.top (s : CrcSpec) : BitVec 32 := 1 <<< (s.len - 1)

/-- The variable `poly` of `compute_crc`. -/
def CrcSpec.poly (s : CrcSpec) : BitVec 32 := s.polyFull &&& s.mask

/-- The body of the loop of `compute_crc`. -/
def CrcSpec.step (s : CrcSpec) (crc : BitVec 32) (b : UInt8) : BitVec 32 :=
  let fb : BitVec 32 := (if crc &&& s.top ≠ 0 then 1 else 0) ^^^ b.toBitVec.setWidth 32
  let crc := (crc <<< 1) &&& s.mask
  if fb ≠ 0 then crc ^^^ s.poly else crc

/-- `compute_crc`. -/
def computeCrc (bits : Bits) (type : CrcType) : Checked (BitVec 32) :=
  bits.foldlM (fun crc b => do
    require (b = 0 ∨ b = 1) "CRC input must be 0/1 bits"
    return (crcSpec type).step crc b) 0

/-- `crc_attach`. -/
def crcAttach (payload : Bits) (type : CrcType) : Checked Bits := do
  let rem ← computeCrc payload type
  let parity := (List.range (crcSpec type).len).map fun i =>
    UInt8.ofBitVec (((rem >>> ((crcSpec type).len - 1 - i)) &&& 1).setWidth 8)
  return payload ++ parity

/-- `crc_check`. -/
def crcCheck (coded : Bits) (type : CrcType) : Checked Bool := do
  require (coded.length ≥ (crcSpec type).len) "coded block shorter than CRC"
  let crc ← computeCrc coded type
  return crc == 0

/-- The polynomial of a check without its leading 1, in the width of the check. -/
def crcPoly (type : CrcType) : BitVec (crcSpec type).len := (crcSpec type).polyFull.setWidth _

/-- The register of a check after a message. -/
def crcRegister (bits : Bits) (type : CrcType) : BitVec (crcSpec type).len :=
  remainder (crcPoly type) (bits.map (· == 1))

/-- Masking keeps the bits of the check's width. -/
theorem and_mask (type : CrcType) (x : BitVec 32) :
    x &&& (crcSpec type).mask = (x.setWidth (crcSpec type).len).setWidth 32 := by
  have hmask : ∀ i < 32, (crcSpec type).mask.getLsbD i = decide (i < (crcSpec type).len) := by
    cases type <;> decide
  refine BitVec.eq_of_getLsbD_eq fun i hi => ?_
  rw [BitVec.getLsbD_and, hmask i hi]
  simp [hi, Bool.and_comm]

/-- The width of a check fits the word. -/
theorem crc_len_range (type : CrcType) : 0 < (crcSpec type).len ∧ (crcSpec type).len < 32 := by
  cases type <;> decide

/-- The top bit that is tested is the highest of the check's width. -/
theorem and_top (type : CrcType) (r : BitVec (crcSpec type).len) :
    r.setWidth 32 &&& (crcSpec type).top ≠ 0 ↔ r.msb = true := by
  obtain ⟨hpos, hlt⟩ := crc_len_range type
  have htop : (crcSpec type).top = BitVec.twoPow 32 ((crcSpec type).len - 1) := by
    rw [BitVec.twoPow_eq]
    rfl
  have hbit : (r.setWidth 32).getLsbD ((crcSpec type).len - 1) = r.msb := by
    rw [BitVec.getLsbD_setWidth, BitVec.msb_eq_getLsbD_last]
    simp [show (crcSpec type).len - 1 < 32 by omega]
  have hpow : BitVec.twoPow 32 ((crcSpec type).len - 1) ≠ 0 := by
    intro hzero
    have hself := BitVec.getLsbD_twoPow (w := 32) ((crcSpec type).len - 1) ((crcSpec type).len - 1)
    rw [hzero] at hself
    simp at hself
    omega
  rw [htop, BitVec.and_twoPow, hbit]
  cases r.msb with
  | true => simpa using hpow
  | false => simp

/-- One step of the loop feeds the register. -/
theorem crc_step (type : CrcType) (r : BitVec (crcSpec type).len) {b : UInt8} (h : IsBit b) :
    (crcSpec type).step (r.setWidth 32) b = (feed (crcPoly type) r (b == 1)).setWidth 32 := by
  obtain ⟨hpos, hlt⟩ := crc_len_range type
  have hshift : (r.setWidth 32 <<< 1) &&& (crcSpec type).mask = (r <<< 1).setWidth 32 := by
    rw [and_mask]
    refine BitVec.eq_of_getLsbD_eq fun i hi => ?_
    simp only [BitVec.getLsbD_setWidth, BitVec.getLsbD_shiftLeft]
    by_cases hlow : i < (crcSpec type).len
    · have hbelow : i - 1 < 32 := by omega
      simp [hlow, hi, hbelow]
    · simp [hlow]
  have hpoly : (crcSpec type).poly = (crcPoly type).setWidth 32 := and_mask type _
  have hfeedback : (if r.setWidth 32 &&& (crcSpec type).top ≠ 0 then (1 : BitVec 32) else 0) ^^^
      b.toBitVec.setWidth 32 ≠ 0 ↔ (r.msb ^^ (b == 1)) = true := by
    have htop := and_top type r
    rcases h with rfl | rfl <;> cases hmsb : r.msb <;> simp [hmsb] at htop <;> simp [htop]
  -- both sides now add the same polynomial under the same condition
  unfold CrcSpec.step feed
  simp only [hfeedback, hshift, hpoly]
  split
  · rw [BitVec.setWidth_xor]
  · rfl

/-- The loop runs the register of the check. -/
theorem compute_crc_ok {bits : Bits} (h : IsBits bits) (type : CrcType) :
    computeCrc bits type = .ok ((crcRegister bits type).setWidth 32) := by
  have hfold (r : BitVec (crcSpec type).len) :
      bits.foldl (crcSpec type).step (r.setWidth 32) =
        ((bits.map (· == 1)).foldl (feed (crcPoly type)) r).setWidth 32 := by
    induction bits generalizing r with
    | nil => rfl
    | cons b bits ih =>
        rw [is_bits_cons] at h
        rw [List.foldl_cons, crc_step type r h.1, ih h.2, List.map_cons, List.foldl_cons]
  have hloop : computeCrc bits type = .ok (bits.foldl (crcSpec type).step 0) := by
    refine Checked.fold_ok fun crc b hb => ?_
    have hbit : b = 0 ∨ b = 1 := h b hb
    rw [require_of hbit, Checked.ok_bind, Checked.pure_eq_ok]
  have hempty : (0 : BitVec 32) = (0 : BitVec (crcSpec type).len).setWidth 32 := by simp
  rw [hloop, hempty, hfold]
  rfl

/-- The bits that are attached for a register. -/
def parityOf (type : CrcType) (r : BitVec (crcSpec type).len) : Bits :=
  (checkBits r).map fun b => if b then 1 else 0

/-- What is attached are bits. -/
theorem is_bits_parity (type : CrcType) (r : BitVec (crcSpec type).len) :
    IsBits (parityOf type r) := by
  intro b hb
  obtain ⟨x, _, rfl⟩ := List.mem_map.mp hb
  cases x with
  | true => exact is_bit_one
  | false => exact is_bit_zero

/-- `crcAttach` appends the bits of the register. -/
theorem crc_attach_ok {payload : Bits} (h : IsBits payload) (type : CrcType) :
    crcAttach payload type = .ok (payload ++ parityOf type (crcRegister payload type)) := by
  obtain ⟨_, hlt⟩ := crc_len_range type
  have hbyte (x : BitVec 32) (i : Nat) :
      UInt8.ofBitVec (((x >>> i) &&& 1).setWidth 8) = if x.getLsbD i then 1 else 0 := by
    have hone : (x >>> i) &&& 1 = (BitVec.ofBool (x.getLsbD i)).setWidth 32 := by
      rw [show (1 : BitVec 32) = 1#32 from rfl, BitVec.and_one_eq_setWidth_ofBool_getLsbD,
        BitVec.getLsbD_ushiftRight, Nat.add_zero]
    rw [hone]
    cases x.getLsbD i <;> rfl
  rw [crcAttach, compute_crc_ok h, Checked.ok_bind, Checked.pure_eq_ok, Except.ok.injEq,
    parityOf, checkBits, List.map_map]
  refine congrArg (payload ++ ·) (List.map_congr_left fun i hi => ?_)
  have hwidth := List.mem_range.mp hi
  have hposition : (crcSpec type).len - 1 - i < 32 := by omega
  rw [hbyte, BitVec.getLsbD_setWidth]
  simp [BitVec.getMsbD, hposition, hwidth]

/-- An attached check has the length of the check, consists of bits and passes. -/
theorem crc_attach_spec {payload : Bits} (h : IsBits payload) (type : CrcType) :
    ∃ parity, crcAttach payload type = .ok (payload ++ parity) ∧
      parity.length = (crcSpec type).len ∧ IsBits parity ∧
      crcCheck (payload ++ parity) type = .ok true := by
  have hparity := is_bits_parity type (crcRegister payload type)
  have hlength : (parityOf type (crcRegister payload type)).length = (crcSpec type).len := by
    rw [parityOf, List.length_map, length_check_bits]
  refine ⟨_, crc_attach_ok h type, hlength, hparity, ?_⟩
  have hread : (parityOf type (crcRegister payload type)).map (· == 1) =
      checkBits (crcRegister payload type) := by
    rw [parityOf, List.map_map]
    refine (List.map_congr_left fun b _ => ?_).trans (List.map_id _)
    cases b <;> rfl
  have hzero : crcRegister (payload ++ parityOf type (crcRegister payload type)) type = 0 := by
    rw [crcRegister, List.map_append, hread]
    exact remainder_append_check _ _
  rw [crcCheck, require_of (by rw [List.length_append]; omega), Checked.ok_bind,
    compute_crc_ok (is_bits_append.mpr ⟨h, hparity⟩), Checked.ok_bind, hzero]
  simp

end NrBaseband
