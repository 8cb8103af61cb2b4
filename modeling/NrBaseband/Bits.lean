import NrBaseband.Types
import NrBaseband.Foundation.Pieces
import Mathlib.Algebra.Field.ZMod
import Mathlib.Data.Nat.Bitwise

/-!
# Bytes as bits

The program keeps bits in bytes and adds them with `^`. `gf2` reads a byte as an element of GF(2),
where `^` is addition, and `ofGf2` writes an element back as a byte 0 or 1.
-/

namespace NrBaseband

/-- The lowest bit of a byte as an element of GF(2). -/
def gf2 (b : UInt8) : ZMod 2 := (b.toNat : ZMod 2)

/-- An element of GF(2) as a byte. -/
def ofGf2 (x : ZMod 2) : UInt8 := if x = 0 then 0 else 1

/-- The zero byte is zero. -/
@[simp] theorem gf2_zero : gf2 0 = 0 := rfl

/-- The byte one is one. -/
theorem gf2_one : gf2 1 = 1 := rfl

/-- Exclusive or of bytes is addition in GF(2). -/
theorem gf2_xor (a b : UInt8) : gf2 (a ^^^ b) = gf2 a + gf2 b := by
  unfold gf2
  rw [UInt8.toNat_xor, ← Nat.cast_add, ZMod.natCast_eq_natCast_iff']
  exact Nat.xor_mod_two_eq

/-- A bit is 0 when its element is. -/
theorem gf2_eq_zero {b : UInt8} (h : IsBit b) : gf2 b = 0 ↔ b = 0 := by
  rcases h with rfl | rfl <;> decide

/-- Bits with equal elements are equal. -/
theorem gf2_inj {a b : UInt8} (ha : IsBit a) (hb : IsBit b) (h : gf2 a = gf2 b) : a = b := by
  rcases ha with rfl | rfl <;> rcases hb with rfl | rfl <;> first | rfl | exact absurd h (by decide)

/-- Elements of GF(2) are kept as bytes. -/
@[simp] theorem gf2_of_gf2 (x : ZMod 2) : gf2 (ofGf2 x) = x := by
  revert x
  decide

/-- What is written back is a bit. -/
theorem is_bit_of_gf2 (x : ZMod 2) : IsBit (ofGf2 x) := by
  unfold ofGf2
  split
  · exact .inl rfl
  · exact .inr rfl

/-- The exclusive or of a list of bytes, from the first on. -/
def xorAll (bytes : List UInt8) : UInt8 := bytes.foldl (· ^^^ ·) 0

/-- The exclusive or of bytes adds their elements. -/
theorem gf2_xor_all (bytes : List UInt8) : gf2 (xorAll bytes) = (bytes.map gf2).sum := by
  have hfold (start : UInt8) :
      gf2 (bytes.foldl (· ^^^ ·) start) = gf2 start + (bytes.map gf2).sum := by
    induction bytes generalizing start with
    | nil => simp
    | cons b bytes ih => rw [List.foldl_cons, ih, gf2_xor, List.map_cons, List.sum_cons, add_assoc]
  rw [xorAll, hfold, gf2_zero, zero_add]

/-- The exclusive or of bits is a bit. -/
theorem is_bit_xor_all {bytes : List UInt8} (h : ∀ b ∈ bytes, IsBit b) : IsBit (xorAll bytes) := by
  have hfold (start : UInt8) (hstart : IsBit start) : IsBit (bytes.foldl (· ^^^ ·) start) := by
    induction bytes generalizing start with
    | nil => exact hstart
    | cons b bytes ih =>
        exact ih (fun b' hb' => h b' (List.mem_cons_of_mem b hb')) _
          (hstart.xor (h b List.mem_cons_self))
  exact hfold 0 (.inl rfl)

/-- The pieces of a bit vector are bit vectors. -/
theorem is_bits_piece {bits : Bits} (h : IsBits bits) (size c : Nat) :
    IsBits (Foundation.Pieces.piece 0 size bits c) := by
  intro b hb
  obtain ⟨i, _, rfl⟩ := List.mem_map.mp hb
  exact h.getD _

/-- A vector as a function from positions to GF(2), zero past its end. -/
def wordOf (bits : Bits) (i : Nat) : ZMod 2 := gf2 (bits.getD i 0)

/-- The element at a position of the vector. -/
theorem word_of_lt {bits : Bits} {i : Nat} (h : i < bits.length) : wordOf bits i = gf2 bits[i] := by
  simp [wordOf, h]

/-- The zero vector reads as zero everywhere. -/
theorem word_of_replicate (n : Nat) : wordOf (List.replicate n 0) = 0 := by
  funext i
  by_cases hi : i < n <;> simp [wordOf, hi]

/-- Bit vectors of one length with the same elements are equal. -/
theorem word_of_inj {left right : Bits} (hleft : IsBits left) (hright : IsBits right)
    (hlength : left.length = right.length)
    (h : ∀ i < left.length, wordOf left i = wordOf right i) : left = right := by
  refine List.ext_getElem hlength fun i hi hi' => ?_
  have hword := h i hi
  rw [word_of_lt hi, word_of_lt hi'] at hword
  exact gf2_inj (hleft _ (List.getElem_mem hi)) (hright _ (List.getElem_mem hi')) hword

/-- The exclusive or of two vectors, byte by byte. -/
def xorBits (a b : Bits) : Bits := List.zipWith (· ^^^ ·) a b

/-- The exclusive or of bits consists of bits. -/
theorem is_bits_xor {a b : Bits} (ha : IsBits a) (hb : IsBits b) : IsBits (xorBits a b) := by
  intro c hc
  obtain ⟨i, hi, rfl⟩ := List.mem_iff_getElem.mp hc
  rw [xorBits, List.length_zipWith] at hi
  simp only [xorBits, List.getElem_zipWith]
  exact (ha _ (List.getElem_mem (by omega))).xor (hb _ (List.getElem_mem (by omega)))

/-- The exclusive or of vectors of one length reads as the sum. -/
theorem word_of_xor {a b : Bits} (h : a.length = b.length) (p : Nat) :
    wordOf (xorBits a b) p = wordOf a p + wordOf b p := by
  by_cases hp : p < a.length
  · have hpb : p < b.length := h ▸ hp
    have hxor : p < (xorBits a b).length := by
      rw [xorBits, List.length_zipWith]
      omega
    rw [word_of_lt hxor, word_of_lt hp, word_of_lt hpb, ← gf2_xor]
    simp only [xorBits, List.getElem_zipWith]
  · have hpb : ¬p < b.length := h ▸ hp
    simp [wordOf, xorBits, List.getD_eq_getElem?_getD, hp, hpb]

end NrBaseband
