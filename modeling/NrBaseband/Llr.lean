import NrBaseband.Types
import NrBaseband.Foundation.Extended
import Mathlib.Tactic.Ring

/-!
# Log-likelihood ratios

The maps between bits and soft values and the elementwise combination of soft values, over exact
numbers.
-/

namespace NrBaseband

open Foundation

variable {R : Type} [CommRing R]

/-- The soft value of one bit: positive for 0. -/
def bitLlr (magnitude : R) (b : UInt8) : R := if b = 0 then magnitude else -magnitude

/-- `bits_to_llr`. -/
def bitsToLlr (bits : Bits) (magnitude : R) : Checked (SoftVec R) :=
  bits.mapM fun b => do
    require (b = 0 ∨ b = 1) "bits 0/1"
    return bitLlr magnitude b

/-- `llr_to_bits`. -/
def llrToBits {R : Type} [Ring R] [LinearOrder R] (llr : SoftVec (Extended R)) : Bits :=
  llr.map fun a => if a.nonneg then 0 else 1

/-- `llr_combine`. Only the addition is used, so it stands for that of any number format. -/
def llrCombine {R : Type} [Add R] (a b : SoftVec R) : Checked (SoftVec R) := do
  require (a.length = b.length) "llr_combine size mismatch"
  return List.zipWith (· + ·) a b

/-- Bits are mapped one by one. -/
theorem bits_to_llr_ok {bits : Bits} (h : IsBits bits) (magnitude : R) :
    bitsToLlr bits magnitude = .ok (bits.map (bitLlr magnitude)) := by
  refine Checked.map_ok fun b hb => ?_
  have hbit : b = 0 ∨ b = 1 := h b hb
  rw [require_of hbit, Checked.ok_bind, Checked.pure_eq_ok]

/-- The soft value of a bit is its sign times the magnitude. -/
theorem bit_llr_eq {b : UInt8} (h : IsBit b) (magnitude : R) :
    bitLlr magnitude b = magnitude * (1 - 2 * (b.toNat : R)) := by
  rcases h with rfl | rfl
  · simp [bitLlr]
  · have hone : ((1 : UInt8).toNat : R) = 1 := by simp
    rw [hone, bitLlr, if_neg (by decide)]
    ring

end NrBaseband
