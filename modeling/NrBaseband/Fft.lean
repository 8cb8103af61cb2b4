import NrBaseband.Types
import NrBaseband.Foundation.UnitCircle
import NrBaseband.Foundation.Table

/-!
# The radix-2 FFT

`fft_radix2` with its in-place loops, and the educational `naive_dft`, over exact numbers. The
complex numbers are any field; the parameter `cosSin` is `{cos(ang), sin(ang)}` for the angle of
`ang / 2π` full turns. A vector has fewer than `2 ^ 59` elements, so that no index wraps around.
-/

namespace NrBaseband

open Foundation

variable {K : Type} [Field K]

/-- `ComplexVec`. -/
abbrev ComplexVec (K : Type) : Type := List K

/-- The largest number of elements of 16 bytes that a vector can hold. -/
def maxVectorSize : Nat := 2 ^ 59 - 1

/-- `is_power_of_two`. -/
def isPowerOfTwo (n : Nat) : Bool := n ≠ 0 && n &&& (n - 1) = 0

/-- `std::swap(a[i], a[j])`. -/
def swapAt (a : ComplexVec K) (i j : Nat) : Checked (ComplexVec K) := do
  let x ← Checked.read a i
  let y ← Checked.read a j
  let a ← Checked.write a i y
  Checked.write a j x

/-- One round of the bit-reverse permutation, on the variables `a` and `j`. The loop over `bit` is
`reverseCarry`. -/
def permuteStep (n : Nat) (state : ComplexVec K × Nat) (i : Nat) :
    Checked (ComplexVec K × Nat) := do
  let j := reverseCarry state.2 (n >>> 1)
  let a ← if i < j then swapAt state.1 i j else .ok state.1
  return (a, j)

/-- The bit-reverse permutation. -/
def bitReversePermute (input : ComplexVec K) : Checked (ComplexVec K) := do
  let n := input.length
  let state ← (List.range' 1 (n - 1)).foldlM (permuteStep n) (input, 0)
  return state.1

/-- One round of the innermost loop, on the variables `a` and `w`. -/
def butterflyStep (len : Nat) (wlen : K) (i : Nat) (state : ComplexVec K × K) (j : Nat) :
    Checked (ComplexVec K × K) := do
  let u ← Checked.read state.1 (i + j)
  let y ← Checked.read state.1 (i + j + len / 2)
  let v := y * state.2
  let a ← Checked.write state.1 (i + j) (u + v)
  let a ← Checked.write a (i + j + len / 2) (u - v)
  return (a, state.2 * wlen)

/-- The butterflies of the block that starts at `i`. -/
def fftBlock (len : Nat) (wlen : K) (a : ComplexVec K) (i : Nat) : Checked (ComplexVec K) := do
  let state ← (List.range (len / 2)).foldlM (butterflyStep len wlen i) (a, 1)
  return state.1

/-- One stage: the blocks start at the multiples of `len` below `n`. -/
def fftStage (cosSin : ℚ → K) (inverse : Bool) (n len : Nat) (a : ComplexVec K) :
    Checked (ComplexVec K) :=
  let wlen := cosSin ((if inverse then 1 else -1) / len)
  (List.range' 0 ((n + len - 1) / len) len).foldlM (fftBlock len wlen) a

/-- The loop over the stages from length `len` on, which is never 0. -/
def fftStages (cosSin : ℚ → K) (inverse : Bool) (n len : Nat) (a : ComplexVec K) :
    Checked (ComplexVec K) :=
  if 0 < len ∧ len ≤ n then do
    let a ← fftStage cosSin inverse n len a
    fftStages cosSin inverse n (len <<< 1) a
  else .ok a
termination_by n + 1 - len
decreasing_by
  rw [Nat.shiftLeft_eq]
  omega

/-- `fft_radix2`. -/
def fftRadix2 (cosSin : ℚ → K) (input : ComplexVec K) (inverse : Bool) :
    Checked (ComplexVec K) := do
  let n := input.length
  require (isPowerOfTwo n) "fft_radix2 requires power-of-two length"
  let a ← bitReversePermute input
  let a ← fftStages cosSin inverse n 2 a
  if inverse then
    let inv : K := 1 / n
    return a.map (· * inv)
  else return a

/-- `naive_dft`. -/
def naiveDft (cosSin : ℚ → K) (input : ComplexVec K) (inverse : Bool) :
    Checked (ComplexVec K) :=
  let n := input.length
  let sign : ℚ := if inverse then 1 else -1
  let scale : K := if inverse then 1 / n else 1
  (List.range n).mapM fun (k : Nat) => do
    let sum ← (List.range n).foldlM (fun sum (t : Nat) => do
      let x ← Checked.read input t
      return sum + x * cosSin (sign * k * t / n)) 0
    return sum * scale

end NrBaseband
