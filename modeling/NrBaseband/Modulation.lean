import NrBaseband.Llr
import NrBaseband.Fft
import NrBaseband.Foundation.MachineInt
import NrBaseband.Foundation.ExactComplex
import NrBaseband.Foundation.NearestPoint

/-!
# Modulation

`modulate` and the two demappers of `modulation.cpp` over exact real numbers. A complex number is
the pair of its parts. The labels, levels and amplitudes of the four orders are small, so only the
index of a bit in its vector can leave the range of an `int`.
-/

namespace NrBaseband

open Foundation Foundation.MachineInt

/-- `ModulationOrder`. -/
inductive ModulationOrder where
  | qpsk
  | qam16
  | qam64
  | qam256
  deriving DecidableEq, Repr

/-- `bits_per_symbol`. -/
def bitsPerSymbol : ModulationOrder → Nat
  | .qpsk => 2
  | .qam16 => 4
  | .qam64 => 6
  | .qam256 => 8

/-- A complex number by its parts. -/
structure Point (R : Type) where
  re : R
  im : R

/-- `bin_to_gray`. -/
def binToGray (v : Nat) : Nat := v ^^^ (v >>> 1)

/-- The loop of `gray_to_bin`, on the variables `b` and `g`. -/
def grayToBinLoop (b g : Nat) : Nat :=
  if g >>> 1 = 0 then b else grayToBinLoop (b ^^^ (g >>> 1)) (g >>> 1)
  termination_by g
  decreasing_by
    simp only [Nat.shiftRight_one] at *
    omega

/-- `gray_to_bin`. -/
def grayToBin (g : Nat) : Nat := grayToBinLoop g g

/-- The assignment `g = (g << 1) | b`. -/
def pushBit (g : Nat) (b : UInt8) : Nat := (g <<< 1) ||| b.toNat

/-- `gray_pam_amp`. -/
def grayPamAmp (bits : Bits) (start : Int) (nbits : Nat) : Checked Int := do
  let g ← (List.range nbits).foldlM (fun g (i : Nat) => do
    let index ← int32 (start + i)
    let b ← Checked.read bits (toSizeT index)
    return pushBit g b) 0
  let v := grayToBin g
  let levels : Int := 1 <<< nbits
  return (levels - 1) - 2 * v

/-- `gray_bits_from_amp`, which appends the bits it returns. -/
def grayBitsFromAmp (amp : Int) (nbits : Nat) : Bits :=
  let levels : Int := 1 <<< nbits
  let v := ((levels - 1) - amp).tdiv 2
  let v := if v < 0 then 0 else v
  let v := if v ≥ levels then levels - 1 else v
  let g := binToGray v.toNat
  (List.range nbits).reverse.map fun i => UInt8.ofNat ((g >>> i) &&& 1)

section

variable {R : Type} [Field R] [LinearOrder R] (num : ExactReal R)

/-- `scale_for`. -/
def scaleFor : ModulationOrder → R
  | .qpsk => 1 / num.sqrt (2 : Nat)
  | .qam16 => 1 / num.sqrt (10 : Nat)
  | .qam64 => 1 / num.sqrt (42 : Nat)
  | .qam256 => 1 / num.sqrt (170 : Nat)

/-- `symbol_from_index`. -/
def symbolFromIndex (idx : Nat) (order : ModulationOrder) : Point R :=
  let m := bitsPerSymbol order
  let half := m / 2
  let levels : Int := 1 <<< half
  let bits := (List.range m).reverse.map fun i => UInt8.ofNat ((idx >>> i) &&& 1)
  let gI := (bits.take half).foldl pushBit 0
  let gQ := (bits.drop half).foldl pushBit 0
  let vI := grayToBin gI
  let vQ := grayToBin gQ
  let s := scaleFor num order
  ⟨s * (((levels - 1) - 2 * vI : Int) : R), s * (((levels - 1) - 2 * vQ : Int) : R)⟩

/-- `constellation`. -/
def constellation (order : ModulationOrder) : Vector (Point R) (1 <<< bitsPerSymbol order) :=
  Vector.ofFn fun i => symbolFromIndex num i order

/-- The body of the loop of `modulate`. -/
def modulateSymbol (bits : Bits) (order : ModulationOrder) (i : Nat) : Checked (Point R) := do
  let half := bitsPerSymbol order / 2
  let s := scaleFor num order
  let re ← grayPamAmp bits (toInt32 i) half
  let start ← int32 (toInt32 i + half)
  let im ← grayPamAmp bits start half
  return ⟨s * (re : R), s * (im : R)⟩

/-- `modulate`. -/
def modulate (bits : Bits) (order : ModulationOrder) : Checked (ComplexVec (Point R)) := do
  let m := bitsPerSymbol order
  require (bits.length % m = 0) "bit length not multiple of Qm"
  (List.range (bits.length / m)).mapM fun n => modulateSymbol num bits order (n * m)

/-- The function `nearest` of `demodulate_hard`. -/
def nearest (s : R) (levels : Nat) (x : R) : Int :=
  let amplitudes := (List.range levels).map fun i : Nat => -((levels : Int) - 1) + 2 * i
  (amplitudes.foldl (nearestStep fun a : Int => |x - s * (a : R)|)
    (-((levels : Int) - 1), .posInf)).1

/-- `demodulate_hard`. -/
def demodulateHard (syms : ComplexVec (Point R)) (order : ModulationOrder) : Bits :=
  let half := bitsPerSymbol order / 2
  let s := scaleFor num order
  let levels := 1 <<< half
  syms.flatMap fun z =>
    grayBitsFromAmp (nearest s levels z.re) half ++ grayBitsFromAmp (nearest s levels z.im) half

/-- `std::norm(y - a)`. -/
def squaredDistance (y a : Point R) : R := (y.re - a.re) ^ 2 + (y.im - a.im) ^ 2

/-- The bodies of the loops of `demodulate_llr` over the symbols and the bits. -/
def symbolLlr {M : Nat} (alphabet : Vector (Point R) M) (m : Nat) (inv2s : R) (y : Point R)
    (k : Nat) : Extended R :=
  let least := (List.finRange M).foldl (classStep (fun s => squaredDistance y (alphabet.get s))
    fun s => (s.val >>> (m - 1 - k)) &&& 1 = 0) (.posInf, .posInf)
  Extended.scale inv2s (Extended.sub least.2 least.1)

/-- `demodulate_llr`. -/
def demodulateLlr (syms : ComplexVec (Point R)) (order : ModulationOrder) (noiseVar : R) :
    Checked (SoftVec (Extended R)) := do
  require (noiseVar > 0) "noise_var must be > 0"
  let m := bitsPerSymbol order
  let alphabet := constellation num order
  let inv2s := 1 / ((2 : Nat) * noiseVar)
  return syms.flatMap fun y => (List.range m).map fun k => symbolLlr alphabet m inv2s y k

end

end NrBaseband
