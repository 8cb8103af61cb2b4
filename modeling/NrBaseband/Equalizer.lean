import NrBaseband.Types
import NrBaseband.Fft
import NrBaseband.Foundation.MachineInt
import NrBaseband.Foundation.ExactComplex
import Mathlib.Data.Rat.Cast.OfScientific

/-!
# The MIMO equalizer

`equalize_sample` of `equalizer.cpp` over any numbers with the operations that it uses, with its
dense linear algebra on vectors in row-major order. No law of arithmetic is built in, so the
definitions are also those of rounded numbers; the modules on what is computed put exact ones in.
The helpers are only called with sizes from 1 to 4, so their sizes are natural numbers and no index
overflows.
-/

namespace NrBaseband

open Foundation Foundation.MachineInt

/-- `EqualizerType`. -/
inductive EqualizerType where
  | zf
  | mmse
  | rzf
  deriving DecidableEq, Repr

/-- `EqualizerConfig`. -/
structure EqualizerConfig (R : Type) [OfScientific R] where
  type : EqualizerType := .mmse
  noiseVar : R := 0.01
  rzfDelta : R := 0.01

section

variable {K : Type} [Zero K] [One K] [Add K] [Sub K] [Mul K] [Div K]

/-- `mat_mul`. -/
def matMul (A : List K) (ar ac : Nat) (B : List K) (br bc : Nat) : Checked (List K) := do
  require (ac = br) "matmul shape"
  (List.range ar).foldlM (fun C i =>
    (List.range ac).foldlM (fun C k =>
      (List.range bc).foldlM (fun C j => do
        let a ← Checked.read A (i * ac + k)
        let b ← Checked.read B (k * bc + j)
        Checked.modify C (i * bc + j) (· + a * b)) C) C) (List.replicate (ar * bc) 0)

/-- `mat_herm`. -/
def matHerm [Star K] (A : List K) (r c : Nat) : Checked (List K) :=
  (List.range r).foldlM (fun AH i =>
    (List.range c).foldlM (fun AH j => do
      let a ← Checked.read A (i * c + j)
      Checked.write AH (j * r + i) (star a)) AH) (List.replicate (c * r) 0)

/-- `mat_eye`. -/
def matEye (n : Nat) (scale : K) : Checked (List K) :=
  (List.range n).foldlM (fun I i => Checked.write I (i * n + i) scale) (List.replicate (n * n) 0)

/-- The swap of `mat_inv`. -/
def matInvSwap (aug : List K) (n col piv : Nat) : Checked (List K) :=
  if piv ≠ col then
    (List.range (2 * n)).foldlM (fun aug j =>
      Checked.exchange aug (col * (2 * n) + j) (piv * (2 * n) + j)) aug
  else .ok aug

/-- The division of the pivot row in `mat_inv`. -/
def matInvScale (aug : List K) (n col : Nat) : Checked (List K) := do
  let diag ← Checked.read aug (col * (2 * n) + col)
  (List.range (2 * n)).foldlM (fun aug j =>
    Checked.modify aug (col * (2 * n) + j) (· / diag)) aug

/-- The loop of `mat_inv` over the other rows. -/
def matInvSubtract (aug : List K) (n col : Nat) : Checked (List K) :=
  (List.range n).foldlM (fun aug r =>
    if r = col then .ok aug
    else do
      let f ← Checked.read aug (r * (2 * n) + col)
      (List.range (2 * n)).foldlM (fun aug j => do
        let x ← Checked.read aug (col * (2 * n) + j)
        Checked.modify aug (r * (2 * n) + j) (· - f * x)) aug) aug

/-- `mat_vec`. -/
def matVec (A : List K) (r c : Nat) (x : List K) : Checked (ComplexVec K) := do
  require (toInt32 x.length = c) "mat_vec"
  (List.range r).foldlM (fun y i =>
    (List.range c).foldlM (fun y j => do
      let a ← Checked.read A (i * c + j)
      let b ← Checked.read x j
      Checked.modify y i (· + a * b)) y) (List.replicate r 0)

/-- The augmented matrix at the start of `mat_inv`. -/
def matInvStart (A : List K) (n : Nat) : Checked (List K) :=
  (List.range n).foldlM (fun aug i => do
    let aug ← (List.range n).foldlM (fun aug j => do
      let a ← Checked.read A (i * n + j)
      Checked.write aug (i * (2 * n) + j) a) aug
    Checked.write aug (i * (2 * n) + (n + i)) 1) (List.replicate (n * (2 * n)) 0)

end

/-- The variable `reg` of `equalize_sample`. -/
def EqualizerConfig.reg {R : Type} [OfScientific R] [Zero R] (cfg : EqualizerConfig R) : R :=
  match cfg.type with
  | .zf => 0
  | .mmse => cfg.noiseVar
  | .rzf => cfg.rzfDelta

section

variable {R K : Type} [OfScientific R] [Zero R] [BEq R] [LT R] [DecidableLT R]
  [Zero K] [One K] [Add K] [Sub K] [Mul K] [Div K] [Star K] (num : ComplexOps R K)

/-- The search of `mat_inv` for the pair of the variables `piv` and `best`. -/
def matInvPivot (aug : List K) (n col : Nat) : Checked (Nat × R) := do
  let first ← Checked.read aug (col * (2 * n) + col)
  (List.range' (col + 1) (n - (col + 1))).foldlM (fun found r => do
    let z ← Checked.read aug (r * (2 * n) + col)
    let v := num.abs z
    return if v > found.2 then (r, v) else found) (col, num.abs first)

/-- The body of the loop of `mat_inv` over the columns. -/
def matInvColumn (n : Nat) (aug : List K) (col : Nat) : Checked (List K) := do
  let found ← matInvPivot num aug n col
  require (found.2 > 1e-14) "singular matrix in equalizer"
  let aug ← matInvSwap aug n col found.1
  let aug ← matInvScale aug n col
  matInvSubtract aug n col

/-- `mat_inv`. -/
def matInv (A : List K) (n : Nat) : Checked (List K) := do
  let aug ← matInvStart A n
  let aug ← (List.range n).foldlM (matInvColumn num n) aug
  (List.range n).foldlM (fun inv i =>
    (List.range n).foldlM (fun inv j => do
      let a ← Checked.read aug (i * (2 * n) + (n + j))
      Checked.write inv (i * n + j) a) inv) (List.replicate (n * n) 0)

/-- The variable `gram` of `equalize_sample` after the regularisation. -/
def regularise (gram : List K) (nTx : Nat) (reg : R) : Checked (List K) :=
  if reg != 0 then do
    let I ← matEye nTx (num.real reg)
    (List.range gram.length).foldlM (fun gram i => do
      let a ← Checked.read I i
      Checked.modify gram i (· + a)) gram
  else .ok gram

/-- `equalize_sample`. -/
def equalizeSample (y : ComplexVec K) (H : List K) (nRx nTx : Int)
    (cfg : EqualizerConfig R) : Checked (ComplexVec K) := do
  require (toInt32 y.length = nRx) "y size"
  let size ← int32 (nRx * nTx)
  require (toInt32 H.length = size) "H size"
  require (nTx ≥ 1 ∧ nTx ≤ 4 ∧ nRx ≥ 1 ∧ nRx ≤ 4) "MIMO size 1..4"
  let rx := nRx.toNat
  let tx := nTx.toNat
  let Hh ← matHerm H rx tx
  let gram ← matMul Hh tx rx H rx tx
  let gram ← regularise num gram tx cfg.reg
  let inv ← matInv num gram tx
  let W ← matMul inv tx tx Hh tx rx
  matVec W tx rx y

end

end NrBaseband
