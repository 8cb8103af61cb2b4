import Mathlib.Algebra.Star.Rat
import Mathlib.Analysis.Complex.Basic
import Mathlib.LinearAlgebra.Matrix.ConjTranspose
import Mathlib.Data.Matrix.Mul

/-!
# Exact numbers

Real numbers with square roots. For complex numbers, a field with a conjugation over an ordered
field of reals, and the absolute value that programs compute; `ComplexOps` has the operations alone,
for programs on any numbers. The energy of a vector is the sum of
the squared absolute values of its entries. The regularised Gram matrix of any matrix stretches
every vector by at least the regularisation (`energy_gram`), so it stays away from singular
matrices.
-/

namespace Foundation

open Matrix

/-- The square roots of the real numbers `R`. -/
structure ExactReal (R : Type) [Field R] [LinearOrder R] where
  sqrt : R → R
  sqrt_nonneg : ∀ x, 0 ≤ sqrt x
  sq_sqrt : ∀ x, 0 ≤ x → sqrt x ^ 2 = x

/-- A positive number has a positive square root. -/
theorem ExactReal.sqrt_pos {R : Type} [Field R] [LinearOrder R] (num : ExactReal R) {x : R}
    (hx : 0 < x) : 0 < num.sqrt x := by
  refine lt_of_le_of_ne (num.sqrt_nonneg x) fun hzero => ?_
  have hsq := num.sq_sqrt x (le_of_lt hx)
  rw [← hzero, zero_pow two_ne_zero] at hsq
  exact absurd hsq (ne_of_lt hx)

/-- What connects the real numbers `R` and the complex numbers `K` of a program: the complex number
with a real part, and the absolute value. Nothing is asked of the two. -/
structure ComplexOps (R K : Type) where
  real : R → K
  abs : K → R

/-- The real numbers `R` in the complex numbers `K`, and the absolute value. -/
structure ExactComplex (R K : Type) [Field R] [LinearOrder R] [Field K] [StarRing K] extends
    ComplexOps R K where
  ofReal : R →+* K
  real_eq : ∀ r, real r = ofReal r
  abs_nonneg : ∀ z, 0 ≤ abs z
  star_of_real : ∀ r, star (ofReal r) = ofReal r
  abs_sq : ∀ z, ofReal (abs z ^ 2) = z * star z

/-- A program that only needs the operations runs on exact numbers. -/
instance {R K : Type} [Field R] [LinearOrder R] [Field K] [StarRing K] :
    Coe (ExactComplex R K) (ComplexOps R K) := ⟨ExactComplex.toComplexOps⟩

namespace ExactComplex

variable {R K : Type} [Field R] [LinearOrder R] [Field K] [StarRing K]
  (num : ExactComplex R K) {m n : Type} [Fintype m] [Fintype n]

/-- Only real zero is complex zero. -/
theorem of_real_injective : Function.Injective num.ofReal := num.ofReal.injective

/-- Zero has no absolute value. -/
theorem abs_zero : num.abs 0 = 0 := by
  have hsq : num.ofReal (num.abs 0 ^ 2) = num.ofReal 0 := by
    rw [num.abs_sq, zero_mul, map_zero]
  exact pow_eq_zero_iff two_ne_zero |>.mp (num.of_real_injective hsq)

/-- One has absolute value one. -/
theorem abs_one_sq : num.abs 1 ^ 2 = 1 := by
  have hsq : num.ofReal (num.abs 1 ^ 2) = num.ofReal 1 := by
    rw [num.abs_sq, star_one, one_mul, map_one]
  exact num.of_real_injective hsq

/-- The energy of a vector. -/
def energy (v : n → K) : R := ∑ i, num.abs (v i) ^ 2

/-- The energy as a product of the vector with its conjugate. -/
theorem of_real_energy (v : n → K) : num.ofReal (num.energy v) = v ⬝ᵥ star v := by
  rw [energy, map_sum]
  exact Finset.sum_congr rfl fun i _ => num.abs_sq (v i)

/-- A Gram matrix between a vector and itself gives the energy of the image. -/
theorem gram_dot_star (H : Matrix m n K) (x : n → K) :
    ((Hᴴ * H) *ᵥ x) ⬝ᵥ star x = num.ofReal (num.energy (H *ᵥ x)) := by
  rw [num.of_real_energy, ← mulVec_mulVec, dotProduct_comm, dotProduct_mulVec, ← star_mulVec,
    dotProduct_comm]

/-- The same the other way round. -/
theorem dot_star_gram (H : Matrix m n K) (x : n → K) :
    x ⬝ᵥ star ((Hᴴ * H) *ᵥ x) = num.ofReal (num.energy (H *ᵥ x)) := by
  rw [num.of_real_energy, ← mulVec_mulVec, star_mulVec, conjTranspose_conjTranspose,
    dotProduct_comm, ← dotProduct_mulVec, dotProduct_comm]

/-- The energy of a regularised Gram matrix on a vector. -/
theorem energy_gram [DecidableEq n] (H : Matrix m n K) (reg : R) (x : n → K) :
    num.energy ((Hᴴ * H + num.ofReal reg • (1 : Matrix n n K)) *ᵥ x) =
      num.energy ((Hᴴ * H) *ᵥ x) + (reg + reg) * num.energy (H *ᵥ x) +
        reg ^ 2 * num.energy x := by
  apply num.of_real_injective
  have hgram := num.gram_dot_star H x
  have hgram' := num.dot_star_gram H x
  rw [num.of_real_energy] at hgram hgram'
  rw [num.of_real_energy, add_mulVec, smul_mulVec, one_mulVec, star_add, star_smul,
    num.star_of_real]
  simp only [add_dotProduct, dotProduct_add, smul_dotProduct, dotProduct_smul, map_add, map_mul,
    map_pow, num.of_real_energy, smul_eq_mul, hgram, hgram']
  ring

variable [IsStrictOrderedRing R]

/-- A real number that is not negative is its own absolute value. -/
theorem abs_of_real {r : R} (h : 0 ≤ r) : num.abs (num.ofReal r) = r := by
  have hsq : num.ofReal (num.abs (num.ofReal r) ^ 2) = num.ofReal (r ^ 2) := by
    rw [num.abs_sq, num.star_of_real, map_pow, sq]
  exact (sq_eq_sq₀ (num.abs_nonneg _) h).mp (num.of_real_injective hsq)

/-- Energies are not negative. -/
theorem energy_nonneg (v : n → K) : 0 ≤ num.energy v :=
  Finset.sum_nonneg fun _ _ => sq_nonneg _

/-- An entry of a vector has at most its energy. -/
theorem sq_le_energy (v : n → K) (i : n) : num.abs (v i) ^ 2 ≤ num.energy v :=
  Finset.single_le_sum (f := fun i => num.abs (v i) ^ 2) (fun _ _ => sq_nonneg _)
    (Finset.mem_univ i)

/-- A regularised Gram matrix multiplies every energy by at least the squared regularisation. -/
theorem le_energy_gram [DecidableEq n] (H : Matrix m n K) {reg : R} (hreg : 0 ≤ reg) (x : n → K) :
    reg ^ 2 * num.energy x ≤
      num.energy ((Hᴴ * H + num.ofReal reg • (1 : Matrix n n K)) *ᵥ x) := by
  rw [num.energy_gram]
  have himage := num.energy_nonneg ((Hᴴ * H) *ᵥ x)
  have hcross := mul_nonneg (add_nonneg hreg hreg) (num.energy_nonneg (H *ᵥ x))
  linarith

end ExactComplex

/-- The rational numbers, which have no imaginary part; a program runs on them. -/
def rationalNumbers : ExactComplex ℚ ℚ where
  real r := r
  abs z := |z|
  ofReal := RingHom.id ℚ
  real_eq _ := rfl
  abs_nonneg := abs_nonneg
  star_of_real _ := rfl
  abs_sq z := by
    show |z| ^ 2 = z * z
    rw [sq_abs, sq]

/-- The real numbers. -/
noncomputable def realNumbers : ExactReal ℝ where
  sqrt := Real.sqrt
  sqrt_nonneg := Real.sqrt_nonneg
  sq_sqrt _ := Real.sq_sqrt

/-- The complex numbers. -/
noncomputable def complexNumbers : ExactComplex ℝ ℂ where
  real r := r
  abs z := ‖z‖
  ofReal := Complex.ofRealHom
  real_eq _ := rfl
  abs_nonneg := norm_nonneg
  star_of_real := Complex.conj_ofReal
  abs_sq z := by
    show ((‖z‖ ^ 2 : ℝ) : ℂ) = z * star z
    rw [← Complex.normSq_eq_norm_sq, ← Complex.mul_conj, Complex.star_def]

end Foundation
