import NrBaseband.Foundation.ExactComplex

/-!
# Complex numbers by their parts

Complex numbers with an imaginary unit, so that a number is given by its two parts. The squared
absolute value, the norm that programs compute, is multiplicative (`norm_mul`), and that of a number
is the sum of the squares of its parts (`norm_complex`).
-/

namespace Foundation

/-- The complex numbers `K` over the real numbers `R`, with their imaginary unit. -/
structure Cartesian (R K : Type) [Field R] [LinearOrder R] [Field K] [StarRing K] extends
    ExactComplex R K where
  unit : K
  sq_unit : unit * unit = -1
  star_unit : star unit = -unit

namespace Cartesian

variable {R K : Type} [Field R] [LinearOrder R] [Field K] [StarRing K] (num : Cartesian R K)

/-- The complex number with these parts. -/
def complex (re im : R) : K := num.ofReal re + num.unit * num.ofReal im

/-- The squared absolute value. -/
def norm (z : K) : R := num.abs z ^ 2

/-- The norm of a number with these parts. -/
theorem norm_complex (re im : R) : num.norm (num.complex re im) = re ^ 2 + im ^ 2 := by
  apply num.of_real_injective
  rw [norm, num.abs_sq, complex, star_add, star_mul', num.star_of_real, num.star_of_real,
    num.star_unit, map_add, map_pow, map_pow]
  linear_combination -(num.ofReal im) ^ 2 * num.sq_unit

/-- The norm of a product. -/
theorem norm_mul (z w : K) : num.norm (z * w) = num.norm z * num.norm w := by
  apply num.of_real_injective
  rw [map_mul, norm, norm, norm, num.abs_sq, num.abs_sq, num.abs_sq, star_mul']
  ring

/-- The norm of a number as a product with its conjugate. -/
theorem of_real_norm (z : K) : num.ofReal (num.norm z) = z * star z := num.abs_sq z

/-- Only zero has norm zero. -/
theorem norm_eq_zero {z : K} (h : z = 0) : num.norm z = 0 := by
  rw [norm, h, num.abs_zero, zero_pow two_ne_zero]

/-- A number with a positive norm is not zero. -/
theorem ne_zero_of_norm {z : K} (h : 0 < num.norm z) : z ≠ 0 :=
  fun hz => ne_of_gt h (num.norm_eq_zero hz)

end Cartesian

/-- The complex numbers with their imaginary unit. -/
noncomputable def cartesianNumbers : Cartesian ℝ ℂ where
  toExactComplex := complexNumbers
  unit := Complex.I
  sq_unit := Complex.I_mul_I
  star_unit := Complex.conj_I

end Foundation
