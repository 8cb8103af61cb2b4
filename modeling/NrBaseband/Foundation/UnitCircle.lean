import NrBaseband.Foundation.FastFourier
import Mathlib.Analysis.SpecialFunctions.Complex.Circle

/-!
# The unit circle

Exact cosines and sines: `cosSin t` is the number on the unit circle after the part `t` of a full
turn. They are the roots of unity of every fast transform (`IsUnitCircle.tower`), which are
primitive where `2` is not zero. `complexCosSin` are those of the complex numbers.
-/

namespace Foundation

/-- The points of a unit circle: turning further multiplies, and half a turn is `-1`. -/
structure IsUnitCircle {K : Type} [CommRing K] (cosSin : ℚ → K) : Prop where
  add : ∀ s t, cosSin (s + t) = cosSin s * cosSin t
  half : cosSin (1 / 2) = -1

namespace IsUnitCircle

variable {K : Type} [CommRing K] {cosSin : ℚ → K}

/-- A whole turn is one. -/
theorem one (h : IsUnitCircle cosSin) : cosSin 1 = 1 := by
  have hone : (1 : ℚ) = 1 / 2 + 1 / 2 := by norm_num
  rw [hone, h.add, h.half, neg_one_mul, neg_neg]

/-- No turn is one. -/
theorem zero (h : IsUnitCircle cosSin) : cosSin 0 = 1 := by
  have hone := h.add 0 1
  rwa [zero_add, h.one, mul_one, eq_comm] at hone

/-- Turning the other way is the inverse. -/
theorem neg (h : IsUnitCircle cosSin) (t : ℚ) : cosSin t * cosSin (-t) = 1 := by
  rw [← h.add, add_neg_cancel, h.zero]

/-- Turning several times is a power. -/
theorem mul (h : IsUnitCircle cosSin) (n : Nat) (t : ℚ) : cosSin (n * t) = cosSin t ^ n := by
  induction n with
  | zero => rw [Nat.cast_zero, zero_mul, h.zero, pow_zero]
  | succ n ih => rw [Nat.cast_succ, add_mul, one_mul, h.add, ih, pow_succ]

/-- The roots of unity of a fast transform, in either direction. -/
theorem tower (h : IsUnitCircle cosSin) (inverse : Bool) :
    RootTower fun s => cosSin ((if inverse then 1 else -1) / ((2 ^ s : Nat) : ℚ)) where
  zero := by
    cases inverse with
    | true => simp [h.one]
    | false =>
        have hback := h.neg 1
        rw [h.one, one_mul] at hback
        simpa using hback
  one := by
    cases inverse with
    | true => simpa using h.half
    | false =>
        have hback := h.neg (1 / 2)
        rw [h.half, neg_one_mul, neg_eq_iff_eq_neg] at hback
        simpa [neg_div] using hback
  square s := by
    rw [← h.mul]
    congr 1
    push_cast
    field_simp
    ring

end IsUnitCircle

/-- The last root of a tower is primitive. -/
theorem RootTower.primitive {K : Type} [CommRing K] [Nontrivial K] {ω : Nat → K}
    (h : RootTower ω) (htwo : (2 : K) ≠ 0) (m : Nat) : IsPrimitiveRoot (ω m) (2 ^ m) := by
  cases m with
  | zero =>
      rw [h.zero, pow_zero]
      exact IsPrimitiveRoot.one
  | succ m =>
      have hne : (-1 : K) ≠ 1 := by
        intro heq
        have hsum : (1 : K) + 1 = 0 := by rw [← neg_add_cancel (1 : K), heq]
        exact htwo (one_add_one_eq_two.symm.trans hsum)
      have horder : orderOf (ω (m + 1)) = 2 ^ (m + 1) :=
        orderOf_eq_prime_pow (by rw [h.half]; exact hne) (h.whole (m + 1))
      rw [← horder]
      exact IsPrimitiveRoot.orderOf _

/-- Cosine and sine of an angle as a complex number. -/
noncomputable def complexCosSin (t : ℚ) : ℂ :=
  ⟨Real.cos ((2 * t : ℚ) * Real.pi), Real.sin ((2 * t : ℚ) * Real.pi)⟩

/-- They are exponentials. -/
theorem complex_cos_sin_eq (t : ℚ) :
    complexCosSin t = Complex.exp (2 * Real.pi * Complex.I * t) := by
  have hangle : 2 * Real.pi * Complex.I * t = (((2 * t : ℚ) * Real.pi : ℝ) : ℂ) * Complex.I := by
    push_cast
    ring
  rw [hangle]
  apply Complex.ext
  · rw [Complex.exp_ofReal_mul_I_re]
    rfl
  · rw [Complex.exp_ofReal_mul_I_im]
    rfl

/-- The complex exponential runs around the unit circle. -/
theorem complex_unit_circle : IsUnitCircle complexCosSin where
  add s t := by
    rw [complex_cos_sin_eq, complex_cos_sin_eq, complex_cos_sin_eq, ← Complex.exp_add]
    congr 1
    push_cast
    ring
  half := by
    have hangle : 2 * Real.pi * Complex.I * ((1 / 2 : ℚ) : ℂ) = Real.pi * Complex.I := by
      push_cast
      ring
    rw [complex_cos_sin_eq, hangle, Complex.exp_pi_mul_I]

end Foundation
