import Mathlib.Algebra.Order.Ring.Defs
import Mathlib.Algebra.Order.AbsoluteValue.Basic

/-!
# Extended numbers

Exact numbers of an ordered field together with the special values of floating-point arithmetic:
two infinities and the value of an invalid operation. Arithmetic on finite values is exact, and
the special values follow the rules of the floating-point standard; comparisons with `nan` are
false. Zero has no sign. Multiplication by a positive factor commutes with every operation and
changes no comparison.
-/

namespace Foundation

/-- A finite number, an infinity, or not a number. -/
inductive Extended (R : Type) where
  | finite (x : R)
  | posInf
  | negInf
  | nan
  deriving DecidableEq, Repr

namespace Extended

variable {R : Type} [Ring R] [LinearOrder R]

/-- The negated value. -/
def neg : Extended R → Extended R
  | finite x => finite (-x)
  | posInf => negInf
  | negInf => posInf
  | nan => nan

/-- The sum; infinities of opposite signs have none. -/
def add : Extended R → Extended R → Extended R
  | finite x, finite y => finite (x + y)
  | nan, _ | _, nan | posInf, negInf | negInf, posInf => nan
  | posInf, _ | _, posInf => posInf
  | negInf, _ | _, negInf => negInf

/-- The difference. -/
def sub (x y : Extended R) : Extended R := add x (neg y)

/-- The magnitude. -/
def abs : Extended R → Extended R
  | finite x => finite (max x (-x))
  | posInf | negInf => posInf
  | nan => nan

/-- Multiplication by a finite factor; an infinity times zero is invalid. -/
def scale (c : R) : Extended R → Extended R
  | finite x => finite (c * x)
  | posInf => if c = 0 then nan else if 0 < c then posInf else negInf
  | negInf => if c = 0 then nan else if 0 < c then negInf else posInf
  | nan => nan

/-- A finite value rounded to a number format. -/
def rounded (round : R → R) : Extended R → Extended R
  | finite x => finite (round x)
  | posInf => posInf
  | negInf => negInf
  | nan => nan

/-- The comparison `x < y`. -/
def lt : Extended R → Extended R → Bool
  | finite x, finite y => x < y
  | finite _, posInf | negInf, finite _ | negInf, posInf => true
  | _, _ => false

/-- The comparison `x ≤ y`. -/
def le : Extended R → Extended R → Bool
  | finite x, finite y => x ≤ y
  | finite _, posInf | negInf, finite _ | negInf, posInf => true
  | posInf, posInf | negInf, negInf => true
  | _, _ => false

/-- The comparison `0 ≤ x`. -/
def nonneg : Extended R → Bool
  | finite x => 0 ≤ x
  | posInf => true
  | negInf | nan => false

omit [Ring R] in
/-- Of two numbers, the one is less exactly where the other is not less or equal. -/
theorem lt_iff (x y : Extended R) : lt x y = true ↔ ¬le y x = true ∧ x ≠ nan ∧ y ≠ nan := by
  cases x <;> cases y <;> simp [lt, le]

omit [LinearOrder R] in
/-- Finite numbers are added as numbers. -/
@[simp] theorem add_finite (x y : R) : add (finite x) (finite y) = finite (x + y) := rfl

/-- The sign of a finite number is that of the number. -/
@[simp] theorem nonneg_finite (x : R) : nonneg (finite x) = decide (0 ≤ x) := rfl

omit [LinearOrder R] in
/-- Adding zeros changes nothing. -/
theorem foldl_add_zero {α : Type} {terms : List α} {term : α → Extended R}
    (h : ∀ t ∈ terms, term t = finite 0) (x : R) :
    terms.foldl (fun sum t => add sum (term t)) (finite x) = finite x := by
  induction terms with
  | nil => rfl
  | cons t terms ih =>
      rw [List.foldl_cons, h t List.mem_cons_self, add_finite, add_zero]
      exact ih fun t' ht' => h t' (List.mem_cons_of_mem t ht')

omit [LinearOrder R] in
/-- The order of two summands does not matter. -/
theorem add_swap (x y z : Extended R) : add (add x y) z = add (add x z) y := by
  cases x <;> cases y <;> cases z <;> simp [add, add_right_comm]

omit [Ring R] in
/-- The order in which two values lower a minimum does not matter. -/
theorem least_swap (m x y : Extended R) :
    (if y.lt (if x.lt m then x else m) then y else if x.lt m then x else m) =
      if x.lt (if y.lt m then y else m) then x else if y.lt m then y else m := by
  cases m <;> cases x <;> cases y <;> simp only [lt] <;> grind

section Scaling

variable {c : R}

/-- A positive factor keeps the positive infinity. -/
theorem scale_pos_inf (hc : 0 < c) : scale c posInf = posInf := by
  simp only [scale, if_neg (ne_of_gt hc), if_pos hc]

/-- A positive factor keeps the negative infinity. -/
theorem scale_neg_inf (hc : 0 < c) : scale c negInf = negInf := by
  simp only [scale, if_neg (ne_of_gt hc), if_pos hc]

/-- A positive factor distributes over a sum. -/
theorem scale_add (hc : 0 < c) (x y : Extended R) :
    scale c (add x y) = add (scale c x) (scale c y) := by
  cases x <;> cases y <;> simp only [add, scale_pos_inf hc, scale_neg_inf hc] <;>
    simp [scale, mul_add]

/-- A positive factor distributes over a difference. -/
theorem scale_sub (hc : 0 < c) (x y : Extended R) :
    scale c (sub x y) = sub (scale c x) (scale c y) := by
  have hneg : scale c (neg y) = neg (scale c y) := by
    cases y <;> simp only [neg, scale_pos_inf hc, scale_neg_inf hc] <;> simp [scale]
  rw [sub, scale_add hc, hneg, sub]

variable [IsStrictOrderedRing R]

/-- A positive factor passes through the magnitude. -/
theorem scale_abs (hc : 0 < c) (x : Extended R) : scale c (abs x) = abs (scale c x) := by
  cases x with
  | finite x => simp only [abs, scale, mul_max_of_nonneg _ _ (le_of_lt hc), mul_neg]
  | posInf | negInf => simp only [abs, scale_pos_inf hc, scale_neg_inf hc]
  | nan => rfl

/-- A positive factor keeps the order. -/
theorem lt_scale (hc : 0 < c) (x y : Extended R) : lt (scale c x) (scale c y) = lt x y := by
  cases x <;> cases y <;> simp only [lt, scale_pos_inf hc, scale_neg_inf hc] <;>
    simp [scale, mul_lt_mul_iff_right₀ hc]

/-- A positive factor keeps the sign. -/
theorem nonneg_scale (hc : 0 < c) (x : Extended R) : nonneg (scale c x) = nonneg x := by
  cases x with
  | finite x => simp only [scale, nonneg_finite, mul_nonneg_iff_of_pos_left hc]
  | posInf | negInf => simp only [scale_pos_inf hc, scale_neg_inf hc]
  | nan => rfl

end Scaling

/-- Two factors, one of them positive, may be applied in either order. -/
theorem scale_comm {R : Type} [CommRing R] [LinearOrder R] {c : R} (hc : 0 < c) (d : R)
    (x : Extended R) : scale c (scale d x) = scale d (scale c x) := by
  cases x with
  | finite x => simp only [scale, mul_left_comm]
  | posInf =>
      rw [scale_pos_inf hc, scale, apply_ite (scale c), apply_ite (scale c), scale_pos_inf hc,
        scale_neg_inf hc]
      rfl
  | negInf =>
      rw [scale_neg_inf hc, scale, apply_ite (scale c), apply_ite (scale c), scale_pos_inf hc,
        scale_neg_inf hc]
      rfl
  | nan => rfl

end Extended

end Foundation
