import Mathlib.Algebra.BigOperators.Ring.Finset
import Mathlib.GroupTheory.Perm.Basic
import Mathlib.Tactic.Ring
import Mathlib.Algebra.BigOperators.Field

/-!
# The rules of Gauss–Jordan elimination

A square linear system over a commutative ring is a coefficient matrix with a right-hand side.
Permuting the equations (`solves_permute`) and adding multiples of one equation to the others
(`solves_clear`) do not change its solutions. `UnitColumns A k` is the loop invariant of
Gauss–Jordan elimination: the first `k` columns are those of the identity. It is kept by swapping
later rows (`UnitColumns.swap`), extended by clearing the next column (`UnitColumns.clear`), and
once it covers every column the right-hand side is the solution (`UnitColumns.solves_iff`). Where
no pivot is left the matrix has a nonzero kernel vector (`UnitColumns.exists_kernel`).

Over a field a row may first be divided by its pivot (`scale`). `KeepsRows A G k` says that on the
vectors which the first `k` reduced equations annihilate, the reduced matrix still acts like the
original one with its rows in another order; so a small column of it is a small value of the
original matrix.
-/

namespace Foundation.GaussJordan

open Finset

variable {R : Type} [CommRing R] {n : Nat}

/-- `x` solves the equations with coefficients `A` and right-hand side `b`. -/
def Solves (A : Fin n → Fin n → R) (b x : Fin n → R) : Prop :=
  ∀ i, ∑ j, A i j * x j = b i

/-- The order of the equations does not matter. -/
theorem solves_permute (order : Equiv.Perm (Fin n)) {A : Fin n → Fin n → R} {b x : Fin n → R} :
    Solves (fun i => A (order i)) (fun i => b (order i)) x ↔ Solves A b x := by
  constructor
  · intro h i
    simpa using h (order.symm i)
  · intro h i
    exact h (order i)

/-- Row `i` of a system after multiples of row `p` were subtracted from the other rows so that
column `p` vanishes there. -/
def clear (A : Fin n → Fin n → R) (p : Fin n) : Fin n → Fin n → R :=
  fun i j => if i = p then A p j else A i j - A i p * A p j

/-- The right-hand side after the same subtractions. -/
def clearRhs (A : Fin n → Fin n → R) (b : Fin n → R) (p : Fin n) : Fin n → R :=
  fun i => if i = p then b p else b i - A i p * b p

/-- What a cleared matrix gives. -/
theorem sum_clear (A : Fin n → Fin n → R) (p : Fin n) (x : Fin n → R) (i : Fin n) :
    ∑ j, clear A p i j * x j = if i = p then ∑ j, A p j * x j
      else ∑ j, A i j * x j - A i p * ∑ j, A p j * x j := by
  by_cases hi : i = p
  · simp only [clear, if_pos hi]
  · rw [if_neg hi, Finset.mul_sum, ← Finset.sum_sub_distrib]
    refine Finset.sum_congr rfl fun j _ => ?_
    simp only [clear, if_neg hi]
    ring

/-- Clearing a column does not change the solutions. -/
theorem solves_clear (p : Fin n) {A : Fin n → Fin n → R} {b x : Fin n → R} :
    Solves (clear A p) (clearRhs A b p) x ↔ Solves A b x := by
  constructor
  · intro h
    have hp : ∑ j, A p j * x j = b p := by
      have hrow := h p
      rwa [sum_clear, if_pos rfl, clearRhs, if_pos rfl] at hrow
    intro i
    by_cases hi : i = p
    · rw [hi, hp]
    · have hrow := h i
      rw [sum_clear, if_neg hi, clearRhs, if_neg hi, hp] at hrow
      exact sub_left_injective hrow
  · intro h i
    rw [sum_clear, clearRhs, h i, h p]

/-- The first `k` columns of `A` are those of the identity matrix. -/
def UnitColumns (A : Fin n → Fin n → R) (k : Nat) : Prop :=
  ∀ j : Fin n, j.val < k → ∀ i, A i j = if i = j then 1 else 0

/-- No column has to be a unit column at the start. -/
theorem UnitColumns.zero (A : Fin n → Fin n → R) : UnitColumns A 0 :=
  fun _ h => absurd h (Nat.not_lt_zero _)

/-- Swapping two rows that are not yet reduced keeps the reduced columns. -/
theorem UnitColumns.swap {A : Fin n → Fin n → R} {k : Nat} (h : UnitColumns A k)
    {p q : Fin n} (hp : k ≤ p.val) (hq : k ≤ q.val) :
    UnitColumns (fun i => A (Equiv.swap p q i)) k := by
  intro j hj i
  have hpj : p ≠ j := fun heq => by
    subst heq
    omega
  have hqj : q ≠ j := fun heq => by
    subst heq
    omega
  have hiff : Equiv.swap p q i = j ↔ i = j := by
    rw [Equiv.swap_apply_eq_iff, Equiv.swap_apply_of_ne_of_ne hpj.symm hqj.symm]
  show A (Equiv.swap p q i) j = _
  rw [h j hj]
  exact if_congr hiff rfl rfl

/-- Clearing the column of a pivot 1 makes one more unit column. -/
theorem UnitColumns.clear {A : Fin n → Fin n → R} {p : Fin n} (h : UnitColumns A p.val)
    (hpivot : A p p = 1) : UnitColumns (clear A p) (p.val + 1) := by
  intro j hj i
  by_cases hlast : j = p
  · subst hlast
    by_cases hi : i = j
    · simp [GaussJordan.clear, hi, hpivot]
    · simp [GaussJordan.clear, hi, hpivot]
  · have hlt : j.val < p.val := by
      have := Fin.val_ne_of_ne hlast
      omega
    have hpj : A p j = 0 := by
      rw [h j hlt, if_neg (Ne.symm hlast)]
    by_cases hi : i = p
    · simp [GaussJordan.clear, hi, hpj, Ne.symm hlast]
    · simp [GaussJordan.clear, hi, hpj, h j hlt]

/-- A completely reduced system is solved by its right-hand side and by nothing else. -/
theorem UnitColumns.solves_iff {A : Fin n → Fin n → R} (h : UnitColumns A n) {b x : Fin n → R} :
    Solves A b x ↔ x = b := by
  have hrow (i : Fin n) : ∑ j, A i j * x j = x i := by
    simp [h _ (Fin.is_lt _)]
  simp only [Solves, hrow, funext_iff]

/-- A vector that is 1 at the next column and on which the matrix gives that column, without its
entries in the rows already reduced. -/
theorem UnitColumns.exists_probe {A : Fin n → Fin n → R} {p : Fin n} (h : UnitColumns A p.val) :
    ∃ x : Fin n → R, x p = 1 ∧ ∀ i, ∑ j, A i j * x j = if i < p then 0 else A i p := by
  -- cancel column `p` against the unit columns before it
  let x : Fin n → R := fun j => if j = p then 1 else if j < p then -A j p else 0
  refine ⟨x, by simp [x], fun i => ?_⟩
  have hentry (j : Fin n) : A i j * x j =
      (if j = p then A i p else 0) + if j = i ∧ j < p then -A j p else 0 := by
    by_cases hj : j = p
    · subst hj
      simp [x]
    · by_cases hlt : j < p
      · have hunit := h j hlt i
        by_cases hij : j = i
        · subst hij
          simp [x, hj, hlt, hunit]
        · simp [x, hj, hlt, hunit, hij, Ne.symm hij]
      · simp [x, hj, hlt]
  simp only [hentry, Finset.sum_add_distrib, Finset.sum_ite_eq', Finset.mem_univ, if_true]
  by_cases hi : i < p
  · have hsum : (∑ j, if j = i ∧ j < p then -A j p else 0) = -A i p := by
      rw [Finset.sum_eq_single i]
      · simp [hi]
      · intro j _ hj
        simp [hj]
      · simp
    rw [hsum, add_neg_cancel, if_pos hi]
  · have hsum : (∑ j, if j = i ∧ j < p then -A j p else 0) = 0 := by
      refine Finset.sum_eq_zero fun j _ => if_neg ?_
      rintro ⟨rfl, hlt⟩
      exact hi hlt
    rw [hsum, add_zero, if_neg hi]

/-- Where the next column has no entry in a row not yet reduced, the matrix has a kernel vector
that is 1 there. -/
theorem UnitColumns.exists_kernel {A : Fin n → Fin n → R} {p : Fin n} (h : UnitColumns A p.val)
    (hnone : ∀ i, p ≤ i → A i p = 0) : ∃ x, Solves A 0 x ∧ x p = 1 := by
  obtain ⟨x, hone, hrows⟩ := h.exists_probe
  refine ⟨x, fun i => ?_, hone⟩
  rw [hrows i, Pi.zero_apply]
  split
  · rfl
  · exact hnone i (not_lt.mp ‹_›)

/-- On every vector that the first `k` equations of `A` annihilate, `A` gives the values of `G` in
some order. -/
def KeepsRows (A G : Fin n → Fin n → R) (k : Nat) : Prop :=
  ∀ x : Fin n → R, (∀ i : Fin n, i.val < k → ∑ j, A i j * x j = 0) →
    ∃ order : Equiv.Perm (Fin n), ∀ i, ∑ j, A i j * x j = ∑ j, G (order i) j * x j

/-- A matrix keeps its own rows. -/
theorem KeepsRows.refl (G : Fin n → Fin n → R) (k : Nat) : KeepsRows G G k :=
  fun _ _ => ⟨Equiv.refl _, fun _ => rfl⟩

/-- Swapping two rows that are not yet reduced keeps the rows. -/
theorem KeepsRows.swap {A G : Fin n → Fin n → R} {k : Nat} (h : KeepsRows A G k) {p q : Fin n}
    (hp : k ≤ p.val) (hq : k ≤ q.val) : KeepsRows (fun i => A (Equiv.swap p q i)) G k := by
  intro x hx
  obtain ⟨order, horder⟩ := h x fun i hi => by
    have hpi : i ≠ p := fun heq => by
      subst heq
      omega
    have hqi : i ≠ q := fun heq => by
      subst heq
      omega
    have hsame : ∑ j, A (Equiv.swap p q i) j * x j = 0 := hx i hi
    rwa [Equiv.swap_apply_of_ne_of_ne hpi hqi] at hsame
  exact ⟨(Equiv.swap p q).trans order, fun i => horder _⟩

section Field

variable {K : Type} [Field K]

/-- A matrix after row `p` was divided by its entry in column `p`. -/
def scale (A : Fin n → Fin n → K) (p : Fin n) : Fin n → Fin n → K :=
  fun i j => if i = p then A p j / A p p else A i j

/-- The right-hand side after the same division. -/
def scaleRhs (A : Fin n → Fin n → K) (b : Fin n → K) (p : Fin n) : Fin n → K :=
  fun i => if i = p then b p / A p p else b i

/-- What a scaled matrix gives. -/
theorem sum_scale (A : Fin n → Fin n → K) (p : Fin n) (x : Fin n → K) (i : Fin n) :
    ∑ j, scale A p i j * x j =
      if i = p then (∑ j, A p j * x j) / A p p else ∑ j, A i j * x j := by
  by_cases hi : i = p
  · simp only [scale, if_pos hi, Finset.sum_div]
    exact Finset.sum_congr rfl fun j _ => div_mul_eq_mul_div _ _ _
  · simp only [scale, if_neg hi]

/-- Dividing a row by a pivot does not change the solutions. -/
theorem solves_scale {A : Fin n → Fin n → K} {b x : Fin n → K} {p : Fin n} (hp : A p p ≠ 0) :
    Solves (scale A p) (scaleRhs A b p) x ↔ Solves A b x := by
  unfold Solves
  refine forall_congr' fun i => ?_
  rw [sum_scale]
  by_cases hi : i = p
  · subst hi
    rw [scaleRhs, if_pos rfl, if_pos rfl, div_left_inj' hp]
  · rw [scaleRhs, if_neg hi, if_neg hi]

/-- Dividing a later row by its pivot keeps the reduced columns. -/
theorem UnitColumns.scale {A : Fin n → Fin n → K} {p : Fin n} (h : UnitColumns A p.val) :
    UnitColumns (scale A p) p.val := by
  intro j hj i
  by_cases hi : i = p
  · have hpj : p ≠ j := fun heq => by
      subst heq
      omega
    rw [GaussJordan.scale, if_pos hi, h j hj, if_neg hpj, hi, if_neg hpj, zero_div]
  · rw [GaussJordan.scale, if_neg hi, h j hj]

/-- Dividing a row by its pivot and clearing the column reduces one more row and keeps the
others. -/
theorem KeepsRows.reduce {A G : Fin n → Fin n → K} {p : Fin n} (h : KeepsRows A G p.val)
    (hp : A p p ≠ 0) : KeepsRows (clear (scale A p) p) G (p.val + 1) := by
  intro x hx
  -- the pivot row gives 0, so subtracting its multiples changes nothing
  have hrow : ∑ j, A p j * x j = 0 := by
    have hzero := hx p (Nat.lt_succ_self _)
    rw [sum_clear, if_pos rfl, sum_scale, if_pos rfl] at hzero
    exact (div_eq_zero_iff.mp hzero).resolve_right hp
  have hsame (i : Fin n) : ∑ j, clear (scale A p) p i j * x j = ∑ j, A i j * x j := by
    rw [sum_clear, sum_scale, sum_scale, if_pos rfl, hrow, zero_div]
    by_cases hi : i = p
    · rw [if_pos hi, hi, hrow]
    · rw [if_neg hi, if_neg hi, mul_zero, sub_zero]
  obtain ⟨order, horder⟩ := h x fun i hi => by
    rw [← hsame]
    exact hx i (Nat.lt_succ_of_lt hi)
  exact ⟨order, fun i => (hsame i).trans (horder i)⟩

end Field

end Foundation.GaussJordan
