import Mathlib.Algebra.Order.Field.Basic
import Mathlib.Algebra.Order.Floor.Semiring
import Mathlib.Data.List.Sort
import Mathlib.Tactic.Linarith

/-!
# Order statistics

The elements of a sorted list at the ranks that fractions of its length give, its greatest element,
and the share of the elements that are above a bound.
-/

namespace Foundation.OrderStatistics

section Sorting

variable {α : Type} [LinearOrder α]

/-- Lists of the same elements are sorted into the same list. -/
theorem sort_eq_of_perm {xs ys : List α} (h : xs.Perm ys) :
    xs.mergeSort (· ≤ ·) = ys.mergeSort (· ≤ ·) := by
  have hperm : (xs.mergeSort (· ≤ ·)).Perm (ys.mergeSort (· ≤ ·)) :=
    (List.mergeSort_perm xs _).trans (h.trans (List.mergeSort_perm ys _).symm)
  exact hperm.eq_of_sortedLE List.sortedLE_mergeSort List.sortedLE_mergeSort

/-- The last element of a sorted list is the greatest. -/
theorem le_last {xs : List α} (h : xs.SortedLE) (hlast : xs.length - 1 < xs.length) {x : α}
    (hx : x ∈ xs) : x ≤ xs[xs.length - 1] := by
  obtain ⟨i, hi, rfl⟩ := List.mem_iff_getElem.mp hx
  exact h.getElem_le_getElem_of_le (Nat.le_sub_one_of_lt hi)

/-- No element is above a bound exactly when the greatest is not. -/
theorem count_above_eq_zero {xs : List α} {greatest bound : α} (hmem : greatest ∈ xs)
    (hgreatest : ∀ x ∈ xs, x ≤ greatest) :
    xs.countP (bound < ·) = 0 ↔ greatest ≤ bound := by
  rw [List.countP_eq_zero]
  constructor
  · intro h
    exact not_lt.mp fun hlt => h greatest hmem (decide_eq_true hlt)
  · intro h x hx habove
    exact absurd (of_decide_eq_true habove) (not_lt.mpr ((hgreatest x hx).trans h))

end Sorting

variable {K : Type} [Field K] [LinearOrder K] [IsStrictOrderedRing K]

section Ranks

variable [FloorSemiring K]

/-- The rank at a fraction of the way from the first of `n` elements to the last. -/
def rank (fraction : K) (n : Nat) : Nat := ⌊fraction * ((n - 1 : Nat) : K)⌋₊

/-- A rank is the index of an element. -/
theorem rank_lt {fraction : K} (h : fraction ≤ 1) {n : Nat} (hn : 0 < n) :
    rank fraction n < n := by
  have hle : fraction * ((n - 1 : Nat) : K) ≤ (n - 1 : Nat) :=
    mul_le_of_le_one_left (Nat.cast_nonneg _) h
  exact Nat.lt_of_le_pred hn (Nat.floor_le_of_le hle)

/-- A larger fraction has a later rank. -/
theorem rank_le_rank {p q : K} (h : p ≤ q) (n : Nat) : rank p n ≤ rank q n :=
  Nat.floor_mono (mul_le_mul_of_nonneg_right h (Nat.cast_nonneg _))

/-- The elements of a sorted list at the ranks of two fractions. -/
theorem at_rank_le {α : Type} [LinearOrder α] {xs : List α} (h : xs.SortedLE) {p q : K}
    (hpq : p ≤ q) (hp : rank p xs.length < xs.length) (hq : rank q xs.length < xs.length) :
    xs[rank p xs.length] ≤ xs[rank q xs.length] :=
  h.getElem_le_getElem_of_le (rank_le_rank hpq xs.length)

end Ranks

/-- One more element that is not counted lowers the share. -/
theorem share_succ_le (count : Nat) {n : Nat} (hn : 0 < n) :
    (count : K) / ((n + 1 : Nat) : K) ≤ (count : K) / (n : K) := by
  have hpos : (0 : K) < n := Nat.cast_pos.mpr hn
  have hle : (n : K) ≤ ((n + 1 : Nat) : K) := Nat.cast_le.mpr (Nat.le_succ n)
  exact div_le_div_of_nonneg_left (Nat.cast_nonneg count) hpos hle

/-- One more element that is counted raises the share. -/
theorem le_share_succ {count n : Nat} (hcount : count ≤ n) (hn : 0 < n) :
    (count : K) / (n : K) ≤ ((count + 1 : Nat) : K) / ((n + 1 : Nat) : K) := by
  have hpos : (0 : K) < n := Nat.cast_pos.mpr hn
  have hsucc : (0 : K) < ((n + 1 : Nat) : K) := Nat.cast_pos.mpr (Nat.succ_pos n)
  rw [div_le_div_iff₀ hpos hsucc]
  have hproduct : count * (n + 1) ≤ (count + 1) * n := by
    rw [Nat.mul_succ, Nat.succ_mul]
    omega
  exact_mod_cast hproduct

end Foundation.OrderStatistics
