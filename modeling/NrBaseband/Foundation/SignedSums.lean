import NrBaseband.Foundation.Extended
import Mathlib.Algebra.BigOperators.Group.Finset.Basic

/-!
# Sums of values on one side of zero

Extended numbers are added up in any order. Values that lean to one side, whatever their sizes,
have a sum that leans to it: `Gathered` says how many of them a sum has, and that a sum of none is
zero.
-/

namespace Foundation

namespace Extended

variable {R : Type} [Ring R]

instance : Zero (Extended R) := ⟨finite 0⟩

instance : Add (Extended R) := ⟨add⟩

/-- Extended numbers are added in any order. -/
instance : AddCommMonoid (Extended R) where
  add_assoc x y z := by
    show add (add x y) z = add x (add y z)
    cases x <;> cases y <;> cases z <;> simp [add, add_assoc]
  zero_add x := by
    show add (finite 0) x = x
    cases x <;> simp [add]
  add_zero x := by
    show add x (finite 0) = x
    cases x <;> simp [add]
  add_comm x y := by
    show add x y = add y x
    cases x <;> cases y <;> simp [add, add_comm]
  nsmul := nsmulRec

variable [LinearOrder R]

/-- A finite value on the side of zero that the sign `e` is on. -/
def Leans (e : R) (x : Extended R) : Prop := ∃ v, x = finite v ∧ 0 < e * v

/-- A sum of a number of values that lean to one side. -/
def Gathered (e : R) (count : Nat) (x : Extended R) : Prop :=
  count = 0 ∧ x = 0 ∨ 0 < count ∧ Leans e x

/-- Nothing is gathered in zero. -/
theorem gathered_zero (e : R) : Gathered e 0 (0 : Extended R) := .inl ⟨rfl, rfl⟩

variable [IsStrictOrderedRing R] {e : R}

/-- Two values on one side add up on it. -/
theorem Leans.add {x y : Extended R} (hx : Leans e x) (hy : Leans e y) : Leans e (x + y) := by
  obtain ⟨v, rfl, hv⟩ := hx
  obtain ⟨w, rfl, hw⟩ := hy
  refine ⟨v + w, rfl, ?_⟩
  rw [mul_add]
  exact add_pos hv hw

/-- Two sums add up to the sum of all their values. -/
theorem Gathered.add {count count' : Nat} {x y : Extended R} (hx : Gathered e count x)
    (hy : Gathered e count' y) : Gathered e (count + count') (x + y) := by
  rcases hx with ⟨rfl, rfl⟩ | ⟨hcount, hx⟩
  · rwa [Nat.zero_add, zero_add]
  · rcases hy with ⟨rfl, rfl⟩ | ⟨hcount', hy⟩
    · rw [Nat.add_zero, add_zero]
      exact .inr ⟨hcount, hx⟩
    · exact .inr ⟨Nat.add_pos_left hcount _, hx.add hy⟩

/-- A sum over a finite set gathers as many values as it has elements. -/
theorem gathered_sum {ι : Type} [DecidableEq ι] (s : Finset ι) {term : ι → Extended R}
    (h : ∀ i ∈ s, Leans e (term i)) : Gathered e s.card (∑ i ∈ s, term i) := by
  induction s using Finset.induction_on with
  | empty => exact gathered_zero e
  | insert i s hi ih =>
      rw [Finset.sum_insert hi, Finset.card_insert_of_notMem hi, Nat.add_comm]
      have hfirst : Gathered e 1 (term i) := .inr ⟨Nat.one_pos, h i (Finset.mem_insert_self i s)⟩
      exact hfirst.add (ih fun j hj => h j (Finset.mem_insert_of_mem hj))

end Extended

end Foundation
