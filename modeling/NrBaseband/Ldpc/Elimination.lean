import NrBaseband.Types
import NrBaseband.Foundation.GaussJordan
import Mathlib.Algebra.Field.ZMod
import Mathlib.Algebra.CharP.Two

/-!
# The elimination loop

The square system over GF(2) that the encoder solves, and the Gauss–Jordan loop over its columns
with pivoting. `eliminate_column_spec` is the step of the loop and `eliminate_spec` its result:
either the right-hand side of the final system is the one solution, or the coefficients have a
nonzero kernel vector and the loop ends in the error of a singular submatrix.
-/

namespace NrBaseband

open Foundation Foundation.GaussJordan

/-- The arrays `A` and `rhs` of the encoder. -/
structure LinearSystem (n : Nat) where
  A : Vector (Vector (ZMod 2) n) n
  rhs : Vector (ZMod 2) n

namespace LinearSystem

variable {n : Nat}

/-- The search for the variable `piv`: the first row from `col` on that has a 1 in the column. -/
def pivot (s : LinearSystem n) (col : Fin n) : Option (Fin n) :=
  (List.finRange n).find? fun r => col ≤ r ∧ s.A[r][col] ≠ 0

/-- Two equations swapped. -/
def swap (s : LinearSystem n) (i j : Fin n) : LinearSystem n :=
  { A := s.A.swap i j, rhs := s.rhs.swap i j }

/-- Equation `col` added to every other equation that has a 1 in the column; the entries before
the column stay. -/
def clear (s : LinearSystem n) (col : Fin n) : LinearSystem n where
  A := Vector.ofFn fun r =>
    if r = col ∨ s.A[r][col] = 0 then s.A[r]
    else Vector.ofFn fun c => if col ≤ c then s.A[r][c] + s.A[col][c] else s.A[r][c]
  rhs := Vector.ofFn fun r =>
    if r = col ∨ s.A[r][col] = 0 then s.rhs[r] else s.rhs[r] + s.rhs[col]

/-- The error of the loop. -/
def singular : Fault := .error "parity submatrix singular — check Zc/i_ls/BG"

/-- The body of the loop over the columns. -/
def eliminateColumn (s : LinearSystem n) (col : Fin n) : Checked (LinearSystem n) :=
  match s.pivot col with
  | none => .error singular
  | some piv => .ok ((if piv = col then s else s.swap col piv).clear col)

/-- The loop over the columns. -/
def eliminate (s : LinearSystem n) : Checked (LinearSystem n) :=
  (List.finRange n).foldlM eliminateColumn s

/-- The coefficients as a function. -/
def matrix (s : LinearSystem n) (i j : Fin n) : ZMod 2 := s.A[i][j]

/-- The right-hand side as a function. -/
def vector (s : LinearSystem n) (i : Fin n) : ZMod 2 := s.rhs[i]

/-- The systems have the same solutions, and so do their homogeneous systems. -/
def Equivalent (s t : LinearSystem n) : Prop :=
  ∀ x, (Solves s.matrix s.vector x ↔ Solves t.matrix t.vector x) ∧
    (Solves s.matrix 0 x ↔ Solves t.matrix 0 x)

/-- A system is equivalent to itself. -/
theorem Equivalent.refl (s : LinearSystem n) : s.Equivalent s := fun _ => ⟨Iff.rfl, Iff.rfl⟩

/-- Equivalences of systems compose. -/
theorem Equivalent.trans {s t u : LinearSystem n} (hst : s.Equivalent t) (htu : t.Equivalent u) :
    s.Equivalent u :=
  fun x => ⟨(hst x).1.trans (htu x).1, (hst x).2.trans (htu x).2⟩

/-- Swapping permutes the rows. -/
theorem matrix_swap (s : LinearSystem n) (i j : Fin n) :
    (s.swap i j).matrix = fun r => s.matrix (Equiv.swap i j r) := by
  funext r c
  simp only [matrix, swap, Fin.getElem_fin, Vector.getElem_swap, Equiv.swap_apply_def, Fin.ext_iff]
  split_ifs <;> rfl

/-- Swapping permutes the right-hand side. -/
theorem vector_swap (s : LinearSystem n) (i j : Fin n) :
    (s.swap i j).vector = fun r => s.vector (Equiv.swap i j r) := by
  funext r
  simp only [vector, swap, Fin.getElem_fin, Vector.getElem_swap, Equiv.swap_apply_def, Fin.ext_iff]
  split_ifs <;> rfl

/-- Swapping two equations gives an equivalent system. -/
theorem swap_equivalent (s : LinearSystem n) (i j : Fin n) : (s.swap i j).Equivalent s := by
  intro x
  rw [matrix_swap, vector_swap]
  exact ⟨solves_permute (Equiv.swap i j), solves_permute (Equiv.swap i j) (b := 0)⟩

/-- The coefficients after clearing. -/
theorem matrix_clear_apply (s : LinearSystem n) (col r c : Fin n) : (s.clear col).matrix r c =
    if (r = col ∨ s.matrix r col = 0) ∨ c < col then s.matrix r c
    else s.matrix r c + s.matrix col c := by
  by_cases hkept : r = col ∨ s.matrix r col = 0
  · have hcell : r = col ∨ s.A[r.val][col.val] = 0 := hkept
    simp [matrix, clear, hcell]
  · have hcell : ¬(r = col ∨ s.A[r.val][col.val] = 0) := hkept
    by_cases hle : col ≤ c
    · simp [matrix, clear, hcell, hle, not_lt.mpr hle]
    · simp [matrix, clear, hcell, hle, not_le.mp hle]

/-- The right-hand side after clearing. -/
theorem vector_clear_apply (s : LinearSystem n) (col r : Fin n) : (s.clear col).vector r =
    if r = col ∨ s.matrix r col = 0 then s.vector r else s.vector r + s.vector col := by
  by_cases hkept : r = col ∨ s.matrix r col = 0
  · have hcell : r = col ∨ s.A[r.val][col.val] = 0 := hkept
    simp [vector, matrix, clear, hcell]
  · have hcell : ¬(r = col ∨ s.A[r.val][col.val] = 0) := hkept
    simp [vector, matrix, clear, hcell]

/-- In GF(2) a nonzero entry is 1. -/
theorem eq_one_of_ne_zero {x : ZMod 2} (h : x ≠ 0) : x = 1 := Fin.eq_one_of_ne_zero x h

/-- Where the columns before `col` are reduced, skipping their entries changes nothing. -/
theorem matrix_clear {s : LinearSystem n} {col : Fin n} (h : UnitColumns s.matrix col) :
    (s.clear col).matrix = GaussJordan.clear s.matrix col := by
  funext r c
  have hskip (hc : ¬col ≤ c) : s.matrix col c = 0 := by
    rw [h c (by omega), if_neg fun heq : col = c => hc (heq ▸ le_refl col)]
  by_cases hr : r = col
  · subst hr
    simp [matrix, clear, GaussJordan.clear]
  · by_cases hzero : s.matrix r col = 0
    · have hcell : s.A[r.val][col.val] = 0 := hzero
      simp [matrix, clear, GaussJordan.clear, hr, hcell]
    · have hone : s.A[r.val][col.val] = 1 := eq_one_of_ne_zero hzero
      by_cases hc : col ≤ c
      · simp [matrix, clear, GaussJordan.clear, hr, hone, hc, CharTwo.sub_eq_add]
      · have hcell : s.A[col.val][c.val] = 0 := hskip hc
        simp [matrix, clear, GaussJordan.clear, hr, hone, hc, hcell]

/-- Clearing subtracts the same multiples on the right-hand side. -/
theorem vector_clear (s : LinearSystem n) (col : Fin n) :
    (s.clear col).vector = clearRhs s.matrix s.vector col := by
  funext r
  by_cases hr : r = col
  · subst hr
    simp [vector, clear, clearRhs]
  · by_cases hzero : s.matrix r col = 0
    · have hcell : s.A[r.val][col.val] = 0 := hzero
      simp [vector, matrix, clear, clearRhs, hr, hcell]
    · have hone : s.A[r.val][col.val] = 1 := eq_one_of_ne_zero hzero
      simp [vector, matrix, clear, clearRhs, hr, hone, CharTwo.sub_eq_add]

/-- Clearing a column gives an equivalent system. -/
theorem clear_equivalent {s : LinearSystem n} {col : Fin n} (h : UnitColumns s.matrix col) :
    (s.clear col).Equivalent s := by
  intro x
  have hzero : clearRhs s.matrix 0 col = 0 := by
    funext i
    simp [clearRhs]
  have hhomogeneous := solves_clear col (A := s.matrix) (b := 0) (x := x)
  rw [hzero] at hhomogeneous
  rw [matrix_clear h, vector_clear]
  exact ⟨solves_clear col, hhomogeneous⟩

/-- The pivot row is not yet reduced and has a 1 in the column. -/
theorem pivot_some {s : LinearSystem n} {col piv : Fin n} (h : s.pivot col = some piv) :
    col ≤ piv ∧ s.matrix piv col = 1 := by
  have hfound := List.find?_some h
  simp only [decide_eq_true_eq] at hfound
  exact ⟨hfound.1, eq_one_of_ne_zero hfound.2⟩

/-- The pivot row is the first one. -/
theorem pivot_first {s : LinearSystem n} {col piv : Fin n} (h : s.pivot col = some piv) :
    ∀ r, col ≤ r → r < piv → s.matrix r col = 0 := by
  intro r hle hlt
  obtain ⟨_, i, hi, hpiv, hbefore⟩ := List.find?_eq_some_iff_getElem.mp h
  have hindex : piv.val = i := by rw [← hpiv, List.getElem_finRange]; rfl
  have hrow := hbefore r.val (by omega)
  rw [List.getElem_finRange] at hrow
  simp only [Bool.not_eq_true', decide_eq_false_iff_not, not_and, not_not] at hrow
  exact hrow hle

/-- Without a pivot the column is zero from its row on. -/
theorem pivot_none {s : LinearSystem n} {col : Fin n} (h : s.pivot col = none) :
    ∀ r, col ≤ r → s.matrix r col = 0 := by
  intro r hr
  have hrow := List.find?_eq_none.mp h r (List.mem_finRange r)
  simp only [decide_eq_true_eq, not_and, not_not] at hrow
  exact hrow hr

/-- One step of the loop: either the next column is reduced and the solutions are the same, or
there is no pivot and the system has a nonzero kernel vector. -/
theorem eliminate_column_spec {s : LinearSystem n} (col : Fin n)
    (h : UnitColumns s.matrix col) :
    (∃ t, s.eliminateColumn col = .ok t ∧ UnitColumns t.matrix (col + 1) ∧ t.Equivalent s) ∨
    (s.eliminateColumn col = .error singular ∧ ∃ x, Solves s.matrix 0 x ∧ x ≠ 0) := by
  unfold eliminateColumn
  cases hpiv : s.pivot col with
  | none =>
      obtain ⟨x, hx, hone⟩ := h.exists_kernel (pivot_none hpiv)
      refine .inr ⟨rfl, x, hx, fun hzero => ?_⟩
      rw [hzero] at hone
      exact zero_ne_one hone
  | some piv =>
      obtain ⟨hle, hone⟩ := pivot_some hpiv
      refine .inl ⟨_, rfl, ?_⟩
      have hswapped : UnitColumns (if piv = col then s else s.swap col piv).matrix col ∧
          (if piv = col then s else s.swap col piv).matrix col col = 1 ∧
          (if piv = col then s else s.swap col piv).Equivalent s := by
        split
        case isTrue heq => exact ⟨h, heq ▸ hone, .refl s⟩
        case isFalse =>
          refine ⟨?_, ?_, swap_equivalent s col piv⟩
          · rw [matrix_swap]
            exact h.swap (Nat.le_refl _) hle
          · rw [matrix_swap]
            show s.matrix (Equiv.swap col piv col) col = 1
            rw [Equiv.swap_apply_left, hone]
      obtain ⟨hunit, hpivot, hequivalent⟩ := hswapped
      refine ⟨?_, (clear_equivalent hunit).trans hequivalent⟩
      rw [matrix_clear hunit]
      exact hunit.clear hpivot

/-- The rest of the loop, from a column before which everything is reduced. -/
theorem eliminate_from {s : LinearSystem n} {col : Nat} (hcol : col ≤ n)
    (h : UnitColumns s.matrix col) :
    (∃ t, ((List.finRange n).drop col).foldlM eliminateColumn s = .ok t ∧
      UnitColumns t.matrix n ∧ t.Equivalent s) ∨
    (((List.finRange n).drop col).foldlM eliminateColumn s = .error singular ∧
      ∃ x, Solves s.matrix 0 x ∧ x ≠ 0) := by
  induction hrest : n - col generalizing s col with
  | zero =>
      have hend : col = n := by omega
      subst hend
      rw [List.drop_of_length_le (by simp)]
      exact .inl ⟨s, rfl, h, .refl s⟩
  | succ rest ih =>
      have hlt : col < n := by omega
      have hcons : (List.finRange n).drop col = ⟨col, hlt⟩ :: (List.finRange n).drop (col + 1) := by
        rw [List.drop_eq_getElem_cons (by simpa using hlt)]
        simp
      rw [hcons, List.foldlM_cons]
      rcases eliminate_column_spec ⟨col, hlt⟩ h with
        ⟨t, hstep, hunit, hequivalent⟩ | ⟨hstep, hkernel⟩
      · rw [hstep, Checked.ok_bind]
        rcases ih hlt hunit (Nat.sub_eq_of_eq_add (by omega)) with
          ⟨final, hrun, hfinal, hfinalEquivalent⟩ | ⟨hrun, x, hx, hne⟩
        · exact .inl ⟨final, hrun, hfinal, hfinalEquivalent.trans hequivalent⟩
        · exact .inr ⟨hrun, x, (hequivalent x).2.mp hx, hne⟩
      · rw [hstep, Checked.error_bind]
        exact .inr ⟨rfl, hkernel⟩

/-- The whole loop either returns a system whose right-hand side is the one solution of the given
one, which has no kernel, or fails on a system with a nonzero kernel vector. -/
theorem eliminate_spec (s : LinearSystem n) :
    (∃ t, s.eliminate = .ok t ∧ (∀ x, Solves s.matrix s.vector x ↔ x = t.vector) ∧
      ∀ x, Solves s.matrix 0 x → x = 0) ∨
    (s.eliminate = .error singular ∧ ∃ x, Solves s.matrix 0 x ∧ x ≠ 0) := by
  rcases eliminate_from (Nat.zero_le n) (UnitColumns.zero s.matrix) with
    ⟨t, hrun, hunit, hequivalent⟩ | hfail
  · exact .inl ⟨t, hrun, fun x => (hequivalent x).1.symm.trans hunit.solves_iff,
      fun x hx => hunit.solves_iff.mp ((hequivalent x).2.mpr hx)⟩
  · exact .inr hfail

end LinearSystem

end NrBaseband
