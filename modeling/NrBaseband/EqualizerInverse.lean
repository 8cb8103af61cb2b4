import NrBaseband.EqualizerMatrices

/-!
# The matrix inversion of the equalizer

`mat_inv` runs Gauss–Jordan elimination with partial pivoting on the augmented matrix.
`mat_inv_column_spec` is one column step, entry by entry. `Reduced` is the invariant of the loop,
and `mat_inv_spec` its result: the inverse, or a vector with an entry 1 on which the matrix is at
most the pivot threshold everywhere.
-/

namespace NrBaseband

open Foundation Foundation.RowMajor Foundation.GaussJordan

/-! ## One column -/

section

variable {K : Type} {n : Nat}

/-- The augmented matrix starts with the matrix and the identity. -/
theorem mat_inv_start_spec [Zero K] [One K] {A : List K} {a : Nat → Nat → K} (hA : Reads n n A a) :
    ∃ aug, matInvStart A n = .ok aug ∧ Represents n (2 * n) aug fun i c =>
      if c < n then a i c else if c = n + i then 1 else 0 := by
  refine (Represents.replicate n (2 * n) (0 : K)).each_row
    (fun i c => if c < n then a i c else if c = n + i then 1 else 0) _
    fun i hi aug entry haug hzero _ => ?_
  have hcount : 0 + n ≤ 2 * n := by omega
  obtain ⟨copied, hcopy, hcopied⟩ := haug.update_row hi hcount (a i)
    (fun aug j => do
      let a ← Checked.read A (i * n + j)
      Checked.write aug (i * (2 * n) + j) a)
    fun c _ hc aug' _ _ _ => by
      rw [hA i hi c (by omega), Checked.ok_bind]
  rw [← List.range_eq_range'] at hcopy
  obtain ⟨next, hwrite, hrep⟩ := hcopied.write hi (by omega : n + i < 2 * n) 1
  refine ⟨next, by rw [hcopy, Checked.ok_bind, hwrite], hrep.congr fun r _ c _ => ?_⟩
  by_cases hr : r = i
  · subst hr
    rw [if_pos rfl]
    by_cases hc : c < n
    · rw [if_neg (by omega), if_pos (by omega), if_pos hc]
    · by_cases hone : c = n + r
      · rw [if_pos ⟨rfl, hone⟩, if_neg hc, if_pos hone]
      · rw [if_neg fun h => hone h.2, if_neg (by omega), if_neg hc, if_neg hone,
          hzero r c (Nat.le_refl r)]
  · rw [if_neg fun h => hr h.1, if_neg fun h => hr h.1, if_neg hr]

/-- The error of the inversion. -/
def singularMatrix : Fault := .error "singular matrix in equalizer"

section

variable (entry : Nat → Nat → K) (col : Nat)

/-- The entries after two rows were swapped. -/
def swapRows (piv r c : Nat) : K := entry (Equiv.swap col piv r) c

/-- The entries after the pivot row was divided by the pivot. -/
def scalePivot [Div K] (r c : Nat) : K := if r = col then entry col c / entry col col else entry r c

/-- The entries after multiples of the pivot row were subtracted from the other rows. -/
def clearColumn [Sub K] [Mul K] (r c : Nat) : K :=
  if r = col then entry col c else entry r c - entry r col * entry col c

end

/-- The swap exchanges two rows, also where they are the same. -/
theorem mat_inv_swap_spec {aug : List K} {col piv : Nat} {entry : Nat → Nat → K}
    (haug : Represents n (2 * n) aug entry) (hcol : col < n) (hpiv : piv < n) :
    ∃ swapped, matInvSwap aug n col piv = .ok swapped ∧
      Represents n (2 * n) swapped (swapRows entry col piv) := by
  unfold matInvSwap
  by_cases heq : piv = col
  · rw [if_neg (not_not.mpr heq)]
    refine ⟨aug, rfl, haug.congr fun r _ c _ => ?_⟩
    rw [swapRows, heq, Equiv.swap_self, Equiv.refl_apply]
  · rw [if_pos heq]
    exact haug.exchange_rows hcol hpiv

/-- The division scales the pivot row. -/
theorem mat_inv_scale_spec [Div K] {aug : List K} {col : Nat} {entry : Nat → Nat → K}
    (haug : Represents n (2 * n) aug entry) (hcol : col < n) :
    ∃ scaled, matInvScale aug n col = .ok scaled ∧
      Represents n (2 * n) scaled (scalePivot entry col) := by
  rw [matInvScale, haug.read_eq col hcol col (by omega), Checked.ok_bind]
  refine haug.update_whole_row hcol (fun c => entry col c / entry col col) _
    fun c hc cells' entry' hcells' hsame => ?_
  rw [hcells'.modify_eq hcol hc, hsame col c (.inr (Nat.le_refl c))]

/-- The row loop of a column step subtracts multiples of row `col` from the others. -/
theorem mat_inv_subtract_spec [Sub K] [Mul K] {aug : List K} {col : Nat} {entry : Nat → Nat → K}
    (haug : Represents n (2 * n) aug entry) (hcol : col < n) :
    ∃ final, matInvSubtract aug n col = .ok final ∧
      Represents n (2 * n) final (clearColumn entry col) := by
  refine haug.each_row (clearColumn entry col) _ fun r hr cells entry' hcells hlater hbefore => ?_
  by_cases heq : r = col
  · rw [if_pos heq]
    refine ⟨cells, rfl, hcells.congr fun r' _ c _ => ?_⟩
    by_cases hr' : r' = r
    · rw [if_pos hr', hr', hlater r c (Nat.le_refl r), clearColumn, if_pos heq, heq]
    · rw [if_neg hr']
  · -- row `r` and row `col` are still as they were
    have hpivot (c : Nat) : entry' col c = entry col c := by
      by_cases hle : r ≤ col
      · exact hlater col c hle
      · rw [hbefore col c (by omega), clearColumn, if_pos rfl]
    have hfactor := hcells.read_eq r hr col (by omega : col < 2 * n)
    rw [hlater r col (Nat.le_refl r)] at hfactor
    rw [if_neg heq, hfactor, Checked.ok_bind]
    refine hcells.update_whole_row hr (clearColumn entry col r) _
      fun c hc cells' entry'' hcells' hsame => ?_
    rw [hcells'.read_eq col hcol c hc, Checked.ok_bind, hcells'.modify_eq hr hc,
      hsame col c (.inl (Ne.symm heq)), hpivot c, hsame r c (.inr (Nat.le_refl c)),
      hlater r c (Nat.le_refl r), clearColumn, if_neg heq]

end

variable {R K : Type} [Field R] [LinearOrder R] [Field K] [StarRing K] (num : ExactComplex R K)
  {n : Nat}

/-- The search finds the first row from `col` on with the greatest absolute value in the column. -/
theorem mat_inv_pivot_spec {aug : List K} {col : Nat} {entry : Nat → Nat → K}
    (haug : Represents n (2 * n) aug entry) (hcol : col < n) :
    ∃ piv, matInvPivot num.toComplexOps aug n col = .ok (piv, num.abs (entry piv col)) ∧
      col ≤ piv ∧ piv < n ∧
      ∀ r, col ≤ r → r < n → num.abs (entry r col) ≤ num.abs (entry piv col) := by
  have hwidth : col < 2 * n := by omega
  rw [matInvPivot, haug.read_eq col hcol col hwidth, Checked.ok_bind]
  have hloop := counted_loop
    (fun k (found : Nat × R) => found.2 = num.abs (entry found.1 col) ∧ col ≤ found.1 ∧
      found.1 < n ∧ ∀ r, col ≤ r → r < k → num.abs (entry r col) ≤ found.2)
    (fun found r => do
      let z ← Checked.read aug (r * (2 * n) + col)
      let v := num.abs z
      return if v > found.2 then (r, v) else found) (col + 1) (n - (col + 1)) ?_
    (a := (col, num.abs (entry col col))) ⟨rfl, Nat.le_refl _, hcol, fun r hle hlt => ?_⟩
  · obtain ⟨⟨piv, best⟩, hrun, hbest, hle, hlt, hmax⟩ := hloop
    dsimp only at hbest hle hlt hmax
    subst hbest
    exact ⟨piv, hrun, hle, hlt, fun r hr hrn => hmax r hr (by omega)⟩
  · rintro k ⟨piv, best⟩ hle hk ⟨hbest, hpiv, hlt, hmax⟩
    have hk' : k < n := by omega
    refine ⟨_, by rw [haug.read_eq k hk' col hwidth, Checked.ok_bind]; rfl, ?_⟩
    by_cases hgreater : num.abs (entry k col) > best
    · rw [if_pos hgreater]
      refine ⟨rfl, by omega, hk', fun r hr hrk => ?_⟩
      by_cases hlast : r = k
      · rw [hlast]
      · exact (hmax r hr (by omega)).trans (le_of_lt hgreater)
    · rw [if_neg hgreater]
      refine ⟨hbest, hpiv, hlt, fun r hr hrk => ?_⟩
      by_cases hlast : r = k
      · rw [hlast]
        exact not_lt.mp hgreater
      · exact hmax r hr (by omega)
  · have heq : r = col := by omega
    rw [heq]

/-- A column step swaps the row of the greatest entry up, scales it and clears the column, or it
finds no entry above the threshold. -/
theorem mat_inv_column_spec {aug : List K} {col : Nat} {entry : Nat → Nat → K}
    (haug : Represents n (2 * n) aug entry) (hcol : col < n) :
    (∃ piv next, matInvColumn num.toComplexOps n aug col = .ok next ∧ col ≤ piv ∧ piv < n ∧
      1e-14 < num.abs (entry piv col) ∧
      Represents n (2 * n) next (clearColumn (scalePivot (swapRows entry col piv) col) col)) ∨
    (matInvColumn num.toComplexOps n aug col = .error singularMatrix ∧
      ∀ r, col ≤ r → r < n → num.abs (entry r col) ≤ 1e-14) := by
  obtain ⟨piv, hpivot, hle, hlt, hmax⟩ := mat_inv_pivot_spec num haug hcol
  rw [matInvColumn, hpivot, Checked.ok_bind]
  by_cases hbest : num.abs (entry piv col) > 1e-14
  · obtain ⟨swapped, hswap, hswapped⟩ := mat_inv_swap_spec haug hcol hlt
    obtain ⟨scaled, hscale, hscaled⟩ := mat_inv_scale_spec hswapped hcol
    obtain ⟨next, hsubtract, hnext⟩ := mat_inv_subtract_spec hscaled hcol
    refine .inl ⟨piv, next, ?_, hle, hlt, hbest, hnext⟩
    rw [require_of hbest, Checked.ok_bind, hswap, Checked.ok_bind, hscale, Checked.ok_bind,
      hsubtract]
  · rw [require_of_not hbest]
    exact .inr ⟨rfl, fun r hr hrn => (hmax r hr hrn).trans (not_lt.mp hbest)⟩

/-! ## The loop -/

/-- The square part of the entries. -/
def square (n : Nat) (entry : Nat → Nat → K) (i j : Fin n) : K := entry i j

/-- Column `c` of the part on the right. -/
def right (n : Nat) (entry : Nat → Nat → K) (c i : Fin n) : K := entry i (n + c)

/-- Column `c` of the identity. -/
def basis (c i : Fin n) : K := if i = c then 1 else 0

/-- The invariant of the loop after `k` columns: they are reduced, the equations for each column of
the inverse have the same solutions as at the start, and the rows not yet reduced are kept. -/
structure Reduced (n : Nat) (g entry : Nat → Nat → K) (k : Nat) : Prop where
  unit : UnitColumns (square n entry) k
  solves : ∀ c x, Solves (square n entry) (right n entry c) x ↔ Solves (square n g) (basis c) x
  keeps : KeepsRows (square n entry) (square n g) k

omit [StarRing K] in
/-- The invariant holds at the start. -/
theorem Reduced.start (g : Nat → Nat → K) :
    Reduced n g (fun i c => if c < n then g i c else if c = n + i then 1 else 0) 0 := by
  have hsquare : square n (fun i c => if c < n then g i c else if c = n + i then 1 else 0) =
      square n g := by
    funext i j
    exact if_pos j.is_lt
  have hright (c : Fin n) :
      right n (fun i c => if c < n then g i c else if c = n + i then 1 else 0) c = basis c := by
    funext i
    have hbeyond : ¬n + c.val < n := by omega
    have hiff : n + c.val = n + i.val ↔ i = c := by
      rw [Fin.ext_iff]
      omega
    simp only [right, basis, if_neg hbeyond, hiff]
  exact {
    unit := UnitColumns.zero _
    solves := fun c x => by rw [hsquare, hright]
    keeps := by rw [hsquare]; exact .refl _ 0 }

omit [StarRing K] in
/-- A column step keeps the invariant. -/
theorem Reduced.step {g entry : Nat → Nat → K} {col piv : Nat} (h : Reduced n g entry col)
    (hcol : col < n) (hle : col ≤ piv) (hpiv : piv < n) (hne : entry piv col ≠ 0) :
    Reduced n g (clearColumn (scalePivot (swapRows entry col piv) col) col) (col + 1) := by
  let p : Fin n := ⟨col, hcol⟩
  let q : Fin n := ⟨piv, hpiv⟩
  have hindex (i : Fin n) : (Equiv.swap p q i).val = Equiv.swap col piv i.val := by
    simp only [Equiv.swap_apply_def, Fin.ext_iff, p, q]
    split_ifs <;> rfl
  have hrow (i : Fin n) : i.val = col ↔ i = p := by
    rw [Fin.ext_iff]
  -- the three changes of the entries are the rules of the elimination
  have hswap : square n (swapRows entry col piv) = fun i => square n entry (Equiv.swap p q i) := by
    funext i j
    rw [square, square, swapRows, hindex]
  have hswapRight (c : Fin n) :
      right n (swapRows entry col piv) c = fun i => right n entry c (Equiv.swap p q i) := by
    funext i
    rw [right, right, swapRows, hindex]
  have hscale (e : Nat → Nat → K) : square n (scalePivot e col) = scale (square n e) p := by
    funext i j
    simp only [square, scalePivot, scale, hrow]
    rfl
  have hscaleRight (e : Nat → Nat → K) (c : Fin n) :
      right n (scalePivot e col) c = scaleRhs (square n e) (right n e c) p := by
    funext i
    simp only [right, square, scalePivot, scaleRhs, hrow]
    rfl
  have hclear (e : Nat → Nat → K) : square n (clearColumn e col) = clear (square n e) p := by
    funext i j
    simp only [square, clearColumn, clear, hrow]
    rfl
  have hclearRight (e : Nat → Nat → K) (c : Fin n) :
      right n (clearColumn e col) c = clearRhs (square n e) (right n e c) p := by
    funext i
    simp only [right, square, clearColumn, clearRhs, hrow]
    rfl
  have hpivot : square n (swapRows entry col piv) p p ≠ 0 := by
    rw [hswap]
    show entry (Equiv.swap p q p).val col ≠ 0
    rwa [Equiv.swap_apply_left]
  have hunit : UnitColumns (square n (swapRows entry col piv)) p.val := by
    rw [hswap]
    exact h.unit.swap (Nat.le_refl col) hle
  have hkeeps : KeepsRows (square n (swapRows entry col piv)) (square n g) p.val := by
    rw [hswap]
    exact h.keeps.swap (Nat.le_refl col) hle
  constructor
  · rw [hclear, hscale]
    refine hunit.scale.clear ?_
    rw [scale, if_pos rfl, div_self hpivot]
  · intro c x
    rw [hclear, hclearRight, hscale, hscaleRight, solves_clear, solves_scale hpivot, hswap,
      hswapRight, solves_permute, h.solves]
  · rw [hclear, hscale]
    exact hkeeps.reduce hpivot

/-- The matrix has a vector with an entry 1 on which it is nowhere above the pivot threshold. -/
def NearlySingular (n : Nat) (g : Nat → Nat → K) : Prop :=
  ∃ (x : Fin n → K) (p : Fin n), x p = 1 ∧ ∀ i, num.abs (∑ j, square n g i j * x j) ≤ 1e-14

/-- A column without a pivot shows that the matrix is nearly singular. -/
theorem Reduced.nearly_singular [IsStrictOrderedRing R] {g entry : Nat → Nat → K} {col : Nat}
    (h : Reduced n g entry col) (hcol : col < n)
    (hsmall : ∀ r, col ≤ r → r < n → num.abs (entry r col) ≤ 1e-14) : NearlySingular num n g := by
  let p : Fin n := ⟨col, hcol⟩
  obtain ⟨x, hone, hrows⟩ := UnitColumns.exists_probe (p := p) h.unit
  obtain ⟨order, horder⟩ := h.keeps x fun i hi => by
    have hlt : i < p := hi
    rw [hrows, if_pos hlt]
  refine ⟨x, p, hone, fun i => ?_⟩
  have hvalue := horder (order.symm i)
  rw [Equiv.apply_symm_apply, hrows] at hvalue
  rw [← hvalue]
  split
  · rw [num.abs_zero]
    norm_num
  · exact hsmall _ (not_lt.mp ‹_›) (order.symm i).is_lt

omit [StarRing K] in
/-- A completely reduced matrix leaves the inverse on the right. -/
theorem Reduced.inverse {g entry : Nat → Nat → K} (h : Reduced n g entry n) (i c : Fin n) :
    ∑ j : Fin n, square n g i j * entry j (n + c) = if i = c then 1 else 0 := by
  have hsolution : Solves (square n entry) (right n entry c) (right n entry c) :=
    h.unit.solves_iff.mpr rfl
  exact (h.solves c _).mp hsolution i

/-- `mat_inv` computes the inverse, or the matrix is nearly singular. -/
theorem mat_inv_spec [IsStrictOrderedRing R] {A : List K} {g : Nat → Nat → K}
    (hA : Reads n n A g) :
    (∃ inv v, matInv num.toComplexOps A n = .ok inv ∧ Represents n n inv v ∧
      ∀ i c : Fin n, ∑ j : Fin n, square n g i j * v j c = if i = c then 1 else 0) ∨
    (matInv num.toComplexOps A n = .error singularMatrix ∧ NearlySingular num n g) := by
  obtain ⟨start, hstart, hrep⟩ := mat_inv_start_spec hA
  rw [matInv, hstart, Checked.ok_bind, List.range_eq_range']
  have hloop := counted_loop_or
    (fun k aug => ∃ entry, Represents n (2 * n) aug entry ∧ Reduced n g entry k)
    (matInvColumn num.toComplexOps n) singularMatrix (NearlySingular num n g) 0 n ?_
    ⟨_, hrep, .start g⟩
  · rcases hloop with ⟨aug, hrun, entry, haug, hreduced⟩ | ⟨hrun, hsingular⟩
    · left
      rw [Nat.zero_add] at hreduced
      obtain ⟨inv, hfill, hinv⟩ := (Represents.replicate n n (0 : K)).fill_with
        (fun i j => entry i (n + j)) (fun i inv j => do
          let a ← Checked.read aug (i * (2 * n) + (n + j))
          Checked.write inv (i * n + j) a)
        fun i hi j hj inv => by
          rw [haug.read_eq i hi (n + j) (by omega), Checked.ok_bind]
      rw [List.range_eq_range'] at hfill
      rw [hrun, Checked.ok_bind]
      exact ⟨inv, _, hfill, hinv, hreduced.inverse⟩
    · rw [hrun]
      exact .inr ⟨rfl, hsingular⟩
  · rintro col aug _ hcol ⟨entry, haug, hreduced⟩
    have hcol' : col < n := by omega
    rcases mat_inv_column_spec num haug hcol' with
      ⟨piv, next, hrun, hle, hpiv, hbest, hnext⟩ | ⟨hrun, hsmall⟩
    · refine .inl ⟨next, hrun, _, hnext, hreduced.step hcol' hle hpiv fun hzero => ?_⟩
      rw [hzero, num.abs_zero] at hbest
      exact absurd hbest (not_lt.mpr (by norm_num))
    · exact .inr ⟨hrun, hreduced.nearly_singular num hcol' hsmall⟩

end NrBaseband
