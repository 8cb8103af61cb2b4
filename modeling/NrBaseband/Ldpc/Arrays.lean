import NrBaseband.Ldpc.Encode
import NrBaseband.Foundation.Table

/-!
# The encoder on its arrays

`encode_ge` at the level of its vectors: every row and column is reached through a computed index
into one vector of cells, and an access outside a vector is undefined. `encode_arrays_eq` says
that this program is `encodeGe`, whose system is indexed by rows and columns, and
`encode_in_bounds_iff` which parameters keep every access inside.
-/

namespace NrBaseband

open Foundation Foundation.MachineInt Foundation.TannerGraph

/-- The vectors `A` and `rhs` of `encode_ge`. -/
structure ArraySystem where
  A : List (ZMod 2)
  rhs : List (ZMod 2)

namespace ArraySystem

/-- The loop over `piv`. -/
def searchPivot (M : Nat) (A : List (ZMod 2)) (col piv : Nat) : Checked Nat :=
  if piv < M then do
    let a ← Checked.read A (piv * M + col)
    if a = 0 then searchPivot M A col (piv + 1) else return piv
  else return piv
termination_by M - piv

/-- The swap of the rows `col` and `piv`. -/
def swapRows (M : Nat) (s : ArraySystem) (col piv : Nat) : Checked ArraySystem := do
  let A ← (List.range M).foldlM
    (fun A c => Checked.exchange A (col * M + c) (piv * M + c)) s.A
  let rhs ← Checked.exchange s.rhs col piv
  return { A, rhs }

/-- The body of the loop over `r`. -/
def clearRow (M col : Nat) (s : ArraySystem) (r : Nat) : Checked ArraySystem :=
  if r = col then return s
  else do
    let a ← Checked.read s.A (r * M + col)
    if a = 0 then return s
    else
      let A ← (List.range' col (M - col)).foldlM (fun A c => do
        let x ← Checked.read A (col * M + c)
        Checked.modify A (r * M + c) (· + x)) s.A
      let x ← Checked.read s.rhs col
      let rhs ← Checked.modify s.rhs r (· + x)
      return { A, rhs }

/-- The body of the loop over `col`. -/
def eliminateColumn (M : Nat) (s : ArraySystem) (col : Nat) : Checked ArraySystem := do
  let piv ← searchPivot M s.A col col
  require (piv < M) "parity submatrix singular — check Zc/i_ls/BG"
  let s ← if piv ≠ col then swapRows M s col piv else .ok s
  (List.range M).foldlM (clearRow M col) s

end ArraySystem

/-- The first loop of `encode_ge`. -/
def Graph.fillRhs (g : Graph) (H : List (ZMod 2)) (infoFull : Bits) : Checked (List (ZMod 2)) :=
  (List.range g.mOf).foldlM (fun rhs r => do
    let s ← g.infoSyndrome H infoFull r
    Checked.write rhs r s) (List.replicate g.mOf 0)

/-- The second loop of `encode_ge`. -/
def Graph.fillA (g : Graph) (H : List (ZMod 2)) : Checked (List (ZMod 2)) :=
  (List.range g.mOf).foldlM (fun A r => (List.range g.mOf).foldlM (fun A c => do
    let h ← Checked.read H (r * g.nOf + (g.kOf + c))
    Checked.write A (r * g.mOf + c) h) A) (List.replicate (g.mOf * g.mOf) 0)

/-- The vectors before the elimination. -/
def Graph.fillSystem (g : Graph) (H : List (ZMod 2)) (infoFull : Bits) : Checked ArraySystem := do
  let rhs ← g.fillRhs H infoFull
  let A ← g.fillA H
  return { A, rhs }

/-- `encode_ge` on its vectors. -/
def encodeArrays (infoFull : Bits) (g : Graph) : Checked Bits := do
  require (toInt32 infoFull.length = g.kOf) "info length must equal kb*zc (incl. filler)"
  let H ← buildH g
  let s ← g.fillSystem H infoFull
  let s ← (List.range g.mOf).foldlM (ArraySystem.eliminateColumn g.mOf) s
  let cw ← (List.range g.kOf).foldlM (fun cw i => do
    let b ← Checked.read infoFull i
    Checked.write cw i b) (List.replicate g.nOf 0)
  (List.range g.mOf).foldlM (fun cw i => do
    let x ← Checked.read s.rhs i
    Checked.write cw (g.kOf + i) (ofGf2 x)) cw

namespace ArraySystem

/-- The vectors hold these coefficients, row by row, and this right-hand side. -/
structure Holds (n : Nat) (s : ArraySystem) (entry : Nat → Nat → ZMod 2) (value : Nat → ZMod 2) :
    Prop where
  cells : RowMajor.Represents n n s.A entry
  rhs_eq : s.rhs = table n value

variable {n : Nat} {s : ArraySystem} {entry : Nat → Nat → ZMod 2} {value : Nat → ZMod 2}

/-- The values only matter inside the vectors. -/
theorem Holds.congr (h : Holds n s entry value) {entry' : Nat → Nat → ZMod 2}
    {value' : Nat → ZMod 2} (hentry : ∀ r < n, ∀ c < n, entry r c = entry' r c)
    (hvalue : ∀ r < n, value r = value' r) : Holds n s entry' value' :=
  ⟨h.cells.congr hentry, h.rhs_eq.trans (Table.table_congr hvalue)⟩

/-- The search ends at the first row from `piv` on with an entry in the column, or past the
rows. -/
theorem search_pivot_spec (h : RowMajor.Represents n n s.A entry) {col : Nat} (hcol : col < n)
    {piv : Nat} (hpiv : piv ≤ n) : ∃ found, searchPivot n s.A col piv = .ok found ∧
      piv ≤ found ∧ found ≤ n ∧ (∀ r, piv ≤ r → r < found → entry r col = 0) ∧
      (found < n → entry found col ≠ 0) := by
  induction hrest : n - piv generalizing piv with
  | zero =>
      have hend : ¬piv < n := by omega
      refine ⟨piv, ?_, Nat.le_refl _, hpiv, fun r hle hlt => by omega, fun hlt => by omega⟩
      rw [searchPivot, if_neg hend, Checked.pure_eq_ok]
  | succ rest ih =>
      have hlt : piv < n := by omega
      by_cases hzero : entry piv col = 0
      · obtain ⟨found, hrun, hle, hbound, hbefore, hfound⟩ :=
          ih (show piv + 1 ≤ n from hlt) (by omega)
        refine ⟨found, ?_, by omega, hbound, fun r hr hrfound => ?_, hfound⟩
        · rw [searchPivot, if_pos hlt, h.read_eq piv hlt col hcol, Checked.ok_bind, if_pos hzero,
            hrun]
        · by_cases hfirst : r = piv
          · rw [hfirst, hzero]
          · exact hbefore r (by omega) hrfound
      · refine ⟨piv, ?_, Nat.le_refl _, hpiv, fun r hle hr => by omega, fun _ => hzero⟩
        rw [searchPivot, if_pos hlt, h.read_eq piv hlt col hcol, Checked.ok_bind, if_neg hzero,
          Checked.pure_eq_ok]

/-- Swapping two rows swaps their coefficients and their values. -/
theorem Holds.swap_rows (h : Holds n s entry value) {col piv : Nat} (hcol : col < n)
    (hpiv : piv < n) : ∃ swapped, swapRows n s col piv = .ok swapped ∧
      Holds n swapped (fun r c => entry (Equiv.swap col piv r) c)
        fun r => value (Equiv.swap col piv r) := by
  obtain ⟨A, hA, hcells⟩ := h.cells.exchange_rows hcol hpiv
  have hrhs : Checked.exchange s.rhs col piv =
      .ok (table n fun r => value (Equiv.swap col piv r)) := by
    rw [Checked.exchange, h.rhs_eq, Table.read_table hcol, Checked.ok_bind,
      Table.read_table hpiv, Checked.ok_bind, Table.exchange_table hcol hpiv, Except.ok.injEq]
    refine Table.table_congr fun r _ => ?_
    rw [Equiv.swap_apply_def]
    by_cases hrpiv : r = piv
    · by_cases hrcol : r = col
      · subst hrcol
        simp [hrpiv]
      · subst hrpiv
        simp [hrcol]
    · by_cases hrcol : r = col
      · subst hrcol
        simp [hrpiv]
      · simp [hrpiv, hrcol]
  refine ⟨⟨A, table n fun r => value (Equiv.swap col piv r)⟩, ?_, hcells, rfl⟩
  rw [swapRows, hA, Checked.ok_bind, hrhs, Checked.ok_bind, Checked.pure_eq_ok]

/-- A coefficient after the column was cleared in its row. -/
def cleared (entry : Nat → Nat → ZMod 2) (col r c : Nat) : ZMod 2 :=
  if (r = col ∨ entry r col = 0) ∨ c < col then entry r c else entry r c + entry col c

/-- A value of the right-hand side after the same. -/
def clearedValue (entry : Nat → Nat → ZMod 2) (value : Nat → ZMod 2) (col r : Nat) : ZMod 2 :=
  if r = col ∨ entry r col = 0 then value r else value r + value col

/-- One round of the loop over `r`. -/
theorem Holds.clear_row (h : Holds n s entry value) {col r : Nat} (hcol : col < n) (hr : r < n) :
    ∃ next, clearRow n col s r = .ok next ∧
      Holds n next (fun r' c => if r' = r then cleared entry col r c else entry r' c)
        fun r' => if r' = r then clearedValue entry value col r else value r' := by
  by_cases hkeep : r = col ∨ entry r col = 0
  · -- the row stays as it is
    have hreturn : clearRow n col s r = .ok s := by
      by_cases hsame : r = col
      · rw [clearRow, if_pos hsame, Checked.pure_eq_ok]
      · rw [clearRow, if_neg hsame, h.cells.read_eq r hr col hcol, Checked.ok_bind,
          if_pos (hkeep.resolve_left hsame), Checked.pure_eq_ok]
    refine ⟨s, hreturn, h.congr (fun r' _ c _ => ?_) fun r' _ => ?_⟩
    · by_cases heq : r' = r
      · rw [if_pos heq, heq, cleared, if_pos (.inl hkeep)]
      · rw [if_neg heq]
    · by_cases heq : r' = r
      · rw [if_pos heq, heq, clearedValue, if_pos hkeep]
      · rw [if_neg heq]
  · obtain ⟨hsame, hzero⟩ := not_or.mp hkeep
    obtain ⟨A, hA, hcells⟩ := h.cells.add_row hr hcol hsame (Nat.le_of_lt hcol)
    refine ⟨⟨A, table n (Function.update value r (value r + value col))⟩, ?_, ?_, ?_⟩
    · rw [clearRow, if_neg hsame, h.cells.read_eq r hr col hcol, Checked.ok_bind,
        if_neg hzero, hA, Checked.ok_bind, h.rhs_eq, Table.read_table hcol, Checked.ok_bind,
        Table.modify_table hr, Checked.ok_bind, Checked.pure_eq_ok]
    · refine hcells.congr fun r' _ c _ => ?_
      by_cases heq : r' = r
      · by_cases hle : col ≤ c
        · simp [heq, cleared, hsame, hzero, hle, not_lt.mpr hle]
        · simp [heq, cleared, hle, not_le.mp hle]
      · simp [heq]
    · refine Table.table_congr fun r' _ => ?_
      by_cases heq : r' = r
      · simp [heq, clearedValue, hsame, hzero]
      · simp [heq]

/-- The loop over `r` clears the column in every row. -/
theorem Holds.clear_rows (h : Holds n s entry value) {col : Nat} (hcol : col < n) :
    ∃ final, (List.range n).foldlM (clearRow n col) s = .ok final ∧
      Holds n final (cleared entry col) (clearedValue entry value col) := by
  have hloop := range_loop
    (fun k s => Holds n s (fun r c => if r < k then cleared entry col r c else entry r c)
      fun r => if r < k then clearedValue entry value col r else value r)
    (clearRow n col) n ?_ (by simpa using h)
  · obtain ⟨final, hrun, hholds⟩ := hloop
    refine ⟨final, hrun, hholds.congr ?_ ?_⟩
    · intro r hr c _
      exact if_pos hr
    · intro r hr
      exact if_pos hr
  · intro k s hk hinv
    -- the row `col` and the row `k` still have their first coefficients
    obtain ⟨next, hnext, hholds⟩ := hinv.clear_row hcol hk
    refine ⟨next, hnext, hholds.congr ?_ ?_⟩
    · intro r _ c _
      by_cases heq : r = k
      · subst heq
        simp [cleared]
      · have hiff : r < k ↔ r < k + 1 := by omega
        simp only [if_neg heq, hiff]
    · intro r _
      by_cases heq : r = k
      · subst heq
        simp [clearedValue]
      · have hiff : r < k ↔ r < k + 1 := by omega
        simp only [if_neg heq, hiff]

/-- The vectors hold the coefficients and the right-hand side of the system. -/
def HoldsSystem (s : ArraySystem) (t : LinearSystem n) : Prop :=
  ∃ entry value, Holds n s entry value ∧ (∀ r c : Fin n, entry r c = t.matrix r c) ∧
    ∀ r : Fin n, value r = t.vector r

/-- Clearing a column in the vectors clears it in the system. -/
theorem HoldsSystem.clear {t : LinearSystem n} (h : HoldsSystem s t) (col : Fin n) :
    ∃ final, (List.range n).foldlM (clearRow n col) s = .ok final ∧
      HoldsSystem final (t.clear col) := by
  obtain ⟨entry, value, hholds, hentry, hvalue⟩ := h
  obtain ⟨final, hrun, hfinal⟩ := hholds.clear_rows col.isLt
  refine ⟨final, hrun, _, _, hfinal, fun r c => ?_, fun r => ?_⟩
  · rw [cleared, LinearSystem.matrix_clear_apply, hentry, hentry, hentry]
    exact if_congr (by rw [Fin.ext_iff, Fin.lt_def]) rfl rfl
  · rw [clearedValue, LinearSystem.vector_clear_apply, hentry, hvalue, hvalue]
    exact if_congr (by rw [Fin.ext_iff]) rfl rfl

/-- Swapping two rows in the vectors swaps the equations. -/
theorem HoldsSystem.swap {t : LinearSystem n} (h : HoldsSystem s t) (col piv : Fin n) :
    ∃ swapped, swapRows n s col piv = .ok swapped ∧ HoldsSystem swapped (t.swap col piv) := by
  obtain ⟨entry, value, hholds, hentry, hvalue⟩ := h
  obtain ⟨swapped, hrun, hswapped⟩ := hholds.swap_rows col.isLt piv.isLt
  have hrow (r : Fin n) : Equiv.swap col.val piv.val r.val = (Equiv.swap col piv r).val :=
    (Fin.val_injective.map_swap col piv r).symm
  refine ⟨swapped, hrun, _, _, hswapped, fun r c => ?_, fun r => ?_⟩
  · rw [hrow, hentry, LinearSystem.matrix_swap]
  · rw [hrow, hvalue, LinearSystem.vector_swap]

/-- The search in the vectors finds the pivot of the system. -/
theorem HoldsSystem.search {t : LinearSystem n} (h : HoldsSystem s t) (col : Fin n) :
    searchPivot n s.A col col = .ok (match t.pivot col with
      | none => n
      | some piv => piv.val) := by
  obtain ⟨entry, value, hholds, hentry, _⟩ := h
  obtain ⟨found, hrun, hle, hbound, hbefore, hfound⟩ :=
    search_pivot_spec hholds.cells col.isLt (Nat.le_of_lt col.isLt)
  rw [hrun, Except.ok.injEq]
  cases hpivot : t.pivot col with
  | none =>
      by_contra hne
      have hlt : found < n := Nat.lt_of_le_of_ne hbound hne
      have hzero := LinearSystem.pivot_none hpivot ⟨found, hlt⟩ hle
      rw [← hentry] at hzero
      exact hfound hlt hzero
  | some piv =>
      obtain ⟨hcol, hone⟩ := LinearSystem.pivot_some hpivot
      rcases Nat.lt_trichotomy found piv with hlt | heq | hgt
      · have hzero := LinearSystem.pivot_first hpivot ⟨found, by omega⟩ hle hlt
        rw [← hentry] at hzero
        exact absurd hzero (hfound (by omega))
      · exact heq
      · have hzero := hbefore piv hcol hgt
        rw [hentry, hone] at hzero
        exact absurd hzero one_ne_zero

/-- One round of the loop over the columns. -/
theorem HoldsSystem.eliminate_column {t : LinearSystem n} (h : HoldsSystem s t) (col : Fin n) :
    Refines HoldsSystem (eliminateColumn n s col) (t.eliminateColumn col) := by
  rw [eliminateColumn, h.search, Checked.ok_bind, LinearSystem.eliminateColumn]
  cases hpivot : t.pivot col with
  | none =>
      rw [require_of_not (Nat.lt_irrefl n), Checked.error_bind]
      exact .error _
  | some piv =>
      simp only [require_of piv.isLt, Checked.ok_bind]
      by_cases heq : piv = col
      · obtain ⟨final, hrun, hfinal⟩ := h.clear col
        rw [if_pos heq, if_neg (by simp [heq]), hrun]
        exact .ok hfinal
      · obtain ⟨swapped, hswap, hswapped⟩ := h.swap col piv
        obtain ⟨final, hrun, hfinal⟩ := hswapped.clear col
        rw [if_neg heq, if_pos (Fin.val_ne_of_ne heq), hswap, Checked.ok_bind, hrun]
        exact .ok hfinal

/-- The loop over the columns. -/
theorem HoldsSystem.eliminate {t : LinearSystem n} (h : HoldsSystem s t) :
    Refines HoldsSystem ((List.range n).foldlM (eliminateColumn n) s) t.eliminate := by
  have hrange : List.range n = (List.finRange n).map Fin.val := by simp
  rw [hrange, List.foldlM_map, LinearSystem.eliminate]
  exact Refines.fold (fun _ _ hab col _ => hab.eliminate_column col) h

end ArraySystem

/-- The filling loops compute the arrays of the system, or fail as the system does. -/
theorem fill_refines (g : Graph) (H : List (ZMod 2)) (infoFull : Bits) :
    Refines ArraySystem.HoldsSystem (g.fillSystem H infoFull) (g.paritySystem H infoFull) := by
  refine (Refines.fill_cells (g.infoSyndrome H infoFull) 0).bind fun rhs values hrhs => ?_
  refine (RowMajor.fill_rows (RowMajor.Represents.replicate g.mOf g.mOf (0 : ZMod 2))).bind ?_
  intro A rows ⟨entry, hcells, hentry⟩
  refine .ok ⟨entry, fun i => rhs.getD i 0, ⟨hcells, ?_⟩, fun r c => hentry r r.isLt c c.isLt,
    fun r => ?_⟩
  · have hlength : rhs.length = g.mOf := by rw [hrhs, Vector.length_toList]
    rw [← hlength]
    exact Table.eq_table rhs 0
  · show rhs.getD r 0 = values[r]
    rw [hrhs]
    simp

/-- The vectors of a system hold its right-hand side. -/
theorem ArraySystem.HoldsSystem.rhs_eq {n : Nat} {s : ArraySystem} {t : LinearSystem n}
    (h : s.HoldsSystem t) : s.rhs = t.rhs.toList := by
  obtain ⟨_, value, hholds, _, hvalue⟩ := h
  rw [hholds.rhs_eq]
  refine List.ext_getElem (by simp) fun i hi _ => ?_
  have hlt : i < n := by simpa using hi
  have helement : value i = t.rhs[i] := hvalue ⟨i, hlt⟩
  simpa [table] using helement

/-- `encode_ge` on its vectors is `encodeGe`, with the same errors and the same accesses outside. -/
theorem encode_arrays_eq (infoFull : Bits) (g : Graph) :
    encodeArrays infoFull g = encodeGe infoFull g := by
  by_cases hlength : toInt32 infoFull.length = g.kOf
  · have hlong : g.kOf ≤ infoFull.length := by
      have := to_int32_le (Int.natCast_nonneg infoFull.length)
      omega
    obtain ⟨H, hH, _⟩ := build_h_represents g
    rw [encodeArrays, encodeGe, require_of hlength, Checked.ok_bind, Checked.ok_bind, hH,
      Checked.ok_bind, Checked.ok_bind]
    refine Refines.eq ((fill_refines g H infoFull).bind fun s t hst => ?_)
    refine hst.eliminate.bind fun solved solved' hsolved => ?_
    -- the two copying loops
    have hinfo := Checked.copy_loop id hlong (List.replicate g.nOf 0) 0
    have hparity (cw : Bits) := Checked.copy_loop ofGf2
      (show g.mOf ≤ solved'.rhs.toList.length by simp) cw g.kOf
    simp only [Nat.zero_add, id_eq, List.map_id] at hinfo
    rw [List.take_of_length_le (by simp)] at hparity
    simp only [hinfo, hsolved.rhs_eq, hparity]
    exact Refines.refl _
  · rw [encodeArrays, encodeGe, require_of_not hlength]
    rfl

/-- Once the graph is built and the information bits are padded, every access of the encoder lies
inside its vector exactly when the graph is cut to `mb_use` rows or has no more information columns
than the base graph. -/
theorem encode_in_bounds_iff {p : LdpcParams} {info : Bits} {g : Graph} (hbits : IsBits info)
    (hg : makeGraph (p.withInfo info) = .ok g) (hfit : info.length ≤ g.kOf) :
    (g.kOf + g.mOf ≤ g.nOf ↔ 0 < p.mbUse ∨ p.kb ≤ p.bg.kb) ∧
    (encodeArrays (info ++ List.replicate (g.kOf - info.length) 0) g ≠ .error .undefined ↔
      0 < p.mbUse ∨ p.kb ≤ p.bg.kb) := by
  have hpadded : IsBits (info ++ List.replicate (g.kOf - info.length) 0) := by simpa using hbits
  have hlength : (info ++ List.replicate (g.kOf - info.length) 0).length = g.kOf := by
    simp
    omega
  have hsame : (p.withInfo info).mbUse = p.mbUse ∧ (p.withInfo info).kb = p.kb ∧
      (p.withInfo info).bg = p.bg := by
    unfold LdpcParams.withInfo
    split <;> exact ⟨rfl, rfl, rfl⟩
  have hfits := parity_fits_iff hg
  rw [hsame.1, hsame.2.1, hsame.2.2] at hfits
  rw [← hfits, encode_arrays_eq]
  constructor
  · rw [Graph.kOf, Graph.mOf, Graph.nOf, ← Nat.add_mul]
    exact Nat.mul_le_mul_right_iff g.zc_pos
  · by_cases hnb : g.kb + g.mb ≤ g.nb
    · rcases encode_ge_cases hnb hpadded hlength (n_of_lt hg) with
        ⟨cw, hcw, _⟩ | ⟨hsingular, _⟩
      · simp [hcw, hnb]
      · simp [hsingular, LinearSystem.singular, hnb]
    · have hundefined := encode_ge_undefined (Nat.lt_of_not_le hnb) hpadded hlength (n_of_lt hg)
      simp [hundefined, hnb]

/-- No information bits of lifting size 2 on all rows of the second base graph. -/
theorem encode_in_bounds_iff_two : ∃ g, makeGraph { zc := 2, infoBits := 0 } = .ok g ∧
    g.kOf + g.mOf ≤ g.nOf ∧
    encodeArrays ([] ++ List.replicate (g.kOf - 0) 0) g ≠ .error .undefined := by
  have hp : ({ zc := 2, infoBits := 0 } : LdpcParams).IsStandard := standard_two _
  obtain ⟨g, _, hg, _⟩ := make_graph_standard hp (by decide)
  have hreached : makeGraph (LdpcParams.withInfo { zc := 2, infoBits := 0 } []) = .ok g := hg
  obtain ⟨hinside, haccess⟩ := encode_in_bounds_iff is_bits_nil hreached (Nat.zero_le _)
  exact ⟨g, hg, hinside.mpr (.inr (by decide)), haccess.mpr (.inr (by decide))⟩

/-- One information column more than the second base graph has, on all its rows: 22 information and
84 parity columns, but a code word of 104. The encoder reads past the matrix. -/
theorem encode_out_of_bounds : ∃ g, makeGraph (LdpcParams.withInfo { zc := 2, kb := 11 } []) =
      .ok g ∧ g.kOf = 22 ∧ g.mOf = 84 ∧ g.nOf = 104 ∧
      encodeArrays ([] ++ List.replicate g.kOf 0) g = .error .undefined := by
  let p : LdpcParams := LdpcParams.withInfo { zc := 2, kb := 11 } []
  let lift : Lifting := ⟨2, 0, by decide⟩
  have hkb : 0 < p.kbOf ∧ p.kbOf < p.bg.nb := by decide
  have hg : makeGraph p = .ok (((p.bg.graph p.kbOf lift (by decide) hkb).cut p.mbUse).fill
      p.infoBits) :=
    make_graph_eq_ok.mpr ⟨lift, by decide, hkb, rfl, by decide, by decide, rfl⟩
  refine ⟨_, hg, rfl, rfl, rfl, ?_⟩
  rw [encode_arrays_eq]
  refine encode_ge_undefined ?_ (by simp) (by simp) (n_of_lt hg)
  show 52 < 11 + 42
  omega

end NrBaseband
