import NrBaseband.Ldpc.Graph

/-!
# The columns of the lifted graph

The edges of a standard graph by the rows and columns of its base graph. A check of row `r` has one
edge in every column in which the base graph has an entry of that row (`edge_in_row`,
`eq_of_column`), and no other edges (`entry_of_edge`). Which columns the core rows join is read off
the tables.
-/

namespace NrBaseband

open Foundation Foundation.TannerGraph

/-! ## The base graphs -/

/-- Every column of a base graph has an edge to a core row or to its own extension row. -/
theorem BaseGraph.column_edge (bg : BaseGraph) : ∀ col < bg.kb + bg.mb,
    ∃ e ∈ bg.edges, e.col = col ∧ (e.row < 4 ∨ bg.kb + e.row = col) := by
  intro col hcol
  by_cases hcore : col < bg.kb + 4
  · have hsearch : ((List.range (bg.kb + 4)).all fun col =>
        bg.edges.any fun e => e.col == col && e.row < 4) = true := by
      cases bg with
      | bg1 => decide +kernel
      | bg2 => decide +kernel
    simp only [List.all_eq_true, List.any_eq_true, List.mem_range, Bool.and_eq_true, beq_iff_eq,
      decide_eq_true_eq] at hsearch
    obtain ⟨e, he, hecol, hrow⟩ := hsearch col hcore
    exact ⟨e, he, hecol, .inl hrow⟩
  · have hidentity : (⟨col - bg.kb, col, #v[0, 0, 0, 0, 0, 0, 0, 0]⟩ : BgEdge) ∈
        bg.edges.filter fun e => bg.kb + 4 ≤ e.col := by
      rw [bg.parity_edges.2]
      refine List.mem_map.mpr ⟨col - bg.kb, List.mem_range'_1.mpr (by omega), ?_⟩
      rw [Nat.add_sub_cancel' (by omega)]
    exact ⟨_, (List.mem_filter.mp hidentity).1, rfl, .inr (Nat.add_sub_cancel' (by omega))⟩

/-- The tables list the edges row by row and in the order of the columns. -/
theorem BaseGraph.edges_sorted (bg : BaseGraph) :
    (bg.edges.map fun e => 68 * e.row + e.col).IsChain (· < ·) := by
  cases bg with
  | bg1 => decide +kernel
  | bg2 => decide +kernel

/-- A base graph has one edge at a place. -/
theorem BaseGraph.places_nodup (bg : BaseGraph) : (bg.edges.map fun e => (e.row, e.col)).Nodup := by
  have hsorted := List.isChain_iff_pairwise.mp bg.edges_sorted
  refine List.Nodup.of_map (fun place => 68 * place.1 + place.2) ?_
  rw [List.map_map]
  exact hsorted.imp fun hlt => hlt.ne

/-- Every row of a base graph has edges to two columns. -/
theorem BaseGraph.row_other (bg : BaseGraph) :
    ∀ e ∈ bg.edges, ∃ e' ∈ bg.edges, e'.row = e.row ∧ e'.col ≠ e.col := by
  have hsearch : (bg.edges.all fun e =>
      bg.edges.any fun e' => e'.row == e.row && e'.col != e.col) = true := by
    cases bg with
    | bg1 => decide +kernel
    | bg2 => decide +kernel
  simpa [List.all_eq_true, List.any_eq_true] using hsearch

/-- The first two columns meet in row 0, and row 1 has only the first of them. -/
theorem BaseGraph.first_columns (bg : BaseGraph) : (∃ e ∈ bg.edges, e.row = 0 ∧ e.col = 1) ∧
    (∃ e ∈ bg.edges, e.row = 1 ∧ e.col = 0) ∧ ∀ e ∈ bg.edges, e.row = 1 → e.col ≠ 1 := by
  have hsearch : (bg.edges.any fun e => e.row == 0 && e.col == 1) = true ∧
      (bg.edges.any fun e => e.row == 1 && e.col == 0) = true ∧
      (bg.edges.all fun e => e.row != 1 || e.col != 1) = true := by
    cases bg with
    | bg1 => decide +kernel
    | bg2 => decide +kernel
  simp only [List.any_eq_true, List.all_eq_true, Bool.and_eq_true, Bool.or_eq_true, beq_iff_eq,
    bne_iff_ne] at hsearch
  exact ⟨hsearch.1, hsearch.2.1, fun e he hrow => (hsearch.2.2 e he).resolve_left (absurd hrow)⟩

/-- A row uses the core columns and its own extension column. -/
theorem BaseGraph.row_columns (bg : BaseGraph) :
    ∀ e ∈ bg.edges, e.col < bg.kb + 4 ∨ e.col = bg.kb + e.row := by
  have hsearch : (bg.edges.all fun e => e.col < bg.kb + 4 || e.col == bg.kb + e.row) = true := by
    cases bg with
    | bg1 => decide +kernel
    | bg2 => decide +kernel
  simpa [List.all_eq_true] using hsearch

/-! ## The lifted graphs -/

variable {g : Graph} {bg : BaseGraph}

/-- The circulant of an entry of a base graph. -/
def Graph.entry (g : Graph) (e : BgEdge) : Circulant :=
  QuasiCyclic.reduce g.zc ⟨e.row, e.col, (e.shift.get g.iLs).toNat⟩

/-- The circulants of a standard graph are those of the rows it keeps. -/
theorem mem_circulants (h : g.IsStandard bg) {b : Circulant} :
    b ∈ g.circulants ↔ ∃ e ∈ bg.edges, e.row < g.mb ∧ g.entry e = b := by
  have hmem (e : BgEdge) (he : e ∈ bg.edges) :
      g.entry e ∈ (bg.blocks g.iLs).map (QuasiCyclic.reduce g.zc) :=
    List.mem_map_of_mem (List.mem_map_of_mem he)
  rw [h.circulants_eq, QuasiCyclic.truncate, List.mem_filter]
  constructor
  · rintro ⟨hb, hkept⟩
    obtain ⟨block, hblock, rfl⟩ := List.mem_map.mp hb
    obtain ⟨e, he, rfl⟩ := List.mem_map.mp hblock
    exact ⟨e, he, (decide_eq_true_iff.mp hkept).1, rfl⟩
  · rintro ⟨e, he, hrow, rfl⟩
    exact ⟨hmem e he, ((bg.dual_diagonal g.iLs).reduce g.zc).kept h.mb_range.1 h.mb_range.2 hrow _
      (hmem e he) rfl⟩

/-- An edge comes from one entry: its row, the place in it, and the column. -/
theorem entry_of_edge (h : g.IsStandard bg) (i : Fin (expandEdges g).length) :
    ∃ e ∈ bg.edges, e.row < g.mb ∧ ∃ z < g.zc,
      ((expandEdges g).get i).check = e.row * g.zc + z ∧
      ((expandEdges g).get i).var = QuasiCyclic.liftedVar g.zc (g.entry e) z := by
  have hmem : ((expandEdges g).get i) ∈ QuasiCyclic.lift g.zc g.circulants :=
    expand_edges_eq_lift g ▸ List.getElem_mem i.isLt
  obtain ⟨b, hb, hedge⟩ := List.mem_flatMap.mp hmem
  obtain ⟨z, hz, heq⟩ := List.mem_map.mp hedge
  obtain ⟨e, he, hrow, rfl⟩ := (mem_circulants h).mp hb
  exact ⟨e, he, hrow, z, List.mem_range.mp hz, by rw [← heq]; rfl, by rw [← heq]⟩

/-- An entry has an edge at every place of its row. -/
theorem edge_of_entry (h : g.IsStandard bg) {e : BgEdge} (he : e ∈ bg.edges) (hrow : e.row < g.mb)
    {z : Nat} (hz : z < g.zc) : ∃ i : Fin (expandEdges g).length,
      ((expandEdges g).get i).check = e.row * g.zc + z ∧
      ((expandEdges g).get i).var = QuasiCyclic.liftedVar g.zc (g.entry e) z := by
  have hb : g.entry e ∈ g.circulants := (mem_circulants h).mpr ⟨e, he, hrow, rfl⟩
  have hedge : (⟨e.row * g.zc + z, QuasiCyclic.liftedVar g.zc (g.entry e) z⟩ : SparseEdge) ∈
      expandEdges g := by
    rw [expand_edges_eq_lift]
    exact List.mem_flatMap.mpr ⟨g.entry e, hb, List.mem_map.mpr ⟨z, List.mem_range.mpr hz, rfl⟩⟩
  obtain ⟨i, hi, hget⟩ := List.mem_iff_getElem.mp hedge
  exact ⟨⟨i, hi⟩, congrArg TannerEdge.check hget, congrArg TannerEdge.var hget⟩

/-- The block and the place of a position. -/
theorem block_of_position {zc row z : Nat} (hz : z < zc) :
    (row * zc + z) / zc = row ∧ (row * zc + z) % zc = z := by
  rw [Nat.mul_comm]
  exact ⟨by rw [Nat.mul_add_div (by omega), Nat.div_eq_of_lt hz, Nat.add_zero],
    by rw [Nat.mul_add_mod, Nat.mod_eq_of_lt hz]⟩

/-- The column of a lifted variable. -/
theorem lifted_var_div (g : Graph) (e : BgEdge) (z : Nat) :
    QuasiCyclic.liftedVar g.zc (g.entry e) z / g.zc = e.col :=
  (block_of_position (Nat.mod_lt _ g.zc_pos)).1

/-- The base graph has an entry at the row and the column of an edge. -/
theorem place_of_edge (h : g.IsStandard bg) (i : Fin (expandEdges g).length) :
    ∃ e ∈ bg.edges, ((expandEdges g).get i).check / g.zc = e.row ∧
      ((expandEdges g).get i).var / g.zc = e.col := by
  obtain ⟨e, he, -, z, hz, hcheck, hvar⟩ := entry_of_edge h i
  exact ⟨e, he, by rw [hcheck, (block_of_position hz).1], by rw [hvar, lifted_var_div]⟩

/-- The lifted edges are all different. -/
theorem expand_edges_nodup (h : g.IsStandard bg) : (expandEdges g).Nodup := by
  have hplaces : (g.circulants.map fun b => (b.row, b.col)).Nodup := by
    rw [h.circulants_eq, QuasiCyclic.truncate]
    refine List.Nodup.sublist (List.filter_sublist.map _) ?_
    rw [BaseGraph.blocks, List.map_map, List.map_map]
    exact bg.places_nodup
  rw [expand_edges_eq_lift, QuasiCyclic.lift, List.nodup_flatMap]
  refine ⟨fun b _ => List.nodup_range.map fun z z' hsame => ?_, ?_⟩
  · exact Nat.add_left_cancel (congrArg TannerEdge.check hsame)
  · refine (List.pairwise_map.mp hplaces).imp fun {b b'} hne edge hedge hedge' => hne ?_
    obtain ⟨z, hz, rfl⟩ := List.mem_map.mp hedge
    obtain ⟨z', hz', hsame⟩ := List.mem_map.mp hedge'
    have hcheck : b'.row * g.zc + z' = b.row * g.zc + z := congrArg TannerEdge.check hsame
    have hvar : QuasiCyclic.liftedVar g.zc b' z' = QuasiCyclic.liftedVar g.zc b z :=
      congrArg TannerEdge.var hsame
    have hrow := congrArg (· / g.zc) hcheck
    have hcol := congrArg (· / g.zc) hvar
    simp only [QuasiCyclic.liftedVar, (block_of_position (List.mem_range.mp hz)).1,
      (block_of_position (List.mem_range.mp hz')).1,
      (block_of_position (Nat.mod_lt _ g.zc_pos)).1] at hrow hcol
    rw [hrow, hcol]

/-- A check has one edge in a column. -/
theorem eq_of_column (h : g.IsStandard bg) {i j : Fin (expandEdges g).length}
    (hcheck : ((expandEdges g).get i).check = ((expandEdges g).get j).check)
    (hcol : ((expandEdges g).get i).var / g.zc = ((expandEdges g).get j).var / g.zc) : i = j := by
  refine (List.nodup_iff_injective_get.mp (expand_edges_nodup h)) ?_
  obtain ⟨e, he, -, z, hz, hcheckI, hvarI⟩ := entry_of_edge h i
  obtain ⟨e', he', -, z', hz', hcheckJ, hvarJ⟩ := entry_of_edge h j
  have hsum : e.row * g.zc + z = e'.row * g.zc + z' := by rw [← hcheckI, ← hcheckJ, hcheck]
  have hrow := congrArg (· / g.zc) hsum
  have hplace := congrArg (· % g.zc) hsum
  simp only [(block_of_position hz).1, (block_of_position hz).2, (block_of_position hz').1,
    (block_of_position hz').2] at hrow hplace
  rw [hvarI, hvarJ, lifted_var_div, lifted_var_div] at hcol
  have hsame : e = e' := List.inj_on_of_nodup_map bg.places_nodup he he' (by rw [hrow, hcol])
  subst hsame hplace
  exact congrArg₂ TannerEdge.mk hcheck (hvarI.trans hvarJ.symm)

/-- A variable of a column has an edge to every row with an entry in that column. -/
theorem edge_in_row (h : g.IsStandard bg) {e : BgEdge} (he : e ∈ bg.edges) (hrow : e.row < g.mb)
    {v : Nat} (hcol : v / g.zc = e.col) : ∃ i : Fin (expandEdges g).length,
      ((expandEdges g).get i).var = v ∧ ((expandEdges g).get i).check / g.zc = e.row := by
  have hzc := g.zc_pos
  let b := g.entry e
  -- the place in the block before the shift
  have hshift : b.shift < g.zc := Nat.mod_lt _ hzc
  have hplace := Nat.mod_lt v hzc
  let z := if b.shift ≤ v % g.zc then v % g.zc - b.shift else v % g.zc + g.zc - b.shift
  have hz : z < g.zc ∧ (z + b.shift) % g.zc = v % g.zc := by
    by_cases hle : b.shift ≤ v % g.zc
    · simp only [z, if_pos hle, Nat.sub_add_cancel hle, Nat.mod_mod, and_true]
      omega
    · have hsum : v % g.zc + g.zc - b.shift + b.shift = v % g.zc + g.zc := by omega
      simp only [z, if_neg hle, hsum, Nat.add_mod_right, Nat.mod_mod, and_true]
      omega
  have hvar : QuasiCyclic.liftedVar g.zc b z = v := by
    rw [QuasiCyclic.liftedVar, hz.2]
    show e.col * g.zc + v % g.zc = v
    rw [← hcol, Nat.mul_comm, Nat.div_add_mod]
  obtain ⟨i, hcheck, hi⟩ := edge_of_entry h he hrow hz.1
  exact ⟨i, hi.trans hvar, by rw [hcheck, (block_of_position hz.1).1]⟩

/-- Every check of a standard graph has another edge. -/
theorem exists_other_edge (h : g.IsStandard bg) (i : Fin (expandEdges g).length) :
    ∃ j, ((expandEdges g).get j).check = ((expandEdges g).get i).check ∧ j ≠ i := by
  obtain ⟨e, he, hrow, z, hz, hcheck, hvar⟩ := entry_of_edge h i
  obtain ⟨e', he', hsame, hother⟩ := bg.row_other e he
  obtain ⟨j, hcheckJ, hvarJ⟩ := edge_of_entry h he' (hsame ▸ hrow) hz
  refine ⟨j, by rw [hcheckJ, hcheck, hsame], fun heq => hother ?_⟩
  -- the two edges end in different columns
  rw [← lifted_var_div g e' z, ← lifted_var_div g e z, ← hvarJ, ← hvar, heq]

/-- Every variable of a standard graph takes part in a check. -/
theorem exists_edge_of_var (h : g.IsStandard bg) {v : Nat} (hv : v < g.nOf) :
    ∃ i : Fin (expandEdges g).length, ((expandEdges g).get i).var = v := by
  have hcol : v / g.zc < bg.kb + g.mb := by
    rw [← h.kb_eq, ← h.nb_eq]
    exact Nat.div_lt_of_lt_mul (by rwa [Nat.mul_comm])
  have hmb := h.mb_range
  obtain ⟨e, he, hecol, hrow⟩ := bg.column_edge (v / g.zc) (by omega)
  obtain ⟨i, hi, -⟩ := edge_in_row h he (by omega) hecol.symm
  exact ⟨i, hi⟩

end NrBaseband
