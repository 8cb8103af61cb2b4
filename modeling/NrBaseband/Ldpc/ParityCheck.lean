import NrBaseband.Bits
import NrBaseband.Ldpc.Graph
import NrBaseband.Foundation.RowMajor

/-!
# The dense parity-check matrix

`buildH` toggles the entries of the dense matrix edge by edge and `ldpcSyndromeOk` multiplies it
with a word. `build_h_represents` says that the matrix counts the lifted edges modulo two, and
`syndrome_ok_eq` that the dense check is the sparse one: every check of the Tanner graph adds up
to zero.
-/

namespace NrBaseband

open Foundation Foundation.MachineInt Foundation.TannerGraph

/-- The toggles of `build_H` for one edge of the base graph. A cell is toggled between 0 and 1
only, so it is an element of GF(2). -/
def Graph.toggleEdge (g : Graph) (H : List (ZMod 2)) (e : BgEdge) : Checked (List (ZMod 2)) :=
  if g.rawShift e < 0 then .ok H
  else (List.range g.zc).foldlM (fun H z =>
    let r := e.row * g.zc + z
    let c := liftedVar e.col (g.shiftOf e) z g.zc
    Checked.modify H (r * g.nOf + c) (· + 1)) H

/-- `build_H`. -/
def buildH (g : Graph) : Checked (List (ZMod 2)) :=
  g.edges.foldlM g.toggleEdge (List.replicate (g.mOf * g.nOf) 0)

/-- The inner loop of `ldpc_syndrome_ok`: the variable `s` after row `r`. -/
def Graph.rowSyndrome (g : Graph) (H : List (ZMod 2)) (codeword : Bits) (r : Nat) :
    Checked UInt8 :=
  (List.range g.nOf).foldlM (fun s c => do
    let h ← Checked.read H (r * g.nOf + c)
    if h = 0 then return s
    else
      let b ← Checked.read codeword c
      return s ^^^ b) 0

/-- `ldpc_syndrome_ok`. -/
def ldpcSyndromeOk (codeword : Bits) (p : LdpcParams) : Checked Bool := do
  let g ← makeGraph p
  require (toInt32 codeword.length = g.nOf) "codeword length"
  let H ← buildH g
  (List.range g.mOf).allM fun r => do
    let s ← g.rowSyndrome H codeword r
    return s == 0

/-- Toggling the entries of a list of edges adds their incidence to the matrix. -/
theorem toggle_represents {m n : Nat} {edges : List SparseEdge}
    (hlt : ∀ e ∈ edges, e.check < m ∧ e.var < n) {H : List (ZMod 2)} {entry : Nat → Nat → ZMod 2}
    (hH : RowMajor.Represents m n H entry) :
    ∃ toggled, edges.foldlM (fun H e => Checked.modify H (e.check * n + e.var) (· + 1)) H =
        .ok toggled ∧
      RowMajor.Represents m n toggled fun r c => entry r c + incidence edges r c := by
  induction edges generalizing H entry with
  | nil => exact ⟨H, rfl, by simpa [incidence] using hH⟩
  | cons e edges ih =>
      obtain ⟨hcheck, hvar⟩ := hlt e List.mem_cons_self
      obtain ⟨next, hnext, hrep⟩ := hH.modify hcheck hvar (· + 1)
      obtain ⟨toggled, htoggled, hfinal⟩ :=
        ih (fun e' he' => hlt e' (List.mem_cons_of_mem e he')) hrep
      refine ⟨toggled, by rw [List.foldlM_cons, hnext, Checked.ok_bind, htoggled], ?_⟩
      convert hfinal using 3 with r c
      by_cases hsame : r = e.check ∧ c = e.var
      · obtain ⟨rfl, rfl⟩ := hsame
        simp [incidence, add_assoc]
      · have hother : (if e.check = r then (if e.var = c then (1 : ZMod 2) else 0) else 0) = 0 := by
          rw [← ite_and]
          exact if_neg fun hflipped => hsame (hflipped.imp Eq.symm Eq.symm)
        simp [incidence, hsame, hother]

/-- `buildH` toggles the entries of the lifted edges in order. -/
theorem build_h_eq (g : Graph) : buildH g =
    (expandEdges g).foldlM (fun H e => Checked.modify H (e.check * g.nOf + e.var) (· + 1))
      (List.replicate (g.mOf * g.nOf) 0) := by
  have hedge (H : List (ZMod 2)) (e : BgEdge) : g.toggleEdge H e =
      (g.expandEdge e).foldlM
        (fun H e => Checked.modify H (e.check * g.nOf + e.var) (· + 1)) H := by
    unfold Graph.toggleEdge Graph.expandEdge
    split
    · rfl
    · rw [List.foldlM_map]
  have hfold (edges : List BgEdge) (H : List (ZMod 2)) : edges.foldlM g.toggleEdge H =
      (edges.flatMap g.expandEdge).foldlM
        (fun H e => Checked.modify H (e.check * g.nOf + e.var) (· + 1)) H := by
    induction edges generalizing H with
    | nil => rfl
    | cons e edges ih =>
        simp only [List.foldlM_cons, List.flatMap_cons, List.foldlM_append, hedge, ih]
  exact hfold g.edges _

/-- The dense matrix holds the number of lifted edges between a check and a variable, modulo two. -/
theorem build_h_represents (g : Graph) : ∃ H, buildH g = .ok H ∧
    RowMajor.Represents g.mOf g.nOf H (incidence (expandEdges g)) := by
  obtain ⟨H, hH, hrep⟩ := toggle_represents (expand_edges_lt g)
    (RowMajor.Represents.replicate g.mOf g.nOf (0 : ZMod 2))
  refine ⟨H, by rw [build_h_eq, hH], ?_⟩
  simpa using hrep

/-- Every check of the lifted graph adds up to zero on the word. -/
def Graph.Checks (g : Graph) (word : Nat → ZMod 2) : Prop :=
  ∀ r < g.mOf, checkSum (expandEdges g) word r = 0

instance (g : Graph) (word : Nat → ZMod 2) : Decidable (g.Checks word) :=
  inferInstanceAs (Decidable (∀ r < g.mOf, _))

/-- A sum over a range as a sum of a list. -/
theorem sum_map_range (n : Nat) (value : Nat → ZMod 2) :
    ((List.range n).map value).sum = ∑ c ∈ Finset.range n, value c := by
  rfl

/-- One row of the dense check adds the word along the edges of one check. -/
theorem row_syndrome_spec {g : Graph} {H : List (ZMod 2)}
    (hH : RowMajor.Represents g.mOf g.nOf H (incidence (expandEdges g))) {codeword : Bits}
    (hbits : IsBits codeword) (hlength : g.nOf ≤ codeword.length) {r : Nat} (hr : r < g.mOf) :
    ∃ s, g.rowSyndrome H codeword r = .ok s ∧
      (s = 0 ↔ checkSum (expandEdges g) (wordOf codeword) r = 0) := by
  let value (c : Nat) : UInt8 :=
    if incidence (expandEdges g) r c = 0 then 0 else codeword.getD c 0
  have hloop : g.rowSyndrome H codeword r = .ok (xorAll ((List.range g.nOf).map value)) := by
    rw [xorAll, List.foldl_map]
    refine Checked.fold_ok fun s c hc => ?_
    have hlt := List.mem_range.mp hc
    rw [hH.read_eq r hr c hlt, Checked.ok_bind]
    by_cases hzero : incidence (expandEdges g) r c = 0
    · simp [value, hzero]
    · have hread : Checked.read codeword c = .ok (codeword.getD c 0) := by
        rw [Checked.read_of_lt (by omega)]
        simp [show c < codeword.length by omega]
      simp [value, hzero, hread]
  have hvalue (c : Nat) (hc : c < g.nOf) :
      gf2 (value c) = incidence (expandEdges g) r c * wordOf codeword c := by
    by_cases hzero : incidence (expandEdges g) r c = 0
    · simp [value, hzero]
    · have hone : incidence (expandEdges g) r c = 1 := Fin.eq_one_of_ne_zero _ hzero
      simp [value, hone, wordOf]
  have hbit : IsBit (xorAll ((List.range g.nOf).map value)) := by
    refine is_bit_xor_all fun b hb => ?_
    obtain ⟨c, hc, rfl⟩ := List.mem_map.mp hb
    have hlt : c < codeword.length := by
      have := List.mem_range.mp hc
      omega
    simp only [value]
    split
    · exact .inl rfl
    · simpa [hlt] using hbits _ (List.getElem_mem hlt)
  refine ⟨_, hloop, ?_⟩
  rw [← gf2_eq_zero hbit, gf2_xor_all, List.map_map, sum_map_range,
    ← sum_incidence (fun e he => (expand_edges_lt g e he).2)]
  have hsum : ∑ c ∈ Finset.range g.nOf, (gf2 ∘ value) c =
      ∑ c ∈ Finset.range g.nOf, incidence (expandEdges g) r c * wordOf codeword c :=
    Finset.sum_congr rfl fun c hc => hvalue c (Finset.mem_range.mp hc)
  rw [hsum]

/-- The dense check accepts a word exactly when it satisfies every check of the sparse graph. -/
theorem syndrome_ok_eq {p : LdpcParams} {g : Graph} (hg : makeGraph p = .ok g) {codeword : Bits}
    (hbits : IsBits codeword) (hlength : toInt32 codeword.length = g.nOf)
    (hlong : g.nOf ≤ codeword.length) :
    ldpcSyndromeOk codeword p = .ok (decide (g.Checks (wordOf codeword))) := by
  obtain ⟨H, hH, hrep⟩ := build_h_represents g
  have hrows : ∀ r ∈ List.range g.mOf, (do
      let s ← g.rowSyndrome H codeword r
      return s == 0 : Checked Bool) =
        .ok (decide (checkSum (expandEdges g) (wordOf codeword) r = 0)) := by
    intro r hr
    obtain ⟨s, hs, hzero⟩ := row_syndrome_spec hrep hbits hlong (List.mem_range.mp hr)
    rw [hs, Checked.ok_bind, Checked.pure_eq_ok, Except.ok.injEq, Bool.eq_iff_iff]
    simpa using hzero
  rw [ldpcSyndromeOk, hg, Checked.ok_bind, require_of hlength, Checked.ok_bind, hH,
    Checked.ok_bind, Checked.all_ok hrows, Except.ok.injEq, Bool.eq_iff_iff, decide_eq_true_iff,
    List.all_eq_true]
  simp only [List.mem_range, decide_eq_true_eq]
  rfl

end NrBaseband
