import NrBaseband.Ldpc.Lifting
import NrBaseband.Foundation.QuasiCyclic

/-!
# Graphs of parameters

`makeGraph` turns parameters into the base graph that the encoder, the decoder and the checker work
on: the edges of the table, cut to the rows in use, with one lifting size and set. A `Graph` holds
only edges that lie inside it. `make_graph_eq_ok` is the inversion lemma of `makeGraph`, and
`Graph.IsStandard` says what the graphs of default `kb` have in common: their circulants are the
first rows of a dual-diagonal quasi-cyclic code.
-/

namespace NrBaseband

open Foundation

/-- The parameters of a code, with the defaults of the struct. -/
structure LdpcParams where
  bg : BaseGraph := .bg2
  zc : Int := 0
  iLs : Int := -1
  maxIter : Int := 25
  infoBits : Int := -1
  kb : Int := -1
  mbUse : Int := -1
  deriving DecidableEq, Repr

/-- The number of rows of a base graph. -/
def BaseGraph.mb : BaseGraph → Nat
  | .bg1 => bg1Mb
  | .bg2 => bg2Mb

/-- The number of columns of a base graph. -/
def BaseGraph.nb : BaseGraph → Nat
  | .bg1 => bg1Nb
  | .bg2 => bg2Nb

/-- The table of a base graph. -/
def BaseGraph.edges : BaseGraph → List BgEdge
  | .bg1 => bg1Edges
  | .bg2 => bg2Edges

/-- Where a base graph is taken from. -/
def BaseGraph.provenance : BaseGraph → String
  | .bg1 => "NR BG1 TS 38.212 via Sionna Apache-2.0 CSV tables"
  | .bg2 => "NR BG2 TS 38.212 via Sionna Apache-2.0 CSV tables"

/-- Every edge of a table lies inside the base graph and has no negative shift. -/
theorem BaseGraph.edges_spec (bg : BaseGraph) : ∀ e ∈ bg.edges,
    (e.row < bg.mb ∧ e.col < bg.nb) ∧ ∀ ils : Fin 8, 0 ≤ e.shift[ils] := by
  cases bg with
  | bg1 => decide +kernel
  | bg2 => decide +kernel

/-- A base graph has `mb` parity columns. -/
theorem BaseGraph.nb_eq (bg : BaseGraph) : bg.nb = bg.kb + bg.mb := by
  cases bg <;> rfl

/-- `Graph`, with its well-formedness. -/
structure Graph where
  mb : Nat
  nb : Nat
  kb : Nat
  zc : Nat
  iLs : Fin 8
  filler : Int := 0
  edges : List BgEdge
  provenance : String
  zc_pos : 0 < zc
  kb_range : 0 < kb ∧ kb < nb
  edges_lt : ∀ e ∈ edges, e.row < mb ∧ e.col < nb

/-- `mod_shift`. -/
def modShift (v zc : Int) : Int :=
  let m := v.tmod zc
  if m < 0 then m + zc else m

/-- The size and the set that `make_graph` settles on. -/
structure Lifting where
  zc : Nat
  iLs : Nat
  zc_pos : 0 < zc

/-- The part of `make_graph` that finds the size and the set. -/
def chooseLifting (p : LdpcParams) : Checked Lifting :=
  if h : p.zc > 0 then
    match iLsForZc p.zc with
    | some ils =>
        .ok { zc := p.zc.toNat, iLs := if p.iLs ≥ 0 then p.iLs.toNat else ils,
              zc_pos := by omega }
    | none => .error (.error "Zc not in TS 38.212 Table 5.3.2-1")
  else do
    require (p.infoBits > 0) "zc==0 requires info_bits for lifting selection"
    let lift ← selectLifting p.infoBits p.bg
    return { zc := lift.zc, iLs := if p.iLs ≥ 0 then p.iLs.toNat else lift.iLs,
             zc_pos := lift.zc_pos }

/-- The number of information columns that parameters ask for. -/
def LdpcParams.kbOf (p : LdpcParams) : Nat := if p.kb > 0 then p.kb.toNat else p.bg.kb

/-- The whole base graph, lifted. -/
def BaseGraph.graph (bg : BaseGraph) (kb : Nat) (lift : Lifting) (hils : lift.iLs ≤ 7)
    (hkb : 0 < kb ∧ kb < bg.nb) : Graph where
  mb := bg.mb
  nb := bg.nb
  kb := kb
  zc := lift.zc
  iLs := ⟨lift.iLs, by omega⟩
  edges := bg.edges
  provenance := bg.provenance
  zc_pos := lift.zc_pos
  kb_range := hkb
  edges_lt e he := (bg.edges_spec e he).1

/-- The graph cut to `mb_use` rows, or the whole graph where that is not positive. -/
def Graph.cut (g : Graph) (mbUse : Int) : Graph :=
  if h : mbUse > 0 then
    { g with
      mb := mbUse.toNat
      nb := g.kb + mbUse.toNat
      edges := g.edges.filter fun e => e.row < mbUse.toNat ∧ e.col < g.kb + mbUse.toNat
      kb_range := ⟨g.kb_range.1, by omega⟩
      edges_lt := fun e he => by simpa using (List.mem_filter.mp he).2 }
  else g

/-- The graph with the filler that a block of `info_bits` leaves. -/
def Graph.fill (g : Graph) (infoBits : Int) : Graph :=
  { g with filler := if infoBits > 0 then g.kb * g.zc - infoBits else g.filler }

/-- `make_graph`. -/
def makeGraph (p : LdpcParams) : Checked Graph := do
  let lift ← chooseLifting p
  let ⟨hils⟩ ← ensure (lift.iLs ≤ 7) "i_ls out of range"
  let ⟨hkb⟩ ← ensure (0 < p.kbOf ∧ p.kbOf < p.bg.nb) "invalid kb"
  let g := p.bg.graph p.kbOf lift hils hkb
  require (p.mbUse > 0 → p.mbUse ≤ g.mb) "mb_use exceeds base graph"
  let g := g.cut p.mbUse
  require (p.infoBits > 0 → p.infoBits ≤ g.kb * g.zc) "info_bits exceeds kb*Zc"
  return g.fill p.infoBits

/-- `N_of`. -/
def Graph.nOf (g : Graph) : Nat := g.nb * g.zc

/-- `K_of`. -/
def Graph.kOf (g : Graph) : Nat := g.kb * g.zc

/-- `M_of`. -/
def Graph.mOf (g : Graph) : Nat := g.mb * g.zc

/-- `lifted_var`. -/
def liftedVar (colBlock shift rowWithin zc : Nat) : Nat :=
  colBlock * zc + (rowWithin + shift) % zc

/-- `SparseEdge`. -/
abbrev SparseEdge : Type := TannerEdge

/-- The variable `raw`: an edge's shift in the set of the graph. -/
def Graph.rawShift (g : Graph) (e : BgEdge) : Int := e.shift[g.iLs]

/-- The variable `sh`: the shift reduced to the lifting size. -/
def Graph.shiftOf (g : Graph) (e : BgEdge) : Nat := (modShift (g.rawShift e) g.zc).toNat

/-- The lifted edges of one edge of the base graph. -/
def Graph.expandEdge (g : Graph) (e : BgEdge) : List SparseEdge :=
  if g.rawShift e < 0 then []
  else (List.range g.zc).map fun z =>
    { check := e.row * g.zc + z, var := liftedVar e.col (g.shiftOf e) z g.zc }

/-- `expand_edges`. -/
def expandEdges (g : Graph) : List SparseEdge := g.edges.flatMap g.expandEdge

/-- Cutting keeps the information part. -/
theorem cut_info (g : Graph) (mbUse : Int) :
    (g.cut mbUse).kb = g.kb ∧ (g.cut mbUse).zc = g.zc := by
  unfold Graph.cut
  split <;> exact ⟨rfl, rfl⟩

/-- What parameters that `makeGraph` accepts satisfy, and the graph it returns for them. -/
theorem make_graph_eq_ok {p : LdpcParams} {g : Graph} :
    makeGraph p = .ok g ↔ ∃ lift hils hkb, chooseLifting p = .ok lift ∧
      (p.mbUse > 0 → p.mbUse ≤ p.bg.mb) ∧
      (p.infoBits > 0 → p.infoBits ≤ p.kbOf * lift.zc) ∧
      g = ((p.bg.graph p.kbOf lift hils hkb).cut p.mbUse).fill p.infoBits := by
  have hcut (lift : Lifting) hils hkb := cut_info (p.bg.graph p.kbOf lift hils hkb) p.mbUse
  rw [makeGraph, Checked.bind_eq_ok]
  simp only [ensure_bind_eq_ok, require_bind_eq_ok, Checked.pure_eq_ok, Except.ok.injEq, hcut]
  constructor
  · rintro ⟨lift, hlift, hils, hkb, hmb, hinfo, rfl⟩
    exact ⟨lift, hils, hkb, hlift, hmb, hinfo, rfl⟩
  · rintro ⟨lift, hils, hkb, hlift, hmb, hinfo, rfl⟩
    exact ⟨lift, hlift, hils, hkb, hmb, hinfo, rfl⟩

/-- A size that `chooseLifting` returns is in the table. -/
theorem choose_lifting_range {p : LdpcParams} {lift : Lifting} (h : chooseLifting p = .ok lift) :
    lift.zc ≤ 384 := by
  unfold chooseLifting at h
  split at h
  case isTrue hpos =>
    cases hset : iLsForZc p.zc with
    | none => simp [hset] at h
    | some ils =>
        simp only [hset, Except.ok.injEq] at h
        obtain ⟨_, hle, _⟩ := i_ls_for_zc_spec hpos hset
        subst h
        show p.zc.toNat ≤ 384
        omega
  case isFalse hpos =>
    rw [require_bind_eq_ok, Checked.bind_eq_ok] at h
    obtain ⟨_, choice, hselect, hreturn⟩ := h
    obtain ⟨_, hle, _⟩ := select_lifting_spec hselect
    simp only [Checked.pure_eq_ok, Except.ok.injEq] at hreturn
    subst hreturn
    exact hle

/-- The dimensions of a graph are small: no product of them with the size overflows. -/
theorem make_graph_range {p : LdpcParams} {g : Graph} (h : makeGraph p = .ok g) :
    g.zc ≤ 384 ∧ g.kb < 68 ∧ g.nb ≤ 114 := by
  obtain ⟨lift, hils, hkb, hlift, hmb, hinfo, rfl⟩ := make_graph_eq_ok.mp h
  have hzc := choose_lifting_range hlift
  have hnb : p.bg.nb ≤ 68 := by cases p.bg <;> decide
  have hrows : p.bg.mb ≤ 46 := by cases p.bg <;> decide
  unfold Graph.fill Graph.cut
  split
  · refine ⟨hzc, ?_, ?_⟩ <;> simp only [BaseGraph.graph] <;> omega
  · refine ⟨hzc, ?_, ?_⟩ <;> simp only [BaseGraph.graph] <;> omega

/-- Declaring another number of information bits only changes the filler. -/
theorem make_graph_fill {p : LdpcParams} {g : Graph} (hzc : 0 < p.zc) (hg : makeGraph p = .ok g)
    (infoBits : Int) (hfits : infoBits ≤ g.kOf) :
    ∃ base : Graph, g = base.fill p.infoBits ∧
      makeGraph { p with infoBits := infoBits } = .ok (base.fill infoBits) := by
  obtain ⟨lift, hils, hkb, hlift, hmb, -, rfl⟩ := make_graph_eq_ok.mp hg
  refine ⟨_, rfl, make_graph_eq_ok.mpr ⟨lift, hils, hkb, ?_, hmb, fun _ => ?_, rfl⟩⟩
  · rw [← hlift, chooseLifting, chooseLifting, dif_pos hzc, dif_pos hzc]
  · have hdims := cut_info (p.bg.graph p.kbOf lift hils hkb) p.mbUse
    change infoBits ≤ ((((p.bg.graph p.kbOf lift hils hkb).cut p.mbUse).kb *
      ((p.bg.graph p.kbOf lift hils hkb).cut p.mbUse).zc : Nat) : Int) at hfits
    rwa [hdims.1, hdims.2, Nat.cast_mul] at hfits

/-- Every lifted edge lies inside the lifted graph. -/
theorem expand_edges_lt (g : Graph) : ∀ e ∈ expandEdges g, e.check < g.mOf ∧ e.var < g.nOf := by
  intro e he
  obtain ⟨base, hbase, hedge⟩ := List.mem_flatMap.mp he
  obtain ⟨hrow, hcol⟩ := g.edges_lt base hbase
  have hrows : (base.row + 1) * g.zc ≤ g.mb * g.zc := Nat.mul_le_mul_right _ hrow
  have hcols : (base.col + 1) * g.zc ≤ g.nb * g.zc := Nat.mul_le_mul_right _ hcol
  unfold Graph.expandEdge at hedge
  split at hedge
  · exact absurd hedge (List.not_mem_nil)
  · obtain ⟨z, hz, rfl⟩ := List.mem_map.mp hedge
    have hlt := List.mem_range.mp hz
    have hmod := Nat.mod_lt (z + g.shiftOf base) g.zc_pos
    simp only [Graph.mOf, Graph.nOf, liftedVar]
    rw [Nat.succ_mul] at hrows hcols
    exact ⟨by omega, by omega⟩

/-! ## The circulants of a graph -/

/-- The circulant of an edge. -/
def Graph.circulant (g : Graph) (e : BgEdge) : Circulant :=
  { row := e.row, col := e.col, shift := g.shiftOf e }

/-- The circulants of a graph: one for each edge whose shift is not negative. -/
def Graph.circulants (g : Graph) : List Circulant :=
  (g.edges.filter fun e => 0 ≤ g.rawShift e).map g.circulant

/-- The edge lists of the decoder are the lifting of the circulants. -/
theorem expand_edges_eq_lift (g : Graph) :
    expandEdges g = QuasiCyclic.lift g.zc g.circulants := by
  have hedges (edges : List BgEdge) : edges.flatMap g.expandEdge =
      QuasiCyclic.lift g.zc ((edges.filter fun e => 0 ≤ g.rawShift e).map g.circulant) := by
    induction edges with
    | nil => rfl
    | cons e edges ih =>
        rw [List.flatMap_cons, ih]
        by_cases hneg : g.rawShift e < 0
        · rw [List.filter_cons_of_neg (by simpa using hneg)]
          simp [Graph.expandEdge, hneg]
        · rw [List.filter_cons_of_pos (by simpa using hneg)]
          simp [Graph.expandEdge, hneg, QuasiCyclic.lift, Graph.circulant, liftedVar,
            QuasiCyclic.liftedVar]
  exact hedges g.edges

/-- The circulants of a base graph in one set, before they are lifted. -/
def BaseGraph.blocks (bg : BaseGraph) (ils : Fin 8) : List Circulant :=
  bg.edges.map fun e => { row := e.row, col := e.col, shift := e.shift[ils].toNat }

/-- The parity edges of the core rows. -/
def BaseGraph.coreEdges : BaseGraph → List BgEdge
  | .bg1 => bg1CoreEdges
  | .bg2 => bg2CoreEdges

/-- The tables have these core edges, and past them one identity for each extension row. -/
theorem BaseGraph.parity_edges (bg : BaseGraph) :
    bg.edges.filter (fun e => e.row < 4 ∧ bg.kb ≤ e.col) = bg.coreEdges ∧
    bg.edges.filter (fun e => bg.kb + 4 ≤ e.col) =
      (List.range' 4 (bg.mb - 4)).map fun i => ⟨i, bg.kb + i, #v[0, 0, 0, 0, 0, 0, 0, 0]⟩ := by
  cases bg with
  | bg1 => decide +kernel
  | bg2 => decide +kernel

/-- Both tables are dual-diagonal in every set. -/
theorem BaseGraph.dual_diagonal (bg : BaseGraph) (ils : Fin 8) :
    QuasiCyclic.DualDiagonal bg.kb bg.mb (bg.blocks ils) := by
  let block (e : BgEdge) : Circulant := ⟨e.row, e.col, e.shift[ils].toNat⟩
  obtain ⟨hcore, hextension⟩ := bg.parity_edges
  have hpart (i : Nat) (hi : i < 4) : QuasiCyclic.parityPart bg.kb (bg.blocks ils) i =
      QuasiCyclic.parityPart bg.kb (bg.coreEdges.map block) i := by
    have hkept : (bg.blocks ils).filter (fun b => b.row < 4 ∧ bg.kb ≤ b.col) =
        bg.coreEdges.map block := by
      rw [← hcore]
      exact List.filter_map
    rw [← hkept, QuasiCyclic.parity_part_filter]
    intro b _ hrow hcol
    simp [hrow, hi, hcol]
  have hshifts : ∃ a b,
      QuasiCyclic.parityPart bg.kb (bg.coreEdges.map block) 0 = [(0, a), (1, 0)] ∧
      (QuasiCyclic.parityPart bg.kb (bg.coreEdges.map block) 1 = [(0, b), (1, 0), (2, 0)] ∧
          QuasiCyclic.parityPart bg.kb (bg.coreEdges.map block) 2 = [(2, 0), (3, 0)] ∨
        QuasiCyclic.parityPart bg.kb (bg.coreEdges.map block) 1 = [(1, 0), (2, 0)] ∧
          QuasiCyclic.parityPart bg.kb (bg.coreEdges.map block) 2 = [(0, b), (2, 0), (3, 0)]) ∧
      QuasiCyclic.parityPart bg.kb (bg.coreEdges.map block) 3 = [(0, a), (3, 0)] := by
    cases bg with
    | bg1 => fin_cases ils <;> exact ⟨_, _, rfl, .inl ⟨rfl, rfl⟩, rfl⟩
    | bg2 => fin_cases ils <;> exact ⟨_, _, rfl, .inr ⟨rfl, rfl⟩, rfl⟩
  have hidentities : (bg.blocks ils).filter (fun b => bg.kb + 4 ≤ b.col) =
      (List.range' 4 (bg.mb - 4)).map fun i => ⟨i, bg.kb + i, 0⟩ := by
    have hmap : (bg.blocks ils).filter (fun b => bg.kb + 4 ≤ b.col) =
        (bg.edges.filter fun e => bg.kb + 4 ≤ e.col).map block := List.filter_map
    rw [hmap, hextension, List.map_map]
    refine List.map_congr_left fun i _ => ?_
    fin_cases ils <;> rfl
  refine ⟨by cases bg <;> decide, ?_, QuasiCyclic.extension_of_filter hidentities⟩
  rw [hpart 0 (by omega), hpart 1 (by omega), hpart 2 (by omega), hpart 3 (by omega)]
  exact hshifts

/-- `mod_shift` is the remainder. -/
theorem mod_shift_eq {v : Int} {zc : Nat} (hv : 0 ≤ v) :
    (modShift v zc).toNat = v.toNat % zc := by
  obtain ⟨n, rfl⟩ := Int.eq_ofNat_of_zero_le hv
  have hmod : (n : Int).tmod zc = ((n % zc : Nat) : Int) := by
    rw [Int.tmod_eq_emod_of_nonneg (by omega)]
    rfl
  have hnonneg : ¬((n % zc : Nat) : Int) < 0 := by omega
  simp only [modShift, hmod, if_neg hnonneg, Int.toNat_natCast]

/-- The circulants of a whole base graph are its blocks with reduced shifts. -/
theorem circulants_graph (bg : BaseGraph) (kb : Nat) (lift : Lifting) (hils : lift.iLs ≤ 7)
    (hkb : 0 < kb ∧ kb < bg.nb) : (bg.graph kb lift hils hkb).circulants =
      (bg.blocks ⟨lift.iLs, by omega⟩).map (QuasiCyclic.reduce lift.zc) := by
  have hnonneg (e : BgEdge) (he : e ∈ bg.edges) :
      0 ≤ (bg.graph kb lift hils hkb).rawShift e := (bg.edges_spec e he).2 _
  have hall : bg.edges.filter (fun e => 0 ≤ (bg.graph kb lift hils hkb).rawShift e) = bg.edges :=
    List.filter_eq_self.mpr fun e he => decide_eq_true (hnonneg e he)
  unfold Graph.circulants BaseGraph.blocks
  rw [List.map_map]
  show List.map _ (bg.edges.filter _) = _
  rw [hall]
  refine List.map_congr_left fun e he => ?_
  simp only [Graph.circulant, Graph.shiftOf, Function.comp, QuasiCyclic.reduce]
  rw [mod_shift_eq (hnonneg e he)]
  rfl

/-- Cutting a graph truncates its circulants. -/
theorem circulants_cut (g : Graph) {mbUse : Int} (h : mbUse > 0) :
    (g.cut mbUse).circulants = QuasiCyclic.truncate g.kb mbUse.toNat g.circulants := by
  rw [Graph.cut, dif_pos h]
  simp only [Graph.circulants, QuasiCyclic.truncate]
  rw [List.filter_map, List.filter_filter, List.filter_filter]
  show List.map g.circulant _ = List.map g.circulant _
  congr 1
  refine List.filter_congr fun e _ => ?_
  rw [Bool.and_comm]
  rfl

/-- The blocks of a base graph are those of all its rows and columns. -/
theorem BaseGraph.truncate_blocks (bg : BaseGraph) (ils : Fin 8) (zc : Nat) :
    QuasiCyclic.truncate bg.kb bg.mb ((bg.blocks ils).map (QuasiCyclic.reduce zc)) =
      (bg.blocks ils).map (QuasiCyclic.reduce zc) := by
  refine List.filter_eq_self.mpr fun b hb => ?_
  obtain ⟨block, hblock, rfl⟩ := List.mem_map.mp hb
  obtain ⟨e, he, rfl⟩ := List.mem_map.mp hblock
  obtain ⟨hrow, hcol⟩ := (bg.edges_spec e he).1
  rw [bg.nb_eq] at hcol
  exact decide_eq_true ⟨hrow, hcol⟩

/-- The parameters of the standard's codes: a size of the table, any set, the base graph's own
number of information columns, and all rows or at least the core ones. -/
structure LdpcParams.IsStandard (p : LdpcParams) : Prop where
  zc_valid : 0 < p.zc ∧ isValidLiftingSize p.zc
  ils_le : p.iLs ≤ 7
  kb_default : p.kb ≤ 0 ∨ p.kb = p.bg.kb
  mb_use : p.mbUse ≤ 0 ∨ 4 ≤ p.mbUse ∧ p.mbUse ≤ p.bg.mb

/-- Lifting size 2 on all rows of the second base graph, with any number of declared bits. -/
theorem standard_two (infoBits : Int) : ({ zc := 2, infoBits } : LdpcParams).IsStandard where
  zc_valid := (by decide : 0 < (2 : Int) ∧ isValidLiftingSize 2)
  ils_le := (by decide : (-1 : Int) ≤ 7)
  kb_default := .inl (by decide : (-1 : Int) ≤ 0)
  mb_use := .inl (by decide : (-1 : Int) ≤ 0)

/-- The number of rows that parameters ask for. -/
def LdpcParams.rows (p : LdpcParams) : Nat := if p.mbUse > 0 then p.mbUse.toNat else p.bg.mb

/-- What the graphs of such parameters have in common. -/
structure Graph.IsStandard (g : Graph) (bg : BaseGraph) : Prop where
  kb_eq : g.kb = bg.kb
  nb_eq : g.nb = g.kb + g.mb
  mb_range : 4 ≤ g.mb ∧ g.mb ≤ bg.mb
  circulants_eq : g.circulants =
    QuasiCyclic.truncate bg.kb g.mb ((bg.blocks g.iLs).map (QuasiCyclic.reduce g.zc))

/-- The code of a standard graph is dual-diagonal. -/
theorem Graph.IsStandard.dual_diagonal {g : Graph} {bg : BaseGraph} (h : g.IsStandard bg) :
    QuasiCyclic.DualDiagonal g.kb g.mb g.circulants := by
  rw [h.circulants_eq, h.kb_eq]
  exact ((bg.dual_diagonal g.iLs).reduce g.zc).truncate h.mb_range.1 h.mb_range.2

/-- `chooseLifting` accepts standard parameters and keeps the size. -/
theorem choose_lifting_standard {p : LdpcParams} (hp : p.IsStandard) :
    ∃ lift, chooseLifting p = .ok lift ∧ (lift.zc : Int) = p.zc ∧ lift.iLs ≤ 7 := by
  obtain ⟨hpos, hvalid⟩ := hp.zc_valid
  obtain ⟨ils, hset⟩ := Option.isSome_iff_exists.mp hvalid
  have hils := hp.ils_le
  obtain ⟨_, _, hrow⟩ := i_ls_for_zc_spec hpos hset
  refine ⟨⟨p.zc.toNat, if p.iLs ≥ 0 then p.iLs.toNat else ils, by omega⟩, ?_, by simp; omega, ?_⟩
  · rw [chooseLifting, dif_pos hpos, hset]
  · show (if p.iLs ≥ 0 then p.iLs.toNat else ils) ≤ 7
    split <;> omega

/-- The number of information columns of parameters with the default. -/
theorem kb_of_default {p : LdpcParams} (hkb : p.kb ≤ 0 ∨ p.kb = p.bg.kb) : p.kbOf = p.bg.kb := by
  unfold LdpcParams.kbOf
  rcases hkb with hkb | hkb <;> split <;> omega

/-- The dimensions of the graph of parameters, and its filler. -/
theorem make_graph_dims {p : LdpcParams} {g : Graph} (hg : makeGraph p = .ok g) :
    g.kb = p.kbOf ∧ (0 < p.zc → (g.zc : Int) = p.zc) ∧ (p.zc ≤ 0 → 0 < p.infoBits) ∧
      g.filler = if p.infoBits > 0 then (g.kOf : Int) - p.infoBits else 0 := by
  obtain ⟨lift, hils, hcols, hlift, _, _, rfl⟩ := make_graph_eq_ok.mp hg
  have hchosen : (0 < p.zc → (lift.zc : Int) = p.zc) ∧ (p.zc ≤ 0 → 0 < p.infoBits) := by
    unfold chooseLifting at hlift
    split at hlift
    case isTrue hpos =>
      cases hset : iLsForZc p.zc with
      | none => simp [hset] at hlift
      | some ils =>
          simp only [hset, Except.ok.injEq] at hlift
          subst hlift
          exact ⟨fun _ => Int.toNat_of_nonneg (by omega), fun hle => by omega⟩
    case isFalse hpos =>
      rw [require_bind_eq_ok] at hlift
      exact ⟨fun h => absurd h hpos, fun _ => hlift.1⟩
  obtain ⟨hsize, hdeclared⟩ := hchosen
  unfold Graph.kOf Graph.fill Graph.cut
  split
  · exact ⟨rfl, hsize, hdeclared, by simp [BaseGraph.graph]⟩
  · exact ⟨rfl, hsize, hdeclared, by simp [BaseGraph.graph]⟩

/-- The parity columns of all rows exist exactly when the graph is cut, which adds them, or has no
more information columns than the base graph. -/
theorem parity_fits_iff {p : LdpcParams} {g : Graph} (hg : makeGraph p = .ok g) :
    g.kb + g.mb ≤ g.nb ↔ 0 < p.mbUse ∨ p.kb ≤ p.bg.kb := by
  obtain ⟨lift, hils, hkb, _, _, _, rfl⟩ := make_graph_eq_ok.mp hg
  have hnb := p.bg.nb_eq
  unfold Graph.fill Graph.cut
  by_cases hcut : p.mbUse > 0
  · rw [dif_pos hcut]
    exact iff_of_true (Nat.le_refl _) (.inl hcut)
  · rw [dif_neg hcut]
    show p.kbOf + p.bg.mb ≤ p.bg.nb ↔ 0 < p.mbUse ∨ p.kb ≤ p.bg.kb
    unfold LdpcParams.kbOf
    split <;> omega

/-- A graph of parameters with the default number of information columns has as many parity columns
as rows, and the lifting size asked for. -/
theorem make_graph_default {p : LdpcParams} (hkb : p.kb ≤ 0 ∨ p.kb = p.bg.kb) {g : Graph}
    (hg : makeGraph p = .ok g) : g.kb = p.bg.kb ∧ g.nb = g.kb + g.mb ∧
      (0 < p.zc → (g.zc : Int) = p.zc) ∧ (p.zc ≤ 0 → 0 < p.infoBits) := by
  obtain ⟨hkbOf, hsize, hdeclared, _⟩ := make_graph_dims hg
  rw [kb_of_default hkb] at hkbOf
  refine ⟨hkbOf, ?_, hsize, hdeclared⟩
  obtain ⟨lift, hils, hcols, _, _, _, rfl⟩ := make_graph_eq_ok.mp hg
  have hnb := p.bg.nb_eq
  have hdefault := kb_of_default hkb
  unfold Graph.fill Graph.cut
  split
  · rfl
  · show p.bg.nb = p.kbOf + p.bg.mb
    omega

/-- `makeGraph` accepts standard parameters whose block fits and returns a standard graph with
their size, set and rows. -/
theorem make_graph_standard {p : LdpcParams} (hp : p.IsStandard)
    (hinfo : p.infoBits ≤ p.bg.kb * p.zc) : ∃ g lift, makeGraph p = .ok g ∧
      chooseLifting p = .ok lift ∧ g.zc = p.zc.toNat ∧ g.iLs.val = lift.iLs ∧
      g.mb = p.rows ∧ g.IsStandard p.bg := by
  obtain ⟨lift, hlift, hzc, hils⟩ := choose_lifting_standard hp
  have hkbOf := kb_of_default hp.kb_default
  have hkb : 0 < p.kbOf ∧ p.kbOf < p.bg.nb := by
    rw [hkbOf]
    cases p.bg <;> decide
  have hrows : p.mbUse > 0 → p.mbUse ≤ p.bg.mb := by
    have := hp.mb_use
    omega
  have hfits : p.infoBits > 0 → p.infoBits ≤ p.kbOf * lift.zc := by
    intro _
    rwa [hkbOf, hzc]
  refine ⟨_, lift, make_graph_eq_ok.mpr ⟨lift, hils, hkb, hlift, hrows, hfits, rfl⟩, hlift, ?_⟩
  have hbase := circulants_graph p.bg p.kbOf lift hils hkb
  have hnb := p.bg.nb_eq
  have hfour : 4 ≤ p.bg.mb := (p.bg.dual_diagonal 0).four_le
  unfold Graph.fill
  by_cases hcut : p.mbUse > 0
  · have hm : 4 ≤ p.mbUse.toNat ∧ p.mbUse.toNat ≤ p.bg.mb := by
      have := hp.mb_use
      omega
    have hcirculants := circulants_cut (p.bg.graph p.kbOf lift hils hkb) hcut
    rw [hbase] at hcirculants
    rw [Graph.cut, dif_pos hcut] at hcirculants ⊢
    refine ⟨by show lift.zc = _; omega, rfl, ?_, hkbOf, rfl, hm, ?_⟩
    · rw [LdpcParams.rows, if_pos hcut]
    · exact hkbOf ▸ hcirculants
  · rw [Graph.cut, dif_neg hcut]
    refine ⟨by show lift.zc = _; omega, rfl, ?_, hkbOf, ?_, ⟨hfour, Nat.le_refl _⟩, ?_⟩
    · rw [LdpcParams.rows, if_neg hcut]
      rfl
    · show p.bg.nb = p.kbOf + p.bg.mb
      omega
    · exact hbase.trans (p.bg.truncate_blocks _ _).symm

/-- The declared bits of standard parameters that `makeGraph` accepts fit. -/
theorem info_bits_le {p : LdpcParams} (hp : p.IsStandard) {g : Graph} (hg : makeGraph p = .ok g) :
    p.infoBits ≤ p.bg.kb * p.zc := by
  obtain ⟨lift, _, _, hlift, _, hfits, _⟩ := make_graph_eq_ok.mp hg
  obtain ⟨lift', hlift', hzc, _⟩ := choose_lifting_standard hp
  rw [hlift, Except.ok.injEq] at hlift'
  subst hlift'
  have hpos := hp.zc_valid.1
  have hnonneg : 0 ≤ (p.bg.kb : Int) * p.zc := Int.mul_nonneg (by omega) (by omega)
  rw [kb_of_default hp.kb_default, hzc] at hfits
  omega

/-- The graph of standard parameters is standard. -/
theorem graph_standard {p : LdpcParams} (hp : p.IsStandard) {g : Graph}
    (hg : makeGraph p = .ok g) : g.zc = p.zc.toNat ∧ g.mb = p.rows ∧ g.IsStandard p.bg := by
  obtain ⟨g', _, hg', _, hzc, _, hrows, hstandard⟩ := make_graph_standard hp (info_bits_le hp hg)
  rw [hg, Except.ok.injEq] at hg'
  subst hg'
  exact ⟨hzc, hrows, hstandard⟩

/-- The information part of a standard graph. -/
theorem Graph.IsStandard.k_of {g : Graph} {bg : BaseGraph} (h : g.IsStandard bg) :
    g.kOf = bg.kb * g.zc := by
  rw [Graph.kOf, h.kb_eq]

/-- The length of a standard graph. -/
theorem Graph.IsStandard.n_of {g : Graph} {bg : BaseGraph} (h : g.IsStandard bg) :
    g.nOf = (bg.kb + g.mb) * g.zc := by
  rw [Graph.nOf, h.nb_eq, h.kb_eq]

end NrBaseband
