import NrBaseband.Ldpc.Decode
import NrBaseband.Ldpc.Scaling
import NrBaseband.Ldpc.Symmetry
import NrBaseband.Foundation.TannerSymmetry

/-!
# Decoding rotated soft values

A symmetry of the lifted graph renames the messages of the min-sum decoder. The sums of the
variables and the minima and signs of the checks do not depend on the order of the edges, so every
quantity of an iteration is the renamed one. `decode_rotated` is the result for the rotations of a
quasi-cyclic code, infinities and invalid values included.
-/

namespace NrBaseband

open Foundation Foundation.MachineInt Foundation.TannerGraph

variable {R : Type} [Field R] [LinearOrder R]

/-- The soft values with each block of length `zc` rotated by `t` positions. -/
def rotateLlr (zc t : Nat) (llr : SoftVec (Extended R)) : SoftVec (Extended R) :=
  table llr.length fun p => llr.getD (QuasiCyclic.rotated zc t p) .nan

omit [Field R] [LinearOrder R] in
/-- Rotating keeps the number of soft values. -/
@[simp] theorem length_rotate_llr (zc t : Nat) (llr : SoftVec (Extended R)) :
    (rotateLlr zc t llr).length = llr.length := by
  simp [rotateLlr]

section Renaming

variable {edges : List SparseEdge} (σ : Symmetry edges)

/-- The messages along the renamed edges. -/
def Messages.renamed (m : Messages R edges) : Messages R edges := Vector.ofFn fun i => m[σ.edge i]

omit [Field R] [LinearOrder R] in
/-- A renamed message is that of the other edge. -/
@[simp] theorem get_renamed (m : Messages R edges) {i : Nat} (hi : i < edges.length) :
    (m.renamed σ)[i] = m[σ.edge ⟨i, hi⟩] := by
  simp [Messages.renamed]

/-- The edges of a renamed variable. -/
theorem var_edges_perm (v : Nat) :
    (varEdges edges (σ.var v)).Perm ((varEdges edges v).map σ.edge) :=
  σ.filter_perm fun i => by
    rw [σ.var_edge, decide_eq_decide]
    exact σ.var_injective.eq_iff

/-- The edges of a renamed check. -/
theorem chk_edges_perm (c : Nat) :
    (chkEdges edges (σ.check c)).Perm ((chkEdges edges c).map σ.edge) :=
  σ.filter_perm fun i => by
    rw [σ.check_edge, decide_eq_decide]
    exact σ.check_injective.eq_iff

omit [LinearOrder R] in
/-- The sum of a renamed variable. -/
theorem posterior_renamed {channel renamed : SoftVec (Extended R)} {v : Nat}
    (hchannel : renamed.getD v .nan = channel.getD (σ.var v) .nan) (c2v : Messages R edges) :
    posterior edges renamed (c2v.renamed σ) v = posterior edges channel c2v (σ.var v) := by
  have hcomm : RightCommutative fun (sum : Extended R) (i : Fin edges.length) =>
      sum.add c2v[i] := ⟨fun sum i j => Extended.add_swap sum c2v[i] c2v[j]⟩
  rw [posterior, posterior, hchannel, (var_edges_perm σ v).foldl_eq, List.foldl_map]
  simp only [Fin.getElem_fin, get_renamed]

omit [LinearOrder R] in
/-- The messages to the renamed checks. -/
theorem variable_pass_renamed {channel renamed : SoftVec (Extended R)}
    (hchannel : ∀ v, renamed.getD v .nan = channel.getD (σ.var v) .nan)
    (c2v : Messages R edges) :
    variablePass edges renamed (c2v.renamed σ) = (variablePass edges channel c2v).renamed σ := by
  refine Vector.ext fun i hi => ?_
  have hvar := σ.var_edge ⟨i, hi⟩
  rw [Fin.getElem_fin, Fin.getElem_fin] at hvar
  rw [get_renamed]
  simp only [variablePass, Vector.getElem_ofFn, Fin.getElem_fin, get_renamed, hvar,
    posterior_renamed σ (hchannel _)]

/-- The minimum and the sign over the other edges of a renamed check. -/
theorem min_and_sign_renamed (v2c : Messages R edges) (c : Nat) (i : Fin edges.length) :
    minAndSign edges (v2c.renamed σ) (chkEdges edges c) i =
      minAndSign edges v2c (chkEdges edges (σ.check c)) (σ.edge i) := by
  have hothers : ((chkEdges edges (σ.check c)).filter fun j => j ≠ σ.edge i).Perm
      (((chkEdges edges c).filter fun j => j ≠ i).map σ.edge) := by
    refine ((chk_edges_perm σ c).filter _).trans (List.Perm.of_eq ?_)
    rw [List.filter_map]
    congr 1
    refine List.filter_congr fun j _ => ?_
    simp [σ.edge.injective.eq_iff]
  have hcomm : RightCommutative fun (state : Extended R × R) (j : Fin edges.length) =>
      (if v2c[j].abs.lt state.1 then v2c[j].abs else state.1,
        if v2c[j].lt (.finite 0) then -state.2 else state.2) := by
    refine ⟨fun state j k => Prod.ext (Extended.least_swap _ _ _) ?_⟩
    dsimp only
    split <;> split <;> rfl
  unfold minAndSign
  rw [hothers.foldl_eq, List.foldl_map]
  simp only [Fin.getElem_fin, get_renamed]

/-- The messages to the renamed variables. -/
theorem check_pass_renamed (v2c : Messages R edges) :
    checkPass edges (v2c.renamed σ) = (checkPass edges v2c).renamed σ := by
  refine Vector.ext fun i hi => ?_
  have hcheck := σ.check_edge ⟨i, hi⟩
  rw [Fin.getElem_fin, Fin.getElem_fin] at hcheck
  rw [get_renamed]
  simp only [checkPass, Vector.getElem_ofFn, Fin.getElem_fin, hcheck, min_and_sign_renamed]

end Renaming

/-! ## The code of a graph -/

/-- Rotating by `t` positions as a symmetry of the decoder's edge lists. -/
theorem exists_rotation (g : Graph) (t : Nat) : ∃ σ : Symmetry (expandEdges g),
    σ.var = QuasiCyclic.rotated g.zc t ∧ σ.check = QuasiCyclic.rotated g.zc t := by
  rw [expand_edges_eq_lift]
  exact ⟨QuasiCyclic.rotation g.zc_pos t g.circulants, rfl, rfl⟩

/-- Rotating forth and back. -/
theorem rotate_blocks_back {zc n : Nat} (hzc : 0 < zc) (t : Nat) {w : Bits}
    (hlength : w.length = n * zc) :
    rotateBlocks zc (zc - t % zc) (rotateBlocks zc t w) = w := by
  rw [rotateBlocks, length_rotate_blocks]
  conv_rhs => rw [Table.eq_table w 0]
  refine Table.table_congr fun p hp => ?_
  have hmoved : QuasiCyclic.rotated zc (zc - t % zc) p < w.length := by
    rw [hlength] at hp ⊢
    exact (QuasiCyclic.rotated_lt_iff hzc _).mpr hp
  have hback : QuasiCyclic.rotated zc t (QuasiCyclic.rotated zc (zc - t % zc) p) = p := by
    rw [QuasiCyclic.rotated_rotated hzc, Nat.add_comm, ← QuasiCyclic.rotated_rotated hzc,
      QuasiCyclic.rotated_back hzc]
  rw [rotateBlocks, Table.getD_table hmoved, hback]

/-- The decoder's test accepts a rotated hard decision exactly when it accepts the decision. -/
theorem syndrome_rotated (g : Graph) (t : Nat) {hard : Bits} (hbits : IsBits hard)
    (hlength : hard.length = g.nOf) : g.syndrome (rotateBlocks g.zc t hard) = g.syndrome hard := by
  have hcode {w : Bits} (hw : IsBits w) (hwlength : w.length = g.nOf) :
      g.syndrome w = true ↔ g.IsCodeword w := by
    rw [syndrome_iff g hw]
    exact ⟨fun h => ⟨hwlength, hw, h⟩, fun h => h.checks⟩
  rw [Bool.eq_iff_iff, hcode (is_bits_rotate hbits _ _) (by rw [length_rotate_blocks, hlength]),
    hcode hbits hlength]
  constructor
  · intro h
    have hback := h.rotate (g.zc - t % g.zc)
    rwa [rotate_blocks_back g.zc_pos t hlength] at hback
  · exact fun h => h.rotate t

variable {g : Graph} {channel : SoftVec (Extended R)}

omit [Field R] [LinearOrder R] in
/-- A rotated channel is the renamed one at every variable. -/
theorem channel_rotated (hlength : channel.length = g.nOf) (t v : Nat) :
    (rotateLlr g.zc t channel).getD v .nan =
      channel.getD (QuasiCyclic.rotated g.zc t v) .nan := by
  by_cases hv : v < channel.length
  · exact Table.getD_table hv _
  · have hmoved : ¬QuasiCyclic.rotated g.zc t v < channel.length := by
      rw [hlength, Graph.nOf, QuasiCyclic.rotated_lt_iff g.zc_pos]
      rwa [← Graph.nOf, ← hlength]
    rw [List.getD_eq_default _ _ (by rw [length_rotate_llr]; omega),
      List.getD_eq_default _ _ (by omega)]

/-- The hard decisions on renamed messages are the rotated ones. -/
theorem hard_of_rotated (hlength : channel.length = g.nOf) {t : Nat}
    {σ : Symmetry (expandEdges g)} (hvar : σ.var = QuasiCyclic.rotated g.zc t)
    (c2v : Messages R (expandEdges g)) :
    hardOf (posteriors g.nOf (expandEdges g) (rotateLlr g.zc t channel) (c2v.renamed σ)) =
      rotateBlocks g.zc t (hardOf (posteriors g.nOf (expandEdges g) channel c2v)) := by
  have hchannel (v : Nat) := hvar.symm ▸ channel_rotated hlength t v
  have hcount : (hardOf (posteriors g.nOf (expandEdges g) channel c2v)).length = g.nOf := by
    simp [hardOf, posteriors]
  rw [rotateBlocks, hcount, hardOf, posteriors, List.map_map]
  refine Table.table_congr fun v hv => ?_
  have hmoved : QuasiCyclic.rotated g.zc t v < g.nOf :=
    (QuasiCyclic.rotated_lt_iff g.zc_pos t).mpr hv
  rw [Function.comp, posterior_renamed σ (hchannel v), hvar, hardOf, posteriors, List.map_map,
    ← table, Table.getD_table hmoved, Function.comp]

/-- The iterations end with the rotated decision. -/
theorem minsum_loop_rotated (hlength : channel.length = g.nOf) {t : Nat}
    {σ : Symmetry (expandEdges g)} (hvar : σ.var = QuasiCyclic.rotated g.zc t)
    (iterations : Nat) (c2v : Messages R (expandEdges g)) :
    minsumLoop g (rotateLlr g.zc t channel) iterations (c2v.renamed σ) =
      let decision := minsumLoop g channel iterations c2v
      { decision with hard := rotateBlocks g.zc t decision.hard } := by
  have hchannel (v : Nat) := hvar.symm ▸ channel_rotated hlength t v
  induction iterations generalizing c2v with
  | zero =>
      rw [minsumLoop, minsumLoop, hard_of_rotated hlength hvar]
  | succ iterations ih =>
      have hbits := is_bits_hard (posteriors g.nOf (expandEdges g) channel c2v)
      have hsyndrome := syndrome_rotated g t hbits (by simp [hardOf, posteriors])
      rw [minsumLoop, minsumLoop, hard_of_rotated hlength hvar, hsyndrome]
      dsimp only
      split
      · rfl
      · rw [variable_pass_renamed σ hchannel, check_pass_renamed, ih]

omit [Field R] [LinearOrder R] in
/-- The first blocks of rotated soft values. -/
theorem take_rotate_llr {zc n : Nat} (hzc : 0 < zc) (t : Nat) {llr : SoftVec (Extended R)}
    (h : n * zc ≤ llr.length) :
    (rotateLlr zc t llr).take (n * zc) = rotateLlr zc t (llr.take (n * zc)) := by
  rw [rotateLlr, rotateLlr, Table.take_table h, List.length_take, Nat.min_eq_left h]
  refine Table.table_congr fun p hp => ?_
  have hmoved := (QuasiCyclic.rotated_lt_iff hzc t).mpr hp
  rw [List.getD_eq_getElem?_getD, List.getD_eq_getElem?_getD, List.getElem?_take_of_lt hmoved]

/-- `decode_minsum` of rotated soft values returns the rotated decision. -/
theorem decode_minsum_rotated (g : Graph) (t : Nat) (llr : SoftVec (Extended R)) (maxIter : Int) :
    decodeMinsum (rotateLlr g.zc t llr) g maxIter = decodeMinsum llr g maxIter >>= fun decision =>
      .ok { decision with hard := rotateBlocks g.zc t decision.hard } := by
  rw [decodeMinsum, decodeMinsum, length_rotate_llr]
  by_cases hlength : toInt32 llr.length = g.nOf
  · have hlong : g.nOf ≤ llr.length := by
      have hle := to_int32_le (Int.natCast_nonneg llr.length)
      omega
    obtain ⟨σ, hvar, -⟩ := exists_rotation g t
    have hzero : Messages.renamed σ (Vector.replicate (expandEdges g).length (.finite 0)) =
        (Vector.replicate (expandEdges g).length (.finite 0) : Messages R (expandEdges g)) :=
      Vector.ext fun i hi => by simp
    have hchannel : (rotateLlr g.zc t llr).take g.nOf = rotateLlr g.zc t (llr.take g.nOf) :=
      take_rotate_llr g.zc_pos t hlong
    have htake : (llr.take g.nOf).length = g.nOf := by
      rw [List.length_take]
      omega
    rw [require_of hlength, Checked.ok_bind, Checked.ok_bind, read_first hlong,
      read_first (by rwa [length_rotate_llr]), Checked.ok_bind, Checked.ok_bind, hchannel]
    conv_lhs => rw [← hzero, minsum_loop_rotated htake hvar]
    rfl
  · rw [require_of_not hlength]
    rfl

/-- The loop ends with a decision on every position. -/
theorem length_minsum_loop (g : Graph) (channel : SoftVec (Extended R)) (iterations : Nat)
    (c2v : Messages R (expandEdges g)) :
    (minsumLoop g channel iterations c2v).hard.length = g.nOf := by
  induction iterations generalizing c2v with
  | zero => simp [minsumLoop, hardOf, posteriors]
  | succ iterations ih =>
      rw [minsumLoop]
      split
      · simp [hardOf, posteriors]
      · exact ih _

/-- A decision that is returned is on every position. -/
theorem length_decode_minsum {llr : SoftVec (Extended R)} {maxIter : Int} {decision : Decision}
    (h : decodeMinsum llr g maxIter = .ok decision) : decision.hard.length = g.nOf := by
  rw [decodeMinsum, require_bind_eq_ok, Checked.bind_eq_ok] at h
  obtain ⟨-, channel, -, hloop⟩ := h
  rw [Checked.pure_eq_ok, Except.ok.injEq] at hloop
  rw [← hloop, length_minsum_loop]

/-- Rotating every block of the soft values by the same number of positions rotates every block of
what is decoded, for all parameters, numbers of iterations and soft values. -/
theorem decode_rotated {p : LdpcParams} {g : Graph} (hg : makeGraph p = .ok g) (t : Nat)
    (llr : SoftVec (Extended R)) :
    ldpcDecode (rotateLlr g.zc t llr) p = rotateBlocks g.zc t <$> ldpcDecode llr p := by
  rw [ldpcDecode, ldpcDecode, ldpcDecision, ldpcDecision]
  by_cases hdeclared : p.zc = 0 → p.infoBits > 0
  · rw [require_of hdeclared, Checked.ok_bind, Checked.ok_bind, hg, Checked.ok_bind,
      Checked.ok_bind, decode_minsum_rotated]
    cases hdecision : decodeMinsum llr g p.maxIter with
    | error fault => rfl
    | ok decision =>
        have hlong : g.kb * g.zc ≤ decision.hard.length := by
          rw [length_decode_minsum hdecision]
          exact g.k_of_le
        simp only [Checked.ok_bind, Checked.pure_eq_ok]
        exact congrArg Except.ok (take_rotate g.zc_pos g.kb t hlong)
  · rw [require_of_not hdeclared]
    rfl

/-- Soft values of lifting size 2, an infinity among them. -/
theorem decode_rotated_two : ∃ g, makeGraph { zc := 2 } = .ok g ∧
    ldpcDecode (rotateLlr g.zc 1 (.posInf :: List.replicate 103 (.finite (-1 / 2 : ℚ))))
        { zc := 2 } =
      rotateBlocks g.zc 1 <$>
        ldpcDecode (.posInf :: List.replicate 103 (.finite (-1 / 2 : ℚ))) { zc := 2 } := by
  obtain ⟨g, _, hg, _⟩ := make_graph_standard (standard_two (-1)) (by decide)
  exact ⟨g, hg, decode_rotated hg 1 _⟩

end NrBaseband
