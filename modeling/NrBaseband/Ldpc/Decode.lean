import NrBaseband.Ldpc.Encode
import NrBaseband.Foundation.Extended
import NrBaseband.Foundation.Table
import Mathlib.Algebra.Field.Defs

/-!
# The min-sum decoder

The iteration of `decode_minsum` over the edge lists of the lifted graph. A run ends with a hard
decision and whether the syndrome test accepted it. `syndrome_iff` connects that test to the code
of the graph, and `decoder_checker_encoder_agree` says that the decoder's test, the dense checker
and the encoder have one notion of a code word.
-/

namespace NrBaseband

open Foundation Foundation.MachineInt Foundation.TannerGraph

variable {R : Type} [Field R] [LinearOrder R]

/-- `var_edges[v]`: the edges of variable `v` in order. -/
def varEdges (edges : List SparseEdge) (v : Nat) : List (Fin edges.length) :=
  (List.finRange edges.length).filter fun i => edges[i].var = v

/-- `chk_edges[c]`: the edges of check `c` in order. -/
def chkEdges (edges : List SparseEdge) (c : Nat) : List (Fin edges.length) :=
  (List.finRange edges.length).filter fun i => edges[i].check = c

/-- The messages along the edges, `msg_c2v` or `msg_v2c`. -/
abbrev Messages (R : Type) (edges : List SparseEdge) : Type := Vector (Extended R) edges.length

/-- The variable `sum` of variable `v`: its channel value plus the messages it receives. -/
def posterior (edges : List SparseEdge) (channel : SoftVec (Extended R)) (c2v : Messages R edges)
    (v : Nat) : Extended R :=
  (varEdges edges v).foldl (fun sum i => sum.add c2v[i]) (channel.getD v .nan)

/-- The vector `app`. -/
def posteriors (n : Nat) (edges : List SparseEdge) (channel : SoftVec (Extended R))
    (c2v : Messages R edges) : SoftVec (Extended R) :=
  (List.range n).map (posterior edges channel c2v)

/-- The messages to the checks: the sum of the variable without the message of the edge. -/
def variablePass (edges : List SparseEdge) (channel : SoftVec (Extended R))
    (c2v : Messages R edges) : Messages R edges :=
  Vector.ofFn fun i => (posterior edges channel c2v edges[i].var).sub c2v[i]

/-- The variables `min1` and `sign` after the other edges of a check. -/
def minAndSign (edges : List SparseEdge) (v2c : Messages R edges) (els : List (Fin edges.length))
    (i : Fin edges.length) : Extended R × R :=
  (els.filter fun j => j ≠ i).foldl (fun (min1, sign) j =>
    let a := v2c[j].abs
    (if a.lt min1 then a else min1, if v2c[j].lt (.finite 0) then -sign else sign)) (.posInf, 1)

/-- The messages to the variables. -/
def checkPass (edges : List SparseEdge) (v2c : Messages R edges) : Messages R edges :=
  Vector.ofFn fun i =>
    let (min1, sign) := minAndSign edges v2c (chkEdges edges edges[i].check) i
    (min1.scale sign).scale (3 / 4)

/-- `hard_of`. -/
def hardOf (app : SoftVec (Extended R)) : Bits := app.map fun a => if a.nonneg then 0 else 1

/-- `syndrome`: every check of the edge lists is even on the hard decision. -/
def Graph.syndrome (g : Graph) (hard : Bits) : Bool :=
  let edges := expandEdges g
  (List.range g.mOf).all fun c =>
    xorAll ((chkEdges edges c).map fun i => hard.getD edges[i].var 0) == 0

/-- A hard decision and whether the syndrome test accepted it. -/
structure Decision where
  hard : Bits
  accepted : Bool

/-- The loop over the iterations left, and the final decision when none is. -/
def minsumLoop (g : Graph) (channel : SoftVec (Extended R)) :
    Nat → Messages R (expandEdges g) → Decision
  | 0, c2v => { hard := hardOf (posteriors g.nOf (expandEdges g) channel c2v), accepted := false }
  | iterations + 1, c2v =>
      let hard := hardOf (posteriors g.nOf (expandEdges g) channel c2v)
      if g.syndrome hard then { hard, accepted := true }
      else minsumLoop g channel iterations
        (checkPass (expandEdges g) (variablePass (expandEdges g) channel c2v))

/-- `decode_minsum` up to the information bits that it returns. -/
def decodeMinsum (llr : SoftVec (Extended R)) (g : Graph) (maxIter : Int) : Checked Decision := do
  require (toInt32 llr.length = g.nOf) "LLR length must equal nb*zc"
  let channel ← (List.range g.nOf).mapM (Checked.read llr)
  return minsumLoop g channel maxIter.toNat (Vector.replicate _ (.finite 0))

/-- `ldpc_decode` with the whole hard decision and whether it was accepted. -/
def ldpcDecision (llr : SoftVec (Extended R)) (p : LdpcParams) : Checked (Graph × Decision) := do
  require (p.zc = 0 → p.infoBits > 0) "decode with zc==0 needs info_bits"
  let g ← makeGraph p
  let decision ← decodeMinsum llr g p.maxIter
  return (g, decision)

/-- `ldpc_decode`. -/
def ldpcDecode (llr : SoftVec (Extended R)) (p : LdpcParams) : Checked Bits := do
  let (g, decision) ← ldpcDecision llr p
  return decision.hard.take g.kOf

/-- The bytes at the edges of a check add up to the check of the graph. -/
theorem sum_chk_edges (edges : List SparseEdge) (hard : Bits) (c : Nat) :
    ((chkEdges edges c).map fun i => gf2 (hard.getD edges[i].var 0)).sum =
      checkSum edges (wordOf hard) c := by
  have hfilter (is : List (Fin edges.length)) :
      ((is.filter fun i => edges[i].check = c).map fun i => gf2 (hard.getD edges[i].var 0)).sum =
      (is.map fun i => if edges[i].check = c then wordOf hard edges[i].var else 0).sum := by
    induction is with
    | nil => rfl
    | cons i is ih =>
        by_cases hcheck : edges[i].check = c
        · rw [List.filter_cons_of_pos (by simpa using hcheck)]
          simp only [List.map_cons, List.sum_cons, ih, if_pos hcheck]
          rfl
        · rw [List.filter_cons_of_neg (by simpa using hcheck)]
          simp only [List.map_cons, List.sum_cons, ih, if_neg hcheck, zero_add]
  have hedges : (List.finRange edges.length).map (fun i => edges[i]) = edges :=
    List.map_getElem_finRange edges
  unfold chkEdges
  rw [hfilter, checkSum]
  conv_rhs => rw [← hedges, List.map_map]
  rfl

/-- The decoder's test accepts exactly the hard decisions that pass the checks of the graph. -/
theorem syndrome_iff (g : Graph) {hard : Bits} (hbits : IsBits hard) :
    g.syndrome hard = true ↔ g.Checks (wordOf hard) := by
  have hbit (c : Nat) : IsBit (xorAll ((chkEdges (expandEdges g) c).map
      fun i => hard.getD (expandEdges g)[i].var 0)) := by
    refine is_bit_xor_all fun b hb => ?_
    obtain ⟨i, _, rfl⟩ := List.mem_map.mp hb
    exact hbits.getD _
  simp only [Graph.syndrome, List.all_eq_true, List.mem_range, beq_iff_eq]
  refine forall_congr' fun c => forall_congr' fun _ => ?_
  rw [← gf2_eq_zero (hbit c), gf2_xor_all, List.map_map, ← sum_chk_edges]
  rfl

/-- A hard decision is a bit vector. -/
theorem is_bits_hard (app : SoftVec (Extended R)) : IsBits (hardOf app) := by
  intro b hb
  obtain ⟨a, _, rfl⟩ := List.mem_map.mp hb
  split
  · exact .inl rfl
  · exact .inr rfl

/-- A hard decision that the loop accepts is a code word. -/
theorem minsum_loop_codeword {g : Graph} {channel : SoftVec (Extended R)} {iterations : Nat}
    {c2v : Messages R (expandEdges g)}
    (h : (minsumLoop g channel iterations c2v).accepted = true) :
    g.IsCodeword (minsumLoop g channel iterations c2v).hard := by
  induction iterations generalizing c2v with
  | zero => simp [minsumLoop] at h
  | succ iterations ih =>
      unfold minsumLoop at h ⊢
      by_cases hsyndrome : g.syndrome (hardOf (posteriors g.nOf (expandEdges g) channel c2v)) = true
      · simp only [hsyndrome, if_true]
        have hbits := is_bits_hard (posteriors g.nOf (expandEdges g) channel c2v)
        exact ⟨by simp [hardOf, posteriors], hbits, (syndrome_iff g hbits).mp hsyndrome⟩
      · simp only [hsyndrome] at h ⊢
        exact ih h

/-- What is decoded is no longer than the information part of the code. -/
theorem decode_length {llr : SoftVec (Extended R)} {p : LdpcParams} {out : Bits}
    (h : ldpcDecode llr p = .ok out) : ∃ g, makeGraph p = .ok g ∧ out.length ≤ g.kOf := by
  rw [ldpcDecode, Checked.bind_eq_ok] at h
  obtain ⟨⟨g, decision⟩, hdecision, hout⟩ := h
  rw [ldpcDecision, require_bind_eq_ok, Checked.bind_eq_ok] at hdecision
  obtain ⟨_, g', hg, hrest⟩ := hdecision
  rw [Checked.bind_eq_ok] at hrest
  obtain ⟨_, _, hreturn⟩ := hrest
  simp only [Checked.pure_eq_ok, Except.ok.injEq] at hout hreturn
  cases hreturn
  subst hout
  exact ⟨g, hg, by rw [List.length_take]; exact Nat.min_le_left _ _⟩

omit [LinearOrder R] in
/-- Without messages the soft value of a variable is its channel value. -/
theorem posterior_zero (edges : List SparseEdge) (x : Nat → R) {n v : Nat} (hv : v < n) :
    posterior edges ((table n x).map .finite) (Vector.replicate edges.length (.finite 0)) v =
      .finite (x v) := by
  have hchannel : ((table n x).map Extended.finite).getD v .nan = .finite (x v) := by
    rw [Table.map_table, List.getD_eq_getElem?_getD, Table.getElem?_table hv]
    rfl
  rw [posterior, hchannel]
  exact Extended.foldl_add_zero (fun i _ => by simp) (x v)

/-- Channel values whose signs spell a code word are decoded to it at once, whatever the number of
iterations. -/
theorem decode_signs {p : LdpcParams} {g : Graph} (hzc : p.zc = 0 → p.infoBits > 0)
    (hg : makeGraph p = .ok g)
    {cw : Bits} (hcw : g.IsCodeword cw) {x : Nat → R}
    (hsign : ∀ i < g.nOf, cw.getD i 0 = if 0 ≤ x i then 0 else 1) :
    ldpcDecode ((table g.nOf x).map .finite) p = .ok (cw.take g.kOf) := by
  have hrange := n_of_lt hg
  have hlength : ((table g.nOf x).map Extended.finite).length = g.nOf := by simp
  have hchannel : (List.range g.nOf).mapM (Checked.read ((table g.nOf x).map Extended.finite)) =
      .ok ((table g.nOf x).map Extended.finite) := by
    rw [Table.map_table]
    exact Table.gather fun i hi => Table.read_table hi
  have hhard : hardOf (posteriors g.nOf (expandEdges g) ((table g.nOf x).map Extended.finite)
      (Vector.replicate (expandEdges g).length (.finite 0))) = cw := by
    have hword : cw = table g.nOf fun i => if 0 ≤ x i then 0 else 1 := by
      conv_lhs => rw [Table.eq_table cw 0, hcw.length_eq]
      exact Table.table_congr hsign
    rw [hword, hardOf, posteriors, List.map_map]
    refine Table.table_congr fun i hi => ?_
    simp [posterior_zero _ x hi]
  -- the first test accepts the code word, and without a test the hard decision is the same
  have hloop (iterations : Nat) : (minsumLoop g ((table g.nOf x).map Extended.finite) iterations
      (Vector.replicate (expandEdges g).length (.finite 0))).hard = cw := by
    cases iterations with
    | zero => exact hhard
    | succ iterations =>
        rw [minsumLoop, hhard]
        simp only [(syndrome_iff g hcw.bits).mpr hcw.checks, if_true]
  rw [ldpcDecode, ldpcDecision, require_of hzc, Checked.ok_bind, hg,
    Checked.ok_bind, decodeMinsum, hlength, require_of (to_int32_of_range (by omega) (by omega)),
    Checked.ok_bind, hchannel]
  simp [hloop]

/-- Decoding inverts encoding without noise: soft values of any magnitude whose signs spell the code
word are decoded to the information bits followed by the zeros up to the information part of the
code, whatever the number of iterations. -/
theorem decode_inverts_encode {p : LdpcParams} {info cw : Bits}
    (hzc : 0 < p.zc ∨ p.zc = 0 ∧ p.infoBits = info.length)
    (hkb : p.kb ≤ 0 ∨ p.kb = p.bg.kb) (hcw : ldpcEncode info p = .ok cw) {llr : SoftVec R}
    (hlength : llr.length = cw.length)
    (hsigns : ∀ i (h : i < cw.length), (cw[i] = 0 → 0 < llr[i]) ∧ (cw[i] = 1 → llr[i] < 0)) :
    ∃ g, makeGraph p = .ok g ∧ g.kOf = p.bg.kb * g.zc ∧ (0 < p.zc → (g.zc : Int) = p.zc) ∧
      ldpcDecode (llr.map .finite) p =
        .ok (info ++ List.replicate (g.kOf - info.length) 0) := by
  have hderived : 0 < p.zc ∨ 0 ≤ p.infoBits := hzc.imp_right fun h => by omega
  obtain ⟨hbits, g, base, hg, hbase, hfit, n, hencode⟩ := encode_graph hderived hcw
  obtain ⟨hkbEq, _, hsize, hdeclared⟩ := make_graph_default hkb hg
  have hrange := n_of_lt hg
  subst hbase
  have hpadded : IsBits (info ++ List.replicate (base.kOf - info.length) 0) := by simpa using hbits
  have hfilled : (info ++ List.replicate (base.kOf - info.length) 0).length = base.kOf := by
    simp
    omega
  -- the word is in the code of the encoder's graph, whose checks are those of the decoder's
  have hcode : (base.fill n).IsCodeword cw ∧
      cw.take base.kOf = info ++ List.replicate (base.kOf - info.length) 0 :=
    encode_ge_eq_ok hpadded hfilled hrange hencode
  obtain ⟨⟨hcwLength, hcwBits, hchecks⟩, htake⟩ := hcode
  have hspelled : ∀ i < (base.fill p.infoBits).nOf,
      cw.getD i 0 = if 0 ≤ llr.getD i 0 then 0 else 1 := by
    intro i hi
    have hlt : i < cw.length := hcwLength ▸ hi
    have hllr : i < llr.length := by omega
    obtain ⟨hzero, hone⟩ := hsigns i hlt
    rw [List.getD_eq_getElem?_getD, List.getD_eq_getElem?_getD, List.getElem?_eq_getElem hlt,
      List.getElem?_eq_getElem hllr, Option.getD_some, Option.getD_some]
    rcases hcwBits _ (List.getElem_mem hlt) with hbit | hbit
    · rw [hbit, if_pos (le_of_lt (hzero hbit))]
    · rw [hbit, if_neg (not_le_of_gt (hone hbit))]
  have htable : llr = table (base.fill p.infoBits).nOf fun i => llr.getD i 0 := by
    have hnOf : (base.fill p.infoBits).nOf = llr.length := (hlength.trans hcwLength).symm
    rw [hnOf]
    exact Table.eq_table llr 0
  refine ⟨_, hg, by rw [Graph.kOf, hkbEq], hsize, ?_⟩
  rw [htable, decode_signs (fun h => hdeclared (by omega)) hg ⟨hcwLength, hcwBits, hchecks⟩
    hspelled]
  exact congrArg Except.ok htake

/-- Two information bits of lifting size 2, received with strong zeros and weak ones. -/
theorem decode_inverts_encode_two : ∃ cw, ldpcEncode [1, 0] { zc := 2 } = .ok cw ∧
    ldpcDecode ((cw.map fun b => if b = 0 then (5 : ℚ) else -1).map .finite) { zc := 2 } =
      .ok ([1, 0] ++ List.replicate 18 0) := by
  have hp : ({ zc := 2 } : LdpcParams).IsStandard := standard_two _
  obtain ⟨g, _, hg, _, hzc, _, _, hstandard⟩ := make_graph_standard hp (by decide)
  obtain ⟨cw, hcw, _⟩ := encode_standard hp hg hstandard (show IsBits [1, 0] by simp)
    (fits_k_of hp hstandard hzc (by decide))
  have hlength : (cw.map fun b => if b = 0 then (5 : ℚ) else -1).length = cw.length := by simp
  obtain ⟨g', hg', hkOf, hsize, hdecode⟩ := decode_inverts_encode (.inl (by decide))
    (.inl (by decide)) hcw hlength fun i hi => by
      rw [List.getElem_map]
      constructor
      · intro hbit
        rw [if_pos hbit]
        norm_num
      · intro hbit
        rw [hbit, if_neg (by decide)]
        norm_num
  have hlong : g'.kOf - ([1, 0] : Bits).length = 18 := by
    have hzc' : g'.zc = 2 := Int.ofNat_inj.mp (hsize (by decide))
    rw [hkOf, hzc']
    rfl
  rw [hlong] at hdecode
  exact ⟨cw, hcw, hdecode⟩

/-- On a word of the code's length the decoder's test, the dense checker and the encoder agree:
the word passes the one or the other exactly when encoding its information part returns it. So a
hard decision that the decoder accepts is the encoding of the bits it returns. -/
theorem decoder_checker_encoder_agree {p : LdpcParams} (hp : p.IsStandard) {g : Graph}
    (hg : makeGraph p = .ok g) :
    (∀ h : Bits, IsBits h → h.length = (p.bg.kb + p.rows) * p.zc.toNat →
      (g.syndrome h = true ↔ ldpcSyndromeOk h p = .ok true) ∧
      (ldpcSyndromeOk h p = .ok true ↔
        ldpcEncode (h.take (p.bg.kb * p.zc.toNat)) p = .ok h)) ∧
    ∀ (llr : SoftVec (Extended R)) (decision : Decision),
      ldpcDecision llr p = .ok (g, decision) → decision.accepted = true →
      ldpcDecode llr p = .ok (decision.hard.take (p.bg.kb * p.zc.toNat)) ∧
      ldpcEncode (decision.hard.take (p.bg.kb * p.zc.toNat)) p = .ok decision.hard := by
  obtain ⟨hzc, hrows, hstandard⟩ := graph_standard hp hg
  have hrange := n_of_lt hg
  rw [← hzc, ← hrows, ← hstandard.k_of, ← hstandard.n_of]
  refine ⟨fun h hbits hlength => ?_, fun llr decision hdecision haccepted => ?_⟩
  · have hwhole : h.take g.nOf = h := List.take_of_length_le (Nat.le_of_eq hlength)
    have hcast : toInt32 h.length = g.nOf := by
      rw [hlength]
      exact to_int32_of_range (by omega) (by omega)
    have hdense : ldpcSyndromeOk h p = .ok true ↔ g.IsCodeword h := by
      rw [syndrome_ok_iff hg hbits, hwhole]
      exact ⟨fun hok => hok.2, fun hcode => ⟨hcast, hcode⟩⟩
    constructor
    · rw [hdense, syndrome_iff g hbits]
      exact ⟨fun hchecks => ⟨hlength, hbits, hchecks⟩, fun hcode => hcode.checks⟩
    · rw [hdense, code_word_iff_encode hp hg hbits hlength]
  · have hcode : g.IsCodeword decision.hard := by
      rw [ldpcDecision, require_bind_eq_ok, hg, Checked.ok_bind, Checked.bind_eq_ok] at hdecision
      obtain ⟨_, result, hresult, hreturn⟩ := hdecision
      simp only [Checked.pure_eq_ok, Except.ok.injEq, Prod.mk.injEq, true_and] at hreturn
      subst hreturn
      rw [decodeMinsum, require_bind_eq_ok, Checked.bind_eq_ok] at hresult
      obtain ⟨_, channel, _, hloop⟩ := hresult
      simp only [Checked.pure_eq_ok, Except.ok.injEq] at hloop
      subst hloop
      exact minsum_loop_codeword haccepted
    refine ⟨by rw [ldpcDecode, hdecision]; rfl, ?_⟩
    exact (code_word_iff_encode hp hg hcode.bits hcode.length_eq).mp hcode

/-- The zero word of the smallest code passes both tests and is its own encoding. -/
theorem decoder_checker_encoder_agree_zero :
    ldpcEncode ((List.replicate 104 0).take 20) { zc := 2 } = .ok (List.replicate 104 0) := by
  have hp : ({ zc := 2 } : LdpcParams).IsStandard := standard_two _
  obtain ⟨g, _, hg, _⟩ := make_graph_standard hp (by decide)
  have hbits : IsBits (List.replicate 104 0) := is_bits_replicate 104
  have hchecks : g.Checks (wordOf (List.replicate 104 0)) := by
    intro r _
    rw [word_of_replicate]
    simp [checkSum]
  have hagree := (decoder_checker_encoder_agree (R := ℚ) hp hg).1 (List.replicate 104 0) hbits
    (by decide)
  exact hagree.2.mp (hagree.1.mp ((syndrome_iff g hbits).mpr hchecks))

end NrBaseband
