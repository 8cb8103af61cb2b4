import NrBaseband.Ldpc.WeakPositions

/-!
# Filling erasures

Soft values that are zero at erased positions and lean to a code word elsewhere. A rank of the
positions says in which round each of them can be filled: some check has only positions of lower
rank besides it. Every round of the decoder fills the next rank, so that `erasures_filled` gives the
information bits back as soon as there are as many rounds as ranks. In the standard's codes three
rounds fill the first two columns and all extension columns (`core_fills`).
-/

namespace NrBaseband

open Foundation Foundation.MachineInt Foundation.TannerGraph Extended

variable {R : Type} [Field R] [LinearOrder R]

/-- The check of an edge has only variables of lower rank besides the edge's own. -/
def Fills (rank : Nat → Nat) (g : Graph) (i : Fin (expandEdges g).length) : Prop :=
  ∀ j ∈ others g i, rank ((expandEdges g).get j).var < rank ((expandEdges g).get i).var

/-- Soft values that are zero or lean to a code word, and a rank by which the positions can be
filled: a position of rank zero is known, and any other has a check that fills it. -/
structure FilledBy (rank : Nat → Nat) (g : Graph) (cw : Bits) (llr : SoftVec R) : Prop where
  leans : ∀ v < g.nOf, 0 ≤ signOf (cw.getD v 0) * llr.getD v 0
  known : ∀ v < g.nOf, rank v = 0 → 0 < signOf (cw.getD v 0) * llr.getD v 0
  peeled : ∀ v < g.nOf, 0 < rank v →
    ∃ i : Fin (expandEdges g).length, ((expandEdges g).get i).var = v ∧ Fills rank g i

/-- The messages to the variables after `t` rounds: zero or leaning to the code word, and not zero
from a check that fills a variable of rank at most `t`. -/
structure FilledUpTo (rank : Nat → Nat) (g : Graph) (cw : Bits) (t : Nat)
    (c2v : Messages R (expandEdges g)) (y : Fin (expandEdges g).length → R) : Prop where
  values : ∀ i, c2v.get i = finite (y i)
  leans : ∀ i, 0 ≤ signOf (cw.getD ((expandEdges g).get i).var 0) * y i
  filled : ∀ i, Fills rank g i → rank ((expandEdges g).get i).var ≤ t →
    0 < signOf (cw.getD ((expandEdges g).get i).var 0) * y i

/-- The messages to the checks after `t` rounds: zero or leaning to the code word, and not zero from
a variable of rank at most `t` to a check with a variable of higher rank. -/
structure SentUpTo (rank : Nat → Nat) (g : Graph) (cw : Bits) (t : Nat)
    (v2c : Messages R (expandEdges g)) (x : Fin (expandEdges g).length → R) : Prop where
  values : ∀ j, v2c.get j = finite (x j)
  leans : ∀ j, 0 ≤ signOf (cw.getD ((expandEdges g).get j).var 0) * x j
  sent : ∀ j k, ((expandEdges g).get j).check = ((expandEdges g).get k).check →
    rank ((expandEdges g).get j).var < rank ((expandEdges g).get k).var →
      rank ((expandEdges g).get j).var ≤ t →
        0 < signOf (cw.getD ((expandEdges g).get j).var 0) * x j

/-! ## One round -/

section Round

variable {g : Graph} {bg : BaseGraph} {cw : Bits} {llr : SoftVec R} {rank : Nat → Nat} {t : Nat}

omit [LinearOrder R] in
/-- A sign is no divisor of zero. -/
theorem eq_zero_of_sign {b : UInt8} {x : R} (h : signOf b * x = 0) : x = 0 := by
  calc x = signOf b * (signOf b * x) := by rw [← mul_assoc, sign_of_mul_self, one_mul]
    _ = 0 := by rw [h, mul_zero]

variable [IsStrictOrderedRing R]

/-- Finitely many positive values have a positive lower bound. -/
theorem exists_lower_bound {ι : Type} {f : ι → R} {els : List ι} (h : ∀ j ∈ els, 0 < f j) :
    ∃ B, 0 < B ∧ ∀ j ∈ els, B ≤ f j := by
  induction els with
  | nil => exact ⟨1, zero_lt_one, by simp⟩
  | cons j els ih =>
      obtain ⟨B, hB, hle⟩ := ih fun k hk => h k (List.mem_cons_of_mem j hk)
      refine ⟨min B (f j), lt_min hB (h j List.mem_cons_self), fun k hk => ?_⟩
      rcases List.mem_cons.mp hk with rfl | hrest
      · exact min_le_right _ _
      · exact (min_le_left _ _).trans (hle k hrest)

/-- Values that are zero or lean to the code word make a message that does, and that is not zero
when none of them is. -/
theorem message_leans (hstandard : g.IsStandard bg) (hcode : g.IsCodeword cw)
    {v2c : Messages R (expandEdges g)} {x : Fin (expandEdges g).length → R}
    (hv2c : ∀ j, v2c.get j = finite (x j))
    (hleans : ∀ j, 0 ≤ signOf (cw.getD ((expandEdges g).get j).var 0) * x j)
    (i : Fin (expandEdges g).length) :
    ∃ y, (checkPass (expandEdges g) v2c).get i = finite y ∧
      0 ≤ signOf (cw.getD ((expandEdges g).get i).var 0) * y ∧
      ((∀ j ∈ others g i, 0 < signOf (cw.getD ((expandEdges g).get j).var 0) * x j) →
        0 < signOf (cw.getD ((expandEdges g).get i).var 0) * y) := by
  by_cases hall : ∀ j ∈ others g i, 0 < signOf (cw.getD ((expandEdges g).get j).var 0) * x j
  · obtain ⟨B, hB, hle⟩ := exists_lower_bound hall
    obtain ⟨y, hy, hbound⟩ := message_strong hstandard hcode hB hv2c i hle
    have hpos : 0 < signOf (cw.getD ((expandEdges g).get i).var 0) * y :=
      (mul_pos (by norm_num) hB).trans_le hbound
    exact ⟨y, hy, hpos.le, fun _ => hpos⟩
  · -- a zero among the others is the minimum
    simp only [not_forall, exists_prop] at hall
    obtain ⟨j, hj, hzero⟩ := hall
    have hxj : x j = 0 := eq_zero_of_sign (le_antisymm (not_lt.mp hzero) (hleans j))
    obtain ⟨y, hy, hsmall⟩ := message_small (a := 0) hv2c hj (by rw [hxj, abs_zero])
    rw [mul_zero] at hsmall
    obtain rfl : y = 0 := abs_nonpos_iff.mp hsmall
    exact ⟨0, hy, by rw [mul_zero], fun hothers => absurd (hothers j hj) hzero⟩

/-- A sum of values on one side of zero is on it, and is not zero when one of them is not. -/
theorem sum_leans {s x₀ : R} {ι : Type} {y : ι → R} {els : List ι} (hx₀ : 0 ≤ s * x₀)
    (hy : ∀ i ∈ els, 0 ≤ s * y i) : 0 ≤ s * (x₀ + (els.map y).sum) ∧
      (0 < s * x₀ ∨ (∃ i ∈ els, 0 < s * y i) → 0 < s * (x₀ + (els.map y).sum)) := by
  have hterms : ∀ z ∈ els.map (fun i => s * y i), 0 ≤ z := by
    intro z hz
    obtain ⟨i, hi, rfl⟩ := List.mem_map.mp hz
    exact hy i hi
  have hsum := List.sum_nonneg hterms
  rw [mul_add, ← List.sum_map_mul_left]
  refine ⟨add_nonneg hx₀ hsum, fun hpos => ?_⟩
  rcases hpos with hknown | ⟨i, hi, hmessage⟩
  · exact add_pos_of_pos_of_nonneg hknown hsum
  · have hle := List.single_le_sum hterms _ (List.mem_map_of_mem hi)
    exact add_pos_of_nonneg_of_pos hx₀ (hmessage.trans_le hle)

omit [LinearOrder R] [IsStrictOrderedRing R] in
/-- The variable of an edge of a variable. -/
theorem var_of_mem {v : Nat} {i : Fin (expandEdges g).length}
    (hi : i ∈ varEdges (expandEdges g) v) : ((expandEdges g).get i).var = v :=
  decide_eq_true_iff.mp (List.mem_filter.mp hi).2

omit [IsStrictOrderedRing R] in
/-- A variable of rank at most `t` is known or gets a message that is not zero, from a check whose
other variables have lower ranks. -/
theorem FilledUpTo.heard {c2v : Messages R (expandEdges g)} {y : Fin (expandEdges g).length → R}
    (hfilled : FilledUpTo rank g cw t c2v y) (h : FilledBy rank g cw llr) {v : Nat}
    (hv : v < g.nOf) (hle : rank v ≤ t) : 0 < signOf (cw.getD v 0) * llr.getD v 0 ∨
      ∃ i ∈ varEdges (expandEdges g) v, 0 < signOf (cw.getD v 0) * y i ∧ Fills rank g i := by
  rcases Nat.eq_zero_or_pos (rank v) with hzero | hpos
  · exact .inl (h.known v hv hzero)
  · obtain ⟨i, rfl, hlower⟩ := h.peeled v hv hpos
    exact .inr ⟨i, List.mem_filter.mpr ⟨List.mem_finRange i, decide_eq_true rfl⟩,
      hfilled.filled i hlower hle, hlower⟩

/-- The sums of the variables lean to the code word up to rank `t`. -/
theorem FilledUpTo.posterior {c2v : Messages R (expandEdges g)}
    {y : Fin (expandEdges g).length → R} (hfilled : FilledUpTo rank g cw t c2v y)
    (h : FilledBy rank g cw llr) (hlength : llr.length = g.nOf) {v : Nat} (hv : v < g.nOf)
    (hle : rank v ≤ t) :
    ∃ z, NrBaseband.posterior (expandEdges g) (llr.map finite) c2v v = finite z ∧
      0 < signOf (cw.getD v 0) * z := by
  refine ⟨_, posterior_sum (getD_finite (hlength ▸ hv : v < llr.length))
    fun i _ => hfilled.values i, (sum_leans (h.leans v hv) fun i hi => ?_).2 ?_⟩
  · exact var_of_mem hi ▸ hfilled.leans i
  · refine (hfilled.heard h hv hle).imp_right fun hmessage => ?_
    obtain ⟨i, hi, hpos, -⟩ := hmessage
    exact ⟨i, hi, hpos⟩

/-- What the variables send after `t` rounds. -/
theorem FilledUpTo.variable_pass {c2v : Messages R (expandEdges g)}
    {y : Fin (expandEdges g).length → R} (hfilled : FilledUpTo rank g cw t c2v y)
    (h : FilledBy rank g cw llr) (hlength : llr.length = g.nOf) :
    ∃ x, SentUpTo rank g cw t (variablePass (expandEdges g) (llr.map finite) c2v) x := by
  have hinside (j : Fin (expandEdges g).length) : ((expandEdges g).get j).var < g.nOf :=
    (expand_edges_lt g _ (List.getElem_mem j.isLt)).2
  have hown (j : Fin (expandEdges g).length) :
      j ∈ varEdges (expandEdges g) ((expandEdges g).get j).var :=
    List.mem_filter.mpr ⟨List.mem_finRange j, decide_eq_true rfl⟩
  let rest (j : Fin (expandEdges g).length) :=
    (varEdges (expandEdges g) ((expandEdges g).get j).var).erase j
  have hrest (j : Fin (expandEdges g).length) : ∀ i ∈ rest j,
      0 ≤ signOf (cw.getD ((expandEdges g).get j).var 0) * y i := fun i hi =>
    var_of_mem (List.mem_of_mem_erase hi) ▸ hfilled.leans i
  have hsum (j : Fin (expandEdges g).length) := sum_leans (h.leans _ (hinside j)) (hrest j)
  refine ⟨fun j => llr.getD ((expandEdges g).get j).var 0 + ((rest j).map y).sum, fun j => ?_,
    fun j => (hsum j).1, fun j k hcheck hlower hle => (hsum j).2 ?_⟩
  · have hall := posterior_sum (getD_finite (hlength ▸ hinside j : _ < llr.length))
      fun i _ => hfilled.values i
    have herase := List.sum_map_erase y (hown j)
    show (variablePass (expandEdges g) (llr.map finite) c2v)[j.val] = _
    rw [variablePass, Vector.getElem_ofFn]
    show (NrBaseband.posterior (expandEdges g) (llr.map finite) c2v
      ((expandEdges g).get j).var).sub (c2v.get j) = _
    rw [hall, hfilled.values j, ← herase]
    simp only [Extended.sub, neg, add_finite]
    rw [← sub_eq_add_neg, add_sub_assoc, add_sub_cancel_left]
  · refine (hfilled.heard h (hinside j) hle).imp_right fun hmessage => ?_
    obtain ⟨i, hi, hpos, hfills⟩ := hmessage
    -- the check that fills the variable is not one that waits for a variable of higher rank
    have hne : i ≠ j := by
      rintro rfl
      have hother : k ∈ others g i :=
        mem_others.mpr ⟨hcheck.symm, fun hsame => absurd (hsame ▸ hlower) (Nat.lt_irrefl _)⟩
      exact absurd (hfills k hother) (Nat.lt_asymm hlower)
    exact ⟨i, (List.mem_erase_of_ne hne).mpr hi, hpos⟩

/-- A round fills the next rank. -/
theorem SentUpTo.check_pass (hstandard : g.IsStandard bg) (hcode : g.IsCodeword cw)
    {v2c : Messages R (expandEdges g)} {x : Fin (expandEdges g).length → R}
    (hsent : SentUpTo rank g cw t v2c x) :
    ∃ y, FilledUpTo rank g cw (t + 1) (checkPass (expandEdges g) v2c) y := by
  choose y hy hleans hpos using message_leans hstandard hcode hsent.values hsent.leans
  refine ⟨y, hy, hleans, fun i hfills hle => hpos i fun j hj => ?_⟩
  have hlower := hfills j hj
  exact hsent.sent j i (mem_others.mp hj).1 hlower (by omega)

omit [IsStrictOrderedRing R] in
/-- Before the first round nothing is filled. -/
theorem filled_zero (hstandard : g.IsStandard bg) :
    FilledUpTo rank g cw 0 (Vector.replicate _ (finite (0 : R))) fun _ => 0 := by
  refine ⟨fun i => Vector.getElem_replicate i.isLt, fun i => by rw [mul_zero],
    fun i hfills hle => ?_⟩
  obtain ⟨k, hk, hne⟩ := exists_other_edge hstandard i
  exact absurd (hfills k (mem_others.mpr ⟨hk, hne⟩)) (by omega)

/-! ## The decoder -/

/-- The hard decision after `t` rounds is right up to rank `t`. -/
theorem FilledUpTo.hard {c2v : Messages R (expandEdges g)} {y : Fin (expandEdges g).length → R}
    (hfilled : FilledUpTo rank g cw t c2v y) (hcode : g.IsCodeword cw)
    (h : FilledBy rank g cw llr) (hlength : llr.length = g.nOf) {v : Nat} (hv : v < g.nOf)
    (hle : rank v ≤ t) :
    (hardOf (posteriors g.nOf (expandEdges g) (llr.map finite) c2v)).getD v 0 = cw.getD v 0 := by
  obtain ⟨z, hz, hleans⟩ := hfilled.posterior h hlength hv hle
  rw [hardOf, posteriors, List.map_map, ← table, Table.getD_table hv, Function.comp, hz]
  exact decide_leaning (hcode.bits.getD v) hleans

/-- A code word that is the same at the known positions is the same. -/
theorem code_word_of_filled {hard : Bits} (hcode : g.IsCodeword cw) (hhard : g.IsCodeword hard)
    (h : FilledBy rank g cw llr)
    (hsame : ∀ v < g.nOf, rank v = 0 → hard.getD v 0 = cw.getD v 0) : hard = cw := by
  have hbyRank (n : Nat) : ∀ v < g.nOf, rank v = n → hard.getD v 0 = cw.getD v 0 := by
    induction n using Nat.strongRecOn with
    | ind n ih =>
        rintro v hv rfl
        rcases Nat.eq_zero_or_pos (rank v) with hzero | hpos
        · exact hsame v hv hzero
        · obtain ⟨i, rfl, hfills⟩ := h.peeled v hv hpos
          refine sign_of_inj (R := R) (hhard.bits.getD _) (hcode.bits.getD _) ?_
          rw [← signs_of_others hcode i, ← signs_of_others hhard i]
          refine congrArg List.prod (List.map_congr_left fun j hj => ?_)
          have hinside : ((expandEdges g).get j).var < g.nOf :=
            (expand_edges_lt g _ (List.getElem_mem j.isLt)).2
          rw [ih _ (hfills j hj) _ hinside rfl]
  rw [Table.eq_table hard 0, Table.eq_table cw 0, hcode.length_eq, hhard.length_eq]
  exact Table.table_congr fun v hv => hbyRank _ v hv rfl

/-- From `t` rounds on, the loop returns the code word if the iterations left fill all ranks. -/
theorem minsum_loop_fills (hstandard : g.IsStandard bg) (hcode : g.IsCodeword cw)
    (h : FilledBy rank g cw llr) (hlength : llr.length = g.nOf) {iterations : Nat}
    {c2v : Messages R (expandEdges g)} {y : Fin (expandEdges g).length → R}
    (hfilled : FilledUpTo rank g cw t c2v y)
    (hrank : ∀ v < g.nOf, rank v ≤ t + iterations) :
    (minsumLoop g (llr.map finite) iterations c2v).hard = cw := by
  have hbits := is_bits_hard (posteriors g.nOf (expandEdges g) (llr.map finite) c2v)
  have hsize : (hardOf (posteriors g.nOf (expandEdges g) (llr.map finite) c2v)).length = g.nOf := by
    simp [hardOf, posteriors]
  induction iterations generalizing t c2v y with
  | zero =>
      rw [Table.eq_table (minsumLoop g (llr.map finite) 0 c2v).hard 0, Table.eq_table cw 0,
        hcode.length_eq]
      show table (hardOf _).length _ = _
      rw [hsize]
      exact Table.table_congr fun v hv => hfilled.hard hcode h hlength hv (hrank v hv)
  | succ iterations ih =>
      rw [minsumLoop]
      by_cases haccepted : g.syndrome
          (hardOf (posteriors g.nOf (expandEdges g) (llr.map finite) c2v)) = true
      · simp only [haccepted, if_true]
        exact code_word_of_filled hcode ⟨hsize, hbits, (syndrome_iff g hbits).mp haccepted⟩ h
          fun v hv hzero => hfilled.hard hcode h hlength hv (by omega)
      · simp only [haccepted]
        obtain ⟨x, hsent⟩ := hfilled.variable_pass h hlength
        obtain ⟨y', hfilled'⟩ := hsent.check_pass hstandard hcode
        refine ih hfilled' (fun v hv => ?_) (is_bits_hard _) (by simp [hardOf, posteriors])
        have hle := hrank v hv
        omega

end Round

/-! ## Core columns -/

section Core

variable {g : Graph} {bg : BaseGraph} {cw : Bits} {llr : SoftVec R}

/-- The round that fills an erased position of a column. -/
def roundOf (col : Nat) : Nat := if col = 0 then 1 else if col = 1 then 2 else 3

/-- The rank of a position: zero where the soft value leans to the code word. -/
def coreRank (g : Graph) (cw : Bits) (llr : SoftVec R) (v : Nat) : Nat :=
  if 0 < signOf (cw.getD v 0) * llr.getD v 0 then 0 else roundOf (v / g.zc)

/-- A position is filled in the round of its column at the latest. -/
theorem core_rank_le (g : Graph) (cw : Bits) (llr : SoftVec R) (v : Nat) :
    coreRank g cw llr v ≤ roundOf (v / g.zc) := by
  unfold coreRank
  split
  · exact Nat.zero_le _
  · exact Nat.le_refl _

/-- There are three rounds. -/
theorem round_of_le (col : Nat) : roundOf col ≤ 3 := by
  unfold roundOf
  split
  · omega
  · split <;> omega

omit [Field R] [LinearOrder R] in
/-- A check fills the variable of an entry when the variables in the other columns of its row have
lower ranks. -/
theorem fills_of_row (h : g.IsStandard bg) {rank : Nat → Nat} {e : BgEdge} (he : e ∈ bg.edges)
    (hrow : e.row < g.mb) {v : Nat} (hcol : v / g.zc = e.col)
    (hlower : ∀ e' ∈ bg.edges, e'.row = e.row → e'.col ≠ e.col →
      ∀ w, w / g.zc = e'.col → rank w < rank v) :
    ∃ i : Fin (expandEdges g).length, ((expandEdges g).get i).var = v ∧ Fills rank g i := by
  obtain ⟨i, hi, hcheck⟩ := edge_in_row h he hrow hcol
  refine ⟨i, hi, fun j hj => ?_⟩
  obtain ⟨hsame, hne⟩ := mem_others.mp hj
  obtain ⟨e', he', hrow', hcol'⟩ := place_of_edge h j
  rw [hi]
  refine hlower e' he' (by rw [← hrow', hsame, hcheck]) (fun hcols => hne ?_) _ hcol'
  exact eq_of_column h hsame (by rw [hcol', hcols, hi, hcol])

/-- Soft values known in the core columns but the first two fill all others: the second row has only
the first column of the two, the first row the second, and every extension row its own. -/
theorem core_fills (h : g.IsStandard bg)
    (hleans : ∀ v < g.nOf, 0 ≤ signOf (cw.getD v 0) * llr.getD v 0)
    (hknown : ∀ v < (bg.kb + 4) * g.zc, 2 * g.zc ≤ v →
      0 < signOf (cw.getD v 0) * llr.getD v 0) :
    FilledBy (coreRank g cw llr) g cw llr := by
  have hzc := g.zc_pos
  have hcore {v : Nat} (hlow : 2 ≤ v / g.zc) (hhigh : v / g.zc < bg.kb + 4) :
      coreRank g cw llr v = 0 :=
    if_pos (hknown v ((Nat.div_lt_iff_lt_mul hzc).mp hhigh) ((Nat.le_div_iff_mul_le hzc).mp hlow))
  have hround {v : Nat} {col : Nat} (hcol : v / g.zc = col) :
      coreRank g cw llr v ≤ roundOf col := hcol ▸ core_rank_le g cw llr v
  refine ⟨hleans, fun v _ hzero => ?_, fun v hv hpos => ?_⟩
  · by_contra hnot
    rw [coreRank, if_neg hnot] at hzero
    unfold roundOf at hzero
    split at hzero
    · omega
    · split at hzero <;> omega
  · have hrank : coreRank g cw llr v = roundOf (v / g.zc) := by
      unfold coreRank at hpos ⊢
      split
      case isTrue hlean =>
        rw [if_pos hlean] at hpos
        exact absurd hpos (Nat.lt_irrefl 0)
      case isFalse => rfl
    have hmb := h.mb_range
    obtain ⟨⟨e₀, he₀, hrow₀, hcol₀⟩, ⟨e₁, he₁, hrow₁, hcol₁⟩, hnone⟩ := bg.first_columns
    have hedge {e : BgEdge} (he : e ∈ bg.edges) (hrow : e.row < g.mb) (hcol : v / g.zc = e.col)
        (hlower : ∀ e' ∈ bg.edges, e'.row = e.row → e'.col ≠ e.col → ∀ w, w / g.zc = e'.col →
          coreRank g cw llr w < coreRank g cw llr v) := fills_of_row h he hrow hcol hlower
    by_cases hfirst : v / g.zc = 0
    · refine hedge he₁ (by omega) (by rw [hfirst, hcol₁]) fun e' he' hrow' hcol' w hw => ?_
      have hother := hnone e' he' (by omega)
      have hcols := bg.row_columns e' he'
      rw [hcore (by omega) (by omega)]
      exact hpos
    · by_cases hsecond : v / g.zc = 1
      · refine hedge he₀ (by omega) (by rw [hsecond, hcol₀]) fun e' he' hrow' hcol' w hw => ?_
        have hcols := bg.row_columns e' he'
        rw [hrank, hsecond]
        by_cases hzero : e'.col = 0
        · exact Nat.lt_of_le_of_lt (hround (hw.trans hzero)) (by decide)
        · rw [hcore (by omega) (by omega)]
          decide
      · -- an extension column
        have hlarge : 2 ≤ v / g.zc := (Nat.two_le_iff _).mpr ⟨hfirst, hsecond⟩
        have hext : bg.kb + 4 ≤ v / g.zc := by
          by_contra hlow
          rw [hcore hlarge (by omega)] at hpos
          omega
        have hcol : v / g.zc < bg.kb + g.mb := by
          rw [← h.kb_eq, ← h.nb_eq]
          exact Nat.div_lt_of_lt_mul (by rwa [Nat.mul_comm])
        obtain ⟨e, he, hecol, hrow⟩ := bg.column_edge (v / g.zc) (by omega)
        have hcols := bg.row_columns e he
        refine hedge he (by omega) hecol.symm fun e' he' hrow' hcol' w hw => ?_
        have hcols' := bg.row_columns e' he'
        have hthird : roundOf (v / g.zc) = 3 := by
          rw [roundOf, if_neg hfirst, if_neg hsecond]
        rw [hrank, hthird]
        by_cases hlow : e'.col < 2
        · have hle := hround hw
          have htwo : roundOf e'.col ≤ 2 := by
            unfold roundOf
            split
            · omega
            · rw [if_pos (by omega)]
          omega
        · rw [hcore (by omega) (by omega)]
          omega

end Core

/-- A code word is decoded from soft values with erasures, as soon as the iterations are as many as
the ranks by which the erasures can be filled. -/
theorem code_word_filled [IsStrictOrderedRing R] {p : LdpcParams}
    (hdeclared : p.zc = 0 → p.infoBits > 0) {g : Graph} {bg : BaseGraph}
    (hg : makeGraph p = .ok g) (hstandard : g.IsStandard bg) {cw : Bits} (hcode : g.IsCodeword cw)
    {llr : SoftVec R} (hlength : llr.length = g.nOf) {rank : Nat → Nat}
    (h : FilledBy rank g cw llr) (hiter : ∀ v < g.nOf, rank v ≤ p.maxIter.toNat) :
    ldpcDecode (llr.map finite) p = .ok (cw.take g.kOf) := by
  refine decode_of_loop hdeclared hg hlength ?_
  exact minsum_loop_fills hstandard hcode h hlength (filled_zero hstandard) fun v hv => by
    have hle := hiter v hv
    omega

/-- The information bits come back from soft values with erasures that can be filled. -/
theorem erasures_filled [IsStrictOrderedRing R] {p : LdpcParams} (hp : p.IsStandard)
    {info cw : Bits} (hinfo : info.length = p.bg.kb * p.zc.toNat)
    (hencode : ldpcEncode info p = .ok cw) {g : Graph} (hg : makeGraph p = .ok g)
    {llr : SoftVec R} (hlength : llr.length = g.nOf) {rank : Nat → Nat}
    (h : FilledBy rank g cw llr) (hiter : ∀ v < g.nOf, rank v ≤ p.maxIter.toNat) :
    ldpcDecode (llr.map finite) p = .ok info := by
  obtain ⟨g', hg', hstandard, _, hcode, htake⟩ := code_word_of_encode hp hinfo hencode
  rw [hg, Except.ok.injEq] at hg'
  subst hg'
  rw [← htake]
  exact code_word_filled (fun h => absurd hp.zc_valid.1 (by omega)) hg hstandard hcode hlength h
    hiter

/-- A code word of lifting size 2 with the first two columns and all extension columns erased. -/
theorem erasures_filled_two : ∃ g cw, makeGraph { zc := 2 } = .ok g ∧
    ldpcEncode (1 :: List.replicate 19 0) { zc := 2 } = .ok cw ∧
    ldpcDecode ((table g.nOf fun v =>
      if 4 ≤ v ∧ v < 28 then (signOf (cw.getD v 0) : ℚ) else 0).map finite) { zc := 2 } =
      .ok (1 :: List.replicate 19 0) := by
  have hp : ({ zc := 2 } : LdpcParams).IsStandard := standard_two _
  obtain ⟨g, _, hg, _, hzc, _, _, hstandard⟩ := make_graph_standard hp (by decide)
  obtain ⟨cw, hcw, _⟩ := encode_standard hp hg hstandard
    (by decide +kernel : IsBits (1 :: List.replicate 19 0)) (fits_k_of hp hstandard hzc (by decide))
  change g.zc = 2 at hzc
  have hkb : BaseGraph.kb ({ zc := 2 } : LdpcParams).bg = 10 := rfl
  have hcore : (({ zc := 2 } : LdpcParams).bg.kb + 4) * g.zc = 28 := by rw [hzc, hkb]
  have hinside : 28 ≤ g.nOf := by
    have hmb := hstandard.mb_range
    rw [hstandard.n_of, hzc, hkb]
    omega
  let llr : SoftVec ℚ := table g.nOf fun v =>
    if 4 ≤ v ∧ v < 28 then signOf (cw.getD v 0) else 0
  have hvalue {v : Nat} (hv : v < g.nOf) : signOf (cw.getD v 0) * llr.getD v 0 =
      if 4 ≤ v ∧ v < 28 then 1 else 0 := by
    rw [Table.getD_table hv, mul_ite, sign_of_mul_self, mul_zero]
  have hfills : FilledBy (coreRank g cw llr) g cw llr := by
    refine core_fills hstandard (fun v hv => ?_) fun v hv hlow => ?_
    · rw [hvalue hv]
      split <;> norm_num
    · rw [hcore] at hv
      rw [hvalue (by omega), if_pos ⟨by omega, hv⟩]
      norm_num
  exact ⟨g, cw, hg, hcw, erasures_filled hp rfl hcw hg (Table.length_table _ _) hfills
    fun v _ => ((core_rank_le g cw llr v).trans (round_of_le _)).trans (by decide)⟩

end NrBaseband
