import NrBaseband.Ldpc.Columns
import NrBaseband.Ldpc.DecoderTranslation
import Mathlib.Algebra.Order.BigOperators.Group.List
import Mathlib.Algebra.BigOperators.Ring.List
import Mathlib.Tactic.Linarith

/-!
# Correcting weak positions

Soft values that lean to a code word except at some weak positions. As long as no check has two weak
positions, one round of the decoder is enough: every other position of a check leans to the code
word, so that a weak position gets messages that outvote it, and the messages that a weak position
spoils are as weak as itself. `weak_positions_corrected` says that the information bits come back,
whatever the signs at the weak positions.
-/

namespace NrBaseband

open Foundation Foundation.MachineInt Foundation.TannerGraph Extended

variable {R : Type} [Field R] [LinearOrder R]

/-- Soft values that lean to a code word by at least `B`, except at weak positions, where they are
not larger than `a`. No check has two weak positions, one message outvotes a weak value, and a
strong value resists messages as weak as `a` from all its checks. -/
structure WeakAt (weak : Nat → Prop) (a B : R) (g : Graph) (cw : Bits) (llr : SoftVec R) :
    Prop where
  strong : ∀ v < g.nOf, ¬weak v → B ≤ signOf (cw.getD v 0) * llr.getD v 0
  small : ∀ v < g.nOf, weak v → |llr.getD v 0| ≤ a
  alone : ∀ i j : Fin (expandEdges g).length, weak ((expandEdges g).get i).var →
    weak ((expandEdges g).get j).var →
    ((expandEdges g).get i).check = ((expandEdges g).get j).check → i = j
  nonneg : 0 ≤ a
  outvoted : a < 3 / 4 * B
  resists : ∀ v < g.nOf, (varEdges (expandEdges g) v).length * (3 / 4 * a) < B

/-! ## One check -/

section Checks

variable {edges : List SparseEdge} {v2c : Messages R edges} {x : Fin edges.length → R}

omit [LinearOrder R] in
/-- A sign is one or minus one. -/
theorem sign_of_cases (b : UInt8) : (signOf b : R) = 1 ∨ (signOf b : R) = -1 := by
  unfold signOf
  split
  · exact .inl rfl
  · exact .inr rfl

omit [LinearOrder R] in
/-- The square of a sign is one. -/
theorem sign_of_mul_self (b : UInt8) : (signOf b * signOf b : R) = 1 := by
  rcases sign_of_cases (R := R) b with h | h <;> rw [h] <;> ring

/-- The minimum of a state after a finite message. -/
theorem lower_min (x : R) (state : Extended R × R) : (lower (finite x) state).1 =
    if (finite |x|).lt state.1 then finite |x| else state.1 := rfl

/-- The sign of a state is 1 or -1. -/
theorem fold_sign (els : List (Fin edges.length)) :
    (els.foldl (fun state j => lower (v2c.get j) state) ((posInf, 1) : Extended R × R)).2 = 1 ∨
      (els.foldl (fun state j => lower (v2c.get j) state) ((posInf, 1) : Extended R × R)).2 =
        -1 := by
  induction els using List.reverseRecOn with
  | nil => exact .inl rfl
  | append_singleton els j ih =>
      rw [List.foldl_append, List.foldl_cons, List.foldl_nil]
      generalize els.foldl (fun state j => lower (v2c.get j) state) (posInf, 1) = state at ih
      show (if (v2c.get j).lt (finite 0) then -state.2 else state.2) = 1 ∨
        (if (v2c.get j).lt (finite 0) then -state.2 else state.2) = -1
      split
      · rcases ih with h | h
        · exact .inr (by rw [h])
        · exact .inl (by rw [h, neg_neg])
      · exact ih

variable [IsStrictOrderedRing R]

/-- A value that leans to a bit by at least `B` has its sign, and at least the magnitude `B`. -/
theorem lower_strong {b : UInt8} {x B : R} (hB : 0 < B) (hx : B ≤ signOf b * x)
    {state : Extended R × R} (hmin : state.1 = posInf ∨ ∃ m, B ≤ m ∧ state.1 = finite m) :
    ((lower (finite x) state).1 = posInf ∨ ∃ m, B ≤ m ∧ (lower (finite x) state).1 = finite m) ∧
      (lower (finite x) state).2 = state.2 * signOf b := by
  obtain ⟨min1, sign⟩ := state
  dsimp only at hmin
  have hmagnitude : B ≤ |x| := by
    rcases sign_of_cases (R := R) b with h | h
    · exact (by rwa [h, one_mul] at hx : B ≤ x).trans (le_abs_self x)
    · exact (by rwa [h, neg_one_mul] at hx : B ≤ -x).trans (neg_le_abs x)
  have hsign : (if x < 0 then -sign else sign) = sign * signOf b := by
    rcases sign_of_cases (R := R) b with h | h
    · rw [h, one_mul] at hx
      rw [h, mul_one, if_neg (not_lt.mpr (hB.le.trans hx))]
    · rw [h, neg_one_mul] at hx
      rw [h, mul_neg_one, if_pos (neg_pos.mp (hB.trans_le hx))]
  constructor
  · rw [lower_min]
    split
    · exact .inr ⟨_, hmagnitude, rfl⟩
    · exact hmin
  · simpa [lower, Extended.lt] using hsign

/-- Values that all lean to a word by at least `B` leave a minimum of at least `B` and the sign of
the word. -/
theorem fold_strong {w : Bits} {B : R} (hB : 0 < B) (hv2c : ∀ j, v2c.get j = finite (x j))
    {els : List (Fin edges.length)}
    (hels : ∀ j ∈ els, B ≤ signOf (w.getD (edges.get j).var 0) * x j) :
    ((els.foldl (fun state j => lower (v2c.get j) state) (posInf, 1)).1 = posInf ∨ ∃ m, B ≤ m ∧
      (els.foldl (fun state j => lower (v2c.get j) state) (posInf, 1)).1 = finite m) ∧
    (els.foldl (fun state j => lower (v2c.get j) state) (posInf, 1)).2 =
      (els.map fun j => (signOf (w.getD (edges.get j).var 0) : R)).prod := by
  induction els using List.reverseRecOn with
  | nil => exact ⟨.inl rfl, rfl⟩
  | append_singleton els j ih =>
      obtain ⟨hmin, hsign⟩ := ih fun j hj => hels j (List.mem_append_left _ hj)
      obtain ⟨hmin', hsign'⟩ := lower_strong hB (hels j (by simp)) hmin
      rw [List.foldl_append, List.foldl_cons, List.foldl_nil, hv2c j, List.map_append,
        List.prod_append, List.map_singleton, List.prod_singleton, ← hsign]
      exact ⟨hmin', hsign'⟩

/-- A small value among the values leaves a small minimum. -/
theorem fold_small {a : R} (hv2c : ∀ j, v2c.get j = finite (x j)) {els : List (Fin edges.length)}
    {j : Fin edges.length} (hj : j ∈ els) (hsmall : |x j| ≤ a) :
    ∃ m, 0 ≤ m ∧ m ≤ a ∧
      (els.foldl (fun state j => lower (v2c.get j) state) (posInf, 1)).1 = finite m := by
  have hfinite : v2c.Finite := fun i hi => ⟨_, hv2c ⟨i, hi⟩⟩
  induction els using List.reverseRecOn with
  | nil => cases hj
  | append_singleton els k ih =>
      have hmagnitude := (signs_differ_fold hfinite [] els).magnitude
      rw [List.foldl_append, List.foldl_cons, List.foldl_nil, hv2c k]
      rcases List.mem_append.mp hj with hfirst | hlast
      · obtain ⟨m, hm, hle, hmin⟩ := ih hfirst
        rw [lower_min, hmin]
        split
        case isTrue hlt =>
          exact ⟨_, abs_nonneg (x k), (decide_eq_true_iff.mp hlt).le.trans hle, rfl⟩
        case isFalse => exact ⟨m, hm, hle, rfl⟩
      · obtain rfl := List.mem_singleton.mp hlast
        rw [lower_min]
        rcases hmagnitude with hinf | ⟨m, hm, hmin⟩
        · rw [hinf]
          exact ⟨_, abs_nonneg (x j), hsmall, rfl⟩
        · rw [hmin]
          split
          case isTrue => exact ⟨_, abs_nonneg (x j), hsmall, rfl⟩
          case isFalse hle =>
            exact ⟨m, hm, (not_lt.mp fun hlt => hle (decide_eq_true hlt)).trans hsmall, rfl⟩

end Checks

/-! ## One round -/

section Round

variable [IsStrictOrderedRing R] {g : Graph} {bg : BaseGraph} {cw : Bits}
  {v2c : Messages R (expandEdges g)} {x : Fin (expandEdges g).length → R}

/-- The edges of the check of an edge, without the edge itself. -/
def others (g : Graph) (i : Fin (expandEdges g).length) : List (Fin (expandEdges g).length) :=
  (chkEdges (expandEdges g) ((expandEdges g).get i).check).filter fun j => j ≠ i

omit [LinearOrder R] [IsStrictOrderedRing R] in
/-- The other edges of a check. -/
theorem mem_others {i j : Fin (expandEdges g).length} : j ∈ others g i ↔
    ((expandEdges g).get j).check = ((expandEdges g).get i).check ∧ j ≠ i := by
  rw [others, List.mem_filter, decide_eq_true_iff, chkEdges, List.mem_filter, decide_eq_true_iff]
  exact and_congr_left' (and_iff_right (List.mem_finRange j))

omit [IsStrictOrderedRing R] in
/-- The message of a check from the other edges. -/
theorem check_message {state : Extended R × R} {i : Fin (expandEdges g).length}
    (hstate : (others g i).foldl (fun state j => lower (v2c.get j) state) (posInf, 1) = state) :
    (checkPass (expandEdges g) v2c).get i = (state.1.scale state.2).scale (3 / 4) := by
  subst hstate
  show (checkPass (expandEdges g) v2c)[i.val] = _
  simp only [checkPass, Vector.getElem_ofFn]
  rfl

/-- Where all other positions of a check lean to the code word by at least `B`, its message leans to
it by at least three quarters of that. -/
theorem message_strong (hstandard : g.IsStandard bg) (hcode : g.IsCodeword cw) {B : R} (hB : 0 < B)
    (hv2c : ∀ j, v2c.get j = finite (x j)) (i : Fin (expandEdges g).length)
    (hothers : ∀ j ∈ others g i, B ≤ signOf (cw.getD ((expandEdges g).get j).var 0) * x j) :
    ∃ y, (checkPass (expandEdges g) v2c).get i = finite y ∧
      3 / 4 * B ≤ signOf (cw.getD ((expandEdges g).get i).var 0) * y := by
  have hfinite : v2c.Finite := fun i hi => ⟨_, hv2c ⟨i, hi⟩⟩
  obtain ⟨k, hk, hne⟩ := exists_other_edge hstandard i
  obtain ⟨m, hm⟩ := fold_lower_finite hfinite (List.ne_nil_of_mem (mem_others.mpr ⟨hk, hne⟩))
  obtain ⟨hmin, hsign⟩ := fold_strong (w := cw) hB hv2c hothers
  have hproduct : ((others g i).map fun j =>
      (signOf (cw.getD ((expandEdges g).get j).var 0) : R)).prod = _ := signs_of_others hcode i
  rw [hproduct] at hsign
  have hle : B ≤ m := by
    rw [hm] at hmin
    rcases hmin with hinf | ⟨m', hm', heq⟩
    · cases hinf
    · exact Extended.finite.inj heq ▸ hm'
  refine ⟨3 / 4 * (signOf (cw.getD ((expandEdges g).get i).var 0) * m), ?_, ?_⟩
  · rw [check_message (Prod.ext hm hsign : _ = (_, _))]
    rfl
  · have hself := sign_of_mul_self (R := R) (cw.getD ((expandEdges g).get i).var 0)
    have hquarter : (0 : R) ≤ 3 / 4 := by norm_num
    calc 3 / 4 * B ≤ 3 / 4 * m := mul_le_mul_of_nonneg_left hle hquarter
      _ = _ := by linear_combination -(3 / 4 * m) * hself

/-- A message that a small value takes part in is small. -/
theorem message_small {a : R} (hv2c : ∀ j, v2c.get j = finite (x j))
    {i j : Fin (expandEdges g).length} (hj : j ∈ others g i) (hsmall : |x j| ≤ a) :
    ∃ y, (checkPass (expandEdges g) v2c).get i = finite y ∧ |y| ≤ 3 / 4 * a := by
  obtain ⟨m, hm, hle, hmin⟩ := fold_small hv2c hj hsmall
  generalize hstate : (others g i).foldl (fun state j => lower (v2c.get j) state) (posInf, 1) =
    state at hmin
  have hsign : state.2 = 1 ∨ state.2 = -1 := hstate ▸ fold_sign (others g i)
  obtain ⟨min1, sign⟩ := state
  dsimp only at hmin hsign
  have hmagnitude : |sign| = 1 := by
    rcases hsign with rfl | rfl
    · exact abs_one
    · rw [abs_neg, abs_one]
  have hquarter : (0 : R) ≤ 3 / 4 := by norm_num
  refine ⟨3 / 4 * (sign * m), ?_, ?_⟩
  · rw [check_message hstate, hmin]
    rfl
  · rw [abs_mul, abs_mul, hmagnitude, one_mul, abs_of_nonneg hm, abs_of_nonneg hquarter]
    exact mul_le_mul_of_nonneg_left hle hquarter

omit [LinearOrder R] [IsStrictOrderedRing R] in
/-- The sum of a variable with finite messages. -/
theorem posterior_sum {edges : List SparseEdge} {channel : SoftVec (Extended R)} {v : Nat} {x₀ : R}
    (hchannel : channel.getD v .nan = finite x₀) {c2v : Messages R edges}
    {y : Fin edges.length → R} (hc2v : ∀ i ∈ varEdges edges v, c2v.get i = finite (y i)) :
    posterior edges channel c2v v = finite (x₀ + ((varEdges edges v).map y).sum) := by
  rw [posterior, hchannel]
  generalize varEdges edges v = els at hc2v
  induction els using List.reverseRecOn with
  | nil => simp
  | append_singleton els i ih =>
      have hlast : c2v[i] = finite (y i) := hc2v i (by simp)
      rw [List.foldl_append, ih fun j hj => hc2v j (List.mem_append_left _ hj), List.foldl_cons,
        List.foldl_nil, hlast, add_finite, List.map_append, List.sum_append, List.map_singleton,
        List.sum_singleton, add_assoc]

end Round

/-! ## The decoder -/

section Decoder

variable [IsStrictOrderedRing R] {g : Graph} {bg : BaseGraph} {cw : Bits} {llr : SoftVec R}
  {weak : Nat → Prop} {a B : R}

/-- The first messages to the checks. -/
def firstMessages (g : Graph) (llr : SoftVec R) : Messages R (expandEdges g) :=
  variablePass (expandEdges g) (llr.map finite) (Vector.replicate _ (finite 0))

omit [LinearOrder R] [IsStrictOrderedRing R] in
/-- At first the checks are sent the soft values themselves. -/
theorem get_first_messages (hlength : llr.length = g.nOf) (j : Fin (expandEdges g).length) :
    (firstMessages g llr).get j = finite (llr.getD ((expandEdges g).get j).var 0) := by
  have hvar : ((expandEdges g).get j).var < llr.length :=
    hlength ▸ (expand_edges_lt g _ (List.getElem_mem j.isLt)).2
  have hzero : ∀ i ∈ varEdges (expandEdges g) ((expandEdges g).get j).var,
      (Vector.replicate (expandEdges g).length (finite (0 : R))).get i = finite 0 :=
    fun i _ => Vector.getElem_replicate i.isLt
  have hsum := posterior_sum (getD_finite hvar) hzero
  show (variablePass (expandEdges g) (llr.map finite) _)[j.val] = _
  rw [variablePass, Vector.getElem_ofFn]
  show (posterior (expandEdges g) (llr.map finite) _ ((expandEdges g).get j).var).sub
    (Vector.replicate (expandEdges g).length (finite (0 : R)))[j.val] = _
  rw [hsum, Vector.getElem_replicate]
  simp [Extended.sub, neg]

/-- A sum that leans to a bit is decided for it. -/
theorem decide_leaning {b : UInt8} (hb : IsBit b) {x : R} (hx : 0 < signOf b * x) :
    (if (finite x).nonneg then 0 else 1 : UInt8) = b := by
  rcases hb with rfl | rfl
  · have hpos : 0 ≤ x := by simpa [signOf] using hx.le
    rw [nonneg_finite, decide_eq_true hpos, if_pos rfl]
  · have hneg : ¬0 ≤ x := by simpa [signOf] using hx
    rw [nonneg_finite, decide_eq_false hneg, if_neg Bool.false_ne_true]

/-- Messages that lean to a bit by at least `c` move the sum of a variable by at least their number
times `c`. -/
theorem posterior_bound {edges : List SparseEdge} {channel : SoftVec (Extended R)} {v : Nat}
    {x₀ : R} (hchannel : channel.getD v .nan = finite x₀) {c2v : Messages R edges} {b : UInt8}
    {c : R} (hc2v : ∀ i ∈ varEdges edges v, ∃ y, c2v.get i = finite y ∧ c ≤ signOf b * y) :
    ∃ z, posterior edges channel c2v v = finite z ∧
      signOf b * x₀ + (varEdges edges v).length * c ≤ signOf b * z := by
  let y (i : Fin edges.length) : R := match c2v.get i with
    | finite y => y
    | _ => 0
  have hy (i) (hi : i ∈ varEdges edges v) : c2v.get i = finite (y i) ∧ c ≤ signOf b * y i := by
    obtain ⟨value, hvalue, hle⟩ := hc2v i hi
    simp only [y, hvalue]
    exact ⟨trivial, hle⟩
  refine ⟨_, posterior_sum hchannel fun i hi => (hy i hi).1, ?_⟩
  have hsum := List.card_nsmul_le_sum ((varEdges edges v).map fun i => signOf b * y i) c
    fun t ht => by
      obtain ⟨i, hi, rfl⟩ := List.mem_map.mp ht
      exact (hy i hi).2
  rw [List.length_map, nsmul_eq_mul, List.sum_map_mul_left] at hsum
  rw [mul_add]
  exact add_le_add_right hsum _

/-- After one round all sums lean to the code word. -/
theorem posterior_leans (hstandard : g.IsStandard bg) (hcode : g.IsCodeword cw)
    (hlength : llr.length = g.nOf) (h : WeakAt weak a B g cw llr) {v : Nat} (hv : v < g.nOf) :
    ∃ z, posterior (expandEdges g) (llr.map finite)
        (checkPass (expandEdges g) (firstMessages g llr)) v = finite z ∧
      0 < signOf (cw.getD v 0) * z := by
  have ha := h.nonneg
  have houtvoted := h.outvoted
  have hB : 0 < B := by linarith
  have hsent := get_first_messages hlength
  have hchannel := getD_finite (hlength ▸ hv : v < llr.length)
  have hvarOf (i) (hi : i ∈ varEdges (expandEdges g) v) : ((expandEdges g).get i).var = v :=
    decide_eq_true_iff.mp (List.mem_filter.mp hi).2
  have hinside (j : Fin (expandEdges g).length) : ((expandEdges g).get j).var < g.nOf :=
    (expand_edges_lt g _ (List.getElem_mem j.isLt)).2
  -- what a check says that has no weak position besides this edge
  have hclean (i) (hi : i ∈ varEdges (expandEdges g) v)
      (hothers : ∀ j ∈ others g i, ¬weak ((expandEdges g).get j).var) :
      ∃ y, (checkPass (expandEdges g) (firstMessages g llr)).get i = finite y ∧
        3 / 4 * B ≤ signOf (cw.getD v 0) * y := by
    have hmessage := message_strong hstandard hcode hB hsent i fun j hj =>
      h.strong _ (hinside j) (hothers j hj)
    rwa [hvarOf i hi] at hmessage
  by_cases hweak : weak v
  · -- none of its checks has another one, and there is at least one check
    have hmessages (i) (hi : i ∈ varEdges (expandEdges g) v) := hclean i hi fun j hj hother =>
      (mem_others.mp hj).2 (h.alone j i hother ((hvarOf i hi).symm ▸ hweak) (mem_others.mp hj).1)
    obtain ⟨z, hz, hbound⟩ := posterior_bound hchannel hmessages
    obtain ⟨i, hi⟩ := exists_edge_of_var hstandard hv
    have hmem : i ∈ varEdges (expandEdges g) v :=
      List.mem_filter.mpr ⟨List.mem_finRange i, decide_eq_true hi⟩
    have hsome : (1 : R) ≤ (varEdges (expandEdges g) v).length :=
      Nat.one_le_cast.mpr (List.length_pos_of_mem hmem)
    have hown : -a ≤ signOf (cw.getD v 0) * llr.getD v 0 := by
      have hsmall := abs_le.mp (h.small v hv hweak)
      rcases sign_of_cases (R := R) (cw.getD v 0) with hsign | hsign <;> rw [hsign] <;> linarith
    have hvotes := mul_le_mul_of_nonneg_right hsome (by linarith : (0 : R) ≤ 3 / 4 * B)
    exact ⟨z, hz, by linarith⟩
  · -- the messages of checks with a weak position are small, the others help
    have hmessages (i) (hi : i ∈ varEdges (expandEdges g) v) :
        ∃ y, (checkPass (expandEdges g) (firstMessages g llr)).get i = finite y ∧
          -(3 / 4 * a) ≤ signOf (cw.getD v 0) * y := by
      by_cases hothers : ∀ j ∈ others g i, ¬weak ((expandEdges g).get j).var
      · obtain ⟨y, hy, hle⟩ := hclean i hi hothers
        exact ⟨y, hy, by linarith⟩
      · simp only [not_forall, not_not, exists_prop] at hothers
        obtain ⟨j, hj, hother⟩ := hothers
        obtain ⟨y, hy, hsmall⟩ := message_small hsent hj (h.small _ (hinside j) hother)
        have hrange := abs_le.mp hsmall
        refine ⟨y, hy, ?_⟩
        rcases sign_of_cases (R := R) (cw.getD v 0) with hsign | hsign <;> rw [hsign] <;> linarith
    obtain ⟨z, hz, hbound⟩ := posterior_bound hchannel hmessages
    have hown := h.strong v hv hweak
    have hresists := h.resists v hv
    exact ⟨z, hz, by linarith⟩

/-- The hard decision after one round is the code word. -/
theorem hard_after_round (hstandard : g.IsStandard bg) (hcode : g.IsCodeword cw)
    (hlength : llr.length = g.nOf) (h : WeakAt weak a B g cw llr) :
    hardOf (posteriors g.nOf (expandEdges g) (llr.map finite)
      (checkPass (expandEdges g) (firstMessages g llr))) = cw := by
  conv_rhs => rw [Table.eq_table cw 0, hcode.length_eq]
  rw [hardOf, posteriors, List.map_map]
  refine Table.table_congr fun v hv => ?_
  obtain ⟨z, hz, hleans⟩ := posterior_leans hstandard hcode hlength h hv
  rw [Function.comp, hz]
  exact decide_leaning (hcode.bits.getD v) hleans

/-- The signs of two bits agree only when the bits do. -/
theorem sign_of_inj {b b' : UInt8} (hb : IsBit b) (hb' : IsBit b')
    (h : (signOf b : R) = signOf b') : b = b' := by
  have hne : (1 : R) ≠ -1 := by
    intro hone
    linarith
  rcases hb with rfl | rfl <;> rcases hb' with rfl | rfl
  · rfl
  · exact absurd h (by simpa [signOf] using hne)
  · exact absurd h.symm (by simpa [signOf] using hne)
  · rfl

/-- A code word that differs at weak positions only is the same: a check with one weak position
tells its bit from the others. -/
theorem code_word_of_weak {hard : Bits} (hstandard : g.IsStandard bg) (hcode : g.IsCodeword cw)
    (hhard : g.IsCodeword hard) (h : WeakAt weak a B g cw llr)
    (hsame : ∀ v < g.nOf, ¬weak v → hard.getD v 0 = cw.getD v 0) : hard = cw := by
  rw [Table.eq_table hard 0, Table.eq_table cw 0, hcode.length_eq, hhard.length_eq]
  refine Table.table_congr fun v hv => ?_
  by_cases hweak : weak v
  · obtain ⟨i, rfl⟩ := exists_edge_of_var hstandard hv
    refine sign_of_inj (R := R) (hhard.bits.getD _) (hcode.bits.getD _) ?_
    rw [← signs_of_others hcode i, ← signs_of_others hhard i]
    refine congrArg List.prod (List.map_congr_left fun j hj => ?_)
    obtain ⟨hcheck, hne⟩ := mem_others.mp hj
    have hinside : ((expandEdges g).get j).var < g.nOf :=
      (expand_edges_lt g _ (List.getElem_mem j.isLt)).2
    rw [hsame _ hinside fun hother => hne (h.alone j i hother hweak hcheck)]
  · exact hsame v hv hweak

/-- The decoder returns the code word, whatever the number of rounds. -/
theorem minsum_loop_corrects (hstandard : g.IsStandard bg) (hcode : g.IsCodeword cw)
    (hlength : llr.length = g.nOf) (h : WeakAt weak a B g cw llr) (iterations : Nat) :
    (minsumLoop g (llr.map finite) (iterations + 1) (Vector.replicate _ (finite 0))).hard = cw := by
  have hB : 0 < B := by linarith [h.nonneg, h.outvoted]
  rw [minsumLoop]
  by_cases hfirst : g.syndrome (hardOf (posteriors g.nOf (expandEdges g) (llr.map finite)
      (Vector.replicate _ (finite 0)))) = true
  · -- what is accepted before the first round is a code word
    simp only [hfirst, if_true]
    have hbits := is_bits_hard (posteriors g.nOf (expandEdges g) (llr.map finite)
      (Vector.replicate (expandEdges g).length (finite 0)))
    refine code_word_of_weak hstandard hcode ⟨by simp [hardOf, posteriors], hbits,
      (syndrome_iff g hbits).mp hfirst⟩ h fun v hv hstrong => ?_
    have hzero : ∀ i ∈ varEdges (expandEdges g) v,
        (Vector.replicate (expandEdges g).length (finite (0 : R))).get i = finite 0 :=
      fun i _ => Vector.getElem_replicate i.isLt
    have hsum := posterior_sum (getD_finite (hlength ▸ hv : v < llr.length)) hzero
    rw [List.map_const', List.sum_replicate, nsmul_zero, add_zero] at hsum
    have hleans : 0 < signOf (cw.getD v 0) * llr.getD v 0 := hB.trans_le (h.strong v hv hstrong)
    rw [← decide_leaning (hcode.bits.getD v) hleans, ← hsum]
    rw [hardOf, posteriors, List.map_map, ← table, Table.getD_table hv]
    rfl
  · simp only [hfirst]
    show (minsumLoop g (llr.map finite) iterations
      (checkPass (expandEdges g) (firstMessages g llr))).hard = cw
    have hround := hard_after_round hstandard hcode hlength h
    cases iterations with
    | zero => exact hround
    | succ iterations =>
        rw [minsumLoop, hround]
        simp only [(syndrome_iff g hcode.bits).mpr hcode.checks, if_true]

omit [IsStrictOrderedRing R] in
/-- What the loop decides from no messages is what the decoder returns of. -/
theorem decode_of_loop {p : LdpcParams} (hdeclared : p.zc = 0 → p.infoBits > 0) {g : Graph}
    (hg : makeGraph p = .ok g) (hlength : llr.length = g.nOf)
    (hloop : (minsumLoop g (llr.map finite) p.maxIter.toNat
      (Vector.replicate _ (finite 0))).hard = cw) :
    ldpcDecode (llr.map finite) p = .ok (cw.take g.kOf) := by
  rw [decode_eq_loop hdeclared hg hlength, hloop]

/-- The information bits come back from soft values with weak positions, whatever the signs there,
as long as there is an iteration. -/
theorem weak_positions_corrected {p : LdpcParams} (hp : p.IsStandard) {info cw : Bits}
    (hinfo : info.length = p.bg.kb * p.zc.toNat) (hencode : ldpcEncode info p = .ok cw) {g : Graph}
    (hg : makeGraph p = .ok g) (hlength : llr.length = g.nOf) (h : WeakAt weak a B g cw llr)
    (hiter : 0 < p.maxIter) : ldpcDecode (llr.map finite) p = .ok info := by
  obtain ⟨g', hg', hstandard, _, hcode, htake⟩ := code_word_of_encode hp hinfo hencode
  rw [hg, Except.ok.injEq] at hg'
  subst hg'
  obtain ⟨iterations, hiterations⟩ := Nat.exists_eq_succ_of_ne_zero
    (fun hzero => by omega : p.maxIter.toNat ≠ 0)
  rw [← htake]
  refine decode_of_loop (fun h => absurd hp.zc_valid.1 (by omega)) hg hlength ?_
  rw [hiterations]
  exact minsum_loop_corrects hstandard hcode hlength h iterations

end Decoder

/-- A single position is alone. -/
theorem alone_of_single {g : Graph} {bg : BaseGraph} (h : g.IsStandard bg) {v : Nat}
    (i j : Fin (expandEdges g).length) (hi : ((expandEdges g).get i).var = v)
    (hj : ((expandEdges g).get j).var = v)
    (hcheck : ((expandEdges g).get i).check = ((expandEdges g).get j).check) : i = j :=
  eq_of_column h hcheck (by rw [hi, hj])

/-- The first position of a code word of lifting size 2 with the wrong sign. -/
theorem weak_positions_corrected_two : ∃ g cw, makeGraph { zc := 2 } = .ok g ∧
    ldpcEncode (1 :: List.replicate 19 0) { zc := 2 } = .ok cw ∧
    ldpcDecode ((table g.nOf fun v => if v = 0 then -signOf (cw.getD 0 0) else
      signOf (cw.getD v 0) * ((expandEdges g).length + 2 : ℚ)).map finite) { zc := 2 } =
      .ok (1 :: List.replicate 19 0) := by
  have hp : ({ zc := 2 } : LdpcParams).IsStandard := standard_two _
  obtain ⟨g, _, hg, _, hzc, _, _, hstandard⟩ := make_graph_standard hp (by decide)
  obtain ⟨cw, hcw, _⟩ := encode_standard hp hg hstandard
    (by decide +kernel : IsBits (1 :: List.replicate 19 0)) (fits_k_of hp hstandard hzc (by decide))
  have hsize : (0 : ℚ) ≤ (expandEdges g).length := Nat.cast_nonneg _
  let llr : SoftVec ℚ := table g.nOf fun v => if v = 0 then -signOf (cw.getD 0 0) else
    signOf (cw.getD v 0) * ((expandEdges g).length + 2)
  have hweak : WeakAt (· = 0) 1 ((expandEdges g).length + 2 : ℚ) g cw llr := by
    refine ⟨fun v hv hstrong => ?_, fun v hv hzero => ?_, fun i j => alone_of_single hstandard i j,
      zero_le_one, by linarith, fun v _ => ?_⟩
    · rw [Table.getD_table hv, if_neg hstrong, ← mul_assoc, sign_of_mul_self, one_mul]
    · rw [Table.getD_table hv, if_pos hzero, abs_neg]
      rcases sign_of_cases (R := ℚ) (cw.getD 0 0) with hsign | hsign
      · rw [hsign, abs_one]
      · rw [hsign, abs_neg, abs_one]
    · have hle : (varEdges (expandEdges g) v).length ≤ (expandEdges g).length := by
        refine (List.length_filter_le _ _).trans ?_
        rw [List.length_finRange]
      have hcast : ((varEdges (expandEdges g) v).length : ℚ) ≤ (expandEdges g).length :=
        Nat.cast_le.mpr hle
      linarith
  exact ⟨g, cw, hg, hcw, weak_positions_corrected hp rfl hcw hg (Table.length_table _ _) hweak
    (by decide)⟩

end NrBaseband
