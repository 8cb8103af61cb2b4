import NrBaseband.Ldpc.Columns
import NrBaseband.Ldpc.DecoderRotation

/-!
# Decoding behind another code word

Changing the signs of the soft values where a code word has ones changes the signs of all messages
in the same places: the checks are even on the code word, so at every check the changes cancel. The
hard decisions are then those of the original soft values plus the code word, as long as no sum is
exactly zero, where the decoder always decides for 0. `decode_translated` is the result: which bits
the decoder gets wrong does not depend on the code word that was sent.
-/

namespace NrBaseband

open Foundation Foundation.MachineInt Foundation.TannerGraph Extended

variable {R : Type} [Field R] [LinearOrder R]

/-- A soft value with its sign changed where the bit is 1. -/
def flip (b : UInt8) (x : Extended R) : Extended R := if b = 0 then x else x.neg

/-- The sign that a bit stands for. -/
def signOf (b : UInt8) : R := if b = 0 then 1 else -1

/-- The soft values with the signs changed where a word has ones. -/
def flipLlr (w : Bits) (llr : SoftVec R) : SoftVec R :=
  List.zipWith (fun b x => if b = 0 then x else -x) w llr

/-- The messages with the signs changed along the edges of the variables that are 1 in a word. -/
def Messages.flipped {edges : List SparseEdge} (w : Bits) (m : Messages R edges) :
    Messages R edges := Vector.ofFn fun i => flip (w.getD (edges.get i).var 0) (m.get i)

/-- Messages that are finite numbers. -/
def Messages.Finite {edges : List SparseEdge} (m : Messages R edges) : Prop :=
  ∀ i (hi : i < edges.length), ∃ x, m[i] = finite x

/-- The decoder meets no sum that is exactly zero, as long as it iterates. -/
def Decided (g : Graph) (channel : SoftVec (Extended R)) :
    Nat → Messages R (expandEdges g) → Prop
  | 0, c2v => ∀ v < g.nOf, posterior (expandEdges g) channel c2v v ≠ finite 0
  | iterations + 1, c2v =>
      (∀ v < g.nOf, posterior (expandEdges g) channel c2v v ≠ finite 0) ∧
        (g.syndrome (hardOf (posteriors g.nOf (expandEdges g) channel c2v)) = false →
          Decided g channel iterations
            (checkPass (expandEdges g) (variablePass (expandEdges g) channel c2v)))

section Flipping

variable {edges : List SparseEdge} {w : Bits}

omit [LinearOrder R] in
/-- A message is flipped with the bit of its variable. -/
@[simp] theorem get_flipped (w : Bits) (m : Messages R edges) {i : Nat} (hi : i < edges.length) :
    (m.flipped w)[i] = flip (w.getD edges[i].var 0) m[i] := by
  simp [Messages.flipped, Vector.get]

omit [LinearOrder R] in
/-- Signs change in a sum when they change in both summands. -/
theorem flip_add (b : UInt8) (x y : Extended R) : flip b (x.add y) = (flip b x).add (flip b y) := by
  unfold flip
  split
  · rfl
  · cases x <;> cases y <;> simp [add, neg, add_comm]

omit [LinearOrder R] in
/-- Signs change in a difference when they change in both terms. -/
theorem flip_sub (b : UInt8) (x y : Extended R) : flip b (x.sub y) = (flip b x).sub (flip b y) := by
  rw [Extended.sub, flip_add, Extended.sub]
  congr 1
  unfold flip
  split <;> rfl

/-- Magnitudes have no sign. -/
theorem abs_flip (b : UInt8) (x : Extended R) : (flip b x).abs = x.abs := by
  unfold flip
  split
  · rfl
  · cases x <;> simp [Extended.abs, neg, max_comm]

omit [LinearOrder R] in
/-- The sum of a variable with changed signs. -/
theorem posterior_flipped {channel flipped : SoftVec (Extended R)} {v : Nat}
    (hchannel : flipped.getD v .nan = flip (w.getD v 0) (channel.getD v .nan))
    (c2v : Messages R edges) :
    posterior edges flipped (c2v.flipped w) v =
      flip (w.getD v 0) (posterior edges channel c2v v) := by
  rw [posterior, posterior, hchannel]
  have hfold (els : List (Fin edges.length)) (hels : ∀ i ∈ els, edges[i].var = v)
      (start : Extended R) :
      els.foldl (fun sum i => sum.add (c2v.flipped w)[i]) (flip (w.getD v 0) start) =
        flip (w.getD v 0) (els.foldl (fun sum i => sum.add c2v[i]) start) := by
    induction els generalizing start with
    | nil => rfl
    | cons i els ih =>
        have hi : edges[i.val].var = v := hels i List.mem_cons_self
        rw [List.foldl_cons, List.foldl_cons, ← ih fun j hj => hels j (List.mem_cons_of_mem i hj),
          flip_add, Fin.getElem_fin, get_flipped, hi, Fin.getElem_fin]
  exact hfold _ (fun i hi => of_decide_eq_true (List.mem_filter.mp hi).2) _

omit [LinearOrder R] in
/-- The messages to the checks with changed signs. -/
theorem variable_pass_flipped {channel flipped : SoftVec (Extended R)}
    (hchannel : ∀ e ∈ edges, flipped.getD e.var .nan =
      flip (w.getD e.var 0) (channel.getD e.var .nan)) (c2v : Messages R edges) :
    variablePass edges flipped (c2v.flipped w) = (variablePass edges channel c2v).flipped w := by
  refine Vector.ext fun i hi => ?_
  simp only [get_flipped, variablePass, Vector.getElem_ofFn, Fin.getElem_fin, flip_sub,
    posterior_flipped (hchannel edges[i] (List.getElem_mem hi))]

variable [IsStrictOrderedRing R]

/-- The variables `min1` and `sign` after one more message. -/
def lower (x : Extended R) (state : Extended R × R) : Extended R × R :=
  (if x.abs.lt state.1 then x.abs else state.1, if x.lt (finite 0) then -state.2 else state.2)

/-- Two states of a check, the second with changed signs: one minimum, and signs that differ by
the factor unless the minimum is zero. -/
structure SignsDiffer (c : R) (state flipped : Extended R × R) : Prop where
  min_eq : flipped.1 = state.1
  magnitude : state.1 = posInf ∨ ∃ x, 0 ≤ x ∧ state.1 = finite x
  sign : state.1 = finite 0 ∨ flipped.2 = c * state.2

omit [LinearOrder R] [IsStrictOrderedRing R] in
/-- A finite message with its sign changed. -/
theorem flip_finite (b : UInt8) (x : R) :
    flip b (finite x) = finite (if b = 0 then x else -x) := by
  unfold flip
  split <;> rfl

/-- A message other than zero changes the sign of a state. -/
theorem lower_sign {x : R} (hx : x ≠ 0) (b : UInt8) (sign c : R) :
    (if (flip b (finite x)).lt (finite 0) then -(c * sign) else c * sign) =
      c * signOf b * if (finite x).lt (finite 0) then -sign else sign := by
  rw [flip_finite]
  unfold signOf
  by_cases hb : b = 0
  · simp only [if_pos hb, mul_one, mul_ite, mul_neg]
  · simp only [if_neg hb, Extended.lt]
    rcases lt_or_gt_of_ne hx with hneg | hpos
    · simp [hneg, not_lt_of_gt hneg]
    · simp [hpos, not_lt_of_gt hpos]

/-- One more message, with its sign changed by a bit. -/
theorem SignsDiffer.lower {c : R} {state flipped : Extended R × R}
    (h : SignsDiffer c state flipped) (b : UInt8) (x : R) :
    SignsDiffer (c * signOf b) (NrBaseband.lower (finite x) state)
      (NrBaseband.lower (flip b (finite x)) flipped) := by
  obtain ⟨min1, sign⟩ := state
  obtain ⟨min1', sign'⟩ := flipped
  obtain ⟨hmin, hmagnitude, hsign⟩ := h
  dsimp only at hmin hmagnitude hsign
  subst hmin
  refine ⟨by simp only [NrBaseband.lower, abs_flip], ?_, ?_⟩
  · by_cases hlt : (finite x).abs.lt min1' = true
    · simp only [NrBaseband.lower, if_pos hlt]
      exact .inr ⟨max x (-x), abs_nonneg x, rfl⟩
    · simpa only [NrBaseband.lower, if_neg hlt] using hmagnitude
  · rcases hsign with rfl | rfl
    · have hlow : ¬max x (-x) < 0 := not_lt_of_ge (abs_nonneg x)
      left
      simp only [NrBaseband.lower, Extended.abs, Extended.lt, decide_eq_true_eq, if_neg hlow]
    by_cases hx : x = 0
    · -- the minimum becomes zero
      left
      subst hx
      rcases hmagnitude with rfl | ⟨y, hy, rfl⟩
      · simp [NrBaseband.lower, Extended.abs, Extended.lt]
      · rcases hy.eq_or_lt with rfl | hpos
        · simp [NrBaseband.lower, Extended.abs, Extended.lt]
        · simp [NrBaseband.lower, Extended.abs, Extended.lt, hpos]
    · exact .inr (lower_sign hx b sign c)

/-- The states of a check after the messages along some of its edges. -/
theorem signs_differ_fold {v2c : Messages R edges} (hfinite : v2c.Finite) (w : Bits)
    (els : List (Fin edges.length)) :
    SignsDiffer (els.map fun j => signOf (w.getD (edges.get j).var 0)).prod
      (els.foldl (fun state j => lower (v2c.get j) state) (posInf, 1))
      (els.foldl (fun state j => lower ((v2c.flipped w).get j) state) (posInf, 1)) := by
  induction els using List.reverseRecOn with
  | nil => exact ⟨rfl, .inl rfl, .inr (by simp)⟩
  | append_singleton els j ih =>
      obtain ⟨x, hx⟩ := hfinite j.val j.isLt
      have hstep := ih.lower (w.getD (edges.get j).var 0) x
      have hsent : v2c.get j = finite x := hx
      have hflipped : (v2c.flipped w).get j = flip (w.getD (edges.get j).var 0) (finite x) := by
        rw [← hx]
        exact get_flipped w v2c j.isLt
      rw [List.foldl_append, List.foldl_append, List.foldl_cons, List.foldl_cons, List.foldl_nil,
        List.foldl_nil, List.map_append, List.map_singleton, List.prod_append, List.prod_singleton,
        hsent, hflipped]
      exact hstep

/-- The message that a check sends, with its sign changed. -/
theorem SignsDiffer.message {b : UInt8} {state flipped : Extended R × R}
    (h : SignsDiffer (signOf b) state flipped) :
    (flipped.1.scale flipped.2).scale (3 / 4) =
      flip b ((state.1.scale state.2).scale (3 / 4)) := by
  obtain ⟨min1, sign⟩ := state
  obtain ⟨min1', sign'⟩ := flipped
  obtain ⟨hmin, hmagnitude, hsign⟩ := h
  dsimp only at hmin hmagnitude hsign ⊢
  subst hmin
  have hpos : (0 : R) < 3 / 4 := by norm_num
  have hscale : min1'.scale sign' = flip b (min1'.scale sign) := by
    rcases hsign with rfl | rfl
    · simp [scale, flip_finite]
    · unfold signOf flip
      by_cases hb : b = 0
      · rw [if_pos hb, if_pos hb, one_mul]
      · rw [if_neg hb, if_neg hb, neg_one_mul]
        rcases hmagnitude with rfl | ⟨y, -, rfl⟩
        · rcases lt_trichotomy sign 0 with hneg | rfl | hgt
          · simp [scale, neg, hneg.ne, hneg, not_lt_of_gt hneg]
          · simp [scale, neg]
          · simp [scale, neg, hgt.ne', hgt, not_lt_of_gt hgt]
        · simp [scale, neg]
  rw [hscale]
  generalize min1'.scale sign = x
  unfold flip
  split
  · rfl
  · cases x <;> simp [neg, scale, hpos, hpos.ne']

omit [LinearOrder R] [IsStrictOrderedRing R] in
/-- The sign of an exclusive or. -/
theorem sign_of_xor {a b : UInt8} (ha : IsBit a) (hb : IsBit b) :
    signOf (a ^^^ b) = (signOf a * signOf b : R) := by
  rcases ha with rfl | rfl <;> rcases hb with rfl | rfl <;> simp [signOf]

omit [LinearOrder R] [IsStrictOrderedRing R] in
/-- The sign of the exclusive or of a list of bits. -/
theorem sign_of_xor_all {bytes : List UInt8} (h : ∀ b ∈ bytes, IsBit b) :
    signOf (xorAll bytes) = ((bytes.map signOf).prod : R) := by
  induction bytes using List.reverseRecOn with
  | nil => simp [xorAll, signOf]
  | append_singleton bytes b ih =>
      have hbytes (b' : UInt8) (hb' : b' ∈ bytes) : IsBit b' := h b' (List.mem_append_left _ hb')
      have hfold : xorAll (bytes ++ [b]) = xorAll bytes ^^^ b := by
        rw [xorAll, List.foldl_append]
        rfl
      rw [hfold, sign_of_xor (is_bit_xor_all hbytes) (h b (by simp)), ih hbytes, List.map_append,
        List.prod_append, List.map_singleton, List.prod_singleton]

end Flipping

/-! ## The code of a graph -/

section Code

variable {g : Graph} {cw : Bits}

omit [LinearOrder R] in
/-- The signs of a code word along the edges of a check multiply to one. -/
theorem signs_even (hcode : g.IsCodeword cw) {c : Nat} (hc : c < g.mOf) :
    ((chkEdges (expandEdges g) c).map fun j =>
      signOf (cw.getD ((expandEdges g).get j).var 0)).prod = (1 : R) := by
  have heven := (syndrome_iff g hcode.bits).mpr hcode.checks
  simp only [Graph.syndrome, List.all_eq_true, List.mem_range, beq_iff_eq] at heven
  have hsign : signOf (xorAll ((chkEdges (expandEdges g) c).map fun j =>
      cw.getD ((expandEdges g).get j).var 0)) = (1 : R) := by
    exact (congrArg signOf (heven c hc)).trans (if_pos rfl)
  rw [sign_of_xor_all, List.map_map] at hsign
  · exact hsign
  · intro b hb
    obtain ⟨j, -, rfl⟩ := List.mem_map.mp hb
    exact hcode.bits.getD _

omit [LinearOrder R] in
/-- At every check the signs of a code word along the other edges multiply to that of the edge. -/
theorem signs_of_others (hcode : g.IsCodeword cw) (i : Fin (expandEdges g).length) :
    (((chkEdges (expandEdges g) ((expandEdges g).get i).check).filter fun j => j ≠ i).map fun j =>
      signOf (cw.getD ((expandEdges g).get j).var 0)).prod =
        (signOf (cw.getD ((expandEdges g).get i).var 0) : R) := by
  have hmem : i ∈ chkEdges (expandEdges g) ((expandEdges g).get i).check :=
    List.mem_filter.mpr ⟨List.mem_finRange i, decide_eq_true rfl⟩
  have hnodup : (chkEdges (expandEdges g) ((expandEdges g).get i).check).Nodup :=
    (List.nodup_finRange _).filter _
  have hothers : (chkEdges (expandEdges g) ((expandEdges g).get i).check).filter (fun j => j ≠ i) =
      (chkEdges (expandEdges g) ((expandEdges g).get i).check).erase i := by
    rw [hnodup.erase_eq_filter]
    exact List.filter_congr fun j _ => Bool.eq_iff_iff.mpr (by simp)
  have heven := signs_even (R := R) hcode
    (expand_edges_lt g _ (List.getElem_mem i.isLt) : ((expandEdges g).get i).check < g.mOf ∧ _).1
  rw [((List.perm_cons_erase hmem).map _).prod_eq, List.map_cons, List.prod_cons] at heven
  rw [hothers]
  generalize (((chkEdges (expandEdges g) ((expandEdges g).get i).check).erase i).map fun j =>
    (signOf (cw.getD ((expandEdges g).get j).var 0) : R)).prod = others at heven ⊢
  unfold signOf at heven ⊢
  by_cases hbit : cw.getD ((expandEdges g).get i).var 0 = 0
  · rw [if_pos hbit] at heven ⊢
    rwa [one_mul] at heven
  · rw [if_neg hbit] at heven ⊢
    linear_combination -heven

variable [IsStrictOrderedRing R]

/-- The messages to the variables with changed signs. -/
theorem check_pass_flipped (hcode : g.IsCodeword cw) {v2c : Messages R (expandEdges g)}
    (hfinite : v2c.Finite) :
    checkPass (expandEdges g) (v2c.flipped cw) = (checkPass (expandEdges g) v2c).flipped cw := by
  refine Vector.ext fun i hi => ?_
  have hstates := signs_differ_fold hfinite cw
    ((chkEdges (expandEdges g) ((expandEdges g).get ⟨i, hi⟩).check).filter fun j => j ≠ ⟨i, hi⟩)
  rw [signs_of_others hcode ⟨i, hi⟩] at hstates
  rw [get_flipped]
  simp only [checkPass, Vector.getElem_ofFn, Fin.getElem_fin]
  exact hstates.message

end Code

/-! ## Finite messages -/

omit [LinearOrder R] in
/-- The sums of finite values are finite. -/
theorem posterior_finite {edges : List SparseEdge} {channel : SoftVec (Extended R)} {v : Nat}
    (hchannel : ∃ x, channel.getD v .nan = finite x) {c2v : Messages R edges}
    (hfinite : c2v.Finite) : ∃ x, posterior edges channel c2v v = finite x := by
  unfold posterior
  obtain ⟨x, hx⟩ := hchannel
  rw [hx]
  clear hx
  generalize varEdges edges v = els
  induction els generalizing x with
  | nil => exact ⟨x, rfl⟩
  | cons i els ih =>
      obtain ⟨y, hy⟩ := hfinite i.val i.isLt
      rw [List.foldl_cons, Fin.getElem_fin, hy, add_finite]
      exact ih (x + y)

omit [LinearOrder R] in
/-- The messages to the checks are finite. -/
theorem variable_pass_finite {edges : List SparseEdge} {channel : SoftVec (Extended R)}
    (hchannel : ∀ e ∈ edges, ∃ x, channel.getD e.var .nan = finite x) {c2v : Messages R edges}
    (hfinite : c2v.Finite) : (variablePass edges channel c2v).Finite := by
  intro i hi
  obtain ⟨x, hx⟩ := posterior_finite (hchannel edges[i] (List.getElem_mem hi)) hfinite
  obtain ⟨y, hy⟩ := hfinite i hi
  simp only [variablePass, Vector.getElem_ofFn, Fin.getElem_fin, hx, hy]
  exact ⟨x + -y, rfl⟩

variable [IsStrictOrderedRing R]

/-- The minimum over at least one finite message is finite. -/
theorem fold_lower_finite {edges : List SparseEdge} {v2c : Messages R edges}
    (hfinite : v2c.Finite) {els : List (Fin edges.length)} (hne : els ≠ []) :
    ∃ x, (els.foldl (fun state j => lower (v2c.get j) state) ((posInf, 1) : Extended R × R)).1 =
      finite x := by
  rw [← List.dropLast_append_getLast hne, List.foldl_append]
  obtain ⟨y, hy⟩ := hfinite _ (els.getLast hne).isLt
  have hmagnitude := (signs_differ_fold hfinite [] els.dropLast).magnitude
  generalize els.dropLast.foldl (fun state j => lower (v2c.get j) state)
    ((posInf, 1) : Extended R × R) = state at hmagnitude ⊢
  obtain ⟨min1, sign⟩ := state
  have hlast : v2c.get (els.getLast hne) = finite y := hy
  rw [List.foldl_cons, List.foldl_nil, hlast]
  by_cases hlt : (finite y).abs.lt min1 = true
  · exact ⟨max y (-y), if_pos hlt⟩
  · rcases hmagnitude with rfl | ⟨x, -, rfl⟩
    · exact absurd rfl hlt
    · exact ⟨x, if_neg hlt⟩

/-- The messages to the variables are finite, since every check has another edge. -/
theorem check_pass_finite {g : Graph} {bg : BaseGraph} (h : g.IsStandard bg)
    {v2c : Messages R (expandEdges g)} (hfinite : v2c.Finite) :
    (checkPass (expandEdges g) v2c).Finite := by
  intro i hi
  obtain ⟨j, hcheck, hother⟩ := exists_other_edge h ⟨i, hi⟩
  have hmem : j ∈ (chkEdges (expandEdges g) (expandEdges g)[i].check).filter
      fun j => j ≠ ⟨i, hi⟩ := by
    refine List.mem_filter.mpr ⟨List.mem_filter.mpr ⟨List.mem_finRange j, ?_⟩, ?_⟩
    · exact decide_eq_true hcheck
    · exact decide_eq_true hother
  obtain ⟨x, hx⟩ := fold_lower_finite hfinite (List.ne_nil_of_mem hmem)
  simp only [checkPass, Vector.getElem_ofFn, Fin.getElem_fin]
  change (minAndSign (expandEdges g) v2c (chkEdges (expandEdges g) (expandEdges g)[i].check)
    ⟨i, hi⟩).1 = finite x at hx
  rw [hx]
  exact ⟨_, rfl⟩

/-! ## The decoder -/

section Decoder

variable {g : Graph} {bg : BaseGraph} {cw : Bits} {llr : SoftVec R}

omit [LinearOrder R] [IsStrictOrderedRing R] in
/-- The channel value of a position. -/
theorem getD_finite {llr : SoftVec R} {v : Nat} (hv : v < llr.length) :
    (llr.map finite).getD v .nan = finite (llr.getD v 0) := by
  simp [List.getD_eq_getElem?_getD, hv]

omit [LinearOrder R] [IsStrictOrderedRing R] in
/-- The channel value of a position with its sign changed. -/
theorem getD_flip_llr (hlength : cw.length = llr.length) {v : Nat} (hv : v < llr.length) :
    ((flipLlr cw llr).map finite).getD v .nan =
      flip (cw.getD v 0) ((llr.map finite).getD v .nan) := by
  have hcw : v < cw.length := hlength ▸ hv
  rw [getD_finite hv, flip_finite]
  simp [flipLlr, List.getD_eq_getElem?_getD, hv, hcw]

/-- A sum other than zero is decided for the other bit when its sign is changed. -/
theorem decide_flip {b : UInt8} (hb : IsBit b) {x : R} (hx : x ≠ 0) :
    (if (flip b (finite x)).nonneg then 0 else 1 : UInt8) =
      b ^^^ if (finite x).nonneg then 0 else 1 := by
  rw [flip_finite]
  rcases hb with rfl | rfl
  · simp
  · rcases lt_or_gt_of_ne hx with hneg | hpos
    · simp [hneg.le, not_le_of_gt hneg]
    · simp [hpos.le, not_le_of_gt hpos]

/-- The hard decisions with changed signs differ by the word. -/
theorem hard_of_flipped (hcode : g.IsCodeword cw) (hlength : llr.length = g.nOf)
    {c2v : Messages R (expandEdges g)} (hfinite : c2v.Finite)
    (hdecided : ∀ v < g.nOf, posterior (expandEdges g) (llr.map finite) c2v v ≠ finite 0) :
    hardOf (posteriors g.nOf (expandEdges g) ((flipLlr cw llr).map finite) (c2v.flipped cw)) =
      xorBits cw (hardOf (posteriors g.nOf (expandEdges g) (llr.map finite) c2v)) := by
  have hword : cw = table g.nOf fun v => cw.getD v 0 := by
    conv_lhs => rw [Table.eq_table cw 0, hcode.length_eq]
  conv_rhs => rw [hword]
  rw [hardOf, posteriors, List.map_map, hardOf, posteriors, List.map_map, ← table, ← table,
    xorBits, Table.zip_with_table]
  refine Table.table_congr fun v hv => ?_
  have hlt : v < llr.length := hlength.symm ▸ hv
  obtain ⟨x, hx⟩ := posterior_finite ⟨_, getD_finite hlt⟩ hfinite
  have hne : x ≠ 0 := fun hzero => hdecided v hv (hzero ▸ hx)
  rw [Function.comp, Function.comp,
    posterior_flipped (getD_flip_llr (hcode.length_eq.trans hlength.symm) hlt), hx,
    decide_flip (hcode.bits.getD v) hne]

/-- The decoder's test accepts what it accepts without the code word. -/
theorem syndrome_xor (hcode : g.IsCodeword cw) {hard : Bits} (hbits : IsBits hard)
    (hlength : hard.length = g.nOf) : g.syndrome (xorBits cw hard) = g.syndrome hard := by
  have hsame : cw.length = hard.length := hcode.length_eq.trans hlength.symm
  have hxor := is_bits_xor hcode.bits hbits
  have hsum (p : Nat) : wordOf (xorBits cw hard) p = wordOf cw p + wordOf hard p :=
    word_of_xor hsame p
  rw [Bool.eq_iff_iff, syndrome_iff g hxor, syndrome_iff g hbits, checks_congr fun p _ => hsum p]
  simp only [checks_iff_satisfies]
  have hsent := (checks_iff_satisfies g _).mp hcode.checks
  constructor
  · intro h
    have hback := hsent.add h
    have hcancel : (fun p => wordOf cw p + (wordOf cw p + wordOf hard p)) = wordOf hard := by
      funext p
      rw [← add_assoc, CharTwo.add_self_eq_zero, zero_add]
    rwa [hcancel] at hback
  · exact fun h => hsent.add h

/-- The iterations end with the decision plus the code word. -/
theorem minsum_loop_flipped (hstandard : g.IsStandard bg) (hcode : g.IsCodeword cw)
    (hlength : llr.length = g.nOf) {iterations : Nat} {c2v : Messages R (expandEdges g)}
    (hfinite : c2v.Finite) (hdecided : Decided g (llr.map finite) iterations c2v) :
    minsumLoop g ((flipLlr cw llr).map finite) iterations (c2v.flipped cw) =
      let decision := minsumLoop g (llr.map finite) iterations c2v
      { decision with hard := xorBits cw decision.hard } := by
  have hsame : cw.length = llr.length := hcode.length_eq.trans hlength.symm
  have hinside (e : SparseEdge) (he : e ∈ expandEdges g) : e.var < llr.length :=
    hlength.symm ▸ (expand_edges_lt g e he).2
  induction iterations generalizing c2v with
  | zero => rw [minsumLoop, minsumLoop, hard_of_flipped hcode hlength hfinite hdecided]
  | succ iterations ih =>
      obtain ⟨hnow, hlater⟩ := hdecided
      have hbits := is_bits_hard (posteriors g.nOf (expandEdges g) (llr.map finite) c2v)
      have hsyndrome := syndrome_xor hcode hbits (by simp [hardOf, posteriors])
      rw [minsumLoop, minsumLoop, hard_of_flipped hcode hlength hfinite hnow, hsyndrome]
      dsimp only
      split
      case isTrue => rfl
      case isFalse hrejected =>
        have hv2c : (variablePass (expandEdges g) (llr.map finite) c2v).Finite :=
          variable_pass_finite (fun e he => ⟨_, getD_finite (hinside e he)⟩) hfinite
        rw [variable_pass_flipped fun e he => getD_flip_llr hsame (hinside e he),
          check_pass_flipped hcode hv2c]
        exact ih (check_pass_finite hstandard hv2c) (hlater (Bool.eq_false_iff.mpr hrejected))

omit [LinearOrder R] [IsStrictOrderedRing R] in
/-- The first messages, which are zero, have no sign. -/
theorem flipped_zero (cw : Bits) (edges : List SparseEdge) :
    Messages.flipped cw (Vector.replicate edges.length (finite (0 : R))) =
      Vector.replicate edges.length (finite 0) :=
  Vector.ext fun i hi => by simp [flip_finite]

omit [IsStrictOrderedRing R] in
/-- The decoder on finite soft values, as many as the code has bits: what the loop decides when it
starts without messages. -/
theorem decode_eq_loop {p : LdpcParams} (hdeclared : p.zc = 0 → p.infoBits > 0) {g : Graph}
    (hg : makeGraph p = .ok g) {llr : SoftVec R} (hlength : llr.length = g.nOf) :
    ldpcDecode (llr.map finite) p = .ok ((minsumLoop g (llr.map finite) p.maxIter.toNat
      (Vector.replicate _ (finite 0))).hard.take g.kOf) := by
  have hrange := n_of_lt hg
  have hchannel : (List.range g.nOf).mapM (Checked.read (llr.map finite)) =
      .ok (llr.map finite) := by
    rw [read_first (by rw [List.length_map, hlength]), List.take_of_length_le (by simp [hlength])]
  have hcast : toInt32 g.nOf = g.nOf := to_int32_of_range (by omega) (by omega)
  rw [ldpcDecode, ldpcDecision, require_of hdeclared, Checked.ok_bind, hg, Checked.ok_bind,
    decodeMinsum, List.length_map, hlength, require_of hcast, Checked.ok_bind, hchannel]
  rfl

/-- Sending a code word instead of zeros, so that the soft values change their signs where it has
ones, adds its information bits to what is decoded, unless the decoder meets a sum that is exactly
zero: which bits are decoded wrongly does not depend on the code word. -/
theorem decode_translated {p : LdpcParams} (hp : p.IsStandard) {info cw : Bits}
    (hinfo : info.length = p.bg.kb * p.zc.toNat) (hencode : ldpcEncode info p = .ok cw) {g : Graph}
    (hg : makeGraph p = .ok g) {llr : SoftVec R} (hlength : llr.length = g.nOf)
    (hdecided : Decided g (llr.map finite) p.maxIter.toNat
      (Vector.replicate _ (finite 0))) :
    ldpcDecode ((flipLlr cw llr).map finite) p =
      xorBits info <$> ldpcDecode (llr.map finite) p := by
  obtain ⟨g', hg', hstandard, _, hcode, htake⟩ := code_word_of_encode hp hinfo hencode
  rw [hg, Except.ok.injEq] at hg'
  subst hg'
  have hzero : Messages.Finite (Vector.replicate (expandEdges g).length (finite (0 : R))) :=
    fun i hi => ⟨0, by simp⟩
  have hloop := minsum_loop_flipped hstandard hcode hlength hzero hdecided
  rw [flipped_zero] at hloop
  have hflipped : (flipLlr cw llr).length = g.nOf := by
    rw [flipLlr, List.length_zipWith, hcode.length_eq, hlength, Nat.min_self]
  have hdeclared : p.zc = 0 → p.infoBits > 0 := fun h => absurd hp.zc_valid.1 (by omega)
  rw [decode_eq_loop hdeclared hg hflipped, decode_eq_loop hdeclared hg hlength, hloop, take_xor,
    htake]
  rfl

omit [IsStrictOrderedRing R] in
/-- Positive soft values are decided for the zero word at the first test. -/
theorem decided_positive {g : Graph} {x : Nat → R} (hx : ∀ v < g.nOf, 0 < x v)
    (iterations : Nat) : Decided g ((table g.nOf x).map finite) (iterations + 1)
      (Vector.replicate _ (finite 0)) := by
  have hhard : hardOf (posteriors g.nOf (expandEdges g) ((table g.nOf x).map finite)
      (Vector.replicate _ (finite 0))) = List.replicate g.nOf 0 := by
    rw [hardOf, posteriors, List.map_map, Table.replicate_eq_table]
    refine Table.table_congr fun v hv => ?_
    rw [Function.comp, posterior_zero _ _ hv, nonneg_finite, if_pos (decide_eq_true (hx v hv).le)]
  refine ⟨fun v hv => ?_, fun hrejected => ?_⟩
  · rw [posterior_zero _ _ hv, Ne, finite.injEq]
    exact (hx v hv).ne'
  · rw [hhard, Bool.eq_false_iff] at hrejected
    refine absurd ((syndrome_iff g (is_bits_replicate _)).mpr fun r _ => ?_) hrejected
    rw [word_of_replicate]
    simp [checkSum]

end Decoder

/-- A code word of lifting size 2 instead of zeros. -/
theorem decode_translated_two : ∃ g cw, makeGraph { zc := 2 } = .ok g ∧
    ldpcEncode (1 :: List.replicate 19 0) { zc := 2 } = .ok cw ∧
    ldpcDecode ((flipLlr cw (table g.nOf fun i => (i + 1 : ℚ))).map finite) { zc := 2 } =
      xorBits (1 :: List.replicate 19 0) <$>
        ldpcDecode ((table g.nOf fun i => (i + 1 : ℚ)).map finite) { zc := 2 } := by
  have hp : ({ zc := 2 } : LdpcParams).IsStandard := standard_two _
  obtain ⟨g, _, hg, _, hzc, _, _, hstandard⟩ := make_graph_standard hp (by decide)
  obtain ⟨cw, hcw, _⟩ := encode_standard hp hg hstandard
    (by decide +kernel : IsBits (1 :: List.replicate 19 0)) (fits_k_of hp hstandard hzc (by decide))
  exact ⟨g, cw, hg, hcw, decode_translated hp rfl hcw hg (Table.length_table _ _)
    (decided_positive (fun v _ => by positivity) 24)⟩

end NrBaseband
