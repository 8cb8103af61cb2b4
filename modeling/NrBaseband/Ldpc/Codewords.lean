import NrBaseband.Ldpc.ParityCheck

/-!
# Code words

The code of a graph, stated without the program: the bit vectors of its length on which every check
adds up to zero. `code_word_unique` says that the information part of a code word of a standard
graph determines it, and `code_word_truncate` that the codes of fewer rows are prefixes.
-/

namespace NrBaseband

open Foundation Foundation.TannerGraph

/-- A code word of the graph. -/
structure Graph.IsCodeword (g : Graph) (w : Bits) : Prop where
  length_eq : w.length = g.nOf
  bits : IsBits w
  checks : g.Checks (wordOf w)

/-- The checks only see the positions of a code word. -/
theorem checks_congr {g : Graph} {word other : Nat → ZMod 2}
    (h : ∀ i < g.nOf, word i = other i) : g.Checks word ↔ g.Checks other := by
  have hsum (r : Nat) : checkSum (expandEdges g) word r = checkSum (expandEdges g) other r :=
    check_sum_congr fun e he _ => h e.var (expand_edges_lt g e he).2
  simp only [Graph.Checks, hsum]

/-- The checks are the equations of the quasi-cyclic code. -/
theorem checks_iff_satisfies (g : Graph) (word : Nat → ZMod 2) :
    g.Checks word ↔ QuasiCyclic.Satisfies g.zc g.mb g.circulants word := by
  unfold Graph.Checks
  rw [expand_edges_eq_lift]
  constructor
  · intro h i hi z hz
    rw [← QuasiCyclic.check_sum_lift _ _ hz]
    exact h _ (RowMajor.index_lt hi hz)
  · intro h r hr
    have hrow : r / g.zc < g.mb := Nat.div_lt_of_lt_mul (by rwa [Nat.mul_comm])
    have hoffset := Nat.mod_lt r g.zc_pos
    rw [← Nat.div_add_mod' r g.zc, QuasiCyclic.check_sum_lift _ _ hoffset]
    exact h _ hrow _ hoffset

/-- A word that is zero on the information part and passes the checks of a standard graph is
zero. -/
theorem checks_eq_zero {g : Graph} {bg : BaseGraph} (hg : g.IsStandard bg)
    {word : Nat → ZMod 2} (hchecks : g.Checks word) (hinfo : ∀ i < g.kOf, word i = 0) :
    ∀ i < g.nOf, word i = 0 := by
  rw [Graph.nOf, hg.nb_eq]
  exact hg.dual_diagonal.eq_zero ((checks_iff_satisfies g word).mp hchecks) hinfo

/-- The information part of a code word of a standard graph determines it. -/
theorem code_word_unique {g : Graph} {bg : BaseGraph} (hg : g.IsStandard bg) {w other : Bits}
    (hw : g.IsCodeword w) (hother : g.IsCodeword other) (hinfo : w.take g.kOf = other.take g.kOf) :
    w = other := by
  have hlength : w.length = other.length := hw.length_eq.trans hother.length_eq.symm
  refine word_of_inj hw.bits hother.bits hlength fun i hi => ?_
  refine hg.dual_diagonal.unique ((checks_iff_satisfies g _).mp hw.checks)
    ((checks_iff_satisfies g _).mp hother.checks) (fun k hk => ?_) i ?_
  · have hget : (w.take (g.kb * g.zc))[k]? = (other.take (g.kb * g.zc))[k]? :=
      congrArg (·[k]?) hinfo
    rw [List.getElem?_take_of_lt hk, List.getElem?_take_of_lt hk] at hget
    simp only [wordOf, List.getD_eq_getElem?_getD, hget]
  · rwa [← hg.nb_eq, ← Graph.nOf, ← hw.length_eq]

/-- A position of a prefix reads as in the whole vector. -/
theorem word_of_take {bits : Bits} {n i : Nat} (h : i < n) :
    wordOf (bits.take n) i = wordOf bits i := by
  simp [wordOf, List.getD_eq_getElem?_getD, List.getElem?_take_of_lt h]

/-- A prefix of a bit vector is one. -/
theorem IsBits.take {bits : Bits} (h : IsBits bits) (n : Nat) : IsBits (bits.take n) :=
  fun b hb => h b (List.mem_of_mem_take hb)

/-- Of two standard graphs that agree but for the number of rows, the shorter code consists of
prefixes of the longer one. -/
theorem code_word_truncate {g short : Graph} {bg : BaseGraph} (hg : g.IsStandard bg)
    (hshort : short.IsStandard bg) (hzc : short.zc = g.zc) (hils : short.iLs = g.iLs)
    (hmb : short.mb ≤ g.mb) {w : Bits} (hw : g.IsCodeword w) :
    short.IsCodeword (w.take short.nOf) := by
  have hle : short.nOf ≤ g.nOf := by
    rw [Graph.nOf, Graph.nOf, hzc, hg.nb_eq, hshort.nb_eq, hg.kb_eq, hshort.kb_eq]
    exact Nat.mul_le_mul_right _ (by omega)
  refine ⟨?_, hw.bits.take _, ?_⟩
  · rw [List.length_take, hw.length_eq]
    omega
  · rw [checks_congr fun i hi => word_of_take hi, checks_iff_satisfies]
    have hall := (checks_iff_satisfies g _).mp hw.checks
    intro i hi z hz
    have hcode := (bg.dual_diagonal g.iLs).reduce g.zc
    rw [hshort.circulants_eq, hzc, hils,
      hcode.block_sum_truncate hshort.mb_range.1 hshort.mb_range.2 hi]
    have hrow := hall i (by omega) z (by omega)
    rwa [hg.circulants_eq,
      hcode.block_sum_truncate hg.mb_range.1 hg.mb_range.2 (by omega)] at hrow

end NrBaseband
