import NrBaseband.Ldpc.Decode
import Mathlib.Algebra.Order.Ring.Rat

/-!
# Decoding scaled soft values

Multiplying all soft values by one positive factor multiplies every message of the min-sum decoder
by it and changes no comparison, so the hard decisions stay the same. There is a lemma for each
quantity of an iteration; `minsum_loop_times` is the induction over the iterations, and
`decode_scale_invariant` the result for the decoder.
-/

namespace NrBaseband

open Foundation Foundation.MachineInt Extended

variable {R : Type} [Field R] [LinearOrder R] {c : R}

/-- Messages multiplied by a factor. -/
def Messages.times {edges : List SparseEdge} (m : Messages R edges) (c : R) : Messages R edges :=
  m.map (scale c)

/-- Every message is scaled. -/
@[simp] theorem get_times {edges : List SparseEdge} (m : Messages R edges) (c : R)
    {i : Nat} (hi : i < edges.length) : (m.times c)[i] = scale c m[i] := by
  simp [Messages.times]

/-- The first messages, which are zero, are their own multiples. -/
theorem times_zero (c : R) (edges : List SparseEdge) :
    Messages.times (Vector.replicate edges.length (finite 0)) c =
      Vector.replicate edges.length (finite 0) := by
  simp [Messages.times, scale]

/-- Messages computed edge by edge are multiplied edge by edge. -/
theorem times_of_fn {edges : List SparseEdge} (c : R) (f : Fin edges.length → Extended R) :
    Messages.times (Vector.ofFn f) c = Vector.ofFn fun i => scale c (f i) := by
  refine Vector.ext fun i hi => ?_
  simp [Messages.times]

/-- The sum of a variable is multiplied by the factor. -/
theorem posterior_times (hc : 0 < c) (edges : List SparseEdge) (channel : SoftVec (Extended R))
    (c2v : Messages R edges) (v : Nat) :
    posterior edges (channel.map (scale c)) (c2v.times c) v =
      scale c (posterior edges channel c2v v) := by
  have hchannel : (channel.map (scale c)).getD v .nan = scale c (channel.getD v .nan) := by
    rw [List.getD_eq_getElem?_getD, List.getD_eq_getElem?_getD, List.getElem?_map]
    cases channel[v]? <;> rfl
  rw [posterior, posterior, hchannel]
  refine List.foldl_hom (scale c) fun sum i => ?_
  rw [Fin.getElem_fin, get_times, Fin.getElem_fin, scale_add hc]

/-- The messages to the checks are multiplied by the factor. -/
theorem variable_pass_times (hc : 0 < c) (edges : List SparseEdge)
    (channel : SoftVec (Extended R)) (c2v : Messages R edges) :
    variablePass edges (channel.map (scale c)) (c2v.times c) =
      (variablePass edges channel c2v).times c := by
  rw [variablePass, variablePass, times_of_fn]
  congr 1
  funext i
  simp only [Fin.getElem_fin, posterior_times hc, get_times, scale_sub hc]

variable [IsStrictOrderedRing R]

/-- The minimum over the other edges of a check is multiplied by the factor, the sign is kept. -/
theorem min_and_sign_times (hc : 0 < c) {edges : List SparseEdge} (v2c : Messages R edges)
    (els : List (Fin edges.length)) (i : Fin edges.length) :
    minAndSign edges (v2c.times c) els i = Prod.map (scale c) id (minAndSign edges v2c els i) := by
  have hstart : ((posInf : Extended R), (1 : R)) = Prod.map (scale c) id (posInf, 1) := by
    rw [Prod.map_apply, scale_pos_inf hc, id]
  have hzero : (finite 0 : Extended R) = scale c (finite 0) := by
    simp [scale]
  conv_lhs => rw [minAndSign, hstart]
  rw [minAndSign]
  refine List.foldl_hom (Prod.map (scale c) id) fun acc j => ?_
  obtain ⟨min1, sign⟩ := acc
  -- both comparisons are between multiples of what is compared without the factor
  have hsign : (scale c v2c[j.val]).lt (finite 0) = v2c[j.val].lt (finite 0) := by
    rw [hzero, lt_scale hc, ← hzero]
  simp only [Prod.map_apply, id, Fin.getElem_fin, get_times, ← scale_abs hc, lt_scale hc, hsign]
  split <;> rfl

/-- The messages to the variables are multiplied by the factor. -/
theorem check_pass_times (hc : 0 < c) (edges : List SparseEdge) (v2c : Messages R edges) :
    checkPass edges (v2c.times c) = (checkPass edges v2c).times c := by
  rw [checkPass, checkPass, times_of_fn]
  congr 1
  funext i
  simp only [min_and_sign_times hc, Prod.map_fst, Prod.map_snd, id]
  rw [scale_comm hc, scale_comm hc]

/-- The hard decisions on the sums are the same. -/
theorem hard_of_times (hc : 0 < c) (n : Nat) (edges : List SparseEdge)
    (channel : SoftVec (Extended R)) (c2v : Messages R edges) :
    hardOf (posteriors n edges (channel.map (scale c)) (c2v.times c)) =
      hardOf (posteriors n edges channel c2v) := by
  simp only [hardOf, posteriors, List.map_map]
  refine List.map_congr_left fun v _ => ?_
  simp only [Function.comp, posterior_times hc, nonneg_scale hc]

/-- The iterations end with the same decision. -/
theorem minsum_loop_times (hc : 0 < c) (g : Graph) (channel : SoftVec (Extended R))
    (iterations : Nat) (c2v : Messages R (expandEdges g)) :
    minsumLoop g (channel.map (scale c)) iterations (c2v.times c) =
      minsumLoop g channel iterations c2v := by
  induction iterations generalizing c2v with
  | zero => rw [minsumLoop, minsumLoop, hard_of_times hc]
  | succ iterations ih =>
      rw [minsumLoop, minsumLoop, hard_of_times hc, variable_pass_times hc, check_pass_times hc, ih]

/-- The first `n` elements of a vector that is long enough. -/
theorem read_first {α : Type} {xs : List α} {n : Nat} (h : n ≤ xs.length) :
    (List.range n).mapM (Checked.read xs) = .ok (xs.take n) := by
  refine Table.range_map_eq_ok.mpr ⟨by rw [List.length_take]; omega, fun i hi => ?_⟩
  rw [List.length_take] at hi
  rw [Checked.read_of_lt (by omega), List.getElem_take]

/-- `decode_minsum` returns the same decision. -/
theorem decode_minsum_times (hc : 0 < c) (llr : SoftVec (Extended R)) (g : Graph)
    (maxIter : Int) : decodeMinsum (llr.map (scale c)) g maxIter = decodeMinsum llr g maxIter := by
  rw [decodeMinsum, decodeMinsum, List.length_map]
  by_cases hlength : toInt32 llr.length = g.nOf
  · have hlong : g.nOf ≤ llr.length := by
      have := to_int32_le (Int.natCast_nonneg llr.length)
      omega
    rw [require_of hlength, Checked.ok_bind, Checked.ok_bind, read_first hlong,
      read_first (by rwa [List.length_map]), Checked.ok_bind, Checked.ok_bind, ← List.map_take]
    conv_lhs => rw [← times_zero c, minsum_loop_times hc]
  · rw [require_of_not hlength]
    rfl

/-- Multiplying all soft values by one positive factor does not change what is decoded, whatever
the parameters. -/
theorem decode_scale_invariant (hc : 0 < c) (p : LdpcParams) (llr : SoftVec R) :
    ldpcDecode ((llr.map (c * ·)).map finite) p = ldpcDecode (llr.map finite) p := by
  have hllr : (llr.map (c * ·)).map finite = (llr.map finite).map (scale c) := by
    rw [List.map_map, List.map_map]
    rfl
  simp only [ldpcDecode, ldpcDecision, hllr, decode_minsum_times hc]

/-- Three times a vector with weak, strong and missing values, some of them of the wrong sign. -/
theorem decode_scale_invariant_three :
    let llr : SoftVec ℚ := (List.replicate 30 1) ++ [-5, 0, 2 / 3] ++ (List.replicate 71 (1 / 2))
    ldpcDecode ((llr.map (3 * ·)).map finite) { zc := 2 } =
      ldpcDecode (llr.map finite) { zc := 2 } :=
  decode_scale_invariant (by norm_num) _ _

end NrBaseband
