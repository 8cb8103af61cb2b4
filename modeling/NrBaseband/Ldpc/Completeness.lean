import NrBaseband.Ldpc.Encode
import Mathlib.LinearAlgebra.Matrix.ToLinearEquiv

/-!
# Completeness of the elimination

The dense matrix as a matrix over GF(2), and its square part of the parity columns. The encoder
fails exactly when the determinant of that part is zero (`gauss_jordan_complete`): a failed search
for a pivot leaves a nonzero kernel vector, and a run to the end leaves none.
-/

namespace NrBaseband

open Foundation Foundation.MachineInt Foundation.TannerGraph Foundation.GaussJordan

/-- The cells of `build_H` as a matrix. -/
def Graph.denseMatrix (g : Graph) (H : List (ZMod 2)) :
    Matrix (Fin g.mOf) (Fin g.nOf) (ZMod 2) :=
  fun r c => H.getD (r * g.nOf + c) 0

/-- The square part of the columns from `K` to `K + M - 1`. -/
def Graph.parityMatrix (g : Graph) (H : List (ZMod 2)) :
    Matrix (Fin g.mOf) (Fin g.mOf) (ZMod 2) :=
  fun r c => H.getD (r * g.nOf + (g.kOf + c)) 0

variable {g : Graph} {H : List (ZMod 2)}

/-- A word passes the checks when the dense matrix maps it to zero. -/
theorem checks_iff_mul_vec (hH : RowMajor.Represents g.mOf g.nOf H (incidence (expandEdges g)))
    (word : Nat → ZMod 2) :
    g.Checks word ↔ (g.denseMatrix H).mulVec (fun c : Fin g.nOf => word c) = 0 := by
  have hrow (r : Fin g.mOf) : (g.denseMatrix H).mulVec (fun c : Fin g.nOf => word c) r =
      checkSum (expandEdges g) word r := by
    rw [← sum_incidence (fun e he => (expand_edges_lt g e he).2), Finset.sum_range,
      Matrix.mulVec, dotProduct]
    refine Finset.sum_congr rfl fun c _ => ?_
    rw [Graph.denseMatrix, hH.getD_eq r.isLt c.isLt]
  constructor
  · intro h
    funext r
    rw [hrow, h r r.isLt]
    rfl
  · intro h r hr
    rw [← hrow ⟨r, hr⟩, h]
    rfl

/-- The parity part is singular when a word with zero information bits passes the checks. -/
theorem det_eq_zero_iff (hnb : g.kb + g.mb ≤ g.nb)
    (hH : RowMajor.Represents g.mOf g.nOf H (incidence (expandEdges g))) :
    (g.parityMatrix H).det = 0 ↔
      ∃ x : Fin g.mOf → ZMod 2, g.Checks (joinWord g.kOf 0 x) ∧ x ≠ 0 := by
  have hinside := k_of_add_m_of_le hnb
  have hkernel (x : Fin g.mOf → ZMod 2) :
      (g.parityMatrix H).mulVec x = 0 ↔ g.Checks (joinWord g.kOf 0 x) := by
    have hrow (r : Fin g.mOf) : (g.parityMatrix H).mulVec x r =
        checkSum (expandEdges g) (joinWord g.kOf 0 x) r := by
      rw [check_sum_join hnb, Matrix.mulVec, dotProduct]
      simp only [Pi.zero_apply, mul_zero, Finset.sum_const_zero, zero_add]
      refine Finset.sum_congr rfl fun c _ => ?_
      rw [Graph.parityMatrix, hH.getD_eq r.isLt (by omega)]
    exact ⟨fun h r hr => (hrow ⟨r, hr⟩).symm.trans (congrFun h ⟨r, hr⟩),
      fun h => funext fun r => (hrow r).trans (h r r.isLt)⟩
  rw [← Matrix.exists_mulVec_eq_zero_iff]
  exact ⟨fun ⟨x, hne, hx⟩ => ⟨x, (hkernel x).mp hx, hne⟩,
    fun ⟨x, hx, hne⟩ => ⟨x, hne, (hkernel x).mpr hx⟩⟩

/-- On a graph whose parity part fits, the encoder fails exactly when the parity part of the dense
matrix is singular, and otherwise returns a word that the matrix maps to zero, with the information
bits at its start and zeros past the parity bits. -/
theorem gauss_jordan_complete {p : LdpcParams} {g : Graph} (hg : makeGraph p = .ok g)
    (hnb : g.kb + g.mb ≤ g.nb) {info : Bits} (hbits : IsBits info)
    (hlength : info.length = g.kOf) :
    ∃ H, buildH g = .ok H ∧
      (encodeGe info g = .error LinearSystem.singular ↔ (g.parityMatrix H).det = 0) ∧
      ((g.parityMatrix H).det ≠ 0 → ∃ cw, encodeGe info g = .ok cw ∧ cw.length = g.nOf ∧
        IsBits cw ∧ (g.denseMatrix H).mulVec (fun c : Fin g.nOf => wordOf cw c) = 0 ∧
        cw.take g.kOf = info ∧
        ∀ i, g.kOf + g.mOf ≤ i → i < g.nOf → cw[i]? = some 0) := by
  obtain ⟨H, hH, hrep⟩ := build_h_represents g
  refine ⟨H, hH, ?_⟩
  have hdet := det_eq_zero_iff hnb hrep
  rcases encode_ge_cases hnb hbits hlength (n_of_lt hg) with
    ⟨cw, hcw, hcode, hsystematic, hzeros, hkernel⟩ | ⟨hsingular, hkernel⟩
  · have hregular : (g.parityMatrix H).det ≠ 0 := by
      intro hzero
      obtain ⟨x, hx, hne⟩ := hdet.mp hzero
      exact hne (hkernel x hx)
    refine ⟨iff_of_false (by simp [hcw]) hregular, fun _ => ⟨cw, hcw, hcode.length_eq, hcode.bits,
      (checks_iff_mul_vec hrep _).mp hcode.checks, hsystematic, fun i hle hlt => ?_⟩⟩
    obtain ⟨j, rfl⟩ := Nat.exists_eq_add_of_le hle
    rw [← List.getElem?_drop, hzeros, List.getElem?_replicate, if_pos (by omega)]
  · have hzero := hdet.mpr hkernel
    exact ⟨iff_of_true hsingular hzero, fun hne => absurd hzero hne⟩

/-- Zero information bits of lifting size 2 on all rows of the second base graph. -/
theorem gauss_jordan_complete_two : ∃ g H, makeGraph { zc := 2 } = .ok g ∧ buildH g = .ok H ∧
    (encodeGe (List.replicate 20 0) g = .error LinearSystem.singular ↔
      (g.parityMatrix H).det = 0) := by
  have hp : ({ zc := 2 } : LdpcParams).IsStandard := standard_two _
  obtain ⟨g, _, hg, _, hzc, _, _, hstandard⟩ := make_graph_standard hp (by decide)
  have hkOf : g.kOf = 20 := by rw [hstandard.k_of, hzc]; rfl
  obtain ⟨H, hH, hsingular, _⟩ := gauss_jordan_complete hg (Nat.le_of_eq hstandard.nb_eq.symm)
    (is_bits_replicate 20) (by rw [List.length_replicate, hkOf])
  exact ⟨g, H, hg, hH, hsingular⟩

end NrBaseband
