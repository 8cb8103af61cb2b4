import NrBaseband.EqualizerShapes
import Mathlib.LinearAlgebra.FiniteDimensional.Basic

/-!
# What the equalizer returns

`equalize_sample` returns the solution of the regularised normal equations of the channel
(`equalize_sample_solves`), and a regularisation well above the pivot threshold rules out the error
of a singular matrix (`equalize_sample_returns`).
-/

namespace NrBaseband

open Foundation Foundation.MachineInt Foundation.RowMajor Matrix

variable {R K : Type} [Field R] [LinearOrder R] [IsStrictOrderedRing R] [Field K] [StarRing K]
  (num : ExactComplex R K)

/-- The channel matrix that a vector holds in row-major order. -/
def channel (H : List K) (rx tx : Nat) : Matrix (Fin rx) (Fin tx) K :=
  Matrix.of fun r c => H.getD (r * tx + c) 0

/-- The first entries of a vector. -/
def entries (v : List K) (n : Nat) : Fin n → K := fun i => v.getD i 0

/-- The matrix of the regularised normal equations. -/
def normalMatrix (H : List K) (rx tx : Nat) (reg : R) : Matrix (Fin tx) (Fin tx) K :=
  (channel H rx tx)ᴴ * channel H rx tx + num.ofReal reg • (1 : Matrix (Fin tx) (Fin tx) K)

omit [IsStrictOrderedRing R] in
/-- With matching sizes and weights the samples are equalized. -/
theorem equalize_sample_weighted {y : ComplexVec K} {H : List K} {nRx nTx : Int}
    (h : SizesMatch y H nRx nTx) {cfg : EqualizerConfig R} {W : List K} {w : Nat → Nat → K}
    (hW : equalizerWeights num.toComplexOps H nRx.toNat nTx.toNat cfg = .ok W)
    (hreads : Reads nTx.toNat nRx.toNat W w) :
    ∃ x, equalizeSample num.toComplexOps y H nRx nTx cfg = .ok x ∧ x.length = nTx ∧
      ∀ i < nTx.toNat,
        Checked.read x i = .ok (∑ j ∈ Finset.range nRx.toNat, w i j * y.getD j 0) := by
  have hrx := h.rx_range.1
  have htx := h.tx_range.1
  have hyle := to_int32_le (Int.natCast_nonneg y.length)
  rw [h.y_size] at hyle
  have hread (j : Nat) (hj : j < nRx.toNat) : Checked.read y j = .ok (y.getD j 0) :=
    read_getD (by omega) 0
  obtain ⟨x, hx, hlength, hentries⟩ := mat_vec_spec hreads (x := y)
    (by rw [h.y_size]; omega) hread
  have hreturns := equalize_sample_eq num.toComplexOps h cfg
  rw [hW, Checked.ok_bind, hx] at hreturns
  exact ⟨x, hreturns, by omega, hentries⟩

/-- The weights are an inverse of the matrix of the normal equations times the conjugate transpose
of the channel, unless the matrix is nearly singular. -/
theorem equalizer_weights_cases {H : List K} {rx tx : Nat} (hH : rx * tx ≤ H.length)
    (cfg : EqualizerConfig R) :
    (∃ (W : List K) (v : Nat → Nat → K), equalizerWeights num.toComplexOps H rx tx cfg = .ok W ∧
      Reads tx rx W (fun i j => ∑ k ∈ Finset.range tx, v i k * star (H.getD (j * tx + k) 0)) ∧
      normalMatrix num H rx tx cfg.reg * Matrix.of (fun i j : Fin tx => v i j) = 1) ∨
    (equalizerWeights num.toComplexOps H rx tx cfg = .error singularMatrix ∧
      ∃ (z : Fin tx → K) (p : Fin tx), z p = 1 ∧
        ∀ i, num.abs ((normalMatrix num H rx tx cfg.reg *ᵥ z) i) ≤ 1e-14) := by
  have hreads := reads_getD hH (0 : K)
  obtain ⟨Hh, hherm, hHh⟩ := mat_herm_spec hreads
  obtain ⟨gram, hgram, hG⟩ := mat_mul_spec hHh.reads hreads
  obtain ⟨reg, hreg, hN⟩ := regularise_spec num hG cfg.reg
  -- the matrix that is inverted is the matrix of the normal equations
  have hnormal (i j : Fin tx) : square tx (fun i j => ∑ k ∈ Finset.range rx,
      star (H.getD (k * tx + i) 0) * H.getD (k * tx + j) 0 +
        if i = j then num.ofReal cfg.reg else 0) i j = normalMatrix num H rx tx cfg.reg i j := by
    simp only [square, normalMatrix, channel, Matrix.add_apply, Matrix.mul_apply,
      Matrix.conjTranspose_apply, Matrix.of_apply, Matrix.smul_apply, Matrix.one_apply,
      smul_eq_mul, mul_ite, mul_one, mul_zero, Fin.ext_iff, Finset.sum_range]
  rw [equalizerWeights, hherm, Checked.ok_bind, hgram, Checked.ok_bind, hreg, Checked.ok_bind]
  rcases mat_inv_spec num hN.reads with ⟨inv, v, hinv, hV, hinverse⟩ | ⟨herror, z, p, hone, hsmall⟩
  · left
    obtain ⟨W, hW, hWrep⟩ := mat_mul_spec hV.reads hHh.reads
    refine ⟨W, v, by rw [hinv, Checked.ok_bind, hW], hWrep.reads, ?_⟩
    ext i c
    rw [Matrix.mul_apply, Matrix.one_apply, ← hinverse i c]
    exact Finset.sum_congr rfl fun j _ => by rw [← hnormal]; rfl
  · right
    refine ⟨by rw [herror, Checked.error_bind], z, p, hone, fun i => ?_⟩
    have hrow := hsmall i
    simp only [hnormal] at hrow
    exact hrow

/-- A call with matching sizes solves the normal equations, whose matrix then has an inverse, or it
ends in the error of a singular matrix, which then is nearly singular. -/
theorem equalize_sample_cases {y : ComplexVec K} {H : List K} {nRx nTx : Int}
    (h : SizesMatch y H nRx nTx) (cfg : EqualizerConfig R) :
    (∃ x V, equalizeSample num.toComplexOps y H nRx nTx cfg = .ok x ∧ x.length = nTx ∧
      normalMatrix num H nRx.toNat nTx.toNat cfg.reg * V = 1 ∧
      entries x nTx.toNat =
        V *ᵥ ((channel H nRx.toNat nTx.toNat)ᴴ *ᵥ entries y nRx.toNat)) ∨
    (equalizeSample num.toComplexOps y H nRx nTx cfg = .error singularMatrix ∧
      ∃ (z : Fin nTx.toNat → K) (p : Fin nTx.toNat), z p = 1 ∧
        ∀ i, num.abs ((normalMatrix num H nRx.toNat nTx.toNat cfg.reg *ᵥ z) i) ≤ 1e-14) := by
  rcases equalizer_weights_cases num h.channel_length cfg with
    ⟨W, v, hW, hreads, hinverse⟩ | ⟨herror, hsmall⟩
  · left
    obtain ⟨x, hx, hlength, hentries⟩ := equalize_sample_weighted num h hW hreads
    refine ⟨x, Matrix.of fun i j => v i j, hx, hlength, hinverse, ?_⟩
    funext i
    rw [mulVec_mulVec, Matrix.mulVec, dotProduct]
    show x.getD i 0 = _
    rw [getD_of_read (hentries i i.is_lt) 0, Finset.sum_range]
    refine Finset.sum_congr rfl fun j _ => ?_
    rw [Matrix.mul_apply, Finset.sum_range]
    rfl
  · right
    exact ⟨by rw [equalize_sample_eq num.toComplexOps h, herror, Checked.error_bind], hsmall⟩

/-- What `equalize_sample` returns solves the regularised normal equations, and zero forcing returns
the sent symbols where the channel has no noise. -/
theorem equalize_sample_solves {y x : ComplexVec K} {H : List K} {nRx nTx : Int}
    {cfg : EqualizerConfig R} (h : equalizeSample num.toComplexOps y H nRx nTx cfg = .ok x) :
    x.length = nTx ∧
    normalMatrix num H nRx.toNat nTx.toNat cfg.reg *ᵥ entries x nTx.toNat =
      (channel H nRx.toNat nTx.toNat)ᴴ *ᵥ entries y nRx.toNat ∧
    (cfg.type = .zf → ∀ s : Fin nTx.toNat → K,
      entries y nRx.toNat = channel H nRx.toNat nTx.toNat *ᵥ s → entries x nTx.toNat = s) := by
  rcases equalize_sample_cases num (sizes_match_of_ok num.toComplexOps h) cfg with
    ⟨x', V, hx, hlength, hinverse, hentries⟩ | ⟨herror, _⟩
  · obtain rfl : x' = x := Except.ok.inj (hx.symm.trans h)
    refine ⟨hlength, ?_, ?_⟩
    · rw [hentries, mulVec_mulVec, hinverse, one_mulVec]
    · intro hzf s hy
      have hreg : cfg.reg = 0 := by
        rw [EqualizerConfig.reg, hzf]
      have hgram : normalMatrix num H nRx.toNat nTx.toNat cfg.reg =
          (channel H nRx.toNat nTx.toNat)ᴴ * channel H nRx.toNat nTx.toNat := by
        rw [normalMatrix, hreg, map_zero, zero_smul, add_zero]
      -- the inverse is also an inverse from the left
      have hleft := mul_eq_one_comm.mp hinverse
      rw [hgram] at hleft
      rw [hentries, hy, mulVec_mulVec, mulVec_mulVec, Matrix.mul_assoc, hleft, one_mulVec]
  · rw [h] at herror
    cases herror

/-- A channel whose inversion exchanges rows. -/
theorem equalize_sample_solves_two :
    normalMatrix rationalNumbers [1, 2, 3, 4] 2 2 0 *ᵥ entries [3, -1] 2 =
      (channel [1, 2, 3, 4] 2 2)ᴴ *ᵥ entries [1, 5] 2 := by
  have hrun : equalizeSample rationalNumbers.toComplexOps [1, 5] [1, 2, 3, 4] 2 2 { type := .zf } =
      .ok [3, -1] := by decide +kernel
  exact (equalize_sample_solves rationalNumbers hrun).2.1

/-! ## Regularised channels -/

/-- A regularisation above twice the pivot threshold stretches some entry above the threshold. -/
theorem not_nearly_singular {H : List K} {rx tx : Nat} (htx : tx ≤ 4) {reg : R}
    (hreg : 2e-14 < reg) {z : Fin tx → K} {p : Fin tx} (hone : z p = 1) :
    ¬∀ i, num.abs ((normalMatrix num H rx tx reg *ᵥ z) i) ≤ 1e-14 := by
  intro hsmall
  have hlow : num.energy z ≥ 1 := by
    have hentry := num.sq_le_energy z p
    rwa [hone, num.abs_one_sq] at hentry
  have henergy := num.le_energy_gram (channel H rx tx) (by linarith : 0 ≤ reg) z
  have hhigh : num.energy (normalMatrix num H rx tx reg *ᵥ z) ≤ tx * (1e-14) ^ 2 := by
    have hsum := Finset.sum_le_card_nsmul Finset.univ
      (fun i => num.abs ((normalMatrix num H rx tx reg *ᵥ z) i) ^ 2) ((1e-14) ^ 2)
      fun i _ => pow_le_pow_left₀ (num.abs_nonneg _) (hsmall i) 2
    rwa [Finset.card_univ, Fintype.card_fin, nsmul_eq_mul] at hsum
  have hcount : (tx : R) ≤ 4 := by exact_mod_cast htx
  have hsq : (2e-14 : R) ^ 2 < reg ^ 2 := pow_lt_pow_left₀ hreg (by norm_num) two_ne_zero
  have hreg' : reg ^ 2 ≤ reg ^ 2 * num.energy z := le_mul_of_one_le_right (sq_nonneg reg) hlow
  have hall : num.energy (normalMatrix num H rx tx reg *ᵥ z) ≤ 4 * (1e-14) ^ 2 :=
    hhigh.trans (mul_le_mul_of_nonneg_right hcount (sq_nonneg _))
  have hnumbers : (4 : R) * (1e-14) ^ 2 = (2e-14) ^ 2 := by norm_num
  rw [hnumbers] at hall
  exact absurd (hreg'.trans (henergy.trans hall)) (not_le.mpr hsq)

/-- With MMSE or RZF and a regularisation above twice the pivot threshold, `equalize_sample` returns
for every channel and every vector of matching sizes. -/
theorem equalize_sample_returns {y : ComplexVec K} {H : List K} {nRx nTx : Int}
    (h : SizesMatch y H nRx nTx) {cfg : EqualizerConfig R}
    (hreg : cfg.type = .mmse ∧ 2e-14 < cfg.noiseVar ∨ cfg.type = .rzf ∧ 2e-14 < cfg.rzfDelta) :
    ∃ x, equalizeSample num.toComplexOps y H nRx nTx cfg = .ok x := by
  have hlarge : 2e-14 < cfg.reg := by
    rcases hreg with ⟨htype, hnoise⟩ | ⟨htype, hdelta⟩
    · rwa [EqualizerConfig.reg, htype]
    · rwa [EqualizerConfig.reg, htype]
  have htx : nTx.toNat ≤ 4 := by
    have hhigh := h.tx_range.2
    omega
  rcases equalize_sample_cases num h cfg with ⟨x, _, hx, _⟩ | ⟨_, z, p, hone, hsmall⟩
  · exact ⟨x, hx⟩
  · exact absurd hsmall (not_nearly_singular num htx hlarge hone)

/-- A zero channel has a regularised inverse. -/
theorem equalize_sample_returns_zero : ∃ x,
    equalizeSample complexNumbers.toComplexOps [1, Complex.I] [0, 0, 0, 0] 2 2 {} = .ok x :=
  equalize_sample_returns complexNumbers
    ⟨by decide, by decide, by decide, by decide⟩ (.inl ⟨rfl, by norm_num⟩)

end NrBaseband
