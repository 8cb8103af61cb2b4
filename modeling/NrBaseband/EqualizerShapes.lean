import NrBaseband.EqualizerInverse

/-!
# The equalizer in any arithmetic

What the helpers of the equalizer do to sizes does not depend on what the operations compute. With a
channel of the right size every read and write is inside the vectors, and the only error left is
that of a pivot that is not above the threshold, as it was computed (`equalizer_weights_shape`). The
statements hold for rounded numbers with infinities and NaN as well as for exact ones.
-/

namespace NrBaseband

open Foundation Foundation.MachineInt Foundation.RowMajor

/-! ## The helpers -/

section

variable {K : Type} [Zero K] [Add K] [Mul K]

/-- `mat_mul` stores a matrix. -/
theorem mat_mul_shape {A B : List K} {ar ac bc : Nat} {a b : Nat → Nat → K}
    (hA : Reads ar ac A a) (hB : Reads ac bc B b) :
    ∃ C entry, matMul A ar ac B ac bc = .ok C ∧ Represents ar bc C entry := by
  rw [matMul, require_of rfl, Checked.ok_bind]
  have hloop := range_loop (fun _ C => ∃ entry, Represents ar bc C entry)
    (fun C i => (List.range ac).foldlM (fun C k => (List.range bc).foldlM (fun C j => do
      let a ← Checked.read A (i * ac + k)
      let b ← Checked.read B (k * bc + j)
      Checked.modify C (i * bc + j) (· + a * b)) C) C) ar
    (fun i C hi hC => ?_) ⟨_, Represents.replicate ar bc (0 : K)⟩
  · obtain ⟨C, hrun, entry, hrep⟩ := hloop
    exact ⟨C, entry, hrun, hrep⟩
  · refine range_loop (fun _ C => ∃ entry, Represents ar bc C entry) _ ac ?_ hC
    rintro k C hk ⟨entry, hrep⟩
    obtain ⟨next, hrun, hnext⟩ := mat_mul_row hA hB hrep hi hk
    exact ⟨next, hrun, _, hnext⟩

/-- `mat_vec` stores a vector. -/
theorem mat_vec_shape {A x : List K} {r c : Nat} {a : Nat → Nat → K} (hA : Reads r c A a)
    (hsize : toInt32 x.length = c) (hx : c ≤ x.length) :
    ∃ y, matVec A r c x = .ok y ∧ y.length = r := by
  rw [matVec, require_of hsize, Checked.ok_bind]
  let sized (_ : Nat) (y : List K) : Prop := y.length = r
  refine range_loop sized _ r (fun i y hi hy => ?_) List.length_replicate
  refine range_loop sized _ c (fun j y hj hy => ?_) hy
  have hlength : y.length = r := hy
  have hread : Checked.read x j = .ok (x.getD j 0) := read_getD (by omega) 0
  have hin : i < y.length := by omega
  refine ⟨y.set i (y[i] + a i j * x.getD j 0), ?_, ?_⟩
  · rw [hA i hi j hj, Checked.ok_bind, hread, Checked.ok_bind, Checked.modify,
      Checked.read_of_lt hin, Checked.ok_bind, Checked.write, if_pos hin]
  · exact List.length_set.trans hlength

end

variable {R K : Type} [OfScientific R] [Zero R] [BEq R] [LT R] [DecidableLT R]
  [Zero K] [One K] [Add K] [Sub K] [Mul K] [Div K] [Star K] (ops : ComplexOps R K)

omit [OfScientific R] [LT R] [DecidableLT R] [One K] [Sub K] [Mul K] [Div K] [Star K] in
/-- The regularised matrix has the size of the matrix. -/
theorem regularise_shape {gram : List K} {n : Nat} {g : Nat → Nat → K}
    (hG : Represents n n gram g) (reg : R) :
    ∃ out entry, regularise ops gram n reg = .ok out ∧ Represents n n out entry := by
  unfold regularise
  split
  · obtain ⟨I, hI, hrep⟩ := mat_eye_spec n (ops.real reg)
    obtain ⟨out, hout, hsum⟩ := add_cells hG hrep
    rw [hI, Checked.ok_bind]
    exact ⟨out, _, hout, hsum⟩
  · exact ⟨gram, g, rfl, hG⟩

omit [OfScientific R] [Zero R] [BEq R] [Zero K] [One K] [Add K] [Sub K] [Mul K] [Div K]
  [Star K] in
/-- The search for the pivot finds a row, whatever the comparisons say. -/
theorem mat_inv_pivot_shape {n : Nat} {aug : List K} {col : Nat} {entry : Nat → Nat → K}
    (haug : Represents n (2 * n) aug entry) (hcol : col < n) :
    ∃ found, matInvPivot ops aug n col = .ok found ∧ found.1 < n := by
  have hwidth : col < 2 * n := by omega
  rw [matInvPivot, haug.read_eq col hcol col hwidth, Checked.ok_bind]
  have hloop := counted_loop (fun _ (found : Nat × R) => found.1 < n)
    (fun found r => do
      let z ← Checked.read aug (r * (2 * n) + col)
      let v := ops.abs z
      return if v > found.2 then (r, v) else found) (col + 1) (n - (col + 1))
    (fun r found _ hr hfound => ?_) (a := (col, ops.abs (entry col col))) hcol
  · exact hloop
  · have hrow : r < n := by omega
    refine ⟨_, by rw [haug.read_eq r hrow col hwidth, Checked.ok_bind]; rfl, ?_⟩
    split
    · exact hrow
    · exact hfound

omit [Zero R] [BEq R] [Zero K] [One K] [Add K] [Star K] in
/-- A column step stores a matrix, or its pivot is not above the threshold. -/
theorem mat_inv_column_shape {n : Nat} {aug : List K} {col : Nat} {entry : Nat → Nat → K}
    (haug : Represents n (2 * n) aug entry) (hcol : col < n) :
    (∃ next, matInvColumn ops n aug col = .ok next ∧
      ∃ entry, Represents n (2 * n) next entry) ∨
    (matInvColumn ops n aug col = .error singularMatrix ∧ True) := by
  obtain ⟨found, hfound, hrow⟩ := mat_inv_pivot_shape ops haug hcol
  rw [matInvColumn, hfound, Checked.ok_bind]
  by_cases hbest : found.2 > 1e-14
  · obtain ⟨swapped, hswap, hswapped⟩ := mat_inv_swap_spec haug hcol hrow
    obtain ⟨scaled, hscale, hscaled⟩ := mat_inv_scale_spec hswapped hcol
    obtain ⟨next, hsubtract, hnext⟩ := mat_inv_subtract_spec hscaled hcol
    refine .inl ⟨next, ?_, _, hnext⟩
    rw [require_of hbest, Checked.ok_bind, hswap, Checked.ok_bind, hscale, Checked.ok_bind,
      hsubtract]
  · rw [require_of_not hbest]
    exact .inr ⟨rfl, trivial⟩

omit [Zero R] [BEq R] [Add K] [Star K] in
/-- `mat_inv` stores a matrix, or one of its pivots is not above the threshold. -/
theorem mat_inv_shape {n : Nat} {A : List K} {a : Nat → Nat → K} (hA : Reads n n A a) :
    (∃ inv v, matInv ops A n = .ok inv ∧ Represents n n inv v) ∨
      matInv ops A n = .error singularMatrix := by
  obtain ⟨start, hstart, hrep⟩ := mat_inv_start_spec hA
  rw [matInv, hstart, Checked.ok_bind, List.range_eq_range']
  have hloop := counted_loop_or (fun _ aug => ∃ entry, Represents n (2 * n) aug entry)
    (matInvColumn ops n) singularMatrix True 0 n
    (fun col aug _ hcol haug => by
      obtain ⟨entry, haug⟩ := haug
      exact mat_inv_column_shape ops haug (by omega)) ⟨_, hrep⟩
  rcases hloop with ⟨aug, hrun, entry, haug⟩ | ⟨hrun, -⟩
  · left
    obtain ⟨inv, hfill, hinv⟩ := (Represents.replicate n n (0 : K)).fill_with
      (fun i j => entry i (n + j)) (fun i inv j => do
        let a ← Checked.read aug (i * (2 * n) + (n + j))
        Checked.write inv (i * n + j) a)
      fun i hi j hj inv => by
        rw [haug.read_eq i hi (n + j) (by omega), Checked.ok_bind]
    rw [List.range_eq_range'] at hfill
    rw [hrun, Checked.ok_bind]
    exact ⟨inv, _, hfill, hinv⟩
  · right
    rw [hrun, Checked.error_bind]

/-! ## One sample -/

/-- The calls whose sizes pass the checks. -/
structure SizesMatch {K : Type} (y : ComplexVec K) (H : List K) (nRx nTx : Int) : Prop where
  y_size : toInt32 y.length = nRx
  h_size : toInt32 H.length = nRx * nTx
  rx_range : 1 ≤ nRx ∧ nRx ≤ 4
  tx_range : 1 ≤ nTx ∧ nTx ≤ 4

/-- A call that returns has passed the checks. -/
theorem sizes_match_of_ok {y x : ComplexVec K} {H : List K} {nRx nTx : Int}
    {cfg : EqualizerConfig R} (h : equalizeSample ops y H nRx nTx cfg = .ok x) :
    SizesMatch y H nRx nTx := by
  unfold equalizeSample at h
  obtain ⟨hy, h⟩ := require_bind_eq_ok.mp h
  obtain ⟨size, hsize, h⟩ := Checked.bind_eq_ok.mp h
  obtain ⟨hH, h⟩ := require_bind_eq_ok.mp h
  obtain ⟨⟨hlow, hhigh, hlow', hhigh'⟩, _⟩ := require_bind_eq_ok.mp h
  rw [(int32_eq_ok.mp hsize).1] at hH
  exact ⟨hy, hH, ⟨hlow', hhigh'⟩, ⟨hlow, hhigh⟩⟩

/-- The matrix `W` of `equalize_sample`. -/
def equalizerWeights (H : List K) (rx tx : Nat) (cfg : EqualizerConfig R) : Checked (List K) := do
  let Hh ← matHerm H rx tx
  let gram ← matMul Hh tx rx H rx tx
  let gram ← regularise ops gram tx cfg.reg
  let inv ← matInv ops gram tx
  matMul inv tx tx Hh tx rx

/-- The weights are stored, or a pivot of the inversion is not above the threshold. -/
theorem equalizer_weights_shape {H : List K} {rx tx : Nat} (hH : rx * tx ≤ H.length)
    (cfg : EqualizerConfig R) :
    (∃ W w, equalizerWeights ops H rx tx cfg = .ok W ∧ Reads tx rx W w) ∨
      equalizerWeights ops H rx tx cfg = .error singularMatrix := by
  have hreads := reads_getD hH (0 : K)
  obtain ⟨Hh, hherm, hHh⟩ := mat_herm_spec hreads
  obtain ⟨gram, g, hgram, hG⟩ := mat_mul_shape hHh.reads hreads
  obtain ⟨reg, n, hreg, hN⟩ := regularise_shape ops hG cfg.reg
  rw [equalizerWeights, hherm, Checked.ok_bind, hgram, Checked.ok_bind, hreg, Checked.ok_bind]
  rcases mat_inv_shape ops hN.reads with ⟨inv, v, hinv, hV⟩ | herror
  · obtain ⟨W, w, hW, hWrep⟩ := mat_mul_shape hV.reads hHh.reads
    exact .inl ⟨W, w, by rw [hinv, Checked.ok_bind, hW], hWrep.reads⟩
  · exact .inr (by rw [herror, Checked.error_bind])

/-- With matching sizes the channel has all its entries. -/
theorem SizesMatch.channel_length {K : Type} {y : ComplexVec K} {H : List K} {nRx nTx : Int}
    (h : SizesMatch y H nRx nTx) : nRx.toNat * nTx.toNat ≤ H.length := by
  have hproduct : nRx * nTx = (nRx.toNat * nTx.toNat : Nat) := by
    push_cast
    rw [Int.toNat_of_nonneg (by have := h.rx_range.1; omega),
      Int.toNat_of_nonneg (by have := h.tx_range.1; omega)]
  have hle := to_int32_le (Int.natCast_nonneg H.length)
  rw [h.h_size, hproduct] at hle
  exact_mod_cast hle

/-- With matching sizes the samples are multiplied by the weights. -/
theorem equalize_sample_eq {y : ComplexVec K} {H : List K} {nRx nTx : Int}
    (h : SizesMatch y H nRx nTx) (cfg : EqualizerConfig R) :
    equalizeSample ops y H nRx nTx cfg =
      equalizerWeights ops H nRx.toNat nTx.toNat cfg >>= fun W =>
        matVec W nTx.toNat nRx.toNat y := by
  obtain ⟨hy, hH, hrx, htx⟩ := h
  have hsize : int32 (nRx * nTx) = .ok (nRx * nTx) := by
    refine int32_of_range ?_ ?_ <;> nlinarith
  have hrange : nTx ≥ 1 ∧ nTx ≤ 4 ∧ nRx ≥ 1 ∧ nRx ≤ 4 := ⟨htx.1, htx.2, hrx.1, hrx.2⟩
  rw [equalizeSample, require_of hy, Checked.ok_bind, hsize, Checked.ok_bind, require_of hH,
    Checked.ok_bind, require_of hrange, Checked.ok_bind]
  simp only [equalizerWeights, bind_assoc]

/-- With matching sizes and weights a vector of the right size is returned. -/
theorem equalize_sample_shape {y : ComplexVec K} {H : List K} {nRx nTx : Int}
    (h : SizesMatch y H nRx nTx) {cfg : EqualizerConfig R} {W : List K} {w : Nat → Nat → K}
    (hW : equalizerWeights ops H nRx.toNat nTx.toNat cfg = .ok W)
    (hreads : Reads nTx.toNat nRx.toNat W w) :
    ∃ x, equalizeSample ops y H nRx nTx cfg = .ok x ∧ x.length = nTx.toNat := by
  have hrx := h.rx_range.1
  have hyle := to_int32_le (Int.natCast_nonneg y.length)
  rw [h.y_size] at hyle
  obtain ⟨x, hx, hlength⟩ := mat_vec_shape hreads (x := y) (by rw [h.y_size]; omega) (by omega)
  exact ⟨x, by rw [equalize_sample_eq ops h, hW, Checked.ok_bind, hx], hlength⟩

end NrBaseband
