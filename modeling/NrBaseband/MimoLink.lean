import NrBaseband.Channel
import NrBaseband.EqualizerSolution

/-!
# The MIMO link

`run_mimo_link` sends layers through the channel and equalizes what arrives. It throws or returns
the solution of the normal equations for every sample (`mimo_link_residual`), and over the channel
of `identity_mimo` it always returns (`identity_link_returns`).
-/

namespace NrBaseband

open Foundation Foundation.MachineInt Foundation.RowMajor Foundation.Interleaving Matrix

variable {R K : Type} [Field R] [LinearOrder R] [Field K] [StarRing K]
  (num : ExactComplex R K) (lib : ChannelLibrary R K)

/-- `identity_mimo`. -/
def identityMimo (n : Int) (snrDb : R) (seed : UInt32) : Checked (MimoChannelConfig R K) := do
  require (n = 1 ∨ n = 2 ∨ n = 4) "n must be 1,2,4"
  let H ← (List.range n.toNat).foldlM (fun H i => Checked.write H (i * n.toNat + i) 1)
    (List.replicate (n * n).toNat 0)
  return { snrDb := snrDb, rngSeed := seed, nTx := n, nRx := n, H := H }

/-- `MimoLinkResult`. -/
structure MimoLinkResult (K : Type) where
  rx : List (ComplexVec K)
  equalized : List (ComplexVec K)

/-- `run_mimo_link`. -/
def runMimoLink (tx : List (ComplexVec K)) (ch : MimoChannelConfig R K) (eq : EqualizerConfig R) :
    Checked (MimoLinkResult K) := do
  let rx ← applyMimoChannel lib tx ch
  let equalized ← equalizeStream num.toComplexOps rx ch.H ch.nTx eq
  return { rx := rx, equalized := equalized }

/-! ## Streams of one length -/

/-- The samples of the streams at time `t`. -/
def streamsAt (streams : List (ComplexVec K)) (n t : Nat) : Fin n → K :=
  fun c => (streams.getD c []).getD t 0

omit [StarRing K] in
/-- The streams of a table of tables. -/
theorem streams_at_table {n T t : Nat} (ht : t < T) (entry : Nat → Nat → K) :
    streamsAt (table n fun r => table T (entry r)) n t = fun r : Fin n => entry r t := by
  funext r
  rw [streamsAt, Table.getD_table r.is_lt, Table.getD_table ht]

omit [StarRing K] in
/-- The samples at a time, of streams of one length. -/
theorem samples_at_table {n T t : Nat} (hn : n < 2 ^ 31) (ht : t < T) (y : Nat → Nat → K) :
    samplesAt (table n fun r => table T (y r)) n t = .ok (table n fun r => y r t) := by
  have hsize : toSizeT n = n := to_size_t_natCast (by omega)
  have hmax : toSizeT n ≤ maxVectorSize := by
    rw [hsize, maxVectorSize]
    omega
  rw [samplesAt, require_of hmax, Checked.ok_bind, hsize, Int.toNat_natCast,
    Table.replicate_eq_table]
  refine Table.fill_table fun cells r hr => ?_
  rw [Table.read_table hr, Checked.ok_bind, Table.read_table ht, Checked.ok_bind]

/-- Streams of one length are equalized sample by sample. -/
theorem equalize_stream_loop {rx tx : Nat} (hpos : 0 < rx) (hrx : rx < 2 ^ 31)
    (htx : (tx : Int) < 2 ^ 31) (H : List K) (cfg : EqualizerConfig R) (T : Nat)
    (y : Nat → Nat → K) :
    equalizeStream num.toComplexOps (table rx fun r => table T (y r)) H tx cfg =
      (List.range T).foldlM
        (equalizeAt num.toComplexOps (table rx fun r => table T (y r)) H rx tx cfg)
        (List.replicate tx (List.replicate T 0)) := by
  have hsize : toSizeT tx = tx := to_size_t_natCast (by omega)
  have hmax : toSizeT tx ≤ maxStreams := by
    rw [hsize, maxStreams]
    omega
  have hempty : ¬(table rx fun r => table T (y r)).isEmpty := by
    rw [List.isEmpty_iff]
    exact Table.table_ne_nil hpos
  rw [equalizeStream, require_of hempty, Checked.ok_bind, Table.length_table,
    to_int32_of_range (by omega) (by omega)]
  dsimp only
  rw [Table.read_table hpos, Checked.ok_bind, require_of hmax, Checked.ok_bind,
    Table.length_table, hsize]

/-- With weights, streams of one length are equalized sample by sample. -/
theorem equalize_stream_table {rx tx T : Nat} {H : List K} {cfg : EqualizerConfig R} {W : List K}
    {w : Nat → Nat → K} (hH : toInt32 H.length = (rx : Int) * tx) (hrx : 1 ≤ rx ∧ rx ≤ 4)
    (htx : 1 ≤ tx ∧ tx ≤ 4) (hW : equalizerWeights num.toComplexOps H rx tx cfg = .ok W)
    (hreads : Reads tx rx W w) (y : Nat → Nat → K) :
    equalizeStream num.toComplexOps (table rx fun r => table T (y r)) H tx cfg =
      .ok (table tx fun c => table T fun t => ∑ j ∈ Finset.range rx, w c j * y j t) := by
  rw [equalize_stream_loop num hrx.1 (by omega) (by omega)]
  -- a round writes one value to every row
  let value (c t : Nat) : K := ∑ j ∈ Finset.range rx, w c j * y j t
  have hround (t : Nat) (ht : t < T) (rows : List (ComplexVec K)) :
      equalizeAt num.toComplexOps (table rx fun r => table T (y r)) H rx tx cfg rows t =
        (List.range tx).foldlM (fun rows c => do
          let x ← Except.ok (value c t)
          let row ← Checked.read rows c
          let row ← Checked.write row t x
          Checked.write rows c row) rows := by
    have hmatch : SizesMatch (table rx fun r => y r t) H rx tx :=
      ⟨by rw [Table.length_table, to_int32_of_range (by omega) (by omega)], hH, by omega, by omega⟩
    obtain ⟨x, hx, -, hentries⟩ := equalize_sample_weighted num hmatch hW hreads
    rw [equalizeAt, samples_at_table (by omega) ht, Checked.ok_bind, hx, Checked.ok_bind, storeAt,
      Int.toNat_natCast]
    refine (Refines.fold (fun rows rows' hrows c hc => ?_) rfl).eq
    subst hrows
    have hvalue : ∑ j ∈ Finset.range (rx : Int).toNat,
        w c j * (table rx fun r => y r t).getD j 0 = value c t :=
      Finset.sum_congr rfl fun j hj => by
        rw [Table.getD_table (Finset.mem_range.mp hj)]
    rw [hentries c (List.mem_range.mp hc), hvalue]
    exact Refines.refl _
  have hdeal : (List.range T).foldlM (fun rows t => (List.range tx).foldlM (fun rows c => do
      let x ← Except.ok (value c t)
      let row ← Checked.read rows c
      let row ← Checked.write row t x
      Checked.write rows c row) rows) (List.replicate tx (List.replicate T 0)) =
      .ok (deal tx T fun j => value (j % tx) (j / tx)) := deal_loop 0 fun t _ c hc => ?_
  · rw [deal_collect] at hdeal
    rw [← hdeal]
    refine (Refines.fold (fun rows rows' hrows t ht => ?_) rfl).eq
    subst hrows
    rw [hround t (List.mem_range.mp ht)]
    exact Refines.refl _
  · rw [Nat.mul_add_mod', Nat.mod_eq_of_lt hc, Nat.mul_comm, Nat.mul_add_div (by omega),
      Nat.div_eq_of_lt hc, Nat.add_zero]

variable [IsStrictOrderedRing R]

/-- Streams of one length are all equalized by one inverse of the normal equations where
`equalize_sample` accepts the call. -/
theorem equalize_stream_accepted {rx tx : Nat} {H : List K} {cfg : EqualizerConfig R}
    (h : ¬Rejected num.toComplexOps H rx tx cfg) (T : Nat) (y : Nat → Nat → K) :
    ∃ x : Nat → Nat → K,
      equalizeStream num.toComplexOps (table rx fun r => table T (y r)) H tx cfg =
        .ok (table tx fun c => table T (x c)) ∧
      (∃ V, normalMatrix num H rx tx cfg.reg * V = 1) ∧
        ∀ t, normalMatrix num H rx tx cfg.reg *ᵥ (fun c : Fin tx => x c t) =
          (channel H rx tx)ᴴ *ᵥ fun r : Fin rx => y r t := by
  rw [Rejected, not_or, not_not, Int.toNat_natCast, Int.toNat_natCast] at h
  obtain ⟨⟨hH, hrange, hrange'⟩, hweights⟩ := h
  have hentries : rx * tx ≤ H.length := by
    have hle := to_int32_le (Int.natCast_nonneg H.length)
    rw [hH] at hle
    exact_mod_cast hle
  obtain ⟨W, v, hW, hreads, hinverse⟩ :=
    (equalizer_weights_cases num hentries cfg).resolve_right fun h => hweights h.1
  refine ⟨_, equalize_stream_table num hH (by omega) (by omega) hW hreads y, ⟨_, hinverse⟩,
    fun t => ?_⟩
  have hweighted : (fun c : Fin tx => ∑ j ∈ Finset.range rx,
      (∑ k ∈ Finset.range tx, v c k * star (H.getD (j * tx + k) 0)) * y j t) =
      of (fun i j : Fin tx => v i j) *ᵥ ((channel H rx tx)ᴴ *ᵥ fun r : Fin rx => y r t) := by
    funext c
    rw [mulVec_mulVec, mulVec, dotProduct, Finset.sum_range]
    refine Finset.sum_congr rfl fun j _ => ?_
    rw [mul_apply, Finset.sum_range]
    rfl
  rw [hweighted, mulVec_mulVec, hinverse, one_mulVec]

/-- Streams of one length are equalized, or the call throws. -/
theorem equalize_stream_cases {rx : Nat} (hrx : rx < 2 ^ 31) {nTx : Int} (hlow : -2 ^ 31 ≤ nTx)
    (hhigh : nTx < 2 ^ 31) {H : List K} (hfits : (rx : Int) * nTx < 2 ^ 31)
    (cfg : EqualizerConfig R) (T : Nat) (y : Nat → Nat → K) :
    (∃ message, equalizeStream num.toComplexOps (table rx fun r => table T (y r)) H nTx cfg =
        .error (.error message)) ∨
      ∃ x : Nat → Nat → K,
        equalizeStream num.toComplexOps (table rx fun r => table T (y r)) H nTx cfg =
          .ok (table nTx.toNat fun c => table T (x c)) ∧
        (0 < T → (∃ V, normalMatrix num H rx nTx.toNat cfg.reg * V = 1) ∧
          ∀ t, normalMatrix num H rx nTx.toNat cfg.reg *ᵥ (fun c : Fin nTx.toNat => x c t) =
            (channel H rx nTx.toNat)ᴴ *ᵥ fun r : Fin rx => y r t) := by
  rcases Nat.eq_zero_or_pos rx with rfl | hpos
  · exact .inl ⟨_, rfl⟩
  rcases lt_or_ge nTx 0 with hneg | hnonneg
  · left
    have hmax : ¬toSizeT nTx ≤ maxStreams := not_le.mpr (max_lt_of_negative hlow hneg).2
    have hempty : ¬(table rx fun r => table T (y r)).isEmpty := by
      rw [List.isEmpty_iff]
      exact Table.table_ne_nil hpos
    refine ⟨"cannot create std::vector larger than max_size()", ?_⟩
    rw [equalizeStream, require_of hempty, Checked.ok_bind, Table.read_table hpos, Checked.ok_bind,
      require_of_not hmax]
    rfl
  obtain ⟨tx, rfl⟩ := Int.eq_ofNat_of_zero_le hnonneg
  rw [Int.toNat_natCast]
  rcases Nat.eq_zero_or_pos T with rfl | hT
  · right
    refine ⟨fun _ _ => 0, ?_, fun h => absurd h (lt_irrefl 0)⟩
    rw [equalize_stream_loop num hpos hrx hhigh, Table.replicate_eq_table]
    rfl
  by_cases hrejected : Rejected num.toComplexOps H rx tx cfg
  · left
    have hlength : toInt32 (table rx fun r => y r 0).length = rx := by
      rw [Table.length_table, to_int32_of_range (by omega) (by omega)]
    have hproduct : 0 ≤ (rx : Int) * tx :=
      Int.mul_nonneg (Int.natCast_nonneg rx) (Int.natCast_nonneg tx)
    obtain ⟨message, herror⟩ := equalize_sample_rejected num.toComplexOps hlength
      (int32_of_range (by omega) hfits) hrejected
    refine ⟨message, ?_⟩
    rw [equalize_stream_loop num hpos hrx hhigh]
    refine loop_error hT ?_
    rw [equalizeAt, samples_at_table hrx hT, Checked.ok_bind, herror, Checked.error_bind]
  · right
    obtain ⟨x, hx, hsolves⟩ := equalize_stream_accepted num hrejected T y
    exact ⟨x, hx, fun _ => hsolves⟩

/-! ## The link -/

/-- The noise at time `t`. -/
def noiseAt (ch : MimoChannelConfig R K) (t : Nat) : Fin ch.nRx.toNat → K :=
  fun r => drawn lib ch.toChannelConfig (t * ch.nRx.toNat + r)

/-- The sent samples at time `t`, turned by the frequency offset. -/
def turned (tx : List (ComplexVec K)) (ch : MimoChannelConfig R K) (t : Nat) :
    Fin ch.nTx.toNat → K :=
  mimoRotation lib ch.toChannelConfig t • streamsAt tx ch.nTx.toNat t

omit [IsStrictOrderedRing R] [LinearOrder R] [StarRing K] in
/-- What arrives at time `t`: the sent samples, turned and through the channel, with noise. -/
theorem arrives_eq (tx : List (ComplexVec K)) (ch : MimoChannelConfig R K) (t : Nat) :
    (fun r : Fin ch.nRx.toNat => arrives lib tx ch r t) =
      channel ch.H ch.nRx.toNat ch.nTx.toNat *ᵥ turned lib tx ch t + noiseAt lib ch t := by
  funext r
  rw [arrives, turned, mulVec_smul, Pi.add_apply, Pi.smul_apply, mulVec, dotProduct,
    Finset.sum_range, smul_eq_mul, mul_comm]
  rfl

omit [IsStrictOrderedRing R] in
/-- How far the solution of the normal equations is from what was sent: the noise and the
regularisation. -/
theorem normal_residual {rx tx : Nat} {H : List K} {reg : R} {x s : Fin tx → K} {w : Fin rx → K}
    (hx : normalMatrix num H rx tx reg *ᵥ x =
      (channel H rx tx)ᴴ *ᵥ (channel H rx tx *ᵥ s + w)) :
    normalMatrix num H rx tx reg *ᵥ (x - s) =
      (channel H rx tx)ᴴ *ᵥ w - num.ofReal reg • s := by
  rw [mulVec_sub, hx, mulVec_add, mulVec_mulVec, normalMatrix, add_mulVec, smul_mulVec, one_mulVec]
  abel

omit [Field K] [StarRing K] [IsStrictOrderedRing R] [Field R] [LinearOrder R] in
/-- A table of tables is shaped. -/
theorem shaped_table (n T : Nat) (entry : Nat → Nat → K) :
    Shaped n T (table n fun r => table T (entry r)) := by
  refine ⟨Table.length_table n _, fun x hx => ?_⟩
  obtain ⟨r, -, rfl⟩ := List.mem_map.mp hx
  exact Table.length_table T _

/-- The link throws, or returns what arrives and for every sample the solution of the normal
equations, which differs from the turned sent samples by what the noise and the regularisation
make of it. -/
theorem mimo_link_residual (tx : List (ComplexVec K)) {ch : MimoChannelConfig R K}
    (hch : ch.WellFormed) (eq : EqualizerConfig R) :
    (∃ message, runMimoLink num lib tx ch eq = .error (.error message)) ∨
      ∃ link, runMimoLink num lib tx ch eq = .ok link ∧
        Shaped ch.nRx.toNat (tx.headD []).length link.rx ∧
        Shaped ch.nTx.toNat (tx.headD []).length link.equalized ∧
        ∀ t < (tx.headD []).length,
          streamsAt link.rx ch.nRx.toNat t =
            channel ch.H ch.nRx.toNat ch.nTx.toNat *ᵥ turned lib tx ch t + noiseAt lib ch t ∧
          (∃ V, normalMatrix num ch.H ch.nRx.toNat ch.nTx.toNat eq.reg * V = 1) ∧
          normalMatrix num ch.H ch.nRx.toNat ch.nTx.toNat eq.reg *ᵥ
              (streamsAt link.equalized ch.nTx.toNat t - turned lib tx ch t) =
            (channel ch.H ch.nRx.toNat ch.nTx.toNat)ᴴ *ᵥ noiseAt lib ch t -
              num.ofReal eq.reg • turned lib tx ch t := by
  rcases mimo_channel_cases lib tx hch with ⟨message, herror⟩ | haccepts
  · exact .inl ⟨message, by rw [runMimoLink, herror, Checked.error_bind]⟩
  have hrx := mimo_channel_eq lib hch haccepts
  have htx := haccepts.layer_count ▸ to_int32_range tx.length
  have hcount : ((ch.nRx.toNat : Nat) : Int) = ch.nRx := haccepts.antennas_eq hch
  have hrange := hch.antennas
  have hantennas : ch.nRx.toNat < 2 ^ 31 := by omega
  rcases equalize_stream_cases num hantennas htx.1 htx.2 (hcount.symm ▸ hch.product.2) eq
    (tx.headD []).length (arrives lib tx ch) with ⟨message, herror⟩ | ⟨x, hx, hsolves⟩
  · exact .inl ⟨message, by rw [runMimoLink, hrx, Checked.ok_bind, herror, Checked.error_bind]⟩
  right
  refine ⟨_, by rw [runMimoLink, hrx, Checked.ok_bind, hx]; rfl, shaped_table _ _ _,
    shaped_table _ _ _, fun t ht => ?_⟩
  obtain ⟨hinverse, hnormal⟩ := hsolves (Nat.zero_lt_of_lt ht)
  have hnormal' := hnormal t
  rw [arrives_eq] at hnormal'
  dsimp only
  rw [streams_at_table ht, streams_at_table ht, arrives_eq]
  exact ⟨rfl, hinverse, normal_residual num hnormal'⟩

/-- Two layers through a channel of two antennas each. -/
theorem mimo_link_residual_two :
    runMimoLink complexNumbers (complexLibrary fun _ _ => 1) [[1, 2], [Complex.I, 0]]
      { cfoHz := 100, nTx := 2, nRx := 2, H := [1, 2, 3, 4] } {} ≠ .error .undefined := by
  have hch : ({ cfoHz := 100, nTx := 2, nRx := 2, H := [1, 2, 3, 4] } :
      MimoChannelConfig ℝ ℂ).WellFormed :=
    ⟨by norm_num, by norm_num, by norm_num⟩
  rcases mimo_link_residual complexNumbers (complexLibrary fun _ _ => 1) [[1, 2], [Complex.I, 0]]
    hch {} with ⟨message, herror⟩ | ⟨link, hlink, -⟩
  · rw [herror]
    exact nofun
  · rw [hlink]
    exact nofun

/-- With the sizes of an accepted call, only a singular matrix is rejected. -/
theorem not_rejected {H : List K} {rx tx : Nat} (hH : toInt32 H.length = (rx : Int) * tx)
    (hrx : 1 ≤ rx ∧ rx ≤ 4) (htx : 1 ≤ tx ∧ tx ≤ 4) {cfg : EqualizerConfig R}
    (hregular : ∀ (z : Fin tx → K) (p : Fin tx), z p = 1 →
      ¬∀ i, num.abs ((normalMatrix num H rx tx cfg.reg *ᵥ z) i) ≤ 1e-14) :
    ¬Rejected num.toComplexOps H rx tx cfg := by
  rintro (hsizes | hsingular)
  · exact hsizes ⟨hH, by omega, by omega⟩
  · have hentries : rx * tx ≤ H.length := by
      have hle := to_int32_le (Int.natCast_nonneg H.length)
      rw [hH] at hle
      exact_mod_cast hle
    rcases equalizer_weights_cases num hentries cfg with ⟨W, -, hW, -⟩ | ⟨-, z, p, hone, hsmall⟩
    · rw [Int.toNat_natCast, Int.toNat_natCast, hW] at hsingular
      cases hsingular
    · exact hregular z p hone hsmall

/-- An accepted link whose weights are not rejected returns the weighted samples. -/
theorem mimo_link_accepted {tx : List (ComplexVec K)} {ch : MimoChannelConfig R K}
    (hch : ch.WellFormed) (haccepts : MimoAccepts tx ch) (hpos : 0 ≤ ch.nTx)
    {eq : EqualizerConfig R} (h : ¬Rejected num.toComplexOps ch.H ch.nRx.toNat ch.nTx.toNat eq) :
    ∃ (link : MimoLinkResult K) (x : Nat → Nat → K), runMimoLink num lib tx ch eq = .ok link ∧
      link.equalized = table ch.nTx.toNat (fun c => table (tx.headD []).length (x c)) ∧
      ∀ t, normalMatrix num ch.H ch.nRx.toNat ch.nTx.toNat eq.reg *ᵥ
          (fun c : Fin ch.nTx.toNat => x c t) =
        (channel ch.H ch.nRx.toNat ch.nTx.toNat)ᴴ *ᵥ
          fun r : Fin ch.nRx.toNat => arrives lib tx ch r t := by
  obtain ⟨x, hx, -, hsolves⟩ :=
    equalize_stream_accepted num h (tx.headD []).length (arrives lib tx ch)
  rw [Int.toNat_of_nonneg hpos] at hx
  have hrun : runMimoLink num lib tx ch eq = .ok
      { rx := table ch.nRx.toNat fun r => table (tx.headD []).length (arrives lib tx ch r)
        equalized := table ch.nTx.toNat fun c => table (tx.headD []).length (x c) } := by
    rw [runMimoLink, mimo_channel_eq lib hch haccepts, Checked.ok_bind, hx]
    rfl
  exact ⟨_, x, hrun, rfl, hsolves⟩

/-- With MMSE or RZF and a regularisation above twice the pivot threshold an accepted link of one to
four antennas returns, whatever the channel and the noise are. -/
theorem mimo_link_returns {tx : List (ComplexVec K)} {ch : MimoChannelConfig R K}
    (hch : ch.WellFormed) (haccepts : MimoAccepts tx ch) (hrx : 1 ≤ ch.nRx ∧ ch.nRx ≤ 4)
    (htx : 1 ≤ ch.nTx ∧ ch.nTx ≤ 4) {eq : EqualizerConfig R}
    (hreg : eq.type = .mmse ∧ 2e-14 < eq.noiseVar ∨ eq.type = .rzf ∧ 2e-14 < eq.rzfDelta) :
    ∃ link, runMimoLink num lib tx ch eq = .ok link := by
  have hlarge : 2e-14 < eq.reg := by
    rcases hreg with ⟨htype, hnoise⟩ | ⟨htype, hdelta⟩
    · rwa [EqualizerConfig.reg, htype]
    · rwa [EqualizerConfig.reg, htype]
  have hH : toInt32 ch.H.length = (ch.nRx.toNat : Int) * ch.nTx.toNat := by
    rw [haccepts.h_size, Int.toNat_of_nonneg (by omega), Int.toNat_of_nonneg (by omega)]
  have hregular (z : Fin ch.nTx.toNat → K) (p : Fin ch.nTx.toNat) (hone : z p = 1) :
      ¬∀ i, num.abs ((normalMatrix num ch.H ch.nRx.toNat ch.nTx.toNat eq.reg *ᵥ z) i) ≤ 1e-14 :=
    not_nearly_singular num (by omega) hlarge hone
  have hweights := not_rejected num hH (by omega) (by omega) hregular
  obtain ⟨link, -, hlink, -⟩ := mimo_link_accepted num lib hch haccepts (by omega) hweights
  exact ⟨link, hlink⟩

/-- Two layers through a channel that is zero. -/
theorem mimo_link_returns_zero : ∃ link,
    runMimoLink complexNumbers (complexLibrary fun _ _ => 1) [[1, 2], [Complex.I, 0]]
      { nTx := 2, nRx := 2, H := [0, 0, 0, 0] } {} = .ok link :=
  mimo_link_returns complexNumbers (complexLibrary fun _ _ => 1)
    ⟨by norm_num, by norm_num, by norm_num⟩
    ⟨by decide, by decide, by simp, by simp, by decide⟩ (by decide) (by decide)
    (.inl ⟨rfl, by norm_num⟩)

/-! ## The identity channel -/

/-- The configuration that `identity_mimo` returns. -/
def identityConfig (n : Nat) (snrDb : R) (seed : UInt32) : MimoChannelConfig R K :=
  { snrDb := snrDb, rngSeed := seed, nTx := n, nRx := n,
    H := table (n * n) fun i => if i / n = i % n then 1 else 0 }

omit [StarRing K] [IsStrictOrderedRing R] [LinearOrder R] in
/-- `identity_mimo` returns a configuration for one, two and four antennas. -/
theorem identity_mimo_eq {n : Nat} (hn : n = 1 ∨ n = 2 ∨ n = 4) (snrDb : R) (seed : UInt32) :
    identityMimo n snrDb seed = .ok (identityConfig (K := K) n snrDb seed) := by
  rcases hn with rfl | rfl | rfl
  · rfl
  · rfl
  · rfl

omit [StarRing K] [IsStrictOrderedRing R] [LinearOrder R] in
/-- Its channel is the identity matrix. -/
theorem identity_channel (n : Nat) (snrDb : R) (seed : UInt32) :
    channel (identityConfig (K := K) n snrDb seed).H n n = 1 := by
  ext r c
  have hlt : (r : Nat) * n + c < n * n := index_lt r.is_lt c.is_lt
  rw [channel, of_apply, identityConfig, Table.getD_table hlt, Nat.mul_add_mod',
    Nat.mod_eq_of_lt c.is_lt, Nat.mul_comm, Nat.mul_add_div (Nat.zero_lt_of_lt c.is_lt),
    Nat.div_eq_of_lt c.is_lt, Nat.add_zero, one_apply]
  simp only [Fin.ext_iff]

omit [IsStrictOrderedRing R] in
/-- Over the identity channel the normal equations only scale. -/
theorem identity_normal (n : Nat) (snrDb : R) (seed : UInt32) (reg : R) :
    normalMatrix num (identityConfig (K := K) n snrDb seed).H n n reg =
      num.ofReal (1 + reg) • (1 : Matrix (Fin n) (Fin n) K) := by
  rw [normalMatrix, identity_channel, conjTranspose_one, one_mul, map_add, map_one, add_smul,
    one_smul]

omit [StarRing K] in
/-- Layers of one length are accepted by the identity channel. -/
theorem identity_accepts {n : Nat} (hn : n = 1 ∨ n = 2 ∨ n = 4) {tx : List (ComplexVec K)}
    (htx : tx.length = n) (hsame : ∀ L ∈ tx, L.length = (tx.headD []).length) (snrDb : R)
    (seed : UInt32) : (identityConfig (K := K) n snrDb seed).WellFormed ∧
      MimoAccepts tx (identityConfig (K := K) n snrDb seed) := by
  have hsmall : n * n ≤ 16 := by
    rcases hn with rfl | rfl | rfl <;> decide
  have hproduct : ((n : Int) * n) = (n * n : Nat) := (Nat.cast_mul n n).symm
  constructor
  · refine ⟨⟨?_, ?_⟩, ⟨?_, ?_⟩, ?_⟩
    · show -2 ^ 31 ≤ (n : Int)
      omega
    · show (n : Int) < 2 ^ 31
      omega
    · show -2 ^ 31 ≤ (n : Int) * n
      omega
    · show (n : Int) * n < 2 ^ 31
      omega
    · show (1e6 : R) ≠ 0
      norm_num
  · refine ⟨?_, ?_, ?_, hsame, ?_⟩
    · rw [htx, to_int32_of_range (by omega) (by omega)]
      rfl
    · show toInt32 (table (n * n) fun i => if i / n = i % n then (1 : K) else 0).length =
        (n : Int) * n
      rw [Table.length_table, to_int32_of_range (by omega) (by omega), hproduct]
    · rw [← List.length_pos_iff]
      omega
    · show toSizeT n ≤ maxStreams
      rw [to_size_t_natCast (by omega), maxStreams]
      omega

omit [IsStrictOrderedRing R] [LinearOrder R] [StarRing K] in
/-- Over the identity channel the sent samples arrive with their noise. -/
theorem identity_arrives (tx : List (ComplexVec K)) {n c : Nat} (hc : c < n) (snrDb : R)
    (seed : UInt32) (t : Nat) :
    arrives lib tx (identityConfig n snrDb seed) c t = (tx.getD c []).getD t 0 +
      drawn lib (identityConfig (K := K) n snrDb seed).toChannelConfig (t * n + c) := by
  have hrotation :
      mimoRotation lib (identityConfig (K := K) n snrDb seed).toChannelConfig t = 1 := by
    show lib.cosSin ((2 : Nat) * lib.pi * 0 * t / 1e6) = 1
    rw [mul_zero, zero_mul, zero_div, lib.cos_sin_zero]
  have harrives := congrFun (arrives_eq lib tx (identityConfig n snrDb seed) t) ⟨c, hc⟩
  rw [turned, hrotation, one_smul] at harrives
  have hsame : (channel (identityConfig (K := K) n snrDb seed).H n n *ᵥ streamsAt tx n t) ⟨c, hc⟩ =
      (tx.getD c []).getD t 0 := by
    rw [identity_channel, one_mulVec]
    rfl
  rw [← hsame]
  exact harrives

/-- The identity channel is not nearly singular. -/
theorem identity_not_rejected {n : Nat} (hn : n = 1 ∨ n = 2 ∨ n = 4) (snrDb : R) (seed : UInt32)
    {eq : EqualizerConfig R} (hreg : 1e-14 < 1 + eq.reg) :
    ¬Rejected num.toComplexOps (identityConfig (K := K) n snrDb seed).H n n eq := by
  have hsmall : n * n ≤ 16 := by
    rcases hn with rfl | rfl | rfl <;> decide
  have hproduct : ((n : Int) * n) = (n * n : Nat) := (Nat.cast_mul n n).symm
  have hH : toInt32 (identityConfig (R := R) (K := K) n snrDb seed).H.length = (n : Int) * n := by
    rw [identityConfig, Table.length_table, to_int32_of_range (by omega) (by omega), hproduct]
  refine not_rejected num hH (by omega) (by omega) fun z p hone hentries => ?_
  have hentry := hentries p
  rw [identity_normal, smul_mulVec, one_mulVec, Pi.smul_apply, hone, smul_eq_mul, mul_one,
    num.abs_of_real (lt_trans (by norm_num) hreg).le] at hentry
  exact absurd hreg (not_lt.mpr hentry)

/-- The link over the channel of `identity_mimo` returns the sent layers with their noise, scaled
by the regularisation. -/
theorem identity_link_returns {n : Nat} (hn : n = 1 ∨ n = 2 ∨ n = 4) {tx : List (ComplexVec K)}
    (htx : tx.length = n) (hsame : ∀ L ∈ tx, L.length = (tx.headD []).length) (snrDb : R)
    (seed : UInt32) {eq : EqualizerConfig R} (hreg : 1e-14 < 1 + eq.reg) :
    ∃ ch link, identityMimo n snrDb seed = .ok ch ∧ runMimoLink num lib tx ch eq = .ok link ∧
      link.equalized = table n fun c => table (tx.headD []).length fun t =>
        ((tx.getD c []).getD t 0 + drawn lib ch.toChannelConfig (t * n + c)) /
          num.ofReal (1 + eq.reg) := by
  obtain ⟨hch, haccepts⟩ := identity_accepts hn htx hsame snrDb seed
  have hweights := identity_not_rejected num hn snrDb seed hreg
  have hne : num.ofReal (1 + eq.reg) ≠ 0 := by
    rw [← map_zero num.ofReal]
    exact fun h => (lt_trans (by norm_num) hreg).ne' (num.of_real_injective h)
  obtain ⟨link, x, hlink, hequalized, hx⟩ :=
    mimo_link_accepted num lib hch haccepts (Int.natCast_nonneg n) hweights
  refine ⟨_, link, identity_mimo_eq hn snrDb seed, hlink, hequalized.trans ?_⟩
  refine Table.table_congr fun c hc => Table.table_congr fun t ht => ?_
  have hsolves : normalMatrix num (identityConfig (K := K) n snrDb seed).H n n eq.reg *ᵥ
      (fun c : Fin n => x c t) = (channel (identityConfig (K := K) n snrDb seed).H n n)ᴴ *ᵥ
        fun r : Fin n => arrives lib tx (identityConfig n snrDb seed) r t := hx t
  rw [identity_normal, identity_channel, conjTranspose_one, smul_mulVec, one_mulVec,
    one_mulVec] at hsolves
  rw [eq_div_iff hne, mul_comm]
  exact (congrFun hsolves ⟨c, hc⟩).trans (identity_arrives lib tx hc snrDb seed t)

/-- Two layers over the identity channel without noise. -/
theorem identity_link_returns_two : ∃ ch link,
    identityMimo 2 (40 : ℝ) 7 = .ok ch ∧
      runMimoLink complexNumbers (complexLibrary fun _ _ => 0) [[1, 2], [Complex.I, 0]] ch
        { noiseVar := 1 } = .ok link ∧
      link.equalized = [[1 / 2, 1], [Complex.I / 2, 0]] := by
  have hreg : (1e-14 : ℝ) < 1 + EqualizerConfig.reg { noiseVar := (1 : ℝ) } := by
    rw [EqualizerConfig.reg]
    norm_num
  have hlayers : ([[1, 2], [Complex.I, 0]] : List (ComplexVec ℂ)).length = 2 := rfl
  obtain ⟨ch, link, hch, hlink, hequalized⟩ := identity_link_returns complexNumbers
    (complexLibrary fun _ _ => 0) (.inr (.inl rfl)) hlayers (by simp) (40 : ℝ) 7 hreg
  refine ⟨ch, link, hch, hlink, hequalized.trans ?_⟩
  have hquiet (i : Nat) : drawn (complexLibrary fun _ _ => 0) ch.toChannelConfig i = 0 :=
    mul_zero _
  have htwo : complexNumbers.ofReal (1 + 1) = 2 := by
    rw [map_add, map_one, one_add_one_eq_two]
  simp only [hquiet, add_zero, EqualizerConfig.reg, htwo]
  norm_num [table, List.range_succ]

end NrBaseband
