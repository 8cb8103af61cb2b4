import NrBaseband.EqualizerStream
import NrBaseband.Foundation.Interleaving
import Mathlib.Analysis.SpecialFunctions.Pow.Real

/-!
# The channels

`apply_siso_channel` and `apply_mimo_channel` with their impairments: a frequency offset turns the
samples, an integer timing offset delays or drops some, and noise is drawn one complex number after
the other. What the standard library computes is the parameter `lib`. `siso_channel_eq` and
`mimo_channel_cases` say what arrives.
-/

namespace NrBaseband

open Foundation Foundation.MachineInt Foundation.RowMajor Foundation.Interleaving

/-- `ChannelConfig`. -/
structure ChannelConfig (R : Type) [Field R] where
  snrDb : R := 20
  cfoHz : R := 0
  sampleRateHz : R := 1e6
  timingOffsetSamples : Int := 0
  rngSeed : UInt32 := 1

/-- `MimoChannelConfig`. -/
structure MimoChannelConfig (R K : Type) [Field R] extends ChannelConfig R where
  nTx : Int := 1
  nRx : Int := 1
  H : List K := []

/-- What the channels use of the standard library: `std::pow`, `std::sqrt`, the number pi, the point
`{cos(ang), sin(ang)}`, and the numbers `{gauss(rng), gauss(rng)}` that are drawn one after the
other from a seed with a standard deviation. -/
structure ChannelLibrary (R K : Type) [Field R] [Field K] where
  pow : R → R → R
  sqrt : R → R
  pi : R
  cosSin : R → K
  gauss : UInt32 → R → Nat → K
  cos_sin_zero : cosSin 0 = 1

/-- The library of the real and complex numbers, where `standard` are the draws of deviation one. -/
noncomputable def complexLibrary (standard : UInt32 → Nat → ℂ) : ChannelLibrary ℝ ℂ where
  pow x y := x ^ y
  sqrt := Real.sqrt
  pi := Real.pi
  cosSin ang := ⟨Real.cos ang, Real.sin ang⟩
  gauss seed sigma i := sigma * standard seed i
  cos_sin_zero := by
    rw [Real.cos_zero, Real.sin_zero]
    rfl

section

variable {R K : Type} [Field R] [Field K] (lib : ChannelLibrary R K)

/-- `awgn_sigma`. -/
def awgnSigma (snrDb : R) : R :=
  let snr := lib.pow (10 : Nat) (snrDb / (10 : Nat))
  1 / lib.sqrt ((2 : Nat) * snr)

omit [Field R] in
/-- The variable `delayed` of `apply_siso_channel`. -/
def delayedSignal (tx : ComplexVec K) (timingOffset : Int) : Checked (ComplexVec K) :=
  if timingOffset ≥ 0 then .ok (List.replicate (toSizeT timingOffset) 0 ++ tx)
  else do
    let negated ← int32 (-timingOffset)
    let drop := toSizeT negated
    require (drop < tx.length) "timing offset drops entire signal"
    return tx.drop drop

/-- The body of the loop of `apply_siso_channel`, on `rx` and the number of draws so far. -/
def sisoSample (cfg : ChannelConfig R) (delayed : ComplexVec K) (state : ComplexVec K × Nat)
    (n : Nat) : Checked (ComplexVec K × Nat) := do
  let t := (n : R) / cfg.sampleRateHz
  let ang := (2 : Nat) * lib.pi * cfg.cfoHz * t
  let rot := lib.cosSin ang
  let x ← Checked.read delayed n
  let rx ← Checked.write state.1 n
    (x * rot + lib.gauss cfg.rngSeed (awgnSigma lib cfg.snrDb) state.2)
  return (rx, state.2 + 1)

/-- `apply_siso_channel`. -/
def applySisoChannel (tx : ComplexVec K) (cfg : ChannelConfig R) : Checked (ComplexVec K) := do
  let delayed ← delayedSignal tx cfg.timingOffsetSamples
  let state ← (List.range delayed.length).foldlM (sisoSample lib cfg delayed)
    (List.replicate delayed.length 0, 0)
  return state.1

/-- The variable `sum` of `apply_mimo_channel` after the loop over the sent layers. -/
def receivedSum (txLayers : List (ComplexVec K)) (cfg : MimoChannelConfig R K) (t r : Nat) :
    Checked K :=
  (List.range cfg.nTx.toNat).foldlM (fun sum (c : Nat) => do
    let row ← int32 (r * cfg.nTx)
    let index ← int32 (row + c)
    let h ← Checked.read cfg.H (toSizeT index)
    let layer ← Checked.read txLayers c
    let x ← Checked.read layer t
    return sum + h * x) 0

/-- The body of the loops of `apply_mimo_channel`, on `rx` and the number of draws so far. -/
def mimoSample (txLayers : List (ComplexVec K)) (cfg : MimoChannelConfig R K) (t : Nat)
    (state : List (ComplexVec K) × Nat) (r : Nat) : Checked (List (ComplexVec K) × Nat) := do
  let sum ← receivedSum txLayers cfg t r
  let ang := (2 : Nat) * lib.pi * cfg.cfoHz * t / cfg.sampleRateHz
  let sum := sum * lib.cosSin ang
  let sum := sum + lib.gauss cfg.rngSeed (awgnSigma lib cfg.snrDb) state.2
  let stream ← Checked.read state.1 r
  let stream ← Checked.write stream t sum
  let rx ← Checked.write state.1 r stream
  return (rx, state.2 + 1)

/-- `apply_mimo_channel`. -/
def applyMimoChannel (txLayers : List (ComplexVec K)) (cfg : MimoChannelConfig R K) :
    Checked (List (ComplexVec K)) := do
  require (toInt32 txLayers.length = cfg.nTx) "tx layer count mismatch"
  let size ← int32 (cfg.nRx * cfg.nTx)
  require (toInt32 cfg.H.length = size) "H size mismatch"
  require (¬txLayers.isEmpty) "empty tx"
  let first ← Checked.read txLayers 0
  let T := first.length
  Checked.forEach (fun L => require (L.length = T) "tx length mismatch") txLayers
  require (toSizeT cfg.nRx ≤ maxStreams) "cannot create std::vector larger than max_size()"
  let state ← (List.range T).foldlM (fun state t =>
    (List.range cfg.nRx.toNat).foldlM (mimoSample lib txLayers cfg t) state)
    (List.replicate (toSizeT cfg.nRx) (List.replicate T 0), 0)
  return state.1

/-! ## One antenna -/

/-- The turn of the frequency offset at sample `n` of `apply_siso_channel`. -/
def sisoRotation (cfg : ChannelConfig R) (n : Nat) : K :=
  lib.cosSin ((2 : Nat) * lib.pi * cfg.cfoHz * ((n : R) / cfg.sampleRateHz))

/-- The complex number that is drawn with index `i`. -/
def drawn (cfg : ChannelConfig R) (i : Nat) : K :=
  lib.gauss cfg.rngSeed (awgnSigma lib cfg.snrDb) i

/-- Sample `n` of what arrives of a delayed signal. -/
def sisoArrives (cfg : ChannelConfig R) (delayed : ComplexVec K) (n : Nat) : K :=
  delayed.getD n 0 * sisoRotation lib cfg n + drawn lib cfg n

/-- The loop of `apply_siso_channel` turns every sample and adds noise. -/
theorem siso_samples (cfg : ChannelConfig R) (delayed : ComplexVec K) :
    (List.range delayed.length).foldlM (sisoSample lib cfg delayed)
        (List.replicate delayed.length 0, 0) =
      .ok (table delayed.length (sisoArrives lib cfg delayed), delayed.length) := by
  rw [positioned_loop _ (fun rx n => Checked.write rx n (sisoArrives lib cfg delayed n)) 0 1 _
    fun n hn rx => ?_, Table.replicate_eq_table, Table.fill_table fun rx n _ => rfl]
  · rw [Nat.mul_one, Nat.zero_add]
    rfl
  · rw [sisoSample, Nat.zero_add, Nat.mul_one]
    dsimp only
    rw [read_getD hn 0, Checked.ok_bind]
    exact Checked.bind_ok_map _ _

/-- What `apply_siso_channel` returns: the delayed or shortened signal, turned, with noise. -/
theorem siso_channel_eq (tx : ComplexVec K) (cfg : ChannelConfig R) :
    applySisoChannel lib tx cfg = (delayedSignal tx cfg.timingOffsetSamples).map fun delayed =>
      table delayed.length (sisoArrives lib cfg delayed) := by
  rw [applySisoChannel]
  cases delayedSignal tx cfg.timingOffsetSamples with
  | error fault => rfl
  | ok delayed =>
      rw [Checked.ok_bind, siso_samples, Checked.ok_bind]
      rfl

/-! ## Several antennas -/

/-- The turn of the frequency offset at time `t` of `apply_mimo_channel`. -/
def mimoRotation (cfg : ChannelConfig R) (t : Nat) : K :=
  lib.cosSin ((2 : Nat) * lib.pi * cfg.cfoHz * t / cfg.sampleRateHz)

/-- What antenna `r` receives at time `t`. -/
def arrives (txLayers : List (ComplexVec K)) (cfg : MimoChannelConfig R K) (r t : Nat) : K :=
  (∑ c ∈ Finset.range cfg.nTx.toNat,
    cfg.H.getD (r * cfg.nTx.toNat + c) 0 * (txLayers.getD c []).getD t 0) *
      mimoRotation lib cfg.toChannelConfig t +
    drawn lib cfg.toChannelConfig (t * cfg.nRx.toNat + r)

omit [Field K] in
/-- The sizes are machine integers, as is their product, and samples are taken at some rate: the
source divides by it, and by a rate of zero the turn of a sample is no number. -/
structure MimoChannelConfig.WellFormed (cfg : MimoChannelConfig R K) : Prop where
  antennas : -2 ^ 31 ≤ cfg.nRx ∧ cfg.nRx < 2 ^ 31
  product : -2 ^ 31 ≤ cfg.nRx * cfg.nTx ∧ cfg.nRx * cfg.nTx < 2 ^ 31
  rate : cfg.sampleRateHz ≠ 0

omit [Field K] in
/-- The calls that pass the checks of `apply_mimo_channel`. -/
structure MimoAccepts (txLayers : List (ComplexVec K)) (cfg : MimoChannelConfig R K) :
    Prop where
  layer_count : toInt32 txLayers.length = cfg.nTx
  h_size : toInt32 cfg.H.length = cfg.nRx * cfg.nTx
  not_empty : txLayers ≠ []
  same_length : ∀ L ∈ txLayers, L.length = (txLayers.headD []).length
  antennas : toSizeT cfg.nRx ≤ maxStreams

omit [Field K] in
/-- An accepted call has all entries of its channel. -/
theorem MimoAccepts.channel_length {txLayers : List (ComplexVec K)} {cfg : MimoChannelConfig R K}
    (h : MimoAccepts txLayers cfg) : cfg.nRx.toNat * cfg.nTx.toNat ≤ cfg.H.length := by
  rcases lt_or_ge cfg.nTx 0 with hneg | htx
  · rw [Int.toNat_of_nonpos hneg.le, Nat.mul_zero]
    exact Nat.zero_le _
  · rcases lt_or_ge cfg.nRx 0 with hneg | hrx
    · rw [Int.toNat_of_nonpos hneg.le, Nat.zero_mul]
      exact Nat.zero_le _
    · have hle := to_int32_le (Int.natCast_nonneg cfg.H.length)
      rw [h.h_size] at hle
      zify
      rwa [Int.toNat_of_nonneg htx, Int.toNat_of_nonneg hrx]

omit [Field K] in
/-- An accepted call has all its layers. -/
theorem MimoAccepts.layers_length {txLayers : List (ComplexVec K)} {cfg : MimoChannelConfig R K}
    (h : MimoAccepts txLayers cfg) : cfg.nTx.toNat ≤ txLayers.length := by
  have hle := to_int32_le (Int.natCast_nonneg txLayers.length)
  rw [h.layer_count] at hle
  omega

omit [Field K] in
/-- An accepted call has a number of antennas. -/
theorem MimoAccepts.antennas_eq {txLayers : List (ComplexVec K)} {cfg : MimoChannelConfig R K}
    (h : MimoAccepts txLayers cfg) (hcfg : cfg.WellFormed) : (cfg.nRx.toNat : Int) = cfg.nRx := by
  refine Int.toNat_of_nonneg (le_of_not_gt fun hneg => ?_)
  exact absurd h.antennas (not_le.mpr (max_lt_of_negative hcfg.antennas.1 hneg).2)

/-- The sum of `apply_mimo_channel` is an entry of the product with the channel. -/
theorem received_sum_eq {txLayers : List (ComplexVec K)} {cfg : MimoChannelConfig R K}
    (h : MimoAccepts txLayers cfg) (hfits : cfg.nRx * cfg.nTx < 2 ^ 31) {t r : Nat}
    (ht : t < (txLayers.headD []).length) (hr : r < cfg.nRx.toNat) :
    receivedSum txLayers cfg t r = .ok (∑ c ∈ Finset.range cfg.nTx.toNat,
      cfg.H.getD (r * cfg.nTx.toNat + c) 0 * (txLayers.getD c []).getD t 0) := by
  refine Table.fold_sum fun sum c hc => ?_
  have hcount := h.layers_length
  have hindex : r * cfg.nTx.toNat + c < cfg.nRx.toNat * cfg.nTx.toNat := index_lt hr hc
  have hsize : (cfg.nRx.toNat * cfg.nTx.toNat : Nat) < (2 ^ 31 : Int) := by
    push_cast
    rwa [Int.toNat_of_nonneg (by omega), Int.toNat_of_nonneg (by omega)]
  have htx : cfg.nTx = (cfg.nTx.toNat : Int) := by omega
  have hrow : int32 (r * cfg.nTx) = .ok (r * cfg.nTx.toNat : Nat) := by
    rw [htx, ← Nat.cast_mul]
    exact int32_of_range (by omega) (by omega)
  have hentry : int32 ((r * cfg.nTx.toNat : Nat) + c) = .ok (r * cfg.nTx.toNat + c : Nat) := by
    rw [← Nat.cast_add]
    exact int32_of_range (by omega) (by omega)
  have hsamples : t < (txLayers.getD c []).length := by
    have hlt : c < txLayers.length := by omega
    rw [List.getD_eq_getElem _ _ hlt, h.same_length _ (List.getElem_mem hlt)]
    exact ht
  rw [hrow, Checked.ok_bind, hentry, Checked.ok_bind, to_size_t_natCast (by omega),
    read_getD (hindex.trans_le h.channel_length) 0, Checked.ok_bind, read_getD (by omega) [],
    Checked.ok_bind, read_getD hsamples 0]
  rfl

/-- An accepted call stores what arrives. -/
theorem mimo_samples {txLayers : List (ComplexVec K)} {cfg : MimoChannelConfig R K}
    (h : MimoAccepts txLayers cfg) (hfits : cfg.nRx * cfg.nTx < 2 ^ 31) :
    (List.range (txLayers.headD []).length).foldlM (fun state t =>
      (List.range cfg.nRx.toNat).foldlM (mimoSample lib txLayers cfg t) state)
      (List.replicate cfg.nRx.toNat (List.replicate (txLayers.headD []).length 0), 0) =
    .ok (table cfg.nRx.toNat fun r => table (txLayers.headD []).length (arrives lib txLayers cfg r),
      (txLayers.headD []).length * cfg.nRx.toNat) := by
  generalize hT : (txLayers.headD []).length = T
  generalize hrx : cfg.nRx.toNat = rx
  -- the round without the number of draws
  let value (t r : Nat) : K := arrives lib txLayers cfg r t
  let plain (t : Nat) (rows : List (ComplexVec K)) (r : Nat) : Checked (List (ComplexVec K)) := do
    let x ← Except.ok (value t r)
    let row ← Checked.read rows r
    let row ← Checked.write row t x
    Checked.write rows r row
  have hround (t : Nat) (ht : t < T) (rows : List (ComplexVec K)) :
      (List.range rx).foldlM (mimoSample lib txLayers cfg t) (rows, t * rx) =
        ((List.range rx).foldlM (plain t) rows).map fun final => (final, t * rx + rx) := by
    rw [positioned_loop _ (plain t) _ 1 _ fun r hr rows => ?_, Nat.mul_one]
    rw [mimoSample, received_sum_eq h hfits (hT ▸ ht) (hrx ▸ hr), Checked.ok_bind, Nat.mul_one]
    dsimp only [plain]
    rw [Checked.ok_bind, ← hrx]
    cases Checked.read rows r with
    | error fault => rfl
    | ok row =>
        rw [Checked.ok_bind, Checked.ok_bind]
        show Checked.write row t (value t r) >>= _ = (Checked.write row t (value t r) >>= _).map _
        cases Checked.write row t (value t r) with
        | error fault => rfl
        | ok stream => exact Checked.bind_ok_map _ _
  have hdeal : (List.range T).foldlM (fun rows t => (List.range rx).foldlM (plain t) rows)
      (List.replicate rx (List.replicate T 0)) =
      .ok (deal rx T fun j => value (j / rx) (j % rx)) := deal_loop 0 fun t _ r hr => ?_
  · have hrounds := positioned_loop (fun state t =>
      (List.range rx).foldlM (mimoSample lib txLayers cfg t) state)
      (fun rows t => (List.range rx).foldlM (plain t) rows) 0 rx T (fun t ht rows => by
        rw [Nat.zero_add]
        exact hround t ht rows) (List.replicate rx (List.replicate T 0))
    rw [hrounds, hdeal, deal_collect rx T fun r t => value t r, Nat.zero_add]
    rfl
  · rw [Nat.mul_add_mod', Nat.mod_eq_of_lt hr, Nat.mul_comm, Nat.mul_add_div (by omega),
      Nat.div_eq_of_lt hr, Nat.add_zero]

/-- One requirement on every element passes, or throws its message. -/
theorem for_each_require {α : Type} (P : α → Prop) [DecidablePred P] (msg : String) (xs : List α) :
    Checked.forEach (fun x => require (P x) msg) xs = require (∀ x ∈ xs, P x) msg := by
  induction xs with
  | nil => exact (require_of fun x hx => absurd hx List.not_mem_nil).symm
  | cons x xs ih =>
      by_cases hx : P x
      · rw [Checked.forEach, require_of hx, Checked.ok_bind, ih]
        simp [require, hx]
      · rw [Checked.forEach, require_of_not hx, Checked.error_bind,
          require_of_not fun hall => hx (hall x List.mem_cons_self)]

/-- An accepted call returns what arrives. -/
theorem mimo_channel_eq {txLayers : List (ComplexVec K)} {cfg : MimoChannelConfig R K}
    (hcfg : cfg.WellFormed) (h : MimoAccepts txLayers cfg) :
    applyMimoChannel lib txLayers cfg = .ok (table cfg.nRx.toNat fun r =>
      table (txLayers.headD []).length (arrives lib txLayers cfg r)) := by
  have hempty : ¬txLayers.isEmpty := by
    rw [List.isEmpty_iff]
    exact h.not_empty
  have hfirst : Checked.read txLayers 0 = .ok (txLayers.headD []) := by
    cases txLayers with
    | nil => exact absurd rfl h.not_empty
    | cons first others => rfl
  have hrx : toSizeT cfg.nRx = cfg.nRx.toNat := by
    have hfits := hcfg.antennas.2
    rw [← h.antennas_eq hcfg]
    exact to_size_t_natCast (by omega)
  rw [applyMimoChannel, require_of h.layer_count, Checked.ok_bind,
    int32_of_range hcfg.product.1 hcfg.product.2, Checked.ok_bind, require_of h.h_size,
    Checked.ok_bind, require_of hempty, Checked.ok_bind, hfirst, Checked.ok_bind]
  dsimp only
  rw [for_each_require, require_of h.same_length, Checked.ok_bind, require_of h.antennas,
    Checked.ok_bind, hrx, mimo_samples lib h hcfg.product.2]
  rfl

/-- A call throws or is accepted. -/
theorem mimo_channel_cases (txLayers : List (ComplexVec K)) {cfg : MimoChannelConfig R K}
    (hcfg : cfg.WellFormed) :
    (∃ message, applyMimoChannel lib txLayers cfg = .error (.error message)) ∨
      MimoAccepts txLayers cfg := by
  rw [applyMimoChannel, int32_of_range hcfg.product.1 hcfg.product.2]
  by_cases hcount : toInt32 txLayers.length = cfg.nTx
  case neg => exact .inl ⟨_, by rw [require_of_not hcount]; rfl⟩
  rw [require_of hcount, Checked.ok_bind, Checked.ok_bind]
  by_cases hsize : toInt32 cfg.H.length = cfg.nRx * cfg.nTx
  case neg => exact .inl ⟨_, by rw [require_of_not hsize]; rfl⟩
  rw [require_of hsize, Checked.ok_bind]
  cases hlayers : txLayers with
  | nil => exact .inl ⟨_, rfl⟩
  | cons first others =>
      rw [require_of (by simp), Checked.ok_bind, Checked.read_of_lt (Nat.succ_pos _),
        Checked.ok_bind, List.getElem_cons_zero]
      dsimp only
      rw [for_each_require]
      by_cases hsame : ∀ L ∈ first :: others, L.length = first.length
      case neg => exact .inl ⟨_, by rw [require_of_not hsame]; rfl⟩
      rw [require_of hsame, Checked.ok_bind]
      by_cases hantennas : toSizeT cfg.nRx ≤ maxStreams
      case neg => exact .inl ⟨_, by rw [require_of_not hantennas]; rfl⟩
      exact .inr ⟨hlayers ▸ hcount, hsize, List.cons_ne_nil _ _, hsame, hantennas⟩

end

end NrBaseband
