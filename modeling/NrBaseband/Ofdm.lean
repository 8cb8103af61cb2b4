import NrBaseband.FftTransform
import NrBaseband.Foundation.MachineInt
import Mathlib.Data.List.GetD

/-!
# OFDM with a cyclic prefix

`ofdm_modulate` puts the last samples of the inverse transform in front of it, and
`ofdm_demodulate` drops them again. A channel that is no longer than the prefix then sees the
samples as a circle (`convolve_prefixed`), so that it multiplies every tone by one factor
(`cyclic_prefix_equalizes`).
-/

namespace NrBaseband

open Foundation Foundation.MachineInt Foundation.Table

variable {K : Type} [Field K]

/-- `OfdmConfig`. -/
structure OfdmConfig where
  fftSize : Nat := 64
  cpLen : Nat := 8

/-- The elements from `xs.end() - count` to the end; undefined when there are fewer. -/
def lastOf (xs : ComplexVec K) (count : Nat) : Checked (ComplexVec K) :=
  if count ≤ xs.length then .ok (xs.drop (xs.length - count)) else .error .undefined

/-- The elements from `xs.begin() + count` to the end; undefined when there are fewer. -/
def restOf (xs : ComplexVec K) (count : Nat) : Checked (ComplexVec K) :=
  if count ≤ xs.length then .ok (xs.drop count) else .error .undefined

/-- `ofdm_modulate`. The space that is reserved is computed as a size; appending throws when the
symbol does not fit in a vector. -/
def ofdmModulate (cosSin : ℚ → K) (freqSymbols : ComplexVec K) (cfg : OfdmConfig) :
    Checked (ComplexVec K) := do
  require (freqSymbols.length = cfg.fftSize) "freq_symbols size must equal fft_size"
  require (isPowerOfTwo cfg.fftSize) "fft_size must be power of two"
  let time ← fftRadix2 cosSin freqSymbols true
  require (toSizeT (cfg.cpLen + cfg.fftSize : Nat) ≤ maxVectorSize) "vector::reserve"
  let cp ← lastOf time cfg.cpLen
  require (cp.length + time.length ≤ maxVectorSize) "vector::_M_range_insert"
  return cp ++ time

/-- `ofdm_demodulate`. The expected length is computed as a size. -/
def ofdmDemodulate (cosSin : ℚ → K) (timeSignal : ComplexVec K) (cfg : OfdmConfig) :
    Checked (ComplexVec K) := do
  require (timeSignal.length = toSizeT (cfg.cpLen + cfg.fftSize : Nat))
    "time signal length mismatch"
  require (isPowerOfTwo cfg.fftSize) "fft_size must be power of two"
  let useful ← restOf timeSignal cfg.cpLen
  fftRadix2 cosSin useful false

/-! ## The symbol -/

/-- `samples` behind a copy of the last `cp` of them. -/
def prefixed (cp n : Nat) (samples : Nat → K) : ComplexVec K :=
  table cp (fun i => samples (n - cp + i)) ++ table n samples

omit [Field K] in
/-- The prefix stands in front of all samples. -/
@[simp] theorem length_prefixed (cp n : Nat) (samples : Nat → K) :
    (prefixed cp n samples).length = cp + n := by
  simp [prefixed]

/-- Reading at most the prefix before a sample goes round the circle of the samples. -/
theorem getD_prefixed {cp n t l : Nat} (hcp : cp ≤ n) (ht : t < n) (hl : l ≤ cp)
    (samples : Nat → K) :
    (prefixed cp n samples).getD (cp + t - l) 0 = samples ((n + t - l) % n) := by
  rcases Nat.lt_or_ge t l with hinside | hbehind
  · -- inside the prefix
    have hindex : n - cp + (cp + t - l) = n + t - l := by omega
    rw [prefixed, List.getD_append _ _ _ _ (by rw [length_table]; omega),
      getD_table (by omega), hindex, Nat.mod_eq_of_lt (by omega)]
  · have hindex : cp + t - l - cp = t - l := by omega
    have hround : n + t - l = n + (t - l) := by omega
    rw [prefixed, List.getD_append_right _ _ _ _ (by rw [length_table]; omega), length_table,
      hindex, getD_table (by omega), hround, Nat.add_mod_left, Nat.mod_eq_of_lt (by omega)]

/-- What the modulator returns. -/
theorem ofdm_modulate_eq_ok {cosSin : ℚ → K} (hcircle : IsUnitCircle cosSin) {cfg : OfdmConfig}
    {m : Nat} (hsize : cfg.fftSize = 2 ^ m) (hcp : cfg.cpLen ≤ cfg.fftSize) (x : Nat → K)
    {symbol : ComplexVec K} : ofdmModulate cosSin (table cfg.fftSize x) cfg = .ok symbol ↔
      cfg.cpLen + cfg.fftSize ≤ maxVectorSize ∧
        symbol = prefixed cfg.cpLen cfg.fftSize (transform cosSin true m x) := by
  have hpower : isPowerOfTwo cfg.fftSize = true := is_power_of_two_iff.mpr ⟨m, hsize⟩
  have hfft := fft_ok hcircle true m x
  rw [← hsize] at hfft
  have hcopy : cfg.fftSize - (cfg.fftSize - cfg.cpLen) = cfg.cpLen := by omega
  have hlast : lastOf (table cfg.fftSize (transform cosSin true m x)) cfg.cpLen =
      .ok (table cfg.cpLen fun i => transform cosSin true m x (cfg.fftSize - cfg.cpLen + i)) := by
    rw [lastOf, length_table, if_pos hcp, drop_table, hcopy]
  rw [ofdmModulate, require_of (length_table _ _), Checked.ok_bind, require_of hpower,
    Checked.ok_bind, hfft, Checked.ok_bind, Checked.check_bind_eq_ok, require_eq_ok, hlast,
    Checked.ok_bind, Checked.check_bind_eq_ok, require_eq_ok, length_table, length_table,
    Checked.pure_eq_ok, Except.ok.injEq]
  constructor
  · intro ⟨_, hfits, heq⟩
    exact ⟨hfits, heq.symm⟩
  · intro ⟨hfits, heq⟩
    exact ⟨to_size_t_le.trans hfits, hfits, heq.symm⟩

/-- The transform of a symbol whose size is a power of two. -/
theorem fft_returns {cosSin : ℚ → K} (hcircle : IsUnitCircle cosSin) {x : ComplexVec K}
    (hpower : isPowerOfTwo x.length = true) (inverse : Bool) :
    ∃ time, fftRadix2 cosSin x inverse = .ok time ∧ time.length = x.length := by
  obtain ⟨m, hm⟩ := is_power_of_two_iff.mp hpower
  have hfft := fft_ok hcircle inverse m fun i => x.getD i 0
  rw [← hm, ← eq_table x 0] at hfft
  exact ⟨_, hfft, length_table _ _⟩

/-- After the checks the modulator puts the last of as many samples in front of them. -/
theorem ofdm_modulate_samples {cosSin : ℚ → K} (hcircle : IsUnitCircle cosSin) {x : ComplexVec K}
    {cfg : OfdmConfig} (hx : x.length = cfg.fftSize) (hpower : isPowerOfTwo cfg.fftSize = true) :
    ∃ time : ComplexVec K, time.length = cfg.fftSize ∧ ofdmModulate cosSin x cfg = do
      require (toSizeT (cfg.cpLen + cfg.fftSize : Nat) ≤ maxVectorSize) "vector::reserve"
      let cp ← lastOf time cfg.cpLen
      require (cp.length + time.length ≤ maxVectorSize) "vector::_M_range_insert"
      return cp ++ time := by
  obtain ⟨time, hfft, htime⟩ := fft_returns hcircle (hx.symm ▸ hpower) true
  refine ⟨time, htime.trans hx, ?_⟩
  rw [ofdmModulate, require_of hx, Checked.ok_bind, require_of hpower, Checked.ok_bind, hfft,
    Checked.ok_bind]

/-- The configurations and symbols that the modulator accepts. -/
theorem ofdm_modulate_accepts {cosSin : ℚ → K} (hcircle : IsUnitCircle cosSin) {cfg : OfdmConfig}
    {x symbol : ComplexVec K} (h : ofdmModulate cosSin x cfg = .ok symbol) :
    (∃ m, cfg.fftSize = 2 ^ m) ∧ cfg.cpLen ≤ cfg.fftSize ∧ x.length = cfg.fftSize := by
  have hchecks := h
  rw [ofdmModulate, Checked.check_bind_eq_ok, Checked.check_bind_eq_ok, require_eq_ok,
    require_eq_ok] at hchecks
  obtain ⟨hx, hpower, -⟩ := hchecks
  obtain ⟨time, htime, hsamples⟩ := ofdm_modulate_samples hcircle hx hpower
  rw [hsamples, Checked.check_bind_eq_ok, Checked.bind_eq_ok] at h
  obtain ⟨-, cp, hlast, -⟩ := h
  rw [lastOf, htime] at hlast
  split at hlast
  case isTrue hcp => exact ⟨is_power_of_two_iff.mp hpower, hcp, hx⟩
  case isFalse => cases hlast

omit [Field K] in
/-- A symbol of samples behind a copy of the last of them starts as it ends. -/
theorem starts_as_it_ends {samples : ComplexVec K} {cp : Nat} (hcp : cp ≤ samples.length) :
    (samples.drop (samples.length - cp) ++ samples).length = cp + samples.length ∧
      (samples.drop (samples.length - cp) ++ samples).take cp =
        (samples.drop (samples.length - cp) ++ samples).drop samples.length := by
  have hlength : (samples.drop (samples.length - cp)).length = cp := by
    rw [List.length_drop]
    omega
  generalize hlast : samples.drop (samples.length - cp) = last at hlength ⊢
  refine ⟨by rw [List.length_append, hlength], ?_⟩
  rw [List.take_left' hlength, List.drop_append, List.drop_of_length_le (by omega),
    List.nil_append, hlength, hlast]

/-- A prefix that is longer than the transform is taken from outside of it. -/
theorem ofdm_modulate_undefined {cosSin : ℚ → K} (hcircle : IsUnitCircle cosSin) {x : ComplexVec K}
    {cfg : OfdmConfig} (hx : x.length = cfg.fftSize) (hpower : isPowerOfTwo cfg.fftSize = true)
    (hreserve : toSizeT (cfg.cpLen + cfg.fftSize : Nat) ≤ maxVectorSize)
    (hcp : ¬cfg.cpLen ≤ cfg.fftSize) : ofdmModulate cosSin x cfg = .error .undefined := by
  obtain ⟨time, htime, hsamples⟩ := ofdm_modulate_samples hcircle hx hpower
  rw [hsamples, require_of hreserve, Checked.ok_bind, lastOf, htime, if_neg hcp,
    Checked.error_bind]

/-- With a prefix no longer than the transform the modulator throws or returns a symbol that starts
as it ends. -/
theorem ofdm_modulate_prefixes {cosSin : ℚ → K} (hcircle : IsUnitCircle cosSin) {x : ComplexVec K}
    {cfg : OfdmConfig} (hx : x.length = cfg.fftSize) (hpower : isPowerOfTwo cfg.fftSize = true)
    (hcp : cfg.cpLen ≤ cfg.fftSize) :
    (∃ message, ofdmModulate cosSin x cfg = .error (.error message)) ∨
      ∃ symbol, ofdmModulate cosSin x cfg = .ok symbol ∧
        symbol.length = cfg.cpLen + cfg.fftSize ∧
        symbol.take cfg.cpLen = symbol.drop cfg.fftSize := by
  obtain ⟨time, htime, hsamples⟩ := ofdm_modulate_samples hcircle hx hpower
  rw [← htime] at hcp
  obtain ⟨hlength, hends⟩ := starts_as_it_ends hcp
  rw [hsamples]
  by_cases hreserve : toSizeT (cfg.cpLen + cfg.fftSize : Nat) ≤ maxVectorSize
  · rw [require_of hreserve, Checked.ok_bind, lastOf, if_pos hcp, Checked.ok_bind,
      ← List.length_append, ← htime]
    by_cases hfits : (time.drop (time.length - cfg.cpLen) ++ time).length ≤ maxVectorSize
    · rw [require_of hfits]
      exact .inr ⟨_, rfl, hlength, hends⟩
    · rw [require, if_neg hfits]
      exact .inl ⟨_, rfl⟩
  · rw [require, if_neg hreserve]
    exact .inl ⟨_, rfl⟩

/-- The modulator throws, or returns a symbol that starts as it ends, exactly where the prefix is no
longer than the transform or the call throws before. -/
theorem ofdm_modulate_safe_iff {cosSin : ℚ → K} (hcircle : IsUnitCircle cosSin) (x : ComplexVec K)
    (cfg : OfdmConfig) :
    ((∃ message, ofdmModulate cosSin x cfg = .error (.error message)) ∨
      ∃ symbol, ofdmModulate cosSin x cfg = .ok symbol ∧
        symbol.length = cfg.cpLen + cfg.fftSize ∧
        symbol.take cfg.cpLen = symbol.drop cfg.fftSize) ↔
      cfg.cpLen ≤ cfg.fftSize ∨ x.length ≠ cfg.fftSize ∨ isPowerOfTwo cfg.fftSize = false ∨
        maxVectorSize < toSizeT (cfg.cpLen + cfg.fftSize : Nat) := by
  by_cases hx : x.length = cfg.fftSize
  case neg =>
    rw [ofdmModulate, require, if_neg hx]
    exact iff_of_true (.inl ⟨_, rfl⟩) (.inr (.inl hx))
  by_cases hpower : isPowerOfTwo cfg.fftSize = true
  case neg =>
    rw [ofdmModulate, require_of hx, Checked.ok_bind, require, if_neg hpower]
    exact iff_of_true (.inl ⟨_, rfl⟩) (.inr (.inr (.inl (Bool.eq_false_iff.mpr hpower))))
  by_cases hcp : cfg.cpLen ≤ cfg.fftSize
  · exact iff_of_true (ofdm_modulate_prefixes hcircle hx hpower hcp) (.inl hcp)
  by_cases hreserve : toSizeT (cfg.cpLen + cfg.fftSize : Nat) ≤ maxVectorSize
  · rw [ofdm_modulate_undefined hcircle hx hpower hreserve hcp]
    refine iff_of_false ?_ ?_
    · rintro (⟨message, hthrow⟩ | ⟨symbol, hreturn, -⟩)
      · cases hthrow
      · cases hreturn
    · rintro (h | h | h | h)
      · exact hcp h
      · exact h hx
      · exact Bool.false_ne_true (h.symm.trans hpower)
      · exact not_le.mpr h hreserve
  · obtain ⟨time, -, hsamples⟩ := ofdm_modulate_samples hcircle hx hpower
    rw [hsamples, require, if_neg hreserve]
    exact iff_of_true (.inl ⟨_, rfl⟩) (.inr (.inr (.inr (not_le.mp hreserve))))

/-- A prefix of one sample. -/
theorem ofdm_modulate_safe_two :
    (∃ message, ofdmModulate complexCosSin [3, 5] ⟨2, 1⟩ = .error (.error message)) ∨
      ∃ symbol, ofdmModulate complexCosSin [3, 5] ⟨2, 1⟩ = .ok symbol ∧
        symbol.length = 3 ∧ symbol.take 1 = symbol.drop 2 :=
  (ofdm_modulate_safe_iff complex_unit_circle [3, 5] ⟨2, 1⟩).mpr (.inl (by decide))

/-- A prefix of two samples of a transform of one. -/
theorem ofdm_modulate_outside :
    ¬((∃ message, ofdmModulate complexCosSin [1] ⟨1, 2⟩ = .error (.error message)) ∨
      ∃ symbol, ofdmModulate complexCosSin [1] ⟨1, 2⟩ = .ok symbol ∧
        symbol.length = 3 ∧ symbol.take 2 = symbol.drop 1) := by
  rw [ofdm_modulate_undefined complex_unit_circle rfl rfl (by decide) (by decide)]
  rintro (⟨message, hthrow⟩ | ⟨symbol, hreturn, -⟩)
  · cases hthrow
  · cases hreturn

/-- What the demodulator returns. -/
theorem ofdm_demodulate_ok {cosSin : ℚ → K} (hcircle : IsUnitCircle cosSin) {cfg : OfdmConfig}
    {m : Nat} (hsize : cfg.fftSize = 2 ^ m) (hfits : cfg.cpLen + cfg.fftSize ≤ maxVectorSize)
    (y : Nat → K) : ofdmDemodulate cosSin (table (cfg.cpLen + cfg.fftSize) y) cfg =
      .ok (table cfg.fftSize (transform cosSin false m fun t => y (cfg.cpLen + t))) := by
  have hpower : isPowerOfTwo cfg.fftSize = true := is_power_of_two_iff.mpr ⟨m, hsize⟩
  have hwrap : toSizeT (cfg.cpLen + cfg.fftSize : Nat) = cfg.cpLen + cfg.fftSize :=
    to_size_t_natCast (hfits.trans_lt (by decide))
  have hfft := fft_ok hcircle false m fun t => y (cfg.cpLen + t)
  rw [← hsize] at hfft
  rw [ofdmDemodulate, length_table, require_of hwrap.symm, Checked.ok_bind, require_of hpower,
    Checked.ok_bind, restOf, length_table, if_pos (Nat.le_add_right _ _), Checked.ok_bind,
    drop_table, Nat.add_sub_cancel_left, hfft]

/-! ## The channel -/

/-- The linear convolution of an impulse response with a stream that starts with silence. -/
def convolve (taps stream : ComplexVec K) (i : Nat) : K :=
  ∑ l ∈ Finset.range taps.length, taps.getD l 0 * if l ≤ i then stream.getD (i - l) 0 else 0

/-- What a receiver gets of one symbol: `count` samples of the convolution of the impulse response
with the stream, from the start of the symbol on. -/
def received (taps preceding symbol : ComplexVec K) (count : Nat) : ComplexVec K :=
  table count fun i => convolve taps (preceding ++ symbol) (preceding.length + i)

/-- After the prefix the channel is a circular convolution. -/
theorem convolve_prefixed {cp n t : Nat} (hcp : cp ≤ n) (ht : t < n)
    {taps : ComplexVec K} (htaps : taps.length ≤ cp + 1) (preceding : ComplexVec K)
    (samples : Nat → K) :
    convolve taps (preceding ++ prefixed cp n samples) (preceding.length + (cp + t)) =
      ∑ l ∈ Finset.range taps.length, taps.getD l 0 * samples ((n + t - l) % n) := by
  refine Finset.sum_congr rfl fun l hl => ?_
  have hlen := Finset.mem_range.mp hl
  have hindex : preceding.length + (cp + t) - l - preceding.length = cp + t - l := by omega
  rw [if_pos (by omega), List.getD_append_right _ _ _ _ (by omega), hindex,
    getD_prefixed hcp ht (by omega)]

/-- A circular convolution multiplies every tone by one factor. -/
theorem transform_circular {cosSin : ℚ → K} (hcircle : IsUnitCircle cosSin) {m : Nat}
    {taps : ComplexVec K} (htaps : taps.length ≤ 2 ^ m + 1) (samples : Nat → K) (k : Nat) :
    transform cosSin false m
        (fun t => ∑ l ∈ Finset.range taps.length,
          taps.getD l 0 * samples ((2 ^ m + t - l) % 2 ^ m)) k =
      transform cosSin false m samples k *
        ∑ l ∈ Finset.range taps.length, taps.getD l 0 * stageRoot cosSin false m ^ (k * l) := by
  have htower : RootTower (stageRoot cosSin false) := hcircle.tower false
  rw [transform, transform, dft_sum, if_neg Bool.false_ne_true, mul_one, mul_one, Finset.mul_sum]
  refine Finset.sum_congr rfl fun l hl => ?_
  have hlen := Finset.mem_range.mp hl
  rw [dft_mul_left, dft_delay (htower.whole m) (by omega), mul_left_comm, mul_comm (dft _ _ _ _),
    mul_left_comm, mul_assoc]

/-- What the demodulator makes of a symbol behind a channel no longer than its prefix. -/
theorem ofdm_demodulate_received {cosSin : ℚ → K} (hcircle : IsUnitCircle cosSin)
    (htwo : (2 : K) ≠ 0) {cfg : OfdmConfig} {m : Nat} (hsize : cfg.fftSize = 2 ^ m)
    (hcp : cfg.cpLen ≤ cfg.fftSize) {taps : ComplexVec K} (htaps : taps.length ≤ cfg.cpLen + 1)
    {x : Nat → K} {symbol : ComplexVec K}
    (h : ofdmModulate cosSin (table cfg.fftSize x) cfg = .ok symbol) (preceding : ComplexVec K) :
    ofdmDemodulate cosSin (received taps preceding symbol (cfg.cpLen + cfg.fftSize)) cfg =
      .ok (table cfg.fftSize fun k => x k *
        ∑ l ∈ Finset.range taps.length, taps.getD l 0 * stageRoot cosSin false m ^ (k * l)) := by
  obtain ⟨hfits, rfl⟩ := (ofdm_modulate_eq_ok hcircle hsize hcp x).mp h
  rw [received, ofdm_demodulate_ok hcircle hsize hfits, Except.ok.injEq]
  refine table_congr fun k hk => ?_
  have hcircular : transform cosSin false m
      (fun t => convolve taps
        (preceding ++ prefixed cfg.cpLen cfg.fftSize (transform cosSin true m x))
        (preceding.length + (cfg.cpLen + t))) k =
      transform cosSin false m (fun t => ∑ l ∈ Finset.range taps.length,
        taps.getD l 0 * transform cosSin true m x ((2 ^ m + t - l) % 2 ^ m)) k := by
    refine transform_congr (fun t ht => ?_) k
    rw [convolve_prefixed hcp (by omega) htaps, hsize]
  have hback := transform_transform hcircle htwo true (hsize ▸ hk) x
  rw [Bool.not_true] at hback
  rw [hcircular, transform_circular hcircle (by omega), hback]

/-- Without a channel the demodulator returns what was modulated. -/
theorem ofdm_round_trip {cosSin : ℚ → K} (hcircle : IsUnitCircle cosSin) (htwo : (2 : K) ≠ 0)
    {cfg : OfdmConfig} {x symbol : ComplexVec K}
    (h : ofdmModulate cosSin x cfg = .ok symbol) : ofdmDemodulate cosSin symbol cfg = .ok x := by
  obtain ⟨⟨m, hsize⟩, hcp, hx⟩ := ofdm_modulate_accepts hcircle h
  have htable := eq_table x 0
  rw [hx] at htable
  rw [htable] at h ⊢
  obtain ⟨hfits, hsymbol⟩ := (ofdm_modulate_eq_ok hcircle hsize hcp _).mp h
  have hcells := eq_table symbol 0
  rw [hsymbol, length_prefixed] at hcells
  rw [hsymbol, hcells, ofdm_demodulate_ok hcircle hsize hfits, Except.ok.injEq]
  refine table_congr fun k hk => ?_
  have hback := transform_transform hcircle htwo true (hsize ▸ hk) fun i => x.getD i 0
  rw [Bool.not_true] at hback
  rw [← hback]
  refine transform_congr (fun t ht => ?_) k
  have hread := getD_prefixed hcp (hsize ▸ ht) (Nat.zero_le cfg.cpLen)
    (transform cosSin true m fun i => x.getD i 0)
  rwa [Nat.sub_zero, Nat.sub_zero, Nat.add_mod_left, Nat.mod_eq_of_lt (hsize ▸ ht)] at hread

/-- A channel that is no longer than the prefix multiplies every tone of a symbol by one factor,
whatever was sent before it; and a symbol that fits in a vector is sent. -/
theorem cyclic_prefix_equalizes (cfg : OfdmConfig) (hsize : ∃ m, cfg.fftSize = 2 ^ m)
    (hcp : cfg.cpLen ≤ cfg.fftSize) (x taps preceding : ComplexVec ℂ)
    (hx : x.length = cfg.fftSize) (htaps : taps.length ≤ cfg.cpLen + 1) :
    (cfg.cpLen + cfg.fftSize ≤ maxVectorSize →
      ∃ symbol, ofdmModulate complexCosSin x cfg = .ok symbol) ∧
    ∀ symbol, ofdmModulate complexCosSin x cfg = .ok symbol →
      ofdmDemodulate complexCosSin
          (received taps preceding symbol (cfg.cpLen + cfg.fftSize)) cfg =
        .ok (table cfg.fftSize fun k => x.getD k 0 *
          ∑ l ∈ Finset.range taps.length, taps.getD l 0 *
            Complex.exp (-2 * Real.pi * Complex.I * k * l / cfg.fftSize)) := by
  obtain ⟨m, hm⟩ := hsize
  have htable := eq_table x 0
  rw [hx] at htable
  rw [htable]
  constructor
  · intro hfits
    exact ⟨_, (ofdm_modulate_eq_ok complex_unit_circle hm hcp _).mpr ⟨hfits, rfl⟩⟩
  · intro symbol hsymbol
    rw [ofdm_demodulate_received complex_unit_circle two_ne_zero hm hcp htaps hsymbol,
      Except.ok.injEq]
    refine table_congr fun k hk => ?_
    rw [getD_table hk]
    congr 1
    refine Finset.sum_congr rfl fun l _ => ?_
    rw [complex_stage_root_pow, hm]

/-- A channel of two taps and a prefix of one sample. -/
theorem cyclic_prefix_equalizes_two :
    ∃ symbol, ofdmModulate complexCosSin [3, 5] ⟨2, 1⟩ = .ok symbol ∧
      ofdmDemodulate complexCosSin (received [2, 1] [7] symbol 3) ⟨2, 1⟩ = .ok [9, 5] := by
  obtain ⟨hsends, hreceives⟩ := cyclic_prefix_equalizes ⟨2, 1⟩ ⟨1, rfl⟩ (by decide) [3, 5] [2, 1]
    [7] rfl (by decide)
  obtain ⟨symbol, hsymbol⟩ := hsends (by decide)
  have hturn : Complex.exp (-(2 * Real.pi * Complex.I) / 2) = -1 := by
    have hangle : -(2 * Real.pi * Complex.I) / 2 = -(Real.pi * Complex.I) := by ring
    rw [hangle, Complex.exp_neg, Complex.exp_pi_mul_I, inv_neg, inv_one]
  refine ⟨symbol, hsymbol, (hreceives symbol hsymbol).trans ?_⟩
  rw [Except.ok.injEq, table, List.range_succ, List.range_succ, List.range_zero]
  simp [Finset.sum_range_succ, hturn]
  norm_num

end NrBaseband
