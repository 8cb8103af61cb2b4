import NrBaseband.Ofdm
import NrBaseband.Dmrs

/-!
# A slot with pilots

A slot of OFDM symbols, one of them the reference signals of `generate_dmrs`, is sent as one stream
through a channel with several paths. The receiver demodulates its symbols, estimates the channel
from the pilots, holds the estimate over the slot and equalizes every tone, with zero forcing or
MMSE. The estimate is the frequency response of the channel (`slot_estimated`), so zero forcing
returns the sent slot exactly when no tone fades, and MMSE shrinks every tone by the same factor in
all symbols (`slot_recovered`).
-/

namespace NrBaseband

open Foundation Foundation.MachineInt Foundation.Table

variable {R K : Type} [Field R] [LinearOrder R] [Field K] [StarRing K]

/-! ## The functions -/

/-- `hold_interpolate`. -/
def holdInterpolate (hSc : ComplexVec K) (nSymb : Int) : Checked (List (ComplexVec K)) := do
  require (nSymb > 0) "n_symb must be > 0"
  return List.replicate (toSizeT nSymb) hSc

section

variable (num : Cartesian R K)

/-- `equalize_zf_tones`. -/
def equalizeZfTones (y H : ComplexVec K) : Checked (ComplexVec K) := do
  require (y.length = H.length) "ZF size mismatch"
  (List.range y.length).mapM fun i => do
    let h ← Checked.read H i
    require (num.norm h > toneThreshold) "ZF zero channel"
    let y ← Checked.read y i
    return y / h

/-- `equalize_mmse_tones`. A tone without channel and without noise is divided by zero, which gives
no number. -/
def equalizeMmseTones (noiseVar : R) (y H : ComplexVec K) : Checked (List (Option K)) := do
  require (y.length = H.length) "MMSE size mismatch"
  require (noiseVar ≥ 0) "noise_var"
  (List.range y.length).mapM fun i => do
    let h ← Checked.read H i
    let denom := num.norm h + noiseVar
    let y ← Checked.read y i
    return if denom = 0 then none else some (y * star h / num.ofReal denom)

/-- The symbols of a slot are sent one after the other. -/
def sendSlot (cosSin : ℚ → K) (cfg : OfdmConfig) (grid : List (ComplexVec K)) :
    Checked (ComplexVec K) := do
  let symbols ← grid.mapM fun row => ofdmModulate cosSin row cfg
  return symbols.flatten

/-- What arrives of a stream over a channel with this impulse response. -/
def multipath (taps stream : ComplexVec K) : ComplexVec K :=
  table stream.length (convolve taps stream)

/-- The samples of symbol `l`. -/
def slotSymbol (cfg : OfdmConfig) (stream : ComplexVec K) (l : Nat) : ComplexVec K :=
  (stream.drop (l * (cfg.cpLen + cfg.fftSize))).take (cfg.cpLen + cfg.fftSize)

/-- The demodulated symbols of a slot and the estimate of the channel held over it. -/
def estimateSlot (cosSin : ℚ → K) (cfg : OfdmConfig) (dmrs : DmrsConfig) (sequence : ComplexVec K)
    (rx : ComplexVec K) : Checked (List (ComplexVec K) × List (ComplexVec K)) := do
  let rows ← (List.range dmrs.nSymb.toNat).mapM fun l =>
    ofdmDemodulate cosSin (slotSymbol cfg rx l) cfg
  let pilots ← Checked.read rows dmrs.dmrsSymb.toNat
  let H ← lsChannelEstimate num pilots sequence
  let held ← holdInterpolate H dmrs.nSymb
  return (rows, held)

/-- The symbols of a slot, equalized tone by tone. -/
def receiveSlot {α : Type} (equalize : ComplexVec K → ComplexVec K → Checked (List α))
    (cosSin : ℚ → K) (cfg : OfdmConfig) (dmrs : DmrsConfig) (sequence : ComplexVec K)
    (rx : ComplexVec K) : Checked (List (List α)) := do
  let (rows, held) ← estimateSlot num cosSin cfg dmrs sequence rx
  (List.range dmrs.nSymb.toNat).mapM fun l => do
    let y ← Checked.read rows l
    let H ← Checked.read held l
    equalize y H

end

/-- The factor of tone `k` of `n` over a channel with this impulse response. -/
def frequencyResponse (cosSin : ℚ → K) (n : Nat) (taps : ComplexVec K) (k : Nat) : K :=
  ∑ l ∈ Finset.range taps.length, taps.getD l 0 * cosSin (-(k * l : Nat) / n)

/-! ## The stream -/

omit [StarRing K] in
/-- What is sent later does not matter. -/
theorem convolve_append (taps : ComplexVec K) {stream : ComplexVec K} {i : Nat}
    (hi : i < stream.length) (later : ComplexVec K) :
    convolve taps (stream ++ later) i = convolve taps stream i := by
  refine Finset.sum_congr rfl fun l _ => ?_
  by_cases hle : l ≤ i
  · rw [if_pos hle, if_pos hle, List.getD_append _ _ _ _ (by omega)]
  · rw [if_neg hle, if_neg hle]

omit [StarRing K] [Field K] in
/-- The length of symbols of one length. -/
theorem length_symbols {L n : Nat} {sym : Nat → ComplexVec K} (h : ∀ l < n, (sym l).length = L) :
    (table n sym).flatten.length = n * L := by
  have hall : (table n sym).map List.length = List.replicate n L := by
    rw [map_table, replicate_eq_table]
    exact table_congr h
  rw [List.length_flatten, hall, List.sum_replicate_nat]

omit [StarRing K] in
/-- Every symbol arrives with the paths of the symbols before it. -/
theorem slot_symbol_received {cfg : OfdmConfig} {n : Nat} {sym : Nat → ComplexVec K}
    (h : ∀ l < n, (sym l).length = cfg.cpLen + cfg.fftSize) (taps : ComplexVec K) {l : Nat}
    (hl : l < n) :
    slotSymbol cfg (multipath taps (table n sym).flatten) l =
      received taps (table l sym).flatten (sym l) (cfg.cpLen + cfg.fftSize) := by
  rw [slotSymbol, multipath]
  generalize cfg.cpLen + cfg.fftSize = L at *
  have hbefore : (table l sym).flatten.length = l * L := length_symbols fun i hi => h i (by omega)
  obtain ⟨rest, rfl⟩ := Nat.exists_eq_add_of_lt hl
  have hsplit : (table (l + rest + 1) sym).flatten =
      ((table l sym).flatten ++ sym l) ++ (table rest fun i => sym (l + 1 + i)).flatten := by
    have hfirst : table (l + 1) sym = table l sym ++ [sym l] := by
      simp [table, List.range_succ]
    rw [(by omega : l + rest + 1 = l + 1 + rest), ← append_table, List.flatten_append, hfirst,
      List.flatten_append, List.flatten_singleton]
  have hwhole : (table (l + rest + 1) sym).flatten.length = l * L + L + rest * L := by
    rw [length_symbols h]
    ring
  have hlength : ((table l sym).flatten ++ sym l).length = l * L + L := by
    rw [List.length_append, hbefore, h l hl]
  rw [drop_table, take_table (by rw [hwhole]; omega), received, hbefore]
  refine table_congr fun i hi => ?_
  rw [hsplit, convolve_append taps (by rw [hlength]; omega)]

/-! ## The estimate -/

/-- The configurations of a slot whose symbols carry one pilot on every tone, and a channel that is
no longer than the prefix. -/
structure SlotFits (cfg : OfdmConfig) (dmrs : DmrsConfig) (taps : ComplexVec K) (m : Nat) :
    Prop where
  well_formed : dmrs.WellFormed
  accepted : dmrs.Accepted
  subcarriers : dmrs.nSc = cfg.fftSize
  indices : dmrs.nSc ≤ 2 ^ 30
  size : cfg.fftSize = 2 ^ m
  prefix_le : cfg.cpLen ≤ cfg.fftSize
  taps_le : taps.length ≤ cfg.cpLen + 1

omit [StarRing K] in
/-- The factor of a tone as a sum of powers of one root. -/
theorem frequency_response_eq {cosSin : ℚ → K} (hcircle : IsUnitCircle cosSin) (m : Nat)
    (taps : ComplexVec K) (k : Nat) : frequencyResponse cosSin (2 ^ m) taps k =
      ∑ l ∈ Finset.range taps.length, taps.getD l 0 * stageRoot cosSin false m ^ (k * l) := by
  refine Finset.sum_congr rfl fun l _ => ?_
  rw [stageRoot, ← hcircle.mul]
  congr 2
  push_cast
  ring

section

variable [IsStrictOrderedRing R] (root : ExactReal R) (num : Cartesian R K)

/-- A slot is sent, and the receiver demodulates every tone of every symbol as what was sent on it
times the factor of the tone, and estimates these factors. -/
theorem slot_estimated {cosSin : ℚ → K} (hcircle : IsUnitCircle cosSin) (htwo : (2 : K) ≠ 0)
    {cfg : OfdmConfig} {dmrs : DmrsConfig} {taps : ComplexVec K} {m : Nat}
    (h : SlotFits cfg dmrs taps m) {x : Nat → Nat → K}
    (hpilots : ∀ k < cfg.fftSize, x dmrs.dmrsSymb.toNat k = pilot root num dmrs.cInit k) :
    ∃ stream, sendSlot cosSin cfg (table dmrs.nSymb.toNat fun l => table cfg.fftSize (x l)) =
        .ok stream ∧
      estimateSlot num cosSin cfg dmrs (dmrsGrid root num dmrs).sequence
          (multipath taps stream) =
        .ok (table dmrs.nSymb.toNat fun l => table cfg.fftSize fun k =>
            x l k * frequencyResponse cosSin cfg.fftSize taps k,
          table dmrs.nSymb.toNat fun _ => table cfg.fftSize
            (frequencyResponse cosSin cfg.fftSize taps)) := by
  obtain ⟨⟨hsc, hsymb⟩, hlow, hhigh⟩ := h.accepted
  have hsubcarriers := h.subcarriers
  have hindices := h.indices
  have hsymbols := h.well_formed.symbols
  have hprefix := h.prefix_le
  have hcount : dmrs.nSc.toNat = cfg.fftSize := by omega
  have hfits : cfg.cpLen + cfg.fftSize ≤ maxVectorSize := by
    have hmax : (2 : Nat) ^ 31 ≤ maxVectorSize := by decide
    omega
  -- the sent symbols
  have hmodulate (l : Nat) := (ofdm_modulate_eq_ok hcircle h.size hprefix (x l)).mpr ⟨hfits, rfl⟩
  have hsymbol (l : Nat) (_ : l < dmrs.nSymb.toNat) :
      (prefixed cfg.cpLen cfg.fftSize (transform cosSin true m (x l))).length =
        cfg.cpLen + cfg.fftSize := length_prefixed _ _ _
  have hsent : sendSlot cosSin cfg (table dmrs.nSymb.toNat fun l => table cfg.fftSize (x l)) =
      .ok (table dmrs.nSymb.toNat fun l =>
        prefixed cfg.cpLen cfg.fftSize (transform cosSin true m (x l))).flatten := by
    have hrows : (table dmrs.nSymb.toNat fun l => table cfg.fftSize (x l)).mapM
        (fun row => ofdmModulate cosSin row cfg) = .ok (table dmrs.nSymb.toNat fun l =>
          prefixed cfg.cpLen cfg.fftSize (transform cosSin true m (x l))) := by
      rw [table, List.mapM_map]
      exact gather fun l _ => hmodulate l
    rw [sendSlot, hrows]
    rfl
  -- the received symbols
  have hreceived (l : Nat) (hl : l < dmrs.nSymb.toNat) :=
    ofdm_demodulate_received hcircle htwo h.size hprefix h.taps_le (hmodulate l)
      (table l fun l => prefixed cfg.cpLen cfg.fftSize (transform cosSin true m (x l))).flatten
  simp only [← frequency_response_eq hcircle, ← h.size] at hreceived
  refine ⟨_, hsent, ?_⟩
  have hrows : ((List.range dmrs.nSymb.toNat).mapM fun l => ofdmDemodulate cosSin
      (slotSymbol cfg (multipath taps (table dmrs.nSymb.toNat fun l =>
        prefixed cfg.cpLen cfg.fftSize (transform cosSin true m (x l))).flatten) l) cfg) =
      .ok (table dmrs.nSymb.toNat fun l => table cfg.fftSize fun k =>
        x l k * frequencyResponse cosSin cfg.fftSize taps k) := by
    refine gather fun l hl => ?_
    rw [slot_symbol_received hsymbol taps hl]
    exact hreceived l hl
  have hnorm (k : Nat) : num.norm (pilot root num dmrs.cInit k) > toneThreshold := by
    rw [norm_pilot]
    exact tone_threshold_lt_one
  have hestimate : lsChannelEstimate num
      (table cfg.fftSize fun k => x dmrs.dmrsSymb.toNat k *
        frequencyResponse cosSin cfg.fftSize taps k) (dmrsGrid root num dmrs).sequence =
      .ok (table cfg.fftSize (frequencyResponse cosSin cfg.fftSize taps)) := by
    rw [dmrsGrid, hcount, ls_channel_estimate_ok num fun k _ => hnorm k, Except.ok.injEq]
    refine table_congr fun k hk => ?_
    have hne := num.ne_zero_of_norm ((norm_pilot root num dmrs.cInit k).symm ▸ one_pos)
    rw [hpilots k hk, mul_div_cancel_left₀ _ hne]
  have hheld : toSizeT dmrs.nSymb = dmrs.nSymb.toNat := by
    unfold toSizeT
    omega
  rw [estimateSlot, hrows, Checked.ok_bind, read_table (by omega), Checked.ok_bind, hestimate,
    Checked.ok_bind, holdInterpolate, require_of hsymb, Checked.ok_bind, hheld, replicate_eq_table]
  rfl

omit [IsStrictOrderedRing R] in
/-- Zero forcing with tones above the threshold divides. -/
theorem equalize_zf_ok {n : Nat} {y h : Nat → K} (hall : ∀ k < n, num.norm (h k) > toneThreshold) :
    equalizeZfTones num (table n y) (table n h) = .ok (table n fun k => y k / h k) := by
  rw [equalizeZfTones, length_table, length_table, require_of rfl, Checked.ok_bind]
  refine gather fun k hk => ?_
  rw [read_table hk, Checked.ok_bind, require_of (hall k hk), Checked.ok_bind, read_table hk]
  rfl

omit [IsStrictOrderedRing R] in
/-- Zero forcing throws at a tone that fades. -/
theorem equalize_zf_fades {n k : Nat} {y h : Nat → K} (hk : k < n)
    (hfades : ¬num.norm (h k) > toneThreshold) :
    equalizeZfTones num (table n y) (table n h) = .error (.error "ZF zero channel") := by
  rw [equalizeZfTones, length_table, length_table, require_of rfl, Checked.ok_bind]
  have hstep (i : Nat) (hi : i < n) : (do
      let h ← Checked.read (table n h) i
      require (num.norm h > toneThreshold) "ZF zero channel"
      let y ← Checked.read (table n y) i
      return y / h) =
      if num.norm (h i) > toneThreshold then .ok (y i / h i)
      else .error (.error "ZF zero channel") := by
    rw [read_table hi, Checked.ok_bind]
    by_cases habove : num.norm (h i) > toneThreshold
    · rw [require_of habove, Checked.ok_bind, read_table hi, if_pos habove]
      rfl
    · rw [require_of_not habove, if_neg habove]
      rfl
  refine Checked.map_error (fun i hi => ?_) (List.mem_range.mpr hk)
    ((hstep k hk).trans (if_neg hfades))
  rw [hstep i (List.mem_range.mp hi)]
  by_cases habove : num.norm (h i) > toneThreshold
  · exact .inl ⟨_, if_pos habove⟩
  · exact .inr (if_neg habove)

omit [IsStrictOrderedRing R] in
/-- MMSE with noise weighs every tone. -/
theorem equalize_mmse_ok {n : Nat} {y h : Nat → K} {noiseVar : R} (hnoise : 0 ≤ noiseVar)
    (hall : ∀ k < n, num.norm (h k) + noiseVar ≠ 0) :
    equalizeMmseTones num noiseVar (table n y) (table n h) = .ok (table n fun k =>
      some (y k * star (h k) / num.ofReal (num.norm (h k) + noiseVar))) := by
  rw [equalizeMmseTones, length_table, length_table, require_of rfl, Checked.ok_bind,
    require_of hnoise, Checked.ok_bind]
  refine gather fun k hk => ?_
  rw [read_table hk, Checked.ok_bind, read_table hk, Checked.ok_bind, if_neg (hall k hk)]
  rfl

/-- A slot with pilots over a channel no longer than the prefix: zero forcing returns exactly what
was sent when no tone fades below the threshold, and throws when one does; MMSE always returns, and
shrinks every tone by the part that its channel has of channel and noise. -/
theorem slot_recovered {cosSin : ℚ → K} (hcircle : IsUnitCircle cosSin) (htwo : (2 : K) ≠ 0)
    {cfg : OfdmConfig} {dmrs : DmrsConfig} {taps : ComplexVec K} {m : Nat}
    (h : SlotFits cfg dmrs taps m) {g : DmrsGrid K} (hg : generateDmrs root num dmrs = .ok g)
    {grid : List (ComplexVec K)} (hsymbols : grid.length = dmrs.nSymb.toNat)
    (htones : ∀ row ∈ grid, row.length = cfg.fftSize)
    (hpilots : grid.getD dmrs.dmrsSymb.toNat [] = g.sequence) :
    ∃ stream, sendSlot cosSin cfg grid = .ok stream ∧
      ((∀ k < cfg.fftSize,
          num.norm (frequencyResponse cosSin cfg.fftSize taps k) > toneThreshold) →
        receiveSlot num (equalizeZfTones num) cosSin cfg dmrs g.sequence (multipath taps stream) =
          .ok grid) ∧
      ((∃ k < cfg.fftSize,
          num.norm (frequencyResponse cosSin cfg.fftSize taps k) ≤ toneThreshold) →
        receiveSlot num (equalizeZfTones num) cosSin cfg dmrs g.sequence (multipath taps stream) =
          .error (.error "ZF zero channel")) ∧
      ∀ noiseVar > 0,
        receiveSlot num (equalizeMmseTones num noiseVar) cosSin cfg dmrs g.sequence
            (multipath taps stream) =
          .ok (table dmrs.nSymb.toNat fun l => table cfg.fftSize fun k =>
            some ((grid.getD l []).getD k 0 *
              num.ofReal (num.norm (frequencyResponse cosSin cfg.fftSize taps k) /
                (num.norm (frequencyResponse cosSin cfg.fftSize taps k) + noiseVar)))) := by
  obtain ⟨⟨hsc, hsymb⟩, hlow, hhigh⟩ := h.accepted
  have hsubcarriers := h.subcarriers
  have hcount : dmrs.nSc.toNat = cfg.fftSize := by omega
  obtain rfl : dmrsGrid root num dmrs = g := Except.ok.inj
    (((generate_dmrs_cases root num h.well_formed).2.1 h.accepted h.indices).symm.trans hg)
  let x (l k : Nat) : K := (grid.getD l []).getD k 0
  have hgrid : grid = table dmrs.nSymb.toNat fun l => table cfg.fftSize (x l) := by
    conv_lhs => rw [eq_table grid [], hsymbols]
    refine table_congr fun l hl => ?_
    have hrow : (grid.getD l []).length = cfg.fftSize := by
      rw [List.getD_eq_getElem _ _ (hsymbols ▸ hl)]
      exact htones _ (List.getElem_mem _)
    conv_lhs => rw [eq_table (grid.getD l []) 0, hrow]
  have hsent (k : Nat) (hk : k < cfg.fftSize) :
      x dmrs.dmrsSymb.toNat k = pilot root num dmrs.cInit k := by
    show (grid.getD dmrs.dmrsSymb.toNat []).getD k 0 = _
    rw [hpilots, dmrsGrid, getD_table (hcount.symm ▸ hk)]
  obtain ⟨stream, hstream, hestimated⟩ := slot_estimated root num hcircle htwo h hsent
  -- one symbol after the other is equalized with the same factors
  have hequalize {α : Type} (equalize : ComplexVec K → ComplexVec K → Checked (List α)) :
      receiveSlot num equalize cosSin cfg dmrs (dmrsGrid root num dmrs).sequence
          (multipath taps stream) =
        (List.range dmrs.nSymb.toNat).mapM fun l => equalize
          (table cfg.fftSize fun k => x l k * frequencyResponse cosSin cfg.fftSize taps k)
          (table cfg.fftSize (frequencyResponse cosSin cfg.fftSize taps)) := by
    rw [receiveSlot, hestimated, Checked.ok_bind]
    refine Checked.map_congr fun l hl => ?_
    have hin := List.mem_range.mp hl
    rw [read_table hin, Checked.ok_bind, read_table hin, Checked.ok_bind]
  have hrow {α : Type} {equalize : ComplexVec K → ComplexVec K → Checked (List α)}
      {value : Nat → Nat → α} (hvalue : ∀ l, equalize
        (table cfg.fftSize fun k => x l k * frequencyResponse cosSin cfg.fftSize taps k)
        (table cfg.fftSize (frequencyResponse cosSin cfg.fftSize taps)) =
          .ok (table cfg.fftSize (value l))) :
      receiveSlot num equalize cosSin cfg dmrs (dmrsGrid root num dmrs).sequence
          (multipath taps stream) =
        .ok (table dmrs.nSymb.toNat fun l => table cfg.fftSize (value l)) := by
    rw [hequalize]
    exact gather fun l _ => hvalue l
  refine ⟨stream, hgrid ▸ hstream, fun habove => ?_, fun hfaded => ?_, fun noiseVar hnoise => ?_⟩
  · conv_rhs => rw [hgrid]
    refine hrow fun l => (equalize_zf_ok num habove).trans ?_
    refine congrArg Except.ok (table_congr fun k hk => ?_)
    have hlow : (0 : R) ≤ toneThreshold := one_div_nonneg.mpr (Nat.cast_nonneg _)
    exact mul_div_cancel_right₀ _ (num.ne_zero_of_norm (hlow.trans_lt (habove k hk)))
  · obtain ⟨k, hk, hfades⟩ := hfaded
    have hthrows (l : Nat) := equalize_zf_fades num
      (y := fun k => x l k * frequencyResponse cosSin cfg.fftSize taps k) hk (not_lt.mpr hfades)
    rw [hequalize]
    exact Checked.map_error (fun l _ => .inr (hthrows l))
      (List.mem_range.mpr (by omega : 0 < dmrs.nSymb.toNat)) (hthrows 0)
  · have hpositive (k : Nat) :
        num.norm (frequencyResponse cosSin cfg.fftSize taps k) + noiseVar ≠ 0 :=
      ne_of_gt (add_pos_of_nonneg_of_pos (sq_nonneg _) hnoise)
    refine hrow fun l => (equalize_mmse_ok num hnoise.le fun k _ => hpositive k).trans ?_
    refine congrArg Except.ok (table_congr fun k hk => congrArg some ?_)
    rw [mul_assoc, ← num.of_real_norm, map_div₀, mul_div_assoc]

end

/-- A slot of one symbol of two pilots and one of data, over two paths. -/
theorem slot_recovered_two : ∃ g stream,
    generateDmrs realNumbers cartesianNumbers { nSc := 2, nSymb := 2, dmrsSymb := 0 } = .ok g ∧
      sendSlot complexCosSin ⟨2, 1⟩ [g.sequence, [3, 5]] = .ok stream ∧
      receiveSlot cartesianNumbers (equalizeZfTones cartesianNumbers) complexCosSin ⟨2, 1⟩
        { nSc := 2, nSymb := 2, dmrsSymb := 0 } g.sequence (multipath [2, 1] stream) =
          .ok [g.sequence, [3, 5]] := by
  have hcfg : ({ nSc := 2, nSymb := 2, dmrsSymb := 0 } : DmrsConfig).WellFormed :=
    ⟨by decide, by decide⟩
  have hfits : SlotFits ⟨2, 1⟩ { nSc := 2, nSymb := 2, dmrsSymb := 0 } ([2, 1] : ComplexVec ℂ) 1 :=
    ⟨hcfg, ⟨by decide, by decide⟩, rfl, by decide, rfl, by decide, by decide⟩
  have hg := (generate_dmrs_cases realNumbers cartesianNumbers hcfg).2.1 hfits.accepted
    hfits.indices
  have hback : complexCosSin (-1 / 2) = -1 := by
    have hhalf := complex_unit_circle.neg (1 / 2)
    rw [complex_unit_circle.half, neg_one_mul, neg_eq_iff_eq_neg] at hhalf
    rwa [neg_div]
  have hnorm (r : ℝ) : cartesianNumbers.norm (r : ℂ) = r ^ 2 := by
    show ‖(r : ℂ)‖ ^ 2 = r ^ 2
    rw [Complex.norm_real, Real.norm_eq_abs, sq_abs]
  have habove : ∀ k < 2, cartesianNumbers.norm (frequencyResponse complexCosSin 2 [2, 1] k) >
      toneThreshold := by
    intro k hk
    rcases (by omega : k = 0 ∨ k = 1) with rfl | rfl
    · have hthree : frequencyResponse complexCosSin 2 [2, 1] 0 = ((3 : ℝ) : ℂ) := by
        simp [frequencyResponse, Finset.sum_range_succ, complex_unit_circle.zero]
        norm_num
      rw [hthree, hnorm]
      exact tone_threshold_lt_one.trans (by norm_num)
    · have hone : frequencyResponse complexCosSin 2 [2, 1] 1 = ((1 : ℝ) : ℂ) := by
        simp [frequencyResponse, Finset.sum_range_succ, complex_unit_circle.zero, hback]
        norm_num
      rw [hone, hnorm]
      exact tone_threshold_lt_one.trans_le (by norm_num)
  have htwo : (dmrsGrid realNumbers cartesianNumbers
      { nSc := 2, nSymb := 2, dmrsSymb := 0 }).sequence.length = 2 := Table.length_table _ _
  generalize dmrsGrid realNumbers cartesianNumbers _ = g at hg htwo
  have htones : ∀ row ∈ [g.sequence, [3, 5]], row.length = 2 := by
    intro row hrow
    rcases List.mem_pair.mp hrow with rfl | rfl
    · exact htwo
    · rfl
  obtain ⟨stream, hstream, hrecovered, -⟩ := slot_recovered realNumbers cartesianNumbers
    complex_unit_circle two_ne_zero hfits hg rfl htones rfl
  exact ⟨g, stream, hg, hstream, hrecovered habove⟩

end NrBaseband
