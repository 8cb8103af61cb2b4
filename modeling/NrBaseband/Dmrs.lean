import NrBaseband.Fft
import NrBaseband.ScramblingSeeds
import NrBaseband.Foundation.Cartesian
import NrBaseband.Foundation.MachineInt
import NrBaseband.Foundation.Refinement

/-!
# Reference signals

`generate_dmrs` fills one symbol of a slot with QPSK pilots drawn from the Gold sequence, and
`ls_channel_estimate` divides what arrives by them. `generate_dmrs_cases` says what the generator
does for every configuration; its pilots have norm one, so the estimate never fails and its error is
the noise on the pilots (`dmrs_estimates`).
-/

namespace NrBaseband

open Foundation Foundation.MachineInt

/-- `DmrsConfig`. -/
structure DmrsConfig where
  nSc : Int := 12
  nSymb : Int := 14
  dmrsSymb : Int := 2
  cInit : UInt32 := 1

/-- `DmrsGrid`. -/
structure DmrsGrid (K : Type) where
  grid : List (ComplexVec K)
  sequence : ComplexVec K

variable {R K : Type} [Field R] [LinearOrder R] [Field K] [StarRing K]

section

variable (root : ExactReal R) (num : Cartesian R K)

/-- The pilot of subcarrier `k` from the bits of the sequence. -/
def dmrsPilot (bits : Bits) (k : Nat) : Checked K := do
  let s := 1 / root.sqrt (2 : Nat)
  let first ← int32 (2 * k)
  let b ← Checked.read bits (toSizeT first)
  let re : R := if b = 0 then 1 else -1
  let double ← int32 (2 * k)
  let second ← int32 (double + 1)
  let b ← Checked.read bits (toSizeT second)
  let im : R := if b = 0 then 1 else -1
  return num.complex (s * re) (s * im)

/-- The body of the loop of `generate_dmrs`. -/
def dmrsStep (cfg : DmrsConfig) (bits : Bits) (g : DmrsGrid K) (k : Nat) :
    Checked (DmrsGrid K) := do
  let pilot ← dmrsPilot root num bits k
  let sequence ← Checked.write g.sequence k pilot
  let x ← Checked.read sequence k
  let row ← Checked.read g.grid (toSizeT cfg.dmrsSymb)
  let row ← Checked.write row k x
  let grid ← Checked.write g.grid (toSizeT cfg.dmrsSymb) row
  return { grid, sequence }

/-- `generate_dmrs`. -/
def generateDmrs (cfg : DmrsConfig) : Checked (DmrsGrid K) := do
  require (cfg.nSc > 0 ∧ cfg.nSymb > 0) "invalid DMRS dimensions"
  require (cfg.dmrsSymb ≥ 0 ∧ cfg.dmrsSymb < cfg.nSymb) "dmrs_symb out of range"
  let bits ← goldSequence (toSizeT cfg.nSc * 2) cfg.cInit
  (List.range cfg.nSc.toNat).foldlM (dmrsStep root num cfg bits) {
    grid := List.replicate (toSizeT cfg.nSymb) (List.replicate (toSizeT cfg.nSc) 0)
    sequence := List.replicate (toSizeT cfg.nSc) 0 }

/-- The least norm of a pilot or of a channel coefficient that is divided by. -/
def toneThreshold : R := 1 / ((10 ^ 12 : Nat) : R)

/-- `ls_channel_estimate`. -/
def lsChannelEstimate (rxDmrs txDmrs : ComplexVec K) : Checked (ComplexVec K) := do
  require (rxDmrs.length = txDmrs.length) "DMRS size mismatch"
  (List.range rxDmrs.length).mapM fun i => do
    let t ← Checked.read txDmrs i
    require (num.norm t > toneThreshold) "zero DMRS pilot"
    let r ← Checked.read rxDmrs i
    return r / t

/-- The pilot that the Gold sequence of a seed gives subcarrier `k`. -/
def pilot (cInit : UInt32) (k : Nat) : K :=
  num.complex (1 / root.sqrt (2 : Nat) * if gold cInit (2 * k) = 0 then 1 else -1)
    (1 / root.sqrt (2 : Nat) * if gold cInit (2 * k + 1) = 0 then 1 else -1)

end

/-- The fields are machine integers. -/
structure DmrsConfig.WellFormed (cfg : DmrsConfig) : Prop where
  subcarriers : cfg.nSc < 2 ^ 31
  symbols : cfg.nSymb < 2 ^ 31

/-- The dimensions that the generator accepts. -/
def DmrsConfig.Accepted (cfg : DmrsConfig) : Prop :=
  (cfg.nSc > 0 ∧ cfg.nSymb > 0) ∧ cfg.dmrsSymb ≥ 0 ∧ cfg.dmrsSymb < cfg.nSymb

/-! ## The generator -/

section

variable (root : ExactReal R) (num : Cartesian R K)

/-- A pilot whose indices fit an `int`. -/
theorem dmrs_pilot_ok {n k : Nat} (hk : k < n) (hfit : 2 * k + 1 < 2 ^ 31) (cInit : UInt32) :
    dmrsPilot root num (table (n * 2) (gold cInit)) k = .ok (pilot root num cInit k) := by
  have hfirst : toSizeT (2 * k : Int) = 2 * k := by
    unfold toSizeT
    omega
  have hsecond : toSizeT ((2 * k : Int) + 1) = 2 * k + 1 := by
    unfold toSizeT
    omega
  rw [dmrsPilot, int32_of_range (by omega) (by omega), Checked.ok_bind, hfirst,
    Table.read_table (by omega), Checked.ok_bind, Checked.ok_bind,
    int32_of_range (by omega) (by omega), Checked.ok_bind, hsecond, Table.read_table (by omega)]
  rfl

/-- A pilot whose first index is no `int`. -/
theorem dmrs_pilot_undefined {k : Nat} (hk : 2 ^ 31 ≤ 2 * k) (bits : Bits) :
    dmrsPilot root num bits k = .error .undefined := by
  have hover : int32 (2 * (k : Int)) = .error .undefined := if_neg (by omega)
  rw [dmrsPilot, hover]
  rfl

/-- The first `k` values, and zeros after them. -/
def upTo (k : Nat) (value : Nat → K) (i : Nat) : K := if i < k then value i else 0

omit [StarRing K] in
/-- One more value. -/
theorem upTo_succ (k : Nat) (value : Nat → K) :
    Function.update (upTo k value) k (value k) = upTo (k + 1) value := by
  funext i
  unfold upTo
  by_cases hi : i = k
  · subst hi
    rw [Function.update_self, if_pos (Nat.lt_succ_self _)]
  · rw [Function.update_of_ne hi]
    by_cases hlt : i < k
    · rw [if_pos hlt, if_pos (by omega)]
    · rw [if_neg hlt, if_neg (by omega)]

/-- The grid and the sequence when the first `k` subcarriers are filled. -/
def dmrsAfter (cfg : DmrsConfig) (k : Nat) : DmrsGrid K where
  grid := table cfg.nSymb.toNat fun l => table cfg.nSc.toNat fun i =>
    if l = cfg.dmrsSymb.toNat then upTo k (pilot root num cfg.cInit) i else 0
  sequence := table cfg.nSc.toNat (upTo k (pilot root num cfg.cInit))

/-- One round fills one more subcarrier. -/
theorem dmrs_step_ok {cfg : DmrsConfig} (hcfg : cfg.WellFormed) (haccepted : cfg.Accepted) {k : Nat}
    (hk : k < cfg.nSc.toNat) (hfit : 2 * k + 1 < 2 ^ 31) :
    dmrsStep root num cfg (table (cfg.nSc.toNat * 2) (gold cfg.cInit))
      (dmrsAfter root num cfg k) k = .ok (dmrsAfter root num cfg (k + 1)) := by
  obtain ⟨⟨hsc, hsymb⟩, hlow, hhigh⟩ := haccepted
  have hsymbols := hcfg.symbols
  obtain ⟨d, hd⟩ := Int.eq_ofNat_of_zero_le hlow
  have hindex : toSizeT cfg.dmrsSymb = d := by
    rw [hd]
    exact to_size_t_natCast (by omega)
  have hrow : cfg.dmrsSymb.toNat = d := by omega
  have hin : d < cfg.nSymb.toNat := by omega
  rw [dmrsStep, dmrs_pilot_ok root num hk hfit, Checked.ok_bind, dmrsAfter, Table.write_table hk,
    Checked.ok_bind, upTo_succ, Table.read_table hk, Checked.ok_bind, hindex, hrow,
    Table.read_table hin, Checked.ok_bind]
  simp only [if_true]
  rw [Table.write_table hk, Checked.ok_bind, Table.write_table hin, Checked.ok_bind, dmrsAfter,
    hrow, Checked.pure_eq_ok, Except.ok.injEq, DmrsGrid.mk.injEq]
  refine ⟨Table.table_congr fun l hl => ?_, rfl⟩
  have hlast : upTo (k + 1) (pilot root num cfg.cInit) k = pilot root num cfg.cInit k :=
    if_pos (Nat.lt_succ_self k)
  by_cases hsame : l = d
  · subst hsame
    rw [Function.update_self, hlast, upTo_succ]
    simp only [if_true]
  · rw [Function.update_of_ne hsame]
    simp only [if_neg hsame]

/-- What the generator returns. -/
def dmrsGrid (cfg : DmrsConfig) : DmrsGrid K where
  grid := table cfg.nSymb.toNat fun l =>
    if l = cfg.dmrsSymb.toNat then table cfg.nSc.toNat (pilot root num cfg.cInit)
    else List.replicate cfg.nSc.toNat 0
  sequence := table cfg.nSc.toNat (pilot root num cfg.cInit)

/-- All subcarriers are filled. -/
theorem dmrs_after_all (cfg : DmrsConfig) :
    dmrsAfter root num cfg cfg.nSc.toNat = dmrsGrid root num cfg := by
  have hfilled : table cfg.nSc.toNat (upTo cfg.nSc.toNat (pilot root num cfg.cInit)) =
      table cfg.nSc.toNat (pilot root num cfg.cInit) :=
    Table.table_congr fun i hi => if_pos hi
  rw [dmrsAfter, dmrsGrid, hfilled, DmrsGrid.mk.injEq]
  refine ⟨Table.table_congr fun l _ => ?_, rfl⟩
  by_cases hl : l = cfg.dmrsSymb.toNat
  · simp only [if_pos hl]
    exact hfilled
  · simp only [if_neg hl]
    rw [Table.replicate_eq_table]

/-- After the checks the generator runs its loop. -/
theorem generate_dmrs_loop {cfg : DmrsConfig} (hcfg : cfg.WellFormed) (haccepted : cfg.Accepted) :
    generateDmrs root num cfg = (List.range cfg.nSc.toNat).foldlM
      (dmrsStep root num cfg (table (cfg.nSc.toNat * 2) (gold cfg.cInit)))
      (dmrsAfter root num cfg 0) := by
  obtain ⟨⟨hsc, hsymb⟩, hlow, hhigh⟩ := haccepted
  have hsubcarriers := hcfg.subcarriers
  have hsymbols := hcfg.symbols
  have hscSize : toSizeT cfg.nSc = cfg.nSc.toNat := by
    unfold toSizeT
    omega
  have hsymbSize : toSizeT cfg.nSymb = cfg.nSymb.toNat := by
    unfold toSizeT
    omega
  have hempty (n : Nat) (value : Nat → K) : table n (upTo 0 value) = List.replicate n 0 := by
    rw [Table.replicate_eq_table]
    exact Table.table_congr fun i _ => if_neg (Nat.not_lt_zero i)
  rw [generateDmrs, require_of ⟨hsc, hsymb⟩, Checked.ok_bind, require_of ⟨hlow, hhigh⟩,
    Checked.ok_bind, hscSize, hsymbSize, gold_sequence_ok, Checked.ok_bind]
  congr 1
  rw [dmrsAfter, hempty, DmrsGrid.mk.injEq]
  refine ⟨?_, rfl⟩
  rw [Table.replicate_eq_table]
  refine Table.table_congr fun l _ => ?_
  by_cases hl : l = cfg.dmrsSymb.toNat
  · simp only [if_pos hl]
    rw [hempty]
  · simp only [if_neg hl]
    rw [Table.replicate_eq_table]

/-- What the generator does: it throws for dimensions that make no grid, fills the grid as long as
the indices of the bits fit an `int`, and else leaves the range of `int`. -/
theorem generate_dmrs_cases {cfg : DmrsConfig} (hcfg : cfg.WellFormed) :
    (¬cfg.Accepted → ∃ message, generateDmrs root num cfg = .error (.error message)) ∧
    (cfg.Accepted → cfg.nSc ≤ 2 ^ 30 → generateDmrs root num cfg = .ok (dmrsGrid root num cfg)) ∧
    (cfg.Accepted → 2 ^ 30 < cfg.nSc → generateDmrs root num cfg = .error .undefined) := by
  refine ⟨fun hnot => ?_, fun haccepted hfit => ?_, fun haccepted hbig => ?_⟩
  · by_cases hdims : cfg.nSc > 0 ∧ cfg.nSymb > 0
    · rw [generateDmrs, require_of hdims, Checked.ok_bind,
        require_of_not fun hrange => hnot ⟨hdims, hrange⟩]
      exact ⟨_, rfl⟩
    · rw [generateDmrs, require_of_not hdims]
      exact ⟨_, rfl⟩
  · obtain ⟨final, hloop, hfinal⟩ := range_loop (fun k g => g = dmrsAfter root num cfg k)
      (dmrsStep root num cfg (table (cfg.nSc.toNat * 2) (gold cfg.cInit))) cfg.nSc.toNat
      (fun k g hk hg => by
        rw [hg]
        exact ⟨_, dmrs_step_ok root num hcfg haccepted hk (by omega), rfl⟩) rfl
    rw [generate_dmrs_loop root num hcfg haccepted, hloop, hfinal, dmrs_after_all]
  · -- the round of subcarrier `2 ^ 30` cannot be made
    have hrounds := counted_loop_or (fun k g => k ≤ 2 ^ 30 ∧ g = dmrsAfter root num cfg k)
      (dmrsStep root num cfg (table (cfg.nSc.toNat * 2) (gold cfg.cInit))) .undefined True 0
      cfg.nSc.toNat (fun k g _ hk hg => by
        obtain ⟨hle, rfl⟩ := hg
        by_cases hlast : k = 2 ^ 30
        · refine .inr ⟨?_, trivial⟩
          rw [dmrsStep, dmrs_pilot_undefined root num (by omega)]
          rfl
        · exact .inl ⟨_, dmrs_step_ok root num hcfg haccepted (by omega) (by omega), by omega, rfl⟩)
      ⟨Nat.zero_le _, rfl⟩
    rw [generate_dmrs_loop root num hcfg haccepted, List.range_eq_range']
    rcases hrounds with ⟨_, _, hend, _⟩ | ⟨hfault, _⟩
    · omega
    · exact hfault

/-! ## The pilots -/

variable [IsStrictOrderedRing R]

/-- Half of the norm of a pilot. -/
theorem half_sq : (1 / root.sqrt (2 : Nat)) ^ 2 = 1 / ((2 : Nat) : R) := by
  rw [div_pow, one_pow, root.sq_sqrt _ (Nat.cast_nonneg _)]

omit [LinearOrder R] [IsStrictOrderedRing R] in
/-- A sign has square one. -/
theorem sign_sq {P : Prop} [Decidable P] : (if P then (1 : R) else -1) ^ 2 = 1 := by
  split
  · exact one_pow 2
  · exact neg_one_sq

/-- Every pilot has norm one. -/
theorem norm_pilot (cInit : UInt32) (k : Nat) : num.norm (pilot root num cInit k) = 1 := by
  have hne : ((2 : Nat) : R) ≠ 0 := Nat.cast_ne_zero.mpr two_ne_zero
  rw [pilot, num.norm_complex, mul_pow, mul_pow, half_sq, sign_sq, sign_sq, mul_one,
    ← two_mul]
  rw [← Nat.cast_two, mul_one_div_cancel hne]

/-- One is above the threshold. -/
theorem tone_threshold_lt_one : (toneThreshold : R) < 1 := by
  have hlarge : ((1 : Nat) : R) < ((10 ^ 12 : Nat) : R) := Nat.cast_lt.mpr (by norm_num)
  rw [Nat.cast_one] at hlarge
  rw [toneThreshold]
  exact (div_lt_one (by linarith)).mpr hlarge

omit [IsStrictOrderedRing R] in
/-- The estimate with pilots above the threshold is the quotient. -/
theorem ls_channel_estimate_ok {n : Nat} {rx tx : Nat → K}
    (h : ∀ k < n, num.norm (tx k) > toneThreshold) :
    lsChannelEstimate num (table n rx) (table n tx) = .ok (table n fun k => rx k / tx k) := by
  rw [lsChannelEstimate, Table.length_table, Table.length_table, require_of rfl, Checked.ok_bind]
  refine Table.gather fun k hk => ?_
  rw [Table.read_table hk, Checked.ok_bind, require_of (h k hk), Checked.ok_bind,
    Table.read_table hk]
  rfl

/-- What the generator does for every configuration, and how well its pilots estimate: the grid is
empty but for one symbol, the estimate never fails, and its distance from any channel is that of the
received pilots from the pilots sent over this channel. -/
theorem dmrs_estimates {cfg : DmrsConfig} (hcfg : cfg.WellFormed) :
    (¬cfg.Accepted → ∃ message, generateDmrs root num cfg = .error (.error message)) ∧
    (cfg.Accepted → 2 ^ 30 < cfg.nSc → generateDmrs root num cfg = .error .undefined) ∧
    (cfg.Accepted → cfg.nSc ≤ 2 ^ 30 → ∃ g, generateDmrs root num cfg = .ok g ∧
      g.sequence.length = cfg.nSc.toNat ∧ g.grid.length = cfg.nSymb.toNat ∧
      (∀ l < cfg.nSymb.toNat, g.grid[l]? = some
        (if l = cfg.dmrsSymb.toNat then g.sequence else List.replicate cfg.nSc.toNat 0)) ∧
      ∀ rx : ComplexVec K, rx.length = cfg.nSc.toNat →
        ∃ H, lsChannelEstimate num rx g.sequence = .ok H ∧ H.length = cfg.nSc.toNat ∧
          ∀ k < cfg.nSc.toNat, ∀ h : K, num.norm (H.getD k 0 - h) =
            num.norm (rx.getD k 0 - h * g.sequence.getD k 0)) := by
  obtain ⟨hthrows, hreturns, hoverflows⟩ := generate_dmrs_cases root num hcfg
  refine ⟨hthrows, hoverflows, fun haccepted hfit =>
    ⟨_, hreturns haccepted hfit, Table.length_table _ _, Table.length_table _ _, fun l hl => ?_,
      fun rx hrx => ?_⟩⟩
  · exact Table.getElem?_table hl
  · have hpilots (k : Nat) (_ : k < cfg.nSc.toNat) :
        num.norm (pilot root num cfg.cInit k) > toneThreshold := by
      rw [norm_pilot]
      exact tone_threshold_lt_one
    have hestimate : lsChannelEstimate num (table cfg.nSc.toNat fun k => rx.getD k 0)
        (dmrsGrid root num cfg).sequence =
          .ok (table cfg.nSc.toNat fun k => rx.getD k 0 / pilot root num cfg.cInit k) :=
      ls_channel_estimate_ok num hpilots
    rw [← hrx, ← Table.eq_table rx 0, hrx] at hestimate
    refine ⟨_, hestimate, Table.length_table _ _, fun k hk h => ?_⟩
    have hne := num.ne_zero_of_norm ((norm_pilot root num cfg.cInit k).symm ▸ one_pos)
    rw [Table.getD_table hk, dmrsGrid, Table.getD_table hk]
    have hquotient : rx.getD k 0 - h * pilot root num cfg.cInit k =
        (rx.getD k 0 / pilot root num cfg.cInit k - h) * pilot root num cfg.cInit k := by
      rw [sub_mul, div_mul_cancel₀ _ hne]
    rw [hquotient, num.norm_mul, norm_pilot, mul_one]

end

/-- The default configuration. -/
theorem dmrs_estimates_default : ∃ g, generateDmrs realNumbers cartesianNumbers {} = .ok g ∧
    g.sequence.length = 12 ∧ g.grid.length = 14 := by
  have hcfg : DmrsConfig.WellFormed {} := ⟨by decide, by decide⟩
  obtain ⟨-, -, hreturns⟩ := dmrs_estimates realNumbers cartesianNumbers hcfg
  obtain ⟨g, hg, hsequence, hgrid, -⟩ := hreturns ⟨by decide, by decide⟩ (by decide)
  exact ⟨g, hg, hsequence, hgrid⟩

section

variable [IsStrictOrderedRing R] (root : ExactReal R) (num : Cartesian R K)

/-- Numbers with the same parts only are equal. -/
theorem complex_injective {re im re' im' : R} (h : num.complex re im = num.complex re' im') :
    re = re' ∧ im = im' := by
  have hdiff : num.complex (re - re') (im - im') = 0 := by
    have hsplit : num.complex (re - re') (im - im') =
        num.complex re im - num.complex re' im' := by
      rw [Cartesian.complex, Cartesian.complex, Cartesian.complex, map_sub, map_sub]
      ring
    rw [hsplit, h, sub_self]
  have hnorm := num.norm_eq_zero hdiff
  rw [num.norm_complex] at hnorm
  have hre := sq_nonneg (re - re')
  have him := sq_nonneg (im - im')
  exact ⟨sub_eq_zero.mp (pow_eq_zero_iff two_ne_zero |>.mp (by linarith)),
    sub_eq_zero.mp (pow_eq_zero_iff two_ne_zero |>.mp (by linarith))⟩

omit [LinearOrder R] in
/-- Different bits have different signs. -/
theorem sign_injective [LinearOrder R] [IsStrictOrderedRing R] {s : R} (hs : s ≠ 0) {b b' : UInt8}
    (hb : IsBit b) (hb' : IsBit b')
    (h : s * (if b = 0 then 1 else -1) = s * if b' = 0 then 1 else -1) : b = b' := by
  have hsign := mul_left_cancel₀ hs h
  have hne : (1 : R) ≠ -1 := by
    intro heq
    linarith [one_pos (α := R)]
  rcases hb with rfl | rfl <;> rcases hb' with rfl | rfl
  · rfl
  · exact absurd hsign hne
  · exact absurd hsign.symm hne
  · rfl

/-- Two seeds give a subcarrier the same pilot exactly when they give it the same bits. -/
theorem pilot_eq_iff {c c' : UInt32} {k : Nat} :
    pilot root num c k = pilot root num c' k ↔
      gold c (2 * k) = gold c' (2 * k) ∧ gold c (2 * k + 1) = gold c' (2 * k + 1) := by
  constructor
  · intro h
    have hs : 1 / root.sqrt (2 : Nat) ≠ 0 :=
      one_div_ne_zero (ne_of_gt (root.sqrt_pos (Nat.cast_pos.mpr two_pos)))
    obtain ⟨hre, him⟩ := complex_injective num h
    exact ⟨sign_injective hs (is_bit_gold _ _) (is_bit_gold _ _) hre,
      sign_injective hs (is_bit_gold _ _) (is_bit_gold _ _) him⟩
  · rintro ⟨hre, him⟩
    rw [pilot, pilot, hre, him]

/-- From 16 subcarriers on, two seeds give the same pilots exactly when they agree modulo
`2 ^ 31`. -/
theorem dmrs_seeds_separated {cfg cfg' : DmrsConfig} (hcfg : cfg.WellFormed)
    (hcfg' : cfg'.WellFormed) (haccepted : cfg.Accepted) (haccepted' : cfg'.Accepted)
    (hsame : cfg'.nSc = cfg.nSc) (hwide : 16 ≤ cfg.nSc) (hfit : cfg.nSc ≤ 2 ^ 30) :
    ∃ g g', generateDmrs root num cfg = .ok g ∧ generateDmrs root num cfg' = .ok g' ∧
      (g.sequence = g'.sequence ↔ cfg.cInit.toNat % 2 ^ 31 = cfg'.cInit.toNat % 2 ^ 31) := by
  refine ⟨_, _, (generate_dmrs_cases root num hcfg).2.1 haccepted hfit,
    (generate_dmrs_cases root num hcfg').2.1 haccepted' (hsame ▸ hfit), ?_⟩
  rw [← gold_eq_iff (by omega : 31 ≤ 2 * cfg.nSc.toNat)]
  have hpilots : (dmrsGrid root num cfg).sequence = (dmrsGrid root num cfg').sequence ↔
      ∀ k < cfg.nSc.toNat, pilot root num cfg.cInit k = pilot root num cfg'.cInit k := by
    rw [dmrsGrid, dmrsGrid, hsame]
    simp only [table, List.map_inj_left, List.mem_range]
  rw [hpilots]
  constructor
  · intro h n hn
    obtain ⟨k, rfl | rfl⟩ := n.even_or_odd'
    · exact ((pilot_eq_iff root num).mp (h k (by omega))).1
    · exact ((pilot_eq_iff root num).mp (h k (by omega))).2
  · intro h k hk
    exact (pilot_eq_iff root num).mpr ⟨h _ (by omega), h _ (by omega)⟩

end

/-- Two cells with 16 subcarriers. -/
theorem dmrs_seeds_separated_two : ∃ g g',
    generateDmrs realNumbers cartesianNumbers { nSc := 16, cInit := 1 } = .ok g ∧
      generateDmrs realNumbers cartesianNumbers { nSc := 16, cInit := 2 } = .ok g' ∧
      g.sequence ≠ g'.sequence := by
  have hcfg : ({ nSc := 16, cInit := 1 } : DmrsConfig).WellFormed := ⟨by decide, by decide⟩
  have hcfg' : ({ nSc := 16, cInit := 2 } : DmrsConfig).WellFormed := ⟨by decide, by decide⟩
  obtain ⟨g, g', hg, hg', hseparated⟩ := dmrs_seeds_separated realNumbers cartesianNumbers hcfg
    hcfg' ⟨by decide, by decide⟩ ⟨by decide, by decide⟩ rfl (by decide) (by decide)
  refine ⟨g, g', hg, hg', fun h => ?_⟩
  have hmod : 1 % 2 ^ 31 = 2 % 2 ^ 31 := hseparated.mp h
  norm_num at hmod

end NrBaseband
