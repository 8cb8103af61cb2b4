import NrBaseband.SegmentationBalance

/-!
# Which transport blocks are segmented

`segment_succeeds` says when segmentation returns: the blocks need a base graph with a lifting size
for payload and check together, while the number of blocks is counted for the payload alone.
`segments_within_limit_iff` draws the exact line under the default configuration.
-/

namespace NrBaseband

open Foundation Foundation.MachineInt Foundation.Pieces

/-- A size has a base graph and a lifting size. -/
def SegmentationConfig.Lifts (cfg : SegmentationConfig) (size : Nat) : Prop :=
  ∃ bg, cfg.baseGraph size = .ok bg ∧ size ≤ kbSel size bg * 384

/-- Where the sizes survive the casts, segmentation returns exactly when the size of the blocks with
their checks has a lifting size, and the check bits of all blocks are an `int`. -/
theorem segment_succeeds {tb : Bits} {cfg : SegmentationConfig} (hne : tb ≠ []) (hbits : IsBits tb)
    (hK : 40 ≤ cfg.maxCbInfoBits) (hB : tb.length < 2 ^ 63) (hfits : cfg.FitsInt tb.length) :
    (∃ r, segmentTransportBlock tb cfg = .ok r) ↔
      cfg.wantedBlocks tb.length * cfg.crcBits (cfg.wantedBlocks tb.length) < 2 ^ 31 ∧
      cfg.Lifts (cfg.share tb.length + cfg.crcBits (cfg.wantedBlocks tb.length)) := by
  have hpos : 0 < cfg.wantedBlocks tb.length :=
    ceil_div_pos (List.length_pos_iff.mpr hne) (by omega)
  have hplan (c : Nat) : (∃ plan, cfg.planBlock (cfg.crcBits (cfg.wantedBlocks tb.length))
      (piece 0 (cfg.share tb.length) tb c) = .ok plan) ↔
      cfg.Lifts (cfg.share tb.length + cfg.crcBits (cfg.wantedBlocks tb.length)) := by
    refine plan_block_succeeds (crc_bits_eq cfg _) (is_bits_piece hbits _ _) ?_
    rw [length_piece]
    have := hfits.2
    exact to_int32_of_range (by omega) (by omega)
  constructor
  · intro ⟨r, hok⟩
    obtain ⟨hchecks, plans, hplans, _⟩ := (segment_eq_ok hne hK hB hfits.1).mp hok
    obtain ⟨hlength, hsteps⟩ := Table.range_map_eq_ok.mp hplans
    exact ⟨hchecks, (hplan 0).mp ⟨_, hsteps 0 (hlength ▸ hpos)⟩⟩
  · intro ⟨hchecks, hlifts⟩
    choose plan hplan' using fun c => (hplan c).mpr hlifts
    exact ⟨_, (segment_eq_ok hne hK hB hfits.1).mpr
      ⟨hchecks, _, Table.gather fun c _ => hplan' c, rfl⟩⟩

/-- Where the sizes survive the casts, all blocks are within a limit exactly when segmentation
returns and the size it aims at is. -/
theorem segment_within_iff {tb : Bits} {cfg : SegmentationConfig} (hne : tb ≠ [])
    (hbits : IsBits tb) (hK : 40 ≤ cfg.maxCbInfoBits) (hB : tb.length < 2 ^ 63)
    (hfits : cfg.FitsInt tb.length)
    (limit : Nat) : (∃ r, segmentTransportBlock tb cfg = .ok r ∧
        ∀ plan ∈ r.codeBlocks, plan.bitsWithCrc.length ≤ limit) ↔
      (cfg.wantedBlocks tb.length * cfg.crcBits (cfg.wantedBlocks tb.length) < 2 ^ 31 ∧
        cfg.Lifts (cfg.share tb.length + cfg.crcBits (cfg.wantedBlocks tb.length))) ∧
      cfg.share tb.length + cfg.crcBits (cfg.wantedBlocks tb.length) ≤ limit := by
  have hpos : 0 < cfg.wantedBlocks tb.length :=
    ceil_div_pos (List.length_pos_iff.mpr hne) (by omega)
  have hsize (r : SegmentationResult) (hok : segmentTransportBlock tb cfg = .ok r) :
      0 < r.codeBlocks.length ∧ ∀ plan ∈ r.codeBlocks, plan.bitsWithCrc.length =
        cfg.share tb.length + cfg.crcBits (cfg.wantedBlocks tb.length) := by
    obtain ⟨hcount, _, _, hplan⟩ := segment_plans hne hbits hok hB hfits.1
    refine ⟨by omega, fun plan hmem => ?_⟩
    obtain ⟨c, hc, rfl⟩ := List.mem_iff_getElem.mp hmem
    rw [(hplan c hc).length_eq, length_piece]
  rw [← segment_succeeds hne hbits hK hB hfits]
  constructor
  · intro ⟨r, hok, hwithin⟩
    obtain ⟨hfirst, hsizes⟩ := hsize r hok
    have hmem := List.getElem_mem hfirst
    exact ⟨⟨r, hok⟩, hsizes _ hmem ▸ hwithin _ hmem⟩
  · intro ⟨⟨r, hok⟩, hle⟩
    exact ⟨r, hok, fun plan hmem => by rw [(hsize r hok).2 plan hmem]; exact hle⟩

/-- A number of blocks that the cast makes negative gives blocks of size zero. -/
theorem block_bits_negative (cfg : SegmentationConfig) {B : Nat} {C : Int} (hlow : -2 ^ 31 ≤ C)
    (hneg : C < 0) (hB : 2 ^ 31 < B) (hmax : B < 2 ^ 63) : cfg.blockBits B C = .ok 0 := by
  have hchecks : cfg.crcBits C = 0 := if_neg fun h => by omega
  have hcount : (toSizeT C : Int) = 2 ^ 64 + C := by
    unfold toSizeT
    omega
  have hsum : toSizeT (B + toSizeT 0) = B := by
    unfold toSizeT
    omega
  have hnumerator : toSizeT ((toSizeT (B + toSizeT 0) : Int) + toSizeT C - 1) < toSizeT C := by
    have hwrap : toSizeT ((B : Int) + toSizeT C - 1) = (B + C - 1).toNat := by
      have hvalue : ((B : Int) + (2 ^ 64 + C) - 1) % 2 ^ 64 = B + C - 1 := by omega
      rw [hcount, toSizeT, hvalue]
    rw [hsum, hwrap]
    omega
  unfold SegmentationConfig.blockBits
  rw [hchecks, Int.natCast_zero, Int.mul_zero, int32_of_range (by omega) (by omega),
    Checked.ok_bind]
  dsimp only
  rw [if_neg (by omega), Nat.div_eq_of_lt hnumerator]

/-- With such a number of blocks the result is empty. -/
theorem segment_negative {tb : Bits} {cfg : SegmentationConfig} (hK : 40 ≤ cfg.maxCbInfoBits)
    (hB : tb.length < 2 ^ 63) (hmany : 2 ^ 31 ≤ cfg.wantedBlocks tb.length)
    (hneg : toInt32 (cfg.wantedBlocks tb.length) < 0) :
    ∃ r, segmentTransportBlock tb cfg = .ok r ∧ r.codeBlocks = [] := by
  have hlarge : 2 ^ 31 < tb.length ∧ cfg.maxCbInfoBits < tb.length := by
    have hle (c : Nat) (h : tb.length ≤ cfg.maxCbInfoBits * c) : cfg.wantedBlocks tb.length ≤ c :=
      (ceilDiv_le_iff_le_mul (by omega)).mpr h
    constructor
    · by_contra hsmall
      have := hle (2 ^ 30) (by omega)
      omega
    · by_contra hsmall
      have := hle 1 (by omega)
      omega
  have hne : tb ≠ [] := List.length_pos_iff.mp (by omega)
  have hsize := block_bits_negative cfg (to_int32_range _).1 hneg hlarge.1 hB
  have hchecks : cfg.crcBits (toInt32 (cfg.wantedBlocks tb.length)) = 0 := if_neg fun h => by omega
  have hcount : cfg.blockCount tb.length = .ok (toInt32 (cfg.wantedBlocks tb.length)) := by
    rw [block_count_eq hB hlarge.2, SegmentationConfig.refineBlockCount, hsize, Checked.ok_bind,
      hchecks]
    simp [toSizeT]
  rw [segmentTransportBlock, if_neg hne, require_of hK, Checked.ok_bind, hcount, Checked.ok_bind]
  dsimp only
  rw [hsize, Checked.ok_bind, Int.toNat_of_nonpos (by omega)]
  exact ⟨_, rfl, rfl⟩

/-- With a number of blocks that the cast changes to another nonnegative one, nothing is
returned. -/
theorem segment_wrapped {tb : Bits} {cfg : SegmentationConfig} {r : SegmentationResult}
    (hne : tb ≠ []) (hB : tb.length < 2 ^ 63) (hmany : 2 ^ 31 ≤ cfg.wantedBlocks tb.length)
    (hok : segmentTransportBlock tb cfg = .ok r) : toInt32 (cfg.wantedBlocks tb.length) < 0 := by
  rw [segmentTransportBlock, if_neg hne, require_bind_eq_ok, Checked.bind_eq_ok] at hok
  obtain ⟨hK, C, hC, hrest⟩ := hok
  rw [Checked.bind_eq_ok] at hrest
  obtain ⟨Kp, hKp, _⟩ := hrest
  have hone : cfg.maxCbInfoBits < tb.length := by
    by_contra hsmall
    have := wanted_blocks_one (List.length_pos_iff.mpr hne) (Nat.not_lt.mp hsmall)
    omega
  rw [block_count_eq hB hone] at hC
  by_contra hnonneg
  have hrange := to_int32_range (cfg.wantedBlocks tb.length)
  obtain ⟨hle, hlt, Kp', hKp', hfits⟩ := refine_block_count_spec hrange.2 hC
  rcases Int.lt_or_eq_of_le (Int.not_lt.mp hnonneg) with hpos | hzero
  · -- a positive count of blocks within the bound would be at least the wanted one
    obtain ⟨n, rfl⟩ := Int.eq_ofNat_of_zero_le (by omega : 0 ≤ C)
    have hcover := (payload_le_iff (by omega) (by omega) hB hKp').2.mp hfits
    have hwanted : cfg.wantedBlocks tb.length ≤ n := by
      refine (ceilDiv_le_iff_le_mul (by omega)).mpr ?_
      rwa [Nat.mul_comm]
    omega
  · -- the first pass of the loop divides by zero
    rw [← hzero, SegmentationConfig.refineBlockCount, Checked.bind_eq_ok] at hC
    obtain ⟨_, hfirst, _⟩ := hC
    simp [SegmentationConfig.blockBits, SegmentationConfig.crcBits, int32, toSizeT] at hfirst

/-- With automatic selection a size up to 8448 bits has a lifting size, except for the sizes above
3840 bits at the low rates that are given the second base graph. -/
theorem auto_lifts_iff {cfg : SegmentationConfig} (hauto : cfg.autoSelectBg = true) {size : Nat}
    (hlow : 12 ≤ size) (hhigh : size ≤ 8448) :
    cfg.Lifts size ↔ (cfg.targetRate.le (.finite (1 / 4)) = true → size ≤ 3840) := by
  have hselect : cfg.baseGraph size = .ok (if (size : Int) ≤ 292 then .bg2
      else if (size : Int) ≤ 3824 ∧ cfg.targetRate.le (.finite rateBg2) then .bg2
      else if cfg.targetRate.le (.finite (1 / 4)) then .bg2
      else .bg1) := by
    rw [SegmentationConfig.baseGraph, if_pos hauto, selectBasegraph, require_of (by omega)]
    rfl
  have hlifts (bg : BaseGraph) (hbg : cfg.baseGraph size = .ok bg) :
      cfg.Lifts size ↔ (size : Int) ≤ kbSel size bg * 384 := by
    unfold SegmentationConfig.Lifts
    simp only [hbg, Except.ok.injEq]
    exact ⟨fun ⟨_, rfl, h⟩ => h, fun h => ⟨bg, rfl, h⟩⟩
  have hbg2 : (size : Int) ≤ kbSel size .bg2 * 384 ↔ size ≤ 3840 := by
    unfold kbSel
    dsimp only
    split_ifs <;> omega
  by_cases hsmall : (size : Int) ≤ 292
  · rw [if_pos hsmall] at hselect
    rw [hlifts _ hselect, hbg2]
    omega
  · rw [if_neg hsmall] at hselect
    by_cases hmedium : (size : Int) ≤ 3824 ∧ cfg.targetRate.le (.finite rateBg2) = true
    · rw [if_pos hmedium] at hselect
      rw [hlifts _ hselect, hbg2]
      omega
    · rw [if_neg hmedium] at hselect
      by_cases hrate : cfg.targetRate.le (.finite (1 / 4)) = true
      · rw [if_pos hrate] at hselect
        rw [hlifts _ hselect, hbg2]
        exact ⟨fun h _ => h, fun h => h hrate⟩
      · rw [if_neg hrate] at hselect
        rw [hlifts _ hselect]
        exact ⟨fun _ h => absurd h hrate, fun _ => by
          show (size : Int) ≤ 22 * 384
          omega⟩

/-- The defaults that decide about the sizes. -/
structure SegmentationConfig.IsDefault (cfg : SegmentationConfig) : Prop where
  bound : cfg.maxCbInfoBits = 8448
  attach : cfg.attachCrc24bWhenSegmented = true
  auto : cfg.autoSelectBg = true

/-- The wanted sizes under the default bound. -/
theorem default_sizes {cfg : SegmentationConfig} (hcfg : cfg.IsDefault) {B : Nat} (hne : 0 < B) :
    0 < cfg.wantedBlocks B ∧ cfg.share B ≤ 8448 ∧
      (cfg.wantedBlocks B < 2 ^ 31 → cfg.FitsInt B) := by
  have hbound := hcfg.bound
  have hshare : cfg.share B ≤ cfg.maxCbInfoBits := share_le hne (by omega)
  refine ⟨ceil_div_pos hne (by omega), by omega, fun hcount => ⟨hcount, ?_⟩⟩
  rcases crc_bits_eq cfg (cfg.wantedBlocks B) with hL | hL <;> omega

/-- A transport block that fits one block is segmented unless its size has no lifting size. -/
theorem one_block_within_iff {tb : Bits} {cfg : SegmentationConfig} (hcfg : cfg.IsDefault)
    (hbits : IsBits tb) (hmin : 12 ≤ tb.length) (hone : tb.length ≤ 8448) :
    (∃ r, segmentTransportBlock tb cfg = .ok r ∧
      ∀ plan ∈ r.codeBlocks, plan.bitsWithCrc.length ≤ 8448) ↔
    (cfg.targetRate.le (.finite (1 / 4)) = true → tb.length ≤ 3840) := by
  have hbound := hcfg.bound
  have hne : tb ≠ [] := List.length_pos_iff.mp (by omega)
  obtain ⟨_, _, hfits⟩ := default_sizes hcfg (by omega : 0 < tb.length)
  have hsingle : cfg.wantedBlocks tb.length = 1 := wanted_blocks_one (by omega) (by omega)
  have hwhole : cfg.share tb.length = tb.length := by
    rw [SegmentationConfig.share, hsingle, ceilDiv_one]
  have hnone : cfg.crcBits (1 : Nat) = 0 := if_neg fun h => by omega
  rw [segment_within_iff hne hbits (by omega) (by omega) (hfits (by omega)) 8448, hsingle, hwhole,
    hnone, Nat.add_zero, auto_lifts_iff hcfg.auto hmin hone]
  exact ⟨fun h => h.1.2, fun h => ⟨⟨by omega, h⟩, hone⟩⟩

/-- A longer transport block wants at least two blocks, each more than half full. -/
theorem share_gt_half {cfg : SegmentationConfig} (hcfg : cfg.IsDefault) {B : Nat} (hB : 8448 < B) :
    1 < cfg.wantedBlocks B ∧ 4224 < cfg.share B := by
  have hbound := hcfg.bound
  have hwanted (c : Nat) (h : B ≤ 8448 * c) : cfg.wantedBlocks B ≤ c :=
    (ceilDiv_le_iff_le_mul (by omega)).mpr (by rwa [hbound])
  have hpos : 0 < cfg.wantedBlocks B := (default_sizes hcfg (by omega)).1
  have hmany : 1 < cfg.wantedBlocks B := by
    by_contra hle
    have := (ceilDiv_le_iff_le_mul (by omega)).mp (Nat.not_lt.mp hle)
    omega
  refine ⟨hmany, ?_⟩
  by_contra hle
  have hcover : B ≤ cfg.wantedBlocks B * cfg.share B := le_mul_ceil_div hpos _
  have hproduct := Nat.mul_le_mul_left (cfg.wantedBlocks B) (Nat.not_lt.mp hle)
  have hlast := hwanted (cfg.wantedBlocks B - 1) (by omega)
  omega

/-- A longer transport block whose number of blocks survives the cast is segmented exactly at the
rates of the first base graph and where the blocks have room for the check. -/
theorem several_blocks_within_iff {tb : Bits} {cfg : SegmentationConfig} (hcfg : cfg.IsDefault)
    (hbits : IsBits tb) (hmany : 8448 < tb.length) (hmax : tb.length < 2 ^ 63)
    (hcount : cfg.wantedBlocks tb.length < 2 ^ 31) :
    (∃ r, segmentTransportBlock tb cfg = .ok r ∧
      ∀ plan ∈ r.codeBlocks, plan.bitsWithCrc.length ≤ 8448) ↔
    cfg.targetRate.le (.finite (1 / 4)) = false ∧ cfg.wantedBlocks tb.length * 24 < 2 ^ 31 ∧
      tb.length ≤ cfg.wantedBlocks tb.length * 8424 := by
  have hbound := hcfg.bound
  have hne : tb ≠ [] := List.length_pos_iff.mp (by omega)
  obtain ⟨hpos, hshare, hfits⟩ := default_sizes hcfg (by omega : 0 < tb.length)
  obtain ⟨hseveral, hhalf⟩ := share_gt_half hcfg hmany
  have hchecks : cfg.crcBits (cfg.wantedBlocks tb.length) = 24 :=
    if_pos ⟨by omega, hcfg.attach⟩
  have hroom : cfg.share tb.length ≤ 8424 ↔ tb.length ≤ cfg.wantedBlocks tb.length * 8424 :=
    ceilDiv_le_iff_le_mul hpos
  rw [segment_within_iff hne hbits (by omega) hmax (hfits hcount) 8448, hchecks, ← hroom]
  constructor
  · intro ⟨⟨hproduct, hlifts⟩, hlimit⟩
    have hlow := (auto_lifts_iff hcfg.auto (by omega) hlimit).mp hlifts
    refine ⟨?_, hproduct, by omega⟩
    cases hrate : cfg.targetRate.le (.finite (1 / 4)) with
    | false => rfl
    | true =>
        have := hlow hrate
        omega
  · intro ⟨hrate, hproduct, hlimit⟩
    refine ⟨⟨hproduct, (auto_lifts_iff hcfg.auto (by omega) (by omega)).mpr fun hlow => ?_⟩,
      by omega⟩
    rw [hrate] at hlow
    cases hlow

/-- Under the default configuration with any target rate, segmentation returns blocks of at most
8448 bits exactly for the transport blocks that fit one block with a lifting size, and for the
longer ones at rates that are given the first base graph whose blocks leave room for the check. A
number of blocks that the cast makes negative gives an empty result. -/
theorem segments_within_limit_iff {tb : Bits} (hbits : IsBits tb) (hmin : 12 ≤ tb.length)
    (hmax : tb.length < 2 ^ 63) (rate : Extended ℚ) :
    (∃ r, segmentTransportBlock tb { targetRate := rate } = .ok r ∧
      ∀ plan ∈ r.codeBlocks, plan.bitsWithCrc.length ≤ 8448) ↔
    tb.length ≤ 8448 ∧ (rate.le (.finite (1 / 4)) = true → tb.length ≤ 3840) ∨
    8448 < tb.length ∧ rate.le (.finite (1 / 4)) = false ∧ tb.length ⌈/⌉ 8448 * 24 < 2 ^ 31 ∧
      tb.length ≤ tb.length ⌈/⌉ 8448 * 8424 ∨
    8448 < tb.length ∧ toInt32 (tb.length ⌈/⌉ 8448 : Nat) < 0 := by
  have hne : tb ≠ [] := List.length_pos_iff.mp (by omega)
  have hdefault : ({ targetRate := rate } : SegmentationConfig).IsDefault := ⟨rfl, rfl, rfl⟩
  have hrate : rate = ({ targetRate := rate } : SegmentationConfig).targetRate := rfl
  have hwanted : tb.length ⌈/⌉ 8448 =
      ({ targetRate := rate } : SegmentationConfig).wantedBlocks tb.length := rfl
  generalize ({ targetRate := rate } : SegmentationConfig) = cfg at *
  subst hrate
  rw [hwanted]
  have hbound := hdefault.bound
  by_cases hone : tb.length ≤ 8448
  · rw [one_block_within_iff hdefault hbits hmin hone]
    constructor
    · intro h
      exact .inl ⟨hone, h⟩
    · rintro (⟨_, h⟩ | ⟨hmany, _⟩ | ⟨hmany, _⟩)
      · exact h
      · omega
      · omega
  · by_cases hcount : cfg.wantedBlocks tb.length < 2 ^ 31
    · have hcast : toInt32 (cfg.wantedBlocks tb.length) = cfg.wantedBlocks tb.length :=
        to_int32_of_range (by omega) (by omega)
      rw [several_blocks_within_iff hdefault hbits (by omega) hmax hcount, hcast]
      constructor
      · intro h
        exact .inr (.inl ⟨by omega, h⟩)
      · rintro (⟨hfit, _⟩ | ⟨_, h⟩ | ⟨_, hneg⟩)
        · omega
        · exact h
        · omega
    · -- the cast changes the number of blocks
      constructor
      · intro ⟨r, hok, _⟩
        exact .inr (.inr ⟨by omega, segment_wrapped hne hmax (by omega) hok⟩)
      · rintro (⟨hfit, _⟩ | ⟨_, _, hproduct, _⟩ | ⟨_, hneg⟩)
        · omega
        · omega
        · obtain ⟨r, hok, hempty⟩ := segment_negative (by omega) hmax (by omega) hneg
          exact ⟨r, hok, by simp [hempty]⟩

/-- Two blocks of 8424 bits leave room for their checks. -/
theorem segments_within_limit_iff_two : ∃ r,
    segmentTransportBlock (List.replicate 16848 0) {} = .ok r ∧
      ∀ plan ∈ r.codeBlocks, plan.bitsWithCrc.length ≤ 8448 := by
  have hbits : IsBits (List.replicate 16848 0) := is_bits_replicate _
  have hlength : (List.replicate 16848 (0 : UInt8)).length = 16848 := List.length_replicate
  have hwanted : 16848 ⌈/⌉ 8448 = 2 := by decide
  generalize List.replicate 16848 (0 : UInt8) = tb at *
  refine (segments_within_limit_iff hbits (by omega) (by omega) (.finite (1 / 2))).mpr ?_
  rw [hlength, hwanted]
  exact .inr (.inl ⟨by omega, by decide +kernel, by omega, by omega⟩)

/-- A transport block of twice 8448 bits leaves no room for the checks of its two blocks. -/
theorem no_room_for_check : IsBits (List.replicate 16896 0) ∧
    ¬∃ r, segmentTransportBlock (List.replicate 16896 0) {} = .ok r ∧
      ∀ plan ∈ r.codeBlocks, plan.bitsWithCrc.length ≤ 8448 := by
  have hbits : IsBits (List.replicate 16896 0) := is_bits_replicate _
  have hlength : (List.replicate 16896 (0 : UInt8)).length = 16896 := List.length_replicate
  have hwanted : ({} : SegmentationConfig).wantedBlocks 16896 = 2 := by decide
  generalize List.replicate 16896 (0 : UInt8) = tb at *
  refine ⟨hbits, ?_⟩
  rw [several_blocks_within_iff ⟨rfl, rfl, rfl⟩ hbits (by omega) (by omega)
    (by rw [hlength, hwanted]; omega), hlength, hwanted]
  omega

end NrBaseband
