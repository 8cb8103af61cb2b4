import NrBaseband.Segmentation
import NrBaseband.Bits

/-!
# Balanced segmentation

What segmentation is for: as many blocks as the bound asks for, all of one size and code, that
together carry the transport block without loss. `segmentation_balanced_iff` says for which sizes
the code does that; the sizes that it misses are those that its casts to `int` change.
-/

namespace NrBaseband

open Foundation Foundation.MachineInt Foundation.Pieces

/-- The sizes that the casts to `int` keep: the number of the blocks and the size of each. -/
def SegmentationConfig.FitsInt (cfg : SegmentationConfig) (B : Nat) : Prop :=
  cfg.wantedBlocks B < 2 ^ 31 ∧ cfg.share B + cfg.crcBits (cfg.wantedBlocks B) < 2 ^ 31

instance (cfg : SegmentationConfig) (B : Nat) : Decidable (cfg.FitsInt B) :=
  inferInstanceAs (Decidable (_ ∧ _))

/-- The result carries the transport block in `n` equal blocks with a payload of `P` bits, each
with its check when there are several and `attach` asks for it. -/
structure SegmentationResult.IsCut (r : SegmentationResult) (tb : Bits) (n P : Nat)
    (attach : Bool) : Prop where
  count : r.codeBlocks.length = n ∧ r.numCodeBlocks = n
  alike : ∀ a ∈ r.codeBlocks, ∀ b ∈ r.codeBlocks,
    a.bitsWithCrc.length = b.bitsWithCrc.length ∧ a.bg = b.bg ∧ a.zc = b.zc ∧ a.iLs = b.iLs ∧
      a.kLdpc = b.kLdpc
  inner : ∀ c (hc : c < r.codeBlocks.length), c + 1 < n → c * P + P ≤ tb.length ∧
    r.codeBlocks[c].bitsWithCrc.take P = (tb.drop (c * P)).take P
  last : ∀ c (hc : c < r.codeBlocks.length), c + 1 = n → c * P < tb.length ∧
    r.codeBlocks[c].bitsWithCrc.take P =
      tb.drop (c * P) ++ List.replicate (c * P + P - tb.length) 0
  checked : 1 < n → attach = true → ∀ plan ∈ r.codeBlocks,
    plan.bitsWithCrc.length = P + 24 ∧ crcCheck plan.bitsWithCrc .crc24b = .ok true
  unchecked : ¬(1 < n ∧ attach = true) → ∀ plan ∈ r.codeBlocks, plan.bitsWithCrc.length = P
  filler : ∀ plan ∈ r.codeBlocks, 0 ≤ plan.fillerBits ∧
    plan.fillerBits = plan.kLdpc - plan.bitsWithCrc.length
  total : (r.totalFillerBits : Int) = (r.codeBlocks.map fun plan => plan.fillerBits).sum

/-- The result carries the transport block in as many equal blocks as the bound asks for. -/
def SegmentationResult.IsBalanced (r : SegmentationResult) (tb : Bits) (cfg : SegmentationConfig) :
    Prop :=
  r.IsCut tb (cfg.wantedBlocks tb.length) (cfg.share tb.length) cfg.attachCrc24bWhenSegmented

/-- The check bits of a number of blocks. -/
theorem crc_bits_cases (cfg : SegmentationConfig) (C : Int) :
    cfg.crcBits C = 0 ∧ ¬(C > 1 ∧ cfg.attachCrc24bWhenSegmented = true) ∨
      cfg.crcBits C = 24 ∧ C > 1 ∧ cfg.attachCrc24bWhenSegmented = true := by
  unfold SegmentationConfig.crcBits
  split
  case isTrue h => exact .inr ⟨rfl, h⟩
  case isFalse h => exact .inl ⟨rfl, h⟩

/-- There are check bits or none. -/
theorem crc_bits_eq (cfg : SegmentationConfig) (C : Int) :
    cfg.crcBits C = 0 ∨ cfg.crcBits C = 24 := by
  rcases crc_bits_cases cfg C with ⟨h, _⟩ | ⟨h, _⟩
  · exact .inl h
  · exact .inr h

/-- The size of a block that has a plan. -/
theorem SegmentationConfig.IsPlanOf.length_eq {cfg : SegmentationConfig} {L : Nat} {payload : Bits}
    {plan : CodeBlockPlan} (h : cfg.IsPlanOf L payload plan) :
    plan.bitsWithCrc.length = payload.length + L := by
  obtain ⟨parity, hbits, hparity, _⟩ := h.bits_eq
  rw [hbits, List.length_append, hparity]

/-- A plan of a bit vector is a bit vector. -/
theorem SegmentationConfig.IsPlanOf.is_bits {cfg : SegmentationConfig} {L : Nat} {payload : Bits}
    {plan : CodeBlockPlan} (h : cfg.IsPlanOf L payload plan) (hpayload : IsBits payload) :
    IsBits plan.bitsWithCrc := by
  obtain ⟨parity, hbits, _, hparity⟩ := h.bits_eq
  rw [hbits]
  exact is_bits_append.mpr ⟨hpayload, hparity⟩

/-- Plans of blocks of one size agree on the code. -/
theorem SegmentationConfig.IsPlanOf.alike {cfg : SegmentationConfig} {L : Nat}
    {payload payload' : Bits} {plan plan' : CodeBlockPlan} (h : cfg.IsPlanOf L payload plan)
    (h' : cfg.IsPlanOf L payload' plan')
    (hlength : plan.bitsWithCrc.length = plan'.bitsWithCrc.length) :
    plan.bg = plan'.bg ∧ plan.zc = plan'.zc ∧ plan.iLs = plan'.iLs ∧ plan.kLdpc = plan'.kLdpc := by
  have hbg : plan.bg = plan'.bg := by
    have heq := h.base_graph.symm.trans (hlength ▸ h'.base_graph)
    exact Except.ok.inj heq
  obtain ⟨lift, hlift, hzc, hils⟩ := h.lifting
  obtain ⟨lift', hlift', hzc', hils'⟩ := h'.lifting
  have hsame : lift = lift' := by
    rw [hlength, hbg] at hlift
    exact Except.ok.inj (hlift.symm.trans hlift')
  refine ⟨hbg, by rw [hzc, hsame, ← hzc'], by rw [hils, hsame, ← hils'], ?_⟩
  rw [h.k_ldpc, h'.k_ldpc, hbg, hzc, hsame, ← hzc']

/-- The plans of a result whose number of blocks survives the cast. -/
theorem segment_plans {tb : Bits} {cfg : SegmentationConfig} {r : SegmentationResult}
    (hne : tb ≠ []) (hbits : IsBits tb) (hok : segmentTransportBlock tb cfg = .ok r)
    (hB : tb.length < 2 ^ 63)
    (hcount : cfg.wantedBlocks tb.length < 2 ^ 31) :
    r.codeBlocks.length = cfg.wantedBlocks tb.length ∧
    r.numCodeBlocks = cfg.wantedBlocks tb.length ∧
    r.totalFillerBits = (r.codeBlocks.map fun plan => plan.fillerBits.toNat).sum ∧
    ∀ c (hc : c < r.codeBlocks.length), cfg.IsPlanOf (cfg.crcBits (cfg.wantedBlocks tb.length))
      (piece 0 (cfg.share tb.length) tb c) r.codeBlocks[c] := by
  obtain ⟨hK, _⟩ := segment_inv hne hok
  obtain ⟨_, plans, hplans, rfl⟩ := (segment_eq_ok hne hK hB hcount).mp hok
  obtain ⟨hlength, hplan⟩ := Table.range_map_eq_ok.mp hplans
  exact ⟨hlength, rfl, rfl, fun c hc =>
    plan_block_spec (crc_bits_eq cfg _) (is_bits_piece hbits _ _) (hplan c hc)⟩

/-- Sizes that survive the casts are those of a vector. -/
theorem SegmentationConfig.FitsInt.length_lt {cfg : SegmentationConfig} {B : Nat}
    (h : cfg.FitsInt B) (hpos : 0 < cfg.wantedBlocks B) : B < 2 ^ 63 := by
  obtain ⟨hcount, hsize⟩ := h
  have hcover : B ≤ cfg.wantedBlocks B * cfg.share B := le_mul_ceil_div hpos _
  have hproduct : cfg.wantedBlocks B * cfg.share B ≤ 2 ^ 31 * 2 ^ 31 :=
    Nat.mul_le_mul (Nat.le_of_lt hcount) (by omega)
  omega

/-- A plan starts with its payload. -/
theorem SegmentationConfig.IsPlanOf.take_payload {cfg : SegmentationConfig} {L : Nat}
    {payload : Bits} {plan : CodeBlockPlan} (h : cfg.IsPlanOf L payload plan) :
    plan.bitsWithCrc.take payload.length = payload := by
  obtain ⟨parity, hbits, _⟩ := h.bits_eq
  rw [hbits, List.take_left]

/-- The sum of the fillers as integers. -/
theorem sum_fillers (plans : List CodeBlockPlan) :
    ((plans.map fun plan => plan.fillerBits.toNat).sum : Nat) =
      (plans.map fun plan => plan.fillerBits).sum := by
  induction plans with
  | nil => rfl
  | cons plan plans ih =>
      have hnonneg := plan.filler_nonneg
      simp only [List.map_cons, List.sum_cons]
      omega

/-- Where the sizes survive the casts, the result is balanced. -/
theorem balanced_of_fits {tb : Bits} {cfg : SegmentationConfig} {r : SegmentationResult}
    (hne : tb ≠ []) (hbits : IsBits tb) (hok : segmentTransportBlock tb cfg = .ok r)
    (hfits : cfg.FitsInt tb.length) : r.IsBalanced tb cfg := by
  obtain ⟨hK, _⟩ := segment_inv hne hok
  have hlength : 0 < tb.length := List.length_pos_iff.mpr hne
  obtain ⟨hcount, hnum, htotal, hplan⟩ := segment_plans hne hbits hok
    (hfits.length_lt (ceil_div_pos hlength (by omega))) hfits.1
  have hinner (c : Nat) (h : c + 1 < cfg.wantedBlocks tb.length) :
      c * cfg.share tb.length + cfg.share tb.length ≤ tb.length :=
    inner_within hlength (by omega) h
  have hlast (c : Nat) (h : c + 1 = cfg.wantedBlocks tb.length) :
      c * cfg.share tb.length < tb.length ∧
        tb.length ≤ c * cfg.share tb.length + cfg.share tb.length :=
    last_reaches hlength (by omega) h
  have hrange := hfits.2
  unfold SegmentationResult.IsBalanced
  generalize cfg.wantedBlocks tb.length = n at *
  generalize cfg.share tb.length = P at *
  have hsize (plan : CodeBlockPlan) (hmem : plan ∈ r.codeBlocks) :
      plan.bitsWithCrc.length = P + cfg.crcBits n := by
    obtain ⟨c, hc, rfl⟩ := List.mem_iff_getElem.mp hmem
    rw [(hplan c hc).length_eq, length_piece]
  have hpayload (c : Nat) (hc : c < r.codeBlocks.length) :
      r.codeBlocks[c].bitsWithCrc.take P = piece 0 P tb c := by
    have htake := (hplan c hc).take_payload
    rwa [length_piece] at htake
  refine ⟨⟨hcount, hnum⟩, ?_, ?_, ?_, ?_, ?_, ?_, ?_⟩
  · intro a ha b hb
    have hsame : a.bitsWithCrc.length = b.bitsWithCrc.length := by rw [hsize a ha, hsize b hb]
    obtain ⟨i, hi, rfl⟩ := List.mem_iff_getElem.mp ha
    obtain ⟨j, hj, rfl⟩ := List.mem_iff_getElem.mp hb
    exact ⟨hsame, (hplan i hi).alike (hplan j hj) hsame⟩
  · intro c hc hbefore
    exact ⟨hinner c hbefore, by rw [hpayload c hc, piece_of_le (hinner c hbefore)]⟩
  · intro c hc hend
    obtain ⟨hstart, hreach⟩ := hlast c hend
    exact ⟨hstart, by rw [hpayload c hc, piece_of_ge (Nat.le_of_lt hstart) hreach]⟩
  · intro hmany hattach plan hmem
    have hL : cfg.crcBits n = 24 := if_pos ⟨by omega, hattach⟩
    obtain ⟨c, hc, rfl⟩ := List.mem_iff_getElem.mp hmem
    exact ⟨by rw [hsize _ hmem, hL], (hplan c hc).checks (by omega)⟩
  · intro hnone plan hmem
    have hL : cfg.crcBits n = 0 := if_neg fun h => hnone ⟨by omega, h.2⟩
    rw [hsize plan hmem, hL, Nat.add_zero]
  · intro plan hmem
    have hcast : toInt32 plan.bitsWithCrc.length = plan.bitsWithCrc.length :=
      to_int32_of_range (by omega) (by rw [hsize plan hmem]; omega)
    obtain ⟨c, hc, rfl⟩ := List.mem_iff_getElem.mp hmem
    exact ⟨r.codeBlocks[c].filler_nonneg, by rw [← hcast, (hplan c hc).filler]⟩
  · rw [htotal, sum_fillers]

/-- A balanced result exists only where the sizes survive the casts. -/
theorem fits_of_balanced {tb : Bits} {cfg : SegmentationConfig} {r : SegmentationResult}
    (hne : tb ≠ []) (hbits : IsBits tb) (hok : segmentTransportBlock tb cfg = .ok r)
    (hbalanced : r.IsBalanced tb cfg) : cfg.FitsInt tb.length := by
  obtain ⟨hK, C, Kinfo, hC, _, hplans⟩ := segment_inv hne hok
  obtain ⟨hlength, hplan⟩ := Table.range_map_eq_ok.mp hplans
  have hcount := hbalanced.count.1
  have hpos : 0 < cfg.wantedBlocks tb.length :=
    ceil_div_pos (List.length_pos_iff.mpr hne) (by omega)
  refine ⟨by omega, ?_⟩
  -- the first block has at most 8448 bits, since its filler is not negative
  have hfirst : 0 < r.codeBlocks.length := by omega
  have hmem := List.getElem_mem hfirst
  have hspec := plan_block_spec (crc_bits_eq cfg _) (is_bits_piece hbits _ _) (hplan 0 hfirst)
  obtain ⟨lift, hlift, hzc, _⟩ := hspec.lifting
  have hrange := k_ldpc_range hlift
  rw [(select_lifting_spec hlift).2.2.2.1, ← hzc, ← hspec.k_ldpc] at hrange
  obtain ⟨hnonneg, hfiller⟩ := hbalanced.filler _ hmem
  have hsize : r.codeBlocks[0].bitsWithCrc.length =
      cfg.share tb.length + cfg.crcBits (cfg.wantedBlocks tb.length) := by
    rcases crc_bits_cases cfg (cfg.wantedBlocks tb.length) with ⟨hL, hnone⟩ | ⟨hL, hmany, hattach⟩
    · rw [hL, Nat.add_zero]
      exact hbalanced.unchecked (fun h => hnone ⟨by omega, h.2⟩) _ hmem
    · rw [hL]
      exact (hbalanced.checked (by omega) hattach _ hmem).1
  omega

/-- Segmentation is lossless and balanced exactly where the number of blocks and the size of each
survive the casts to `int`. -/
theorem segmentation_balanced_iff {tb : Bits} {cfg : SegmentationConfig} {r : SegmentationResult}
    (hne : tb ≠ []) (hbits : IsBits tb) (hok : segmentTransportBlock tb cfg = .ok r) :
    r.IsBalanced tb cfg ↔ cfg.FitsInt tb.length :=
  ⟨fits_of_balanced hne hbits hok, balanced_of_fits hne hbits hok⟩

/-- Fifty bits with a bound of forty make two balanced blocks. -/
theorem segmentation_balanced_iff_two : ∃ r,
    segmentTransportBlock (List.replicate 50 0) { maxCbInfoBits := 40 } = .ok r ∧
      r.IsBalanced (List.replicate 50 0) { maxCbInfoBits := 40 } := by
  have hreturns : (segmentTransportBlock (List.replicate 50 0)
      { maxCbInfoBits := 40 }).toBool = true := by decide +kernel
  cases hok : segmentTransportBlock (List.replicate 50 0) { maxCbInfoBits := 40 } with
  | error fault => rw [hok] at hreturns; cases hreturns
  | ok r =>
      have hfits : ({ maxCbInfoBits := 40 } : SegmentationConfig).FitsInt
          (List.replicate 50 (0 : UInt8)).length := by decide
      exact ⟨r, rfl, (segmentation_balanced_iff (by simp) (is_bits_replicate 50) hok).mpr hfits⟩

/-- A transport block that fits the bound is planned as one block, provided that the size of the
block, cast to `int`, has a base graph and a lifting size. -/
theorem segment_single {tb : Bits} {cfg : SegmentationConfig} (hne : tb ≠ []) (hbits : IsBits tb)
    (hK : 40 ≤ cfg.maxCbInfoBits) (hB : tb.length < 2 ^ 63) (hone : tb.length ≤ cfg.maxCbInfoBits)
    {size : Nat} (hsize : toInt32 tb.length = size) (bg : BaseGraph)
    (hbg : cfg.baseGraph size = .ok bg) (hfits : size ≤ kbSel size bg * 384) :
    ∃ plan, cfg.IsPlanOf 0 tb plan ∧ segmentTransportBlock tb cfg = .ok {
      codeBlocks := [plan], totalFillerBits := plan.fillerBits.toNat, numCodeBlocks := 1 } := by
  have hlength := List.length_pos_iff.mpr hne
  have hcount : cfg.wantedBlocks tb.length = 1 := wanted_blocks_one hlength hone
  have hshare : cfg.share tb.length = tb.length := by
    rw [SegmentationConfig.share, hcount, ceilDiv_one]
  have hwhole : piece 0 tb.length tb 0 = tb := by
    have hpiece : piece 0 tb.length tb 0 = (tb.drop (0 * tb.length)).take tb.length :=
      piece_of_le (by omega)
    rw [hpiece, Nat.zero_mul, List.drop_zero, List.take_length]
  obtain ⟨plan, hplan⟩ := (plan_block_succeeds (.inl rfl) hbits hsize).mpr ⟨bg, hbg, hfits⟩
  refine ⟨plan, plan_block_spec (.inl rfl) hbits hplan, ?_⟩
  refine (segment_eq_ok hne hK hB (by omega)).mpr ?_
  rw [hcount, hshare]
  refine ⟨by simp [SegmentationConfig.crcBits], [plan], ?_, by simp⟩
  rw [Table.range_map_eq_ok]
  refine ⟨rfl, fun c hc => ?_⟩
  obtain rfl : c = 0 := by simpa using hc
  rw [hwhole]
  exact hplan

/-- A bound that admits blocks with more bits than an `int` counts. -/
def hugeBound : SegmentationConfig := { maxCbInfoBits := 2 ^ 33 }

/-- With that bound a transport block of `2 ^ 32 + 100` bits is planned as one block, with the code
and the filler of a block of 100 bits. -/
theorem segment_huge {tb : Bits} (hbits : IsBits tb) (hlength : tb.length = 2 ^ 32 + 100) :
    ∃ plan, hugeBound.IsPlanOf 0 tb plan ∧ segmentTransportBlock tb hugeBound = .ok {
      codeBlocks := [plan], totalFillerBits := plan.fillerBits.toNat, numCodeBlocks := 1 } := by
  have hne : tb ≠ [] := List.length_pos_iff.mp (by omega)
  have hsize : toInt32 tb.length = (100 : Nat) := by
    rw [hlength]
    decide
  have hone : tb.length ≤ hugeBound.maxCbInfoBits := by
    rw [hlength]
    decide
  exact segment_single hne hbits (by decide) (by omega) hone hsize .bg2 rfl (by decide)

/-- The sizes of that block do not survive the casts. -/
theorem huge_not_fits {tb : Bits} (hlength : tb.length = 2 ^ 32 + 100) :
    ¬hugeBound.FitsInt tb.length := by
  rw [hlength]
  intro ⟨_, hsize⟩
  have hshare : hugeBound.share (2 ^ 32 + 100) = 2 ^ 32 + 100 := by decide
  omega

/-- The filler of a huge transport block of zeros is not that of its block. -/
theorem balance_lost : IsBits (List.replicate (2 ^ 32 + 100) 0) ∧ 40 ≤ hugeBound.maxCbInfoBits ∧
    ∃ r, segmentTransportBlock (List.replicate (2 ^ 32 + 100) 0) hugeBound = .ok r ∧
      ¬r.IsBalanced (List.replicate (2 ^ 32 + 100) 0) hugeBound := by
  have hbits : IsBits (List.replicate (2 ^ 32 + 100) 0) := is_bits_replicate _
  have hlength : (List.replicate (2 ^ 32 + 100) (0 : UInt8)).length = 2 ^ 32 + 100 :=
    List.length_replicate
  generalize List.replicate (2 ^ 32 + 100) (0 : UInt8) = tb at *
  obtain ⟨_, _, hok⟩ := segment_huge hbits hlength
  have hne : tb ≠ [] := List.length_pos_iff.mp (by omega)
  exact ⟨hbits, by decide, _, hok, fun hbalanced =>
    huge_not_fits hlength (fits_of_balanced hne hbits hok hbalanced)⟩

end NrBaseband
