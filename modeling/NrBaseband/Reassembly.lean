import NrBaseband.SegmentationLimits

/-!
# Putting the code blocks together

`segmentTransportBlockFixed` cuts a transport block without checks, and `concatenateCodeBlocks`
appends decoded blocks and trims the filler of all of them from the end. The filler sits inside
every block, so `concatenation_restores_iff` has a condition: nothing is lost for a single block,
for blocks without filler, and for transport blocks that are zero past the first block.
-/

namespace NrBaseband

open Foundation Foundation.MachineInt Foundation.Pieces

/-- The configuration of `segment_transport_block_fixed`. -/
def fixedConfig (maxCbBits : Nat) : SegmentationConfig :=
  { maxCbInfoBits := maxCbBits, attachCrc24bWhenSegmented := false, autoSelectBg := true }

/-- `segment_transport_block_fixed`. -/
def segmentTransportBlockFixed (tb : Bits) (maxCbBits : Nat) : Checked SegmentationResult :=
  segmentTransportBlock tb (fixedConfig maxCbBits)

/-- `concatenate_code_blocks`. -/
def concatenateCodeBlocks (cbs : List Bits) (fillerBits : Nat) : Checked Bits :=
  let out := cbs.flatten
  if fillerBits > 0 then do
    require (out.length ≥ fillerBits) "filler exceeds concatenated size"
    return out.take (out.length - fillerBits)
  else .ok out

/-- A block as the decoder hands it back: its bits and zeros for its filler. -/
def CodeBlockPlan.decoded (plan : CodeBlockPlan) : Bits :=
  plan.bitsWithCrc ++ List.replicate plan.fillerBits.toNat 0

/-- Blocks of this size fill the information part of their code. -/
def SegmentationConfig.FillsCode (cfg : SegmentationConfig) (size : Int) : Prop :=
  ∃ bg lift, cfg.baseGraph size = .ok bg ∧ selectLifting size bg = .ok lift ∧
    (lift.kb * lift.zc : Int) = size

/-- A block without check bits is its payload, and its filler is what the code has room for. -/
theorem SegmentationConfig.IsPlanOf.unchecked {cfg : SegmentationConfig} {payload : Bits}
    {plan : CodeBlockPlan} (h : cfg.IsPlanOf 0 payload plan) :
    plan.bitsWithCrc = payload ∧
      (plan.fillerBits = 0 ↔ cfg.FillsCode (toInt32 payload.length)) := by
  obtain ⟨parity, hbits, hparity, _⟩ := h.bits_eq
  obtain rfl : parity = [] := List.length_eq_zero_iff.mp hparity
  rw [List.append_nil] at hbits
  refine ⟨hbits, ?_⟩
  obtain ⟨lift, hlift, hzc, _⟩ := h.lifting
  have hbase := h.base_graph
  have hfiller := h.filler
  have hkb := (select_lifting_spec hlift).2.2.2.1
  rw [h.k_ldpc, ← hkb, hzc] at hfiller
  rw [hbits] at hlift hbase hfiller
  constructor
  · intro hzero
    exact ⟨plan.bg, lift, hbase, hlift, by omega⟩
  · intro ⟨bg, lift', hbg, hlift', hfull⟩
    obtain rfl : plan.bg = bg := Except.ok.inj (hbase.symm.trans hbg)
    obtain rfl : lift = lift' := Except.ok.inj (hlift.symm.trans hlift')
    omega

/-- Appending decoded blocks of one size and filler and trimming the filler of all of them leaves as
many bits as the payloads have. -/
theorem concatenate_equal {n size pad : Nat} (payload : Nat → Bits)
    (hsize : ∀ c < n, (payload c).length = size) :
    concatenateCodeBlocks ((List.range n).map fun c => payload c ++ List.replicate pad 0)
      (n * pad) = .ok (((List.range n).map fun c =>
        payload c ++ List.replicate pad 0).flatten.take (n * size)) := by
  have hlength : ((List.range n).map fun c => payload c ++ List.replicate pad 0).flatten.length =
      n * size + n * pad := by
    rw [List.length_flatten, List.map_map]
    have hblocks : (List.range n).map (List.length ∘ fun c => payload c ++ List.replicate pad 0) =
        List.replicate n (size + pad) := by
      have hall := List.map_eq_replicate_iff.mpr fun c hc =>
        show (payload c ++ List.replicate pad 0).length = size + pad by
          rw [List.length_append, hsize c (List.mem_range.mp hc), List.length_replicate]
      rwa [List.length_range] at hall
    rw [hblocks, List.sum_replicate_nat, Nat.mul_add]
  unfold concatenateCodeBlocks
  by_cases hpad : n * pad > 0
  · rw [if_pos hpad, require_of (by rw [hlength]; omega), Checked.ok_bind, hlength,
      Nat.add_sub_cancel, Checked.pure_eq_ok]
  · rw [if_neg hpad, List.take_of_length_le (by rw [hlength]; omega)]

/-- Where the number of blocks survives the cast, the decoded blocks are the pieces of the transport
block, all followed by one number of zeros. -/
theorem fixed_blocks {tb : Bits} (hne : tb ≠ []) (hbits : IsBits tb) (hmax : tb.length < 2 ^ 63)
    {maxCbBits : Nat} {r : SegmentationResult}
    (hok : segmentTransportBlockFixed tb maxCbBits = .ok r)
    (hcount : (fixedConfig maxCbBits).wantedBlocks tb.length < 2 ^ 31) : ∃ pad,
      r.codeBlocks.map CodeBlockPlan.decoded =
        (List.range ((fixedConfig maxCbBits).wantedBlocks tb.length)).map (fun c =>
          piece 0 ((fixedConfig maxCbBits).share tb.length) tb c ++ List.replicate pad 0) ∧
      r.totalFillerBits = (fixedConfig maxCbBits).wantedBlocks tb.length * pad ∧
      (pad = 0 ↔ (fixedConfig maxCbBits).FillsCode
        (toInt32 ((fixedConfig maxCbBits).share tb.length))) := by
  obtain ⟨hK, _⟩ := segment_inv hne hok
  obtain ⟨hlength, _, htotal, hplan⟩ := segment_plans hne hbits hok hmax hcount
  have hunchecked : (fixedConfig maxCbBits).crcBits
      ((fixedConfig maxCbBits).wantedBlocks tb.length) = 0 := if_neg fun h => by cases h.2
  have hpos : 0 < (fixedConfig maxCbBits).wantedBlocks tb.length :=
    ceil_div_pos (List.length_pos_iff.mpr hne) (by omega)
  rw [hunchecked] at hplan
  generalize fixedConfig maxCbBits = cfg at *
  generalize cfg.wantedBlocks tb.length = n at *
  generalize cfg.share tb.length = P at *
  have hfirst : 0 < r.codeBlocks.length := by omega
  -- the plans agree on the code and the size, so on the filler
  have hfiller (c : Nat) (hc : c < r.codeBlocks.length) :
      r.codeBlocks[c].fillerBits = r.codeBlocks[0].fillerBits := by
    have hsame : r.codeBlocks[c].bitsWithCrc.length = r.codeBlocks[0].bitsWithCrc.length := by
      rw [(hplan c hc).length_eq, (hplan 0 hfirst).length_eq, length_piece, length_piece]
    obtain ⟨_, _, _, hk⟩ := (hplan c hc).alike (hplan 0 hfirst) hsame
    rw [(hplan c hc).filler, (hplan 0 hfirst).filler, hk, hsame]
  refine ⟨r.codeBlocks[0].fillerBits.toNat, ?_, ?_, ?_⟩
  · refine List.ext_getElem (by simp [hlength]) fun c hc _ => ?_
    have hin : c < r.codeBlocks.length := by simpa using hc
    rw [List.getElem_map, List.getElem_map, List.getElem_range, CodeBlockPlan.decoded,
      (hplan c hin).unchecked.1, hfiller c hin]
  · have hall : r.codeBlocks.map (fun plan => plan.fillerBits.toNat) =
        List.replicate n r.codeBlocks[0].fillerBits.toNat := by
      rw [← hlength, List.map_eq_replicate_iff]
      intro plan hmem
      obtain ⟨c, hc, rfl⟩ := List.mem_iff_getElem.mp hmem
      rw [hfiller c hc]
    rw [htotal, hall, List.sum_replicate_nat]
  · have hfills := (hplan 0 hfirst).unchecked.2
    rw [length_piece] at hfills
    have hnonneg := r.codeBlocks[0].filler_nonneg
    rw [← hfills]
    omega

/-- Concatenating the decoded blocks gives the transport block back exactly when their number
survives the cast to `int`, the payloads have its length, and the blocks fill their code or all
bits past the first block are zero. -/
theorem concatenation_restores_iff {tb : Bits} (hbits : IsBits tb) (hmin : 12 ≤ tb.length)
    (hmax : tb.length < 2 ^ 63) {maxCbBits : Nat} {r : SegmentationResult}
    (hok : segmentTransportBlockFixed tb maxCbBits = .ok r) :
    concatenateCodeBlocks (r.codeBlocks.map CodeBlockPlan.decoded) r.totalFillerBits = .ok tb ↔
    (fixedConfig maxCbBits).wantedBlocks tb.length < 2 ^ 31 ∧
      (fixedConfig maxCbBits).wantedBlocks tb.length * (fixedConfig maxCbBits).share tb.length =
        tb.length ∧
      ((fixedConfig maxCbBits).FillsCode (toInt32 ((fixedConfig maxCbBits).share tb.length)) ∨
        ∀ i, (fixedConfig maxCbBits).share tb.length ≤ i → tb.getD i 0 = 0) := by
  have hne : tb ≠ [] := List.length_pos_iff.mp (by omega)
  obtain ⟨hK, _⟩ := segment_inv hne hok
  by_cases hcount : (fixedConfig maxCbBits).wantedBlocks tb.length < 2 ^ 31
  · have hpos : 0 < (fixedConfig maxCbBits).wantedBlocks tb.length :=
      ceil_div_pos (by omega) (by omega)
    have hshare : 0 < (fixedConfig maxCbBits).share tb.length := ceil_div_pos (by omega) hpos
    obtain ⟨pad, hblocks, htotal, hfills⟩ := fixed_blocks hne hbits hmax hok hcount
    rw [hblocks, htotal, concatenate_equal _ fun c _ => length_piece _ _ _ _, Except.ok.injEq,
      take_flatten_padded_iff hshare, hfills]
    exact ⟨fun h => ⟨hcount, h⟩, fun h => h.2⟩
  · -- the cast leaves no blocks
    have hneg := segment_wrapped hne hmax (Nat.not_lt.mp hcount) hok
    obtain ⟨r', hok', hempty⟩ := segment_negative hK hmax (Nat.not_lt.mp hcount) hneg
    obtain rfl : r' = r := Except.ok.inj (hok'.symm.trans hok)
    refine iff_of_false (fun hrestored => ?_) fun h => hcount h.1
    rw [hempty, concatenateCodeBlocks] at hrestored
    split at hrestored
    case isTrue hpositive =>
      exact absurd (require_bind_eq_ok.mp hrestored).1 (Nat.not_le.mpr hpositive)
    case isFalse => exact hne (Except.ok.inj hrestored).symm

/-- Forty ones and forty zeros make two blocks with filler; what is trimmed at the end are zeros. -/
theorem concatenation_restores_iff_two : ∃ r,
    segmentTransportBlockFixed (List.replicate 40 1 ++ List.replicate 40 0) 40 = .ok r ∧
      r.codeBlocks.length = 2 ∧
      concatenateCodeBlocks (r.codeBlocks.map CodeBlockPlan.decoded) r.totalFillerBits =
        .ok (List.replicate 40 1 ++ List.replicate 40 0) := by
  have hrun : (segmentTransportBlockFixed (List.replicate 40 1 ++ List.replicate 40 0) 40).map
      (fun r => r.codeBlocks.length) = .ok 2 := by
    decide +kernel
  have hbits : IsBits (List.replicate 40 1 ++ List.replicate 40 0) := by decide +kernel
  cases hok : segmentTransportBlockFixed (List.replicate 40 1 ++ List.replicate 40 0) 40 with
  | error fault => rw [hok] at hrun; cases hrun
  | ok r =>
      rw [hok] at hrun
      refine ⟨r, rfl, Except.ok.inj hrun, (concatenation_restores_iff hbits (by decide) (by decide)
        hok).mpr ⟨by decide, by decide, .inr fun i hi => ?_⟩⟩
      have hshare : (fixedConfig 40).share
          (List.replicate 40 (1 : UInt8) ++ List.replicate 40 0).length = 40 := by decide
      rw [hshare] at hi
      rw [List.getD_append_right _ _ _ _ (by simpa using hi), List.getD_eq_getElem?_getD,
        List.getElem?_getD_replicate_default_eq]

/-- Fifty ones make two blocks of 25 bits with 25 bits of filler each. Trimming 50 bits leaves the
first block and its filler. -/
theorem filler_inside_blocks : IsBits (List.replicate 50 1) ∧ ∃ r,
    segmentTransportBlockFixed (List.replicate 50 1) 40 = .ok r ∧
      concatenateCodeBlocks (r.codeBlocks.map CodeBlockPlan.decoded) r.totalFillerBits =
        .ok (List.replicate 25 1 ++ List.replicate 25 0) ∧
      List.replicate 25 1 ++ List.replicate 25 0 ≠ List.replicate 50 (1 : UInt8) := by
  have hrun : (segmentTransportBlockFixed (List.replicate 50 1) 40 >>= fun r =>
      concatenateCodeBlocks (r.codeBlocks.map CodeBlockPlan.decoded) r.totalFillerBits) =
      .ok (List.replicate 25 1 ++ List.replicate 25 0) := by decide +kernel
  obtain ⟨r, hok, hconcatenated⟩ := Checked.bind_eq_ok.mp hrun
  exact ⟨by decide +kernel, r, hok, hconcatenated, by decide +kernel⟩

end NrBaseband
