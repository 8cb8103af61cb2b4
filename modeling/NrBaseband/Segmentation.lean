import NrBaseband.Crc
import NrBaseband.Ldpc.Graph
import NrBaseband.Foundation.Extended
import NrBaseband.Foundation.Pieces
import Mathlib.Data.Rat.Defs

/-!
# Code-block segmentation

`segmentTransportBlock` cuts a transport block into code blocks of one size and plans the code of
each. `plan_blocks_eq` says that the running offset of the loop cuts the block into consecutive
pieces, `block_bits_eq_ok` and `refine_block_count_spec` what the search for the number of blocks
returns, and `segment_regular` puts them together for the sizes that survive the casts to `int`.
-/

namespace NrBaseband

open Foundation Foundation.MachineInt Foundation.Pieces

/-- `SegmentationConfig`, with the defaults of the struct. -/
structure SegmentationConfig where
  maxCbInfoBits : Nat := 8448
  attachCrc24bWhenSegmented : Bool := true
  bg : BaseGraph := .bg2
  targetRate : Extended ℚ := .finite (1 / 2)
  autoSelectBg : Bool := true
  deriving DecidableEq

/-- `CodeBlockPlan`; a plan that is returned has no negative filler. -/
structure CodeBlockPlan where
  bitsWithCrc : Bits
  fillerBits : Int
  kLdpc : Int
  zc : Nat
  iLs : Nat
  bg : BaseGraph
  ldpc : LdpcParams
  filler_nonneg : 0 ≤ fillerBits
  deriving DecidableEq

/-- `SegmentationResult`, without `transport_crc_bits`, which is always 0. -/
structure SegmentationResult where
  codeBlocks : List CodeBlockPlan := []
  totalFillerBits : Nat := 0
  numCodeBlocks : Int := 0
  deriving DecidableEq

/-- The number that the literal `0.67` stands for. -/
def rateBg2 : ℚ := 6034823500676465 / 9007199254740992

/-- `select_basegraph`. -/
def selectBasegraph (kBits : Int) (coderate : Extended ℚ) : Checked BaseGraph := do
  require (kBits ≥ 12) "K too small for NR LDPC"
  return if kBits ≤ 292 then .bg2
    else if kBits ≤ 3824 ∧ coderate.le (.finite rateBg2) then .bg2
    else if coderate.le (.finite (1 / 4)) then .bg2
    else .bg1

/-- The variables `L` and `Luse`: the check bits of each of `C` blocks. -/
def SegmentationConfig.crcBits (cfg : SegmentationConfig) (C : Int) : Nat :=
  if C > 1 ∧ cfg.attachCrc24bWhenSegmented then 24 else 0

/-- The variable `Kp`: the size of each of `C` blocks. A division by zero is undefined. -/
def SegmentationConfig.blockBits (cfg : SegmentationConfig) (B : Nat) (C : Int) : Checked Nat := do
  let checks ← int32 (C * cfg.crcBits C)
  let Bp := toSizeT (B + toSizeT checks)
  if toSizeT C = 0 then .error .undefined else .ok (toSizeT (Bp + toSizeT C - 1) / toSizeT C)

/-- The loop that increments the number of blocks until they fit. -/
def SegmentationConfig.refineBlockCount (cfg : SegmentationConfig) (B : Nat) (C : Int) :
    Checked Int := do
  let Kp ← cfg.blockBits B C
  if toSizeT (Kp - cfg.crcBits C) ≤ cfg.maxCbInfoBits then return C
  else
    let _ ← int32 (C + 1)
    let ⟨hlimit⟩ ← ensure (C + 1 < 10000) "segmentation C runaway"
    cfg.refineBlockCount B (C + 1)
termination_by (10000 - C).toNat

/-- The number of blocks. -/
def SegmentationConfig.blockCount (cfg : SegmentationConfig) (B : Nat) : Checked Int :=
  if B > cfg.maxCbInfoBits then
    cfg.refineBlockCount B
      (toInt32 (toSizeT (B + cfg.maxCbInfoBits - 1) / cfg.maxCbInfoBits : Nat))
  else .ok 1

/-- The base graph of a block of this size. -/
def SegmentationConfig.baseGraph (cfg : SegmentationConfig) (size : Int) : Checked BaseGraph :=
  if cfg.autoSelectBg then selectBasegraph size cfg.targetRate else .ok cfg.bg

/-- The payload of a block with its check, where `L` says that it has one. -/
def bitsWithCrc (L : Nat) (payload : Bits) : Checked Bits :=
  if L > 0 then crcAttach payload .crc24b else .ok payload

/-- The plan of one block with this payload. -/
def SegmentationConfig.planBlock (cfg : SegmentationConfig) (L : Nat) (payload : Bits) :
    Checked CodeBlockPlan := do
  let bitsWithCrc ← bitsWithCrc L payload
  let size := toInt32 bitsWithCrc.length
  let bg ← cfg.baseGraph size
  let lift ← selectLifting size bg
  let kLdpc ← int32 (lift.kb * lift.zc)
  let filler ← int32 (kLdpc - size)
  let ⟨hfiller⟩ ← ensure (filler ≥ 0) "negative filler"
  return {
    bitsWithCrc, fillerBits := filler, kLdpc, zc := lift.zc, iLs := lift.iLs, bg
    ldpc := { bg, zc := lift.zc, iLs := lift.iLs, infoBits := size, kb := lift.kb }
    filler_nonneg := hfiller }

/-- The loop over the blocks, with the blocks left and the variable `offset`, which never passes
the end of the transport block. -/
def SegmentationConfig.planBlocks (cfg : SegmentationConfig) (tb : Bits) (L Kinfo : Nat) :
    Nat → Nat → Checked (List CodeBlockPlan)
  | 0, _ => .ok []
  | blocks + 1, offset => do
      let take := min Kinfo (tb.length - offset)
      let payload := (tb.drop offset).take take
      let plan ← cfg.planBlock L (payload ++ List.replicate (Kinfo - payload.length) 0)
      let rest ← cfg.planBlocks tb L Kinfo blocks (offset + take)
      return plan :: rest

/-- `segment_transport_block`. The sum of the fillers does not wrap around: there are less than
`2 ^ 31` blocks, and each filler is an `int`. -/
def segmentTransportBlock (tb : Bits) (cfg : SegmentationConfig) : Checked SegmentationResult :=
  if tb = [] then .ok {}
  else do
    require (cfg.maxCbInfoBits ≥ 40) "max_cb_info_bits too small"
    let C ← cfg.blockCount tb.length
    let L := cfg.crcBits C
    let Kp ← cfg.blockBits tb.length C
    let codeBlocks ← cfg.planBlocks tb L (toSizeT (Kp - L)) C.toNat 0
    return {
      codeBlocks
      totalFillerBits := (codeBlocks.map fun plan => plan.fillerBits.toNat).sum
      numCodeBlocks := C }

/-- The number of blocks that the bound asks for. -/
def SegmentationConfig.wantedBlocks (cfg : SegmentationConfig) (B : Nat) : Nat :=
  B ⌈/⌉ cfg.maxCbInfoBits

/-- The payload of each of the blocks. -/
def SegmentationConfig.share (cfg : SegmentationConfig) (B : Nat) : Nat := B ⌈/⌉ cfg.wantedBlocks B

/-- What a plan says about the block of a payload with `L` check bits. -/
structure SegmentationConfig.IsPlanOf (cfg : SegmentationConfig) (L : Nat) (payload : Bits)
    (plan : CodeBlockPlan) : Prop where
  bits_eq : ∃ parity, plan.bitsWithCrc = payload ++ parity ∧ parity.length = L ∧ IsBits parity
  checks : L ≠ 0 → crcCheck plan.bitsWithCrc .crc24b = .ok true
  base_graph : cfg.baseGraph (toInt32 plan.bitsWithCrc.length) = .ok plan.bg
  lifting : ∃ lift, selectLifting (toInt32 plan.bitsWithCrc.length) plan.bg = .ok lift ∧
    plan.zc = lift.zc ∧ plan.iLs = lift.iLs
  k_ldpc : plan.kLdpc = plan.bg.kb * plan.zc
  filler : plan.fillerBits = plan.kLdpc - toInt32 plan.bitsWithCrc.length
  ldpc_eq : plan.ldpc = {
    bg := plan.bg, zc := plan.zc, iLs := plan.iLs
    infoBits := toInt32 plan.bitsWithCrc.length, kb := plan.bg.kb }

/-- A payload of bits is given its check bits. -/
theorem bits_with_crc_ok {L : Nat} (hL : L = 0 ∨ L = 24) {payload : Bits} (hbits : IsBits payload) :
    ∃ parity, bitsWithCrc L payload = .ok (payload ++ parity) ∧ parity.length = L ∧
      IsBits parity ∧ (L ≠ 0 → crcCheck (payload ++ parity) .crc24b = .ok true) := by
  rcases hL with rfl | rfl
  · exact ⟨[], by simp [bitsWithCrc], rfl, is_bits_nil, fun h => absurd rfl h⟩
  · obtain ⟨parity, hattach, hlength, hparity, hcheck⟩ := crc_attach_spec hbits .crc24b
    exact ⟨parity, (if_pos (by decide)).trans hattach, hlength, hparity, fun _ => hcheck⟩

/-- The information bits of a lifting fit an `int`. -/
theorem k_ldpc_range {kBits : Int} {bg : BaseGraph} {lift : LiftingChoice}
    (h : selectLifting kBits bg = .ok lift) :
    kBits ≤ lift.kb * lift.zc ∧ 0 ≤ (lift.kb * lift.zc : Int) ∧
      (lift.kb * lift.zc : Int) ≤ 8448 := by
  obtain ⟨_, hzc, hfits, hkb, _⟩ := select_lifting_spec h
  have hcolumns := kb_sel_le kBits bg
  have hmono : kbSel kBits bg * lift.zc ≤ lift.kb * lift.zc := by
    rw [hkb]
    exact Int.mul_le_mul_of_nonneg_right hcolumns (by omega)
  have hupper : lift.kb * lift.zc ≤ 22 * 384 := by
    refine Nat.mul_le_mul ?_ hzc
    rw [hkb]
    cases bg <;> decide
  refine ⟨by omega, by omega, ?_⟩
  exact_mod_cast hupper

/-- A plan that is returned says what it should. -/
theorem plan_block_spec {cfg : SegmentationConfig} {L : Nat} (hL : L = 0 ∨ L = 24) {payload : Bits}
    (hbits : IsBits payload) {plan : CodeBlockPlan} (h : cfg.planBlock L payload = .ok plan) :
    cfg.IsPlanOf L payload plan := by
  obtain ⟨parity, hattach, hlength, hparity, hcheck⟩ := bits_with_crc_ok hL hbits
  rw [SegmentationConfig.planBlock, hattach, Checked.ok_bind, Checked.bind_eq_ok] at h
  obtain ⟨bg, hbg, h⟩ := h
  rw [Checked.bind_eq_ok] at h
  obtain ⟨lift, hlift, h⟩ := h
  rw [Checked.bind_eq_ok] at h
  obtain ⟨kLdpc, hkLdpc, h⟩ := h
  rw [Checked.bind_eq_ok] at h
  obtain ⟨filler, hfiller, h⟩ := h
  rw [ensure_bind_eq_ok] at h
  obtain ⟨hnonneg, h⟩ := h
  simp only [Checked.pure_eq_ok, Except.ok.injEq] at h
  subst h
  have hkb := (select_lifting_spec hlift).2.2.2.1
  have hkLdpcEq := (int32_eq_ok.mp hkLdpc).1
  refine ⟨⟨parity, rfl, hlength, hparity⟩, hcheck, hbg, ⟨lift, hlift, rfl, rfl⟩, ?_,
    (int32_eq_ok.mp hfiller).1, ?_⟩
  · rw [← hkb]
    exact hkLdpcEq
  · rw [← hkb]

/-- A block whose size, cast to `int`, is not negative is planned exactly when the size has a base
graph and a lifting size. -/
theorem plan_block_succeeds {cfg : SegmentationConfig} {L : Nat} (hL : L = 0 ∨ L = 24)
    {payload : Bits} (hbits : IsBits payload) {size : Nat}
    (hsize : toInt32 (payload.length + L : Nat) = size) :
    (∃ plan, cfg.planBlock L payload = .ok plan) ↔
      ∃ bg, cfg.baseGraph size = .ok bg ∧ size ≤ kbSel size bg * 384 := by
  obtain ⟨parity, hattach, hlength, _⟩ := bits_with_crc_ok hL hbits
  have hcast : toInt32 (payload ++ parity).length = size := by
    rw [List.length_append, hlength, hsize]
  constructor
  · intro ⟨plan, h⟩
    rw [SegmentationConfig.planBlock, hattach, Checked.ok_bind] at h
    dsimp only at h
    rw [hcast, Checked.bind_eq_ok] at h
    obtain ⟨bg, hbg, h⟩ := h
    rw [Checked.bind_eq_ok] at h
    obtain ⟨lift, hlift, _⟩ := h
    exact ⟨bg, hbg, select_lifting_succeeds.mp ⟨lift, hlift⟩⟩
  · intro ⟨bg, hbg, hfits⟩
    obtain ⟨lift, hlift⟩ := select_lifting_succeeds.mpr hfits
    obtain ⟨hle, hlow, hhigh⟩ := k_ldpc_range hlift
    have hfiller : 0 ≤ (lift.kb * lift.zc : Int) - size := by omega
    rw [SegmentationConfig.planBlock, hattach, Checked.ok_bind]
    dsimp only
    rw [hcast, hbg, Checked.ok_bind, hlift, Checked.ok_bind,
      int32_of_range (by omega) (by omega), Checked.ok_bind, int32_of_range (by omega) (by omega),
      Checked.ok_bind, ensure_of hfiller]
    exact ⟨_, rfl⟩

/-- The size of the blocks is the rounded-up share of the transport block with the check bits. -/
theorem block_bits_eq_ok (cfg : SegmentationConfig) {B C Kp : Nat} (hpos : 0 < C)
    (hC : C < 2 ^ 31) (hB : B < 2 ^ 63) : cfg.blockBits B C = .ok Kp ↔
      C * cfg.crcBits C < 2 ^ 31 ∧ Kp = B ⌈/⌉ C + cfg.crcBits C := by
  generalize hL : cfg.crcBits C = L
  have hcount : toSizeT C = C := to_size_t_natCast (by omega)
  -- in these ranges no conversion to `size_t` wraps around
  have hdivision (checks : Nat) (hchecks : checks = C * L) (hlt : checks < 2 ^ 31) :
      toSizeT ((toSizeT (B + toSizeT checks) : Int) + toSizeT C - 1) / toSizeT C =
        B ⌈/⌉ C + L := by
    have hsum : toSizeT (B + toSizeT checks) = B + checks := by
      rw [to_size_t_natCast (by omega : checks < 2 ^ 64)]
      exact_mod_cast to_size_t_natCast (by omega : B + checks < 2 ^ 64)
    have hnumerator : (B + checks : Nat) + (C : Int) - 1 = ((B + C - 1 + L * C : Nat) : Int) := by
      rw [hchecks, Nat.mul_comm L C]
      omega
    rw [hsum, hcount, hnumerator, to_size_t_natCast (by rw [Nat.mul_comm L C]; omega),
      Nat.add_mul_div_right _ _ hpos, Nat.ceilDiv_eq_add_pred_div]
  unfold SegmentationConfig.blockBits
  rw [hL, Checked.bind_eq_ok]
  constructor
  · intro ⟨checks, hchecks, hKp⟩
    obtain ⟨rfl, _, hlt⟩ := int32_eq_ok.mp hchecks
    have hproduct : (C : Int) * L = (C * L : Nat) := (Int.natCast_mul C L).symm
    have hfits : C * L < 2 ^ 31 := by omega
    rw [if_neg (by omega), Except.ok.injEq, hproduct, hdivision _ rfl hfits] at hKp
    exact ⟨hfits, hKp.symm⟩
  · rintro ⟨hfits, rfl⟩
    have hproduct : (C : Int) * L = (C * L : Nat) := (Int.natCast_mul C L).symm
    refine ⟨C * L, int32_eq_ok.mpr ⟨rfl, by omega, by omega⟩, ?_⟩
    rw [if_neg (by omega), hproduct, hdivision _ rfl hfits]

/-- The blocks that the loop has counted fit when their payload does. -/
theorem payload_le_iff {cfg : SegmentationConfig} {B C Kp : Nat} (hpos : 0 < C) (hC : C < 2 ^ 31)
    (hB : B < 2 ^ 63) (h : cfg.blockBits B C = .ok Kp) :
    toSizeT (Kp - cfg.crcBits C) = B ⌈/⌉ C ∧
      (toSizeT (Kp - cfg.crcBits C) ≤ cfg.maxCbInfoBits ↔ B ≤ C * cfg.maxCbInfoBits) := by
  obtain ⟨_, rfl⟩ := (block_bits_eq_ok cfg hpos hC hB).mp h
  have hshare : B ⌈/⌉ C ≤ B := (ceilDiv_le_iff_le_mul hpos).mpr (Nat.le_mul_of_pos_left B hpos)
  have hpayload : toSizeT ((B ⌈/⌉ C + cfg.crcBits C : Nat) - cfg.crcBits C) = B ⌈/⌉ C := by
    rw [Int.natCast_add, Int.add_sub_cancel]
    exact to_size_t_natCast (by omega)
  rw [hpayload, ceilDiv_le_iff_le_mul hpos]
  exact ⟨rfl, Iff.rfl⟩

/-- A number of blocks that is large enough is kept. -/
theorem refine_block_count_fits {cfg : SegmentationConfig} {B C : Nat} (hpos : 0 < C)
    (hC : C < 2 ^ 31) (hB : B < 2 ^ 63) (hfits : B ≤ C * cfg.maxCbInfoBits)
    (hchecks : C * cfg.crcBits C < 2 ^ 31) : cfg.refineBlockCount B C = .ok C := by
  have hKp := (block_bits_eq_ok cfg hpos hC hB).mpr ⟨hchecks, rfl⟩
  rw [SegmentationConfig.refineBlockCount, hKp, Checked.ok_bind,
    if_pos ((payload_le_iff hpos hC hB hKp).2.mpr hfits), Checked.pure_eq_ok]

/-- The number of blocks that the loop returns is an `int` for which the payload of a block does not
exceed the bound. -/
theorem refine_block_count_spec {cfg : SegmentationConfig} {B : Nat} {C result : Int}
    (hC : C < 2 ^ 31) (h : cfg.refineBlockCount B C = .ok result) :
    C ≤ result ∧ result < 2 ^ 31 ∧ ∃ Kp, cfg.blockBits B result = .ok Kp ∧
      toSizeT (Kp - cfg.crcBits result) ≤ cfg.maxCbInfoBits := by
  induction hsteps : (10000 - C).toNat using Nat.strong_induction_on generalizing C with
  | _ steps ih =>
      rw [SegmentationConfig.refineBlockCount, Checked.bind_eq_ok] at h
      obtain ⟨Kp, hKp, hnext⟩ := h
      by_cases hfits : toSizeT (Kp - cfg.crcBits C) ≤ cfg.maxCbInfoBits
      · rw [if_pos hfits, Checked.pure_eq_ok, Except.ok.injEq] at hnext
        subst hnext
        exact ⟨Int.le_refl C, hC, Kp, hKp, hfits⟩
      · -- the loop goes on with one more block, and the limit bounds how often
        rw [if_neg hfits, Checked.bind_eq_ok] at hnext
        obtain ⟨_, _, hnext⟩ := hnext
        rw [ensure_bind_eq_ok] at hnext
        obtain ⟨hlimit, hrest⟩ := hnext
        obtain ⟨hle, hspec⟩ := ih _ (by omega) (C := C + 1) (by omega) hrest rfl
        exact ⟨by omega, hspec⟩

/-- The size of a single block is the size of the transport block. -/
theorem block_bits_one (cfg : SegmentationConfig) (B : Nat) :
    cfg.blockBits B 1 = .ok (toSizeT (toSizeT B)) := by
  simp [SegmentationConfig.blockBits, SegmentationConfig.crcBits, int32, toSizeT]

/-- A transport block that fits the bound wants one block. -/
theorem wanted_blocks_one {cfg : SegmentationConfig} {B : Nat} (hne : 0 < B)
    (h : B ≤ cfg.maxCbInfoBits) : cfg.wantedBlocks B = 1 := by
  have hpos : 0 < cfg.wantedBlocks B := ceil_div_pos hne (by omega)
  have hle : cfg.wantedBlocks B ≤ 1 := (ceilDiv_le_iff_le_mul (by omega)).mpr (by omega)
  omega

/-- The search for the number of blocks starts with the wanted number, cast to `int`. -/
theorem block_count_eq {cfg : SegmentationConfig} {B : Nat} (hB : B < 2 ^ 63)
    (hmany : cfg.maxCbInfoBits < B) :
    cfg.blockCount B = cfg.refineBlockCount B (toInt32 (cfg.wantedBlocks B)) := by
  have hsum : toSizeT (B + cfg.maxCbInfoBits - 1) = B + cfg.maxCbInfoBits - 1 := by
    have hcast : (B + cfg.maxCbInfoBits - 1 : Int) = (B + cfg.maxCbInfoBits - 1 : Nat) := by omega
    rw [hcast]
    exact to_size_t_natCast (by omega)
  rw [SegmentationConfig.blockCount, if_pos hmany, hsum, ← Nat.ceilDiv_eq_add_pred_div]
  rfl

/-- A wanted number of blocks that survives the cast is returned. -/
theorem block_count_eq_ok {cfg : SegmentationConfig} {B : Nat} {C : Int} (hne : 0 < B)
    (hK : 0 < cfg.maxCbInfoBits) (hB : B < 2 ^ 63) (hcount : cfg.wantedBlocks B < 2 ^ 31) :
    cfg.blockCount B = .ok C ↔ C = cfg.wantedBlocks B ∧
      cfg.wantedBlocks B * cfg.crcBits (cfg.wantedBlocks B) < 2 ^ 31 := by
  have hpos : 0 < cfg.wantedBlocks B := ceil_div_pos hne hK
  have hcover : B ≤ cfg.wantedBlocks B * cfg.maxCbInfoBits := by
    rw [Nat.mul_comm]
    exact le_mul_ceil_div hK B
  by_cases hmany : cfg.maxCbInfoBits < B
  · rw [block_count_eq hB hmany, to_int32_of_range (by omega) (by omega)]
    generalize cfg.wantedBlocks B = n at *
    constructor
    · intro h
      -- the first pass of the loop computes the check bits of all blocks as an `int`
      have hchecks : n * cfg.crcBits n < 2 ^ 31 := by
        rw [SegmentationConfig.refineBlockCount, Checked.bind_eq_ok] at h
        obtain ⟨Kp, hKp, _⟩ := h
        exact ((block_bits_eq_ok cfg hpos hcount hB).mp hKp).1
      rw [refine_block_count_fits hpos hcount hB hcover hchecks, Except.ok.injEq] at h
      exact ⟨h.symm, hchecks⟩
    · rintro ⟨rfl, hchecks⟩
      exact refine_block_count_fits hpos hcount hB hcover hchecks
  · rw [SegmentationConfig.blockCount, if_neg hmany, Except.ok.injEq,
      wanted_blocks_one hne (by omega)]
    constructor
    · rintro rfl
      exact ⟨rfl, by simp [SegmentationConfig.crcBits]⟩
    · rintro ⟨rfl, _⟩
      rfl

/-- The running offset cuts the transport block into its pieces. -/
theorem plan_blocks_eq (cfg : SegmentationConfig) (tb : Bits) (L Kinfo blocks : Nat) :
    cfg.planBlocks tb L Kinfo blocks 0 =
      (List.range blocks).mapM fun c => cfg.planBlock L (piece 0 Kinfo tb c) := by
  have hfrom (c offset : Nat) (hoffset : offset = min (c * Kinfo) tb.length) :
      cfg.planBlocks tb L Kinfo blocks offset =
        (List.range' c blocks).mapM fun c => cfg.planBlock L (piece 0 Kinfo tb c) := by
    induction blocks generalizing c offset with
    | zero => rfl
    | succ blocks ih =>
        have hnext : offset + min Kinfo (tb.length - offset) =
            min ((c + 1) * Kinfo) tb.length := by
          rw [Nat.succ_mul]
          omega
        rw [SegmentationConfig.planBlocks, List.range'_succ, List.mapM_cons,
          window_eq_piece hoffset, ih _ _ hnext]
  rw [hfrom 0 0 (by omega), List.range_eq_range']

/-- Where the sizes survive the casts, the transport block is cut into as many pieces as it needs
and every piece is planned. -/
theorem segment_eq_ok {tb : Bits} {cfg : SegmentationConfig} {r : SegmentationResult}
    (hne : tb ≠ []) (hK : 40 ≤ cfg.maxCbInfoBits) (hB : tb.length < 2 ^ 63)
    (hcount : cfg.wantedBlocks tb.length < 2 ^ 31) :
    segmentTransportBlock tb cfg = .ok r ↔
      cfg.wantedBlocks tb.length * cfg.crcBits (cfg.wantedBlocks tb.length) < 2 ^ 31 ∧
      ∃ plans, ((List.range (cfg.wantedBlocks tb.length)).mapM fun c =>
        cfg.planBlock (cfg.crcBits (cfg.wantedBlocks tb.length))
          (piece 0 (cfg.share tb.length) tb c)) = .ok plans ∧
      r = {
        codeBlocks := plans
        totalFillerBits := (plans.map fun plan => plan.fillerBits.toNat).sum
        numCodeBlocks := cfg.wantedBlocks tb.length } := by
  have hlength : 0 < tb.length := List.length_pos_iff.mpr hne
  have hpos : 0 < cfg.wantedBlocks tb.length := ceil_div_pos hlength (by omega)
  have hcounts (C : Int) := block_count_eq_ok (C := C) hlength (by omega) hB hcount
  have hsize {Kp : Nat} (hKp : cfg.blockBits tb.length (cfg.wantedBlocks tb.length) = .ok Kp) :
      toSizeT (Kp - cfg.crcBits (cfg.wantedBlocks tb.length)) = cfg.share tb.length :=
    (payload_le_iff hpos hcount hB hKp).1
  rw [segmentTransportBlock, if_neg hne, require_bind_eq_ok, Checked.bind_eq_ok]
  constructor
  · intro ⟨_, C, hC, hrest⟩
    obtain ⟨rfl, hchecks⟩ := (hcounts C).mp hC
    rw [Checked.bind_eq_ok] at hrest
    obtain ⟨Kp, hKp, hrest⟩ := hrest
    rw [hsize hKp, Int.toNat_natCast, plan_blocks_eq, Checked.bind_eq_ok] at hrest
    obtain ⟨plans, hplans, hreturn⟩ := hrest
    rw [Checked.pure_eq_ok, Except.ok.injEq] at hreturn
    exact ⟨hchecks, plans, hplans, hreturn.symm⟩
  · rintro ⟨hchecks, plans, hplans, rfl⟩
    have hKp := (block_bits_eq_ok cfg hpos hcount hB).mpr ⟨hchecks, rfl⟩
    refine ⟨hK, _, (hcounts _).mpr ⟨rfl, hchecks⟩, ?_⟩
    rw [hKp, Checked.ok_bind, hsize hKp, Int.toNat_natCast, plan_blocks_eq, hplans]
    rfl

/-- Whatever the sizes, a result has as many plans as an `int` counts, each for a piece of one
payload size that does not exceed the bound. -/
theorem segment_inv {tb : Bits} {cfg : SegmentationConfig} {r : SegmentationResult} (hne : tb ≠ [])
    (h : segmentTransportBlock tb cfg = .ok r) : 40 ≤ cfg.maxCbInfoBits ∧
      ∃ (C : Int) (Kinfo : Nat), C < 2 ^ 31 ∧ Kinfo ≤ cfg.maxCbInfoBits ∧
        ((List.range C.toNat).mapM fun c => cfg.planBlock (cfg.crcBits C) (piece 0 Kinfo tb c)) =
          .ok r.codeBlocks := by
  rw [segmentTransportBlock, if_neg hne, require_bind_eq_ok, Checked.bind_eq_ok] at h
  obtain ⟨hK, C, hC, h⟩ := h
  rw [Checked.bind_eq_ok] at h
  obtain ⟨Kp, hKp, h⟩ := h
  rw [plan_blocks_eq, Checked.bind_eq_ok] at h
  obtain ⟨plans, hplans, hreturn⟩ := h
  rw [Checked.pure_eq_ok, Except.ok.injEq] at hreturn
  subst hreturn
  have hbound : C < 2 ^ 31 ∧ toSizeT (Kp - cfg.crcBits C) ≤ cfg.maxCbInfoBits := by
    unfold SegmentationConfig.blockCount at hC
    by_cases hone : tb.length > cfg.maxCbInfoBits
    · rw [if_pos hone] at hC
      obtain ⟨_, hlt, Kp', hKp', hfits⟩ := refine_block_count_spec (to_int32_range _).2 hC
      rw [hKp, Except.ok.injEq] at hKp'
      subst hKp'
      exact ⟨hlt, hfits⟩
    · rw [if_neg hone, Except.ok.injEq] at hC
      subst hC
      rw [block_bits_one, Except.ok.injEq] at hKp
      subst hKp
      have hchecks : (toSizeT (toSizeT tb.length) - cfg.crcBits 1 : Int) =
          toSizeT (toSizeT tb.length) := by simp [SegmentationConfig.crcBits]
      have hle (n : Nat) : toSizeT n ≤ n := to_size_t_le
      have hsize := (hle _).trans ((hle _).trans (hle tb.length))
      rw [hchecks]
      omega
  exact ⟨hK, C, _, hbound.1, hbound.2, hplans⟩

end NrBaseband
