import NrBaseband.SegmentationBalance
import NrBaseband.RateMatching
import NrBaseband.Scrambling
import NrBaseband.Llr
import NrBaseband.Ldpc.Decode
import Mathlib.Algebra.Order.Ring.Cast
import Mathlib.Algebra.Field.Rat
import Mathlib.Algebra.Order.Ring.Rat

/-!
# The noiseless chain

One code block sent and received without noise: encoding, rate matching and scrambling, and back.
`transceive_ok` says that this is the identity on a planned block, `receive_eq` that the payloads
of the blocks are the pieces of the transport block, and `chain_recovers_iff` for which transport
blocks the whole chain returns what was sent.
-/

namespace NrBaseband

open Foundation Foundation.MachineInt Foundation.Pieces

/-- The parameters of one transmission: redundancy version, number of sent bits, scrambling seed and
magnitude of the soft values. -/
structure Link (R : Type) where
  rv : Int
  eBits : Nat
  cInit : UInt32
  magnitude : R

variable {R : Type} [Field R] [LinearOrder R]

/-- The rate matching of a planned block. -/
def Link.matching (link : Link R) (plan : CodeBlockPlan) : RateMatchConfig where
  eBits := link.eBits
  rv := link.rv
  nCb := 0
  zc := plan.zc
  bg := plan.bg
  punctureFirst2z := false

/-- The number of coded bits of a planned block. -/
def CodeBlockPlan.coded (plan : CodeBlockPlan) : Nat := plan.bg.nb * plan.zc

/-- Send a block and receive it again. -/
def transceive (plan : CodeBlockPlan) (link : Link R) : Checked Bits := do
  let coded ← ldpcEncode plan.bitsWithCrc plan.ldpc
  let matched ← rateMatch coded (link.matching plan)
  let sent ← scramble matched link.cInit
  let received ← descramble sent link.cInit
  let llr ← bitsToLlr received link.magnitude
  let soft ← rateDematch llr (link.matching plan) plan.coded
  ldpcDecode (soft.map .finite) plan.ldpc

/-- The transmission sends every coded bit at least once, with a positive magnitude. -/
def Link.Suits (link : Link R) (plan : CodeBlockPlan) : Prop :=
  plan.coded ≤ link.eBits ∧ 0 < link.magnitude

/-- A received block without its filler. -/
def CodeBlockPlan.stripFiller (plan : CodeBlockPlan) (out : Bits) : Bits :=
  out.take (out.length - plan.fillerBits.toNat)

/-- Send and receive all blocks and put their payloads together, cut to the length of the transport
block. -/
def receive (cfg : SegmentationConfig) (r : SegmentationResult) (links : List (Link R)) (B : Nat) :
    Checked Bits := do
  let payloads ← (r.codeBlocks.zip links).mapM fun (plan, link) => do
    let out ← transceive plan link
    let bits := plan.stripFiller out
    return bits.take (bits.length - cfg.crcBits r.codeBlocks.length)
  return payloads.flatten.take B

/-- The chain returns every block and, from the blocks, the transport block. -/
structure SegmentationResult.Recovers (R : Type) [Field R] [LinearOrder R] (r : SegmentationResult)
    (tb : Bits) (cfg : SegmentationConfig) : Prop where
  identity : ∀ plan ∈ r.codeBlocks, ∀ link : Link R, link.Suits plan →
    transceive plan link = .ok (plan.bitsWithCrc ++ List.replicate plan.fillerBits.toNat 0)
  checked : 1 < r.codeBlocks.length → cfg.attachCrc24bWhenSegmented = true →
    ∀ plan ∈ r.codeBlocks, ∀ link : Link R, link.Suits plan →
      ∀ out, transceive plan link = .ok out →
        crcCheck (plan.stripFiller out) .crc24b = .ok true
  whole : ∀ links : List (Link R),
    List.Forall₂ (fun plan link => Link.Suits link plan) r.codeBlocks links →
      receive cfg r links tb.length = .ok tb

/-- The circular buffer of a planned block is the coded word. -/
theorem layout_whole {zc : Nat} (bg : BaseGraph) (hlow : 0 < zc) (hhigh : zc ≤ 384) (eBits : Nat)
    (rv : Int) : ∃ k0, RateMatchConfig.Layout
      { eBits, rv, nCb := 0, zc, bg, punctureFirst2z := false } (bg.nb * zc) 0 (bg.nb * zc) k0 := by
  have hcoded : 0 < bg.nb * zc ∧ bg.nb * zc ≤ 68 * 384 := by
    refine ⟨Nat.mul_pos (by cases bg <;> decide) hlow, Nat.mul_le_mul ?_ hhigh⟩
    cases bg <;> decide
  have hversion : ((rv.tmod 4 + 4).tmod 4).toNat < ((rvCoeffs bg).map fun coeff =>
      toSizeT ((coeff * (bg.nb * zc : Nat) / (rvCols bg * zc)) * zc)).length := by
    rw [List.length_map, (rv_coeffs_range bg).2.1]
    exact version_lt rv
  have hstart : ∃ k0, startOffset { eBits, rv, nCb := 0, zc, bg, punctureFirst2z := false }
      (bg.nb * zc) = .ok k0 := by
    unfold startOffset
    dsimp only
    rw [if_pos (by omega), rv_k0_ok bg (by omega) hcoded.1 (by omega) (by omega), Checked.ok_bind,
      Checked.read_of_lt hversion, Checked.ok_bind]
    exact ⟨_, rfl⟩
  obtain ⟨k0, hk0⟩ := hstart
  exact ⟨k0, hcoded.1, .inr ⟨rfl, fun h => Bool.noConfusion h.1⟩, rfl, hcoded.1, hk0⟩

/-- The sign of a bit's soft value, added up any number of times, is the bit. -/
theorem bit_of_sum [IsStrictOrderedRing R] {b : UInt8} (hb : IsBit b) {a : R} (ha : 0 < a) {m : Nat}
    (hm : 0 < m) : b = if 0 ≤ m • bitLlr a b then 0 else 1 := by
  rcases hb with rfl | rfl
  · have hnonneg : 0 ≤ m • bitLlr a 0 := nsmul_nonneg (le_of_lt ha) m
    rw [if_pos hnonneg]
  · have hnegative : m • bitLlr a 1 < 0 := by
      rw [bitLlr, if_neg (by decide), smul_neg, neg_lt_zero]
      exact nsmul_pos ha (by omega)
    rw [if_neg (not_le.mpr hnegative)]

/-- What is received of a coded word has its signs. -/
theorem dematch_signs [IsStrictOrderedRing R] {plan : CodeBlockPlan} (hlow : 0 < plan.zc)
    (hhigh : plan.zc ≤ 384) {link : Link R} (hlink : link.Suits plan) {cw : Bits}
    (hbits : IsBits cw) (hlength : cw.length = plan.coded) : ∃ matched sent llr soft,
      rateMatch cw (link.matching plan) = .ok matched ∧
      scramble matched link.cInit = .ok sent ∧ descramble sent link.cInit = .ok matched ∧
      bitsToLlr matched link.magnitude = .ok llr ∧
      rateDematch llr (link.matching plan) plan.coded = .ok (table plan.coded soft) ∧
      ∀ j < plan.coded, cw.getD j 0 = if 0 ≤ soft j then 0 else 1 := by
  obtain ⟨k0, hlayout⟩ := layout_whole plan.bg hlow hhigh link.eBits link.rv
  change (link.matching plan).Layout plan.coded 0 plan.coded k0 at hlayout
  obtain ⟨hE, hpositive⟩ := hlink
  have hcoded := hlayout.n_cb_pos
  let source (i : Nat) : Nat := sourceIndex plan.coded 0 plan.coded k0 i
  have hmatched : rateMatch cw (link.matching plan) =
      .ok (table link.eBits fun i => cw.getD (source i) 0) := by
    conv_lhs => rw [Table.eq_table cw 0, hlength]
    have hE : 0 < (link.matching plan).eBits := Nat.lt_of_lt_of_le hcoded hE
    exact rate_match_eq_ok.mpr ⟨hE, 0, plan.coded, k0, hlayout, rfl⟩
  have hmatchedBits : IsBits (table link.eBits fun i => cw.getD (source i) 0) := by
    intro b hb
    obtain ⟨i, _, rfl⟩ := List.mem_map.mp hb
    exact hbits.getD _
  obtain ⟨sent, hsent, hreceived⟩ := descramble_scramble hmatchedBits link.cInit
  have hllr := bits_to_llr_ok hmatchedBits link.magnitude
  rw [Table.map_table] at hllr
  refine ⟨_, sent, _, _, hmatched, hsent, hreceived, hllr,
    rate_dematch_ok hlayout (reads_last_of_le (Nat.le_refl _) _ _) _, fun j hj => ?_⟩
  -- every soft value added at `j` is that of the coded bit `j`, and there is at least one
  have hterms : ∑ i ∈ (Finset.range link.eBits).filter (fun i => source i = j),
      bitLlr link.magnitude (cw.getD (source i) 0) =
      ((Finset.range link.eBits).filter (fun i => source i = j)).card •
        bitLlr link.magnitude (cw.getD j 0) := by
    rw [← Finset.sum_const]
    refine Finset.sum_congr rfl fun i hi => ?_
    rw [(Finset.mem_filter.mp hi).2]
  have hread : 0 < ((Finset.range link.eBits).filter (fun i => source i = j)).card := by
    obtain ⟨i, hi, hsource⟩ := source_index_surjective k0 hE hj
    exact Finset.card_pos.mpr ⟨i, Finset.mem_filter.mpr ⟨Finset.mem_range.mpr hi, hsource⟩⟩
  rw [hterms]
  exact bit_of_sum (hbits.getD j) hpositive hread

/-- A planned code is standard. -/
theorem SegmentationConfig.IsPlanOf.ldpc_standard {cfg : SegmentationConfig} {L : Nat}
    {payload : Bits} {plan : CodeBlockPlan} (h : cfg.IsPlanOf L payload plan) :
    plan.ldpc.IsStandard ∧ 0 < plan.zc ∧ plan.zc ≤ 384 := by
  obtain ⟨lift, hlift, hzc, hils⟩ := h.lifting
  obtain ⟨hlow, hhigh, _, _, hset, hrow, _⟩ := select_lifting_spec hlift
  rw [h.ldpc_eq]
  refine ⟨⟨⟨?_, ?_⟩, ?_, .inr rfl, .inl (by simp)⟩, by omega, by omega⟩
  · show (0 : Int) < plan.zc
    omega
  · show isValidLiftingSize plan.zc = true
    rw [hzc, isValidLiftingSize, hset]
    rfl
  · show (plan.iLs : Int) ≤ 7
    omega

/-- The block is encoded to this word, which its buffer has room for. -/
structure CodeBlockPlan.EncodesTo (plan : CodeBlockPlan) (coded : Bits) : Prop where
  encode : ldpcEncode plan.bitsWithCrc plan.ldpc = .ok coded
  is_bits : IsBits coded
  length_eq : coded.length = plan.coded
  zc_pos : 0 < plan.zc
  zc_le : plan.zc ≤ 384

/-- The graph and the code word of a planned block. -/
theorem planned_code {cfg : SegmentationConfig} {L : Nat} {payload : Bits} {plan : CodeBlockPlan}
    (h : cfg.IsPlanOf L payload plan) (hbits : IsBits plan.bitsWithCrc)
    (hsize : plan.bitsWithCrc.length < 2 ^ 31) :
    ∃ g cw, makeGraph plan.ldpc = .ok g ∧ g.IsStandard plan.bg ∧ g.zc = plan.zc ∧
      plan.EncodesTo cw ∧ g.IsCodeword cw ∧ g.nOf = plan.coded ∧
      cw.take g.kOf = plan.bitsWithCrc ++ List.replicate plan.fillerBits.toNat 0 := by
  obtain ⟨hstandard, hlow, hhigh⟩ := h.ldpc_standard
  have hcast : toInt32 plan.bitsWithCrc.length = plan.bitsWithCrc.length :=
    to_int32_of_range (by omega) (by omega)
  have hfields := h.ldpc_eq
  have hfiller := h.filler
  have hnonneg := plan.filler_nonneg
  have hkLdpc := h.k_ldpc
  rw [hcast] at hfields hfiller
  have hbg : plan.ldpc.bg = plan.bg := by rw [hfields]
  have hzc : plan.ldpc.zc = plan.zc := by rw [hfields]
  have hrows : plan.ldpc.rows = plan.bg.mb := by
    rw [LdpcParams.rows, hfields]
    exact if_neg (by simp)
  have hinfo : plan.ldpc.infoBits ≤ plan.ldpc.bg.kb * plan.ldpc.zc := by
    rw [hfields]
    show (plan.bitsWithCrc.length : Int) ≤ plan.bg.kb * plan.zc
    omega
  obtain ⟨g, _, hg, _, hgzc, _, hmb, hgraph⟩ := make_graph_standard hstandard hinfo
  have hkOf : (g.kOf : Int) = plan.kLdpc := by
    rw [hgraph.k_of, hgzc, hzc, hbg, hkLdpc, Int.toNat_natCast, Int.natCast_mul]
  have hnOf : g.nOf = plan.coded := by
    rw [hgraph.n_of, hgzc, hzc, hbg, hmb, hrows, Int.toNat_natCast, CodeBlockPlan.coded,
      plan.bg.nb_eq]
  obtain ⟨cw, hencode, hcw, hsystematic⟩ :=
    encode_standard hstandard hg hgraph hbits (by omega)
  have hfillerCount : g.kOf - plan.bitsWithCrc.length = plan.fillerBits.toNat := by omega
  rw [hfillerCount] at hsystematic
  refine ⟨g, cw, hg, hbg ▸ hgraph, ?_, ⟨hencode, hcw.bits, hcw.length_eq.trans hnOf, hlow, hhigh⟩,
    hcw, hnOf, hsystematic⟩
  rw [hgzc, hzc, Int.toNat_natCast]

/-- A block whose size survives the cast is returned by the chain, followed by its filler. -/
theorem transceive_ok [IsStrictOrderedRing R] {cfg : SegmentationConfig} {L : Nat} {payload : Bits}
    {plan : CodeBlockPlan} (h : cfg.IsPlanOf L payload plan) (hbits : IsBits plan.bitsWithCrc)
    (hsize : plan.bitsWithCrc.length < 2 ^ 31) {link : Link R} (hlink : link.Suits plan) :
    transceive plan link =
      .ok (plan.bitsWithCrc ++ List.replicate plan.fillerBits.toNat 0) := by
  obtain ⟨g, cw, hg, _, _, hencodes, hcw, hnOf, hsystematic⟩ := planned_code h hbits hsize
  have hlow := hencodes.zc_pos
  have hzc : plan.ldpc.zc = plan.zc := by rw [h.ldpc_eq]
  obtain ⟨matched, sent, llr, soft, hmatched, hsent, hreceived, hllr, hsoft, hsign⟩ :=
    dematch_signs hlow hencodes.zc_le hlink hcw.bits hencodes.length_eq
  have hdecode : ldpcDecode ((table plan.coded soft).map .finite) plan.ldpc =
      .ok (cw.take g.kOf) := by
    rw [← hnOf] at hsign ⊢
    exact decode_signs (fun h => absurd h (by omega)) hg hcw hsign
  rw [transceive, hencodes.encode, Checked.ok_bind, hmatched, Checked.ok_bind, hsent,
    Checked.ok_bind, hreceived, Checked.ok_bind, hllr, Checked.ok_bind, hsoft, Checked.ok_bind,
    hdecode, hsystematic]

/-- What the chain returns is no longer than the information part of the code. -/
theorem transceive_length {cfg : SegmentationConfig} {L : Nat} {payload : Bits}
    {plan : CodeBlockPlan} (h : cfg.IsPlanOf L payload plan) {link : Link R} {out : Bits}
    (hout : transceive plan link = .ok out) : out.length ≤ 8448 := by
  obtain ⟨hstandard, _, hhigh⟩ := h.ldpc_standard
  simp only [transceive, Checked.bind_eq_ok] at hout
  obtain ⟨_, _, _, _, _, _, _, _, _, _, _, _, hdecode⟩ := hout
  obtain ⟨g, hg, hle⟩ := decode_length hdecode
  obtain ⟨hgzc, _, hgraph⟩ := graph_standard hstandard hg
  have hzc : plan.ldpc.zc = plan.zc := by rw [h.ldpc_eq]
  have hbound : plan.ldpc.bg.kb * plan.zc ≤ 22 * 384 := by
    refine Nat.mul_le_mul ?_ hhigh
    cases plan.ldpc.bg <;> decide
  rw [hgraph.k_of, hgzc, hzc, Int.toNat_natCast] at hle
  omega

omit [Field R] [LinearOrder R] in
/-- Stripping the filler leaves the block. -/
theorem strip_filler (plan : CodeBlockPlan) (bits : Bits) :
    plan.stripFiller (bits ++ List.replicate plan.fillerBits.toNat 0) = bits := by
  rw [CodeBlockPlan.stripFiller, List.length_append, List.length_replicate, Nat.add_sub_cancel,
    List.take_left]

/-- The received payloads are the pieces of the transport block. -/
theorem receive_eq {cfg : SegmentationConfig} {r : SegmentationResult} {tb : Bits} {P : Nat}
    (hplan : ∀ c (hc : c < r.codeBlocks.length),
      cfg.IsPlanOf (cfg.crcBits r.codeBlocks.length) (piece 0 P tb c) r.codeBlocks[c])
    (hidentity : ∀ plan ∈ r.codeBlocks, ∀ link : Link R, link.Suits plan → transceive plan link =
      .ok (plan.bitsWithCrc ++ List.replicate plan.fillerBits.toNat 0)) {links : List (Link R)}
    (hlinks : List.Forall₂ (fun plan link => Link.Suits link plan) r.codeBlocks links) (B : Nat) :
    receive cfg r links B =
      .ok (((List.range r.codeBlocks.length).map (piece 0 P tb)).flatten.take B) := by
  let payload (plan : CodeBlockPlan) : Bits := plan.bitsWithCrc.take
    (plan.bitsWithCrc.length - cfg.crcBits r.codeBlocks.length)
  have hreceived : ((r.codeBlocks.zip links).mapM fun (plan, link) => do
      let out ← transceive plan link
      let bits := plan.stripFiller out
      return bits.take (bits.length - cfg.crcBits r.codeBlocks.length)) =
      .ok ((r.codeBlocks.zip links).map fun x => payload x.1) := by
    refine Checked.map_ok fun ⟨plan, link⟩ hmem => ?_
    have hsuits := List.forall₂_zip hlinks hmem
    have hplanMem := (List.of_mem_zip hmem).1
    dsimp only
    rw [hidentity plan hplanMem link hsuits, Checked.ok_bind, strip_filler]
    rfl
  -- which link a block is sent over makes no difference
  have hpayloads : (r.codeBlocks.zip links).map (fun x => payload x.1) =
      (List.range r.codeBlocks.length).map (piece 0 P tb) := by
    have hfirst : (r.codeBlocks.zip links).map (fun x => payload x.1) =
        r.codeBlocks.map payload := by
      conv_rhs => rw [← List.map_fst_zip (Nat.le_of_eq hlinks.length_eq), List.map_map]
      rfl
    rw [hfirst]
    refine List.ext_getElem (by simp) fun c hc _ => ?_
    rw [List.length_map] at hc
    have htake := (hplan c hc).take_payload
    simp only [List.getElem_map, List.getElem_range, payload]
    rw [(hplan c hc).length_eq, Nat.add_sub_cancel]
    exact htake
  rw [receive, hreceived, hpayloads]
  rfl

/-- Every block has a link that suits it. -/
theorem exists_links [IsStrictOrderedRing R] (plans : List CodeBlockPlan) :
    ∃ links : List (Link R), List.Forall₂ (fun plan link => Link.Suits link plan) plans links := by
  refine ⟨plans.map fun plan => ⟨0, plan.coded, 0, 1⟩, ?_⟩
  rw [List.forall₂_map_right_iff, List.forall₂_same]
  exact fun plan _ => ⟨Nat.le_refl _, one_pos⟩

/-- Where the sizes survive the casts, the chain recovers the transport block. -/
theorem recovers_of_fits [IsStrictOrderedRing R] {tb : Bits} {cfg : SegmentationConfig}
    {r : SegmentationResult} (hne : tb ≠ []) (hbits : IsBits tb)
    (hok : segmentTransportBlock tb cfg = .ok r) (hfits : cfg.FitsInt tb.length) :
    r.Recovers R tb cfg := by
  obtain ⟨hK, _⟩ := segment_inv hne hok
  have hpos : 0 < cfg.wantedBlocks tb.length :=
    ceil_div_pos (List.length_pos_iff.mpr hne) (by omega)
  obtain ⟨hcount, _, _, hplan⟩ := segment_plans hne hbits hok (hfits.length_lt hpos) hfits.1
  have hcover : tb.length ≤ r.codeBlocks.length * cfg.share tb.length := by
    rw [hcount]
    exact le_mul_ceil_div hpos _
  have hrange := hfits.2
  rw [← hcount] at hplan hrange
  have hidentity (plan : CodeBlockPlan) (hmem : plan ∈ r.codeBlocks) (link : Link R)
      (hlink : link.Suits plan) : transceive plan link =
        .ok (plan.bitsWithCrc ++ List.replicate plan.fillerBits.toNat 0) := by
    obtain ⟨c, hc, rfl⟩ := List.mem_iff_getElem.mp hmem
    have hsize := (hplan c hc).length_eq
    rw [length_piece] at hsize
    exact transceive_ok (hplan c hc) ((hplan c hc).is_bits (is_bits_piece hbits _ _))
      (by omega) hlink
  refine ⟨hidentity, fun hmany hattach plan hmem link hlink out hout => ?_, fun links hlinks => ?_⟩
  · rw [hidentity plan hmem link hlink, Except.ok.injEq] at hout
    rw [← hout, strip_filler]
    exact ((balanced_of_fits hne hbits hok hfits).checked (by omega) hattach plan hmem).2
  · rw [receive_eq hplan hidentity hlinks, take_flatten_pieces hcover]

/-- Payloads that the chain puts together to the transport block cover it. -/
theorem recovered_cover [IsStrictOrderedRing R] {cfg : SegmentationConfig} {r : SegmentationResult}
    {tb : Bits} {P : Nat} (hplan : ∀ c (hc : c < r.codeBlocks.length),
      cfg.IsPlanOf (cfg.crcBits r.codeBlocks.length) (piece 0 P tb c) r.codeBlocks[c])
    (hrecovers : r.Recovers R tb cfg) : tb.length ≤ r.codeBlocks.length * P := by
  obtain ⟨links, hlinks⟩ := exists_links (R := R) r.codeBlocks
  have hwhole := hrecovers.whole links hlinks
  rw [receive_eq hplan hrecovers.identity hlinks, Except.ok.injEq, flatten_pieces] at hwhole
  have hlengths := congrArg List.length hwhole
  rw [List.length_take, Table.length_table] at hlengths
  omega

/-- A block that the chain returns fits the information part of its code. -/
theorem recovered_size [IsStrictOrderedRing R] {cfg : SegmentationConfig} {r : SegmentationResult}
    {tb payload : Bits} {L : Nat} {plan : CodeBlockPlan} (hplan : cfg.IsPlanOf L payload plan)
    (hmem : plan ∈ r.codeBlocks) (hrecovers : r.Recovers R tb cfg) :
    plan.bitsWithCrc.length ≤ 8448 := by
  have hout := hrecovers.identity plan hmem ⟨0, plan.coded, 0, 1⟩ ⟨Nat.le_refl _, one_pos⟩
  have hle := transceive_length hplan hout
  rw [List.length_append] at hle
  omega

/-- The chain recovers a transport block only where the sizes survive the casts. -/
theorem fits_of_recovers [IsStrictOrderedRing R] {tb : Bits} {cfg : SegmentationConfig}
    {r : SegmentationResult} (hne : tb ≠ []) (hbits : IsBits tb)
    (hok : segmentTransportBlock tb cfg = .ok r) (hrecovers : r.Recovers R tb cfg) :
    cfg.FitsInt tb.length := by
  obtain ⟨hK, C, Kinfo, hC, hKinfo, hplans⟩ := segment_inv hne hok
  obtain ⟨hlength, hsteps⟩ := Table.range_map_eq_ok.mp hplans
  have htb := List.length_pos_iff.mpr hne
  have hplan (c : Nat) (hc : c < r.codeBlocks.length) : cfg.IsPlanOf
      (cfg.crcBits r.codeBlocks.length) (piece 0 Kinfo tb c) r.codeBlocks[c] := by
    have hcount : C = r.codeBlocks.length := by omega
    rw [← hcount]
    exact plan_block_spec (crc_bits_eq cfg _) (is_bits_piece hbits _ _) (hsteps c hc)
  have hcover := recovered_cover hplan hrecovers
  have hfirst : 0 < r.codeBlocks.length := by
    by_contra hnone
    have hzero : r.codeBlocks.length = 0 := by omega
    rw [hzero, Nat.zero_mul] at hcover
    omega
  -- what the chain returns of the first block bounds the size of all
  have hsmall := recovered_size (hplan 0 hfirst) (List.getElem_mem hfirst) hrecovers
  have hpayload : Kinfo ≤ 8448 := by
    have hsize := (hplan 0 hfirst).length_eq
    rw [length_piece] at hsize
    omega
  have hB : tb.length < 2 ^ 63 := by
    have hproduct : r.codeBlocks.length * Kinfo ≤ 2 ^ 31 * 8448 :=
      Nat.mul_le_mul (by omega) hpayload
    omega
  have hcount : cfg.wantedBlocks tb.length < 2 ^ 31 := by
    have hwanted : cfg.wantedBlocks tb.length ≤ r.codeBlocks.length := by
      refine (ceilDiv_le_iff_le_mul (by omega)).mpr ?_
      rw [Nat.mul_comm]
      exact hcover.trans (Nat.mul_le_mul_left _ hKinfo)
    omega
  obtain ⟨_, _, _, hshares⟩ := segment_plans hne hbits hok hB hcount
  have hsize := (hshares 0 hfirst).length_eq
  rw [length_piece] at hsize
  exact ⟨hcount, by omega⟩

/-- The noiseless chain is the identity exactly for the empty transport block and for those whose
number of blocks and block size survive the casts to `int`. -/
theorem chain_recovers_iff [IsStrictOrderedRing R] {tb : Bits} {cfg : SegmentationConfig}
    {r : SegmentationResult} (hbits : IsBits tb) (hok : segmentTransportBlock tb cfg = .ok r) :
    r.Recovers R tb cfg ↔ tb = [] ∨ cfg.FitsInt tb.length := by
  by_cases hne : tb = []
  · -- nothing is sent
    subst hne
    rw [segmentTransportBlock, if_pos rfl, Except.ok.injEq] at hok
    subst hok
    have hnothing : ({} : SegmentationResult).Recovers R [] cfg :=
      ⟨fun _ hmem => absurd hmem List.not_mem_nil,
        fun _ _ _ hmem => absurd hmem List.not_mem_nil, fun _ _ => rfl⟩
    exact ⟨fun _ => .inl rfl, fun _ => hnothing⟩
  · constructor
    · intro hrecovers
      exact .inr (fits_of_recovers hne hbits hok hrecovers)
    · rintro (hempty | hfits)
      · exact absurd hempty hne
      · exact recovers_of_fits hne hbits hok hfits

/-- Two blocks sent over two links come back. -/
theorem chain_recovers_iff_two : ∃ r,
    segmentTransportBlock (List.replicate 50 0) { maxCbInfoBits := 40 } = .ok r ∧
      r.Recovers ℚ (List.replicate 50 0) { maxCbInfoBits := 40 } := by
  have hreturns : (segmentTransportBlock (List.replicate 50 0)
      { maxCbInfoBits := 40 }).toBool = true := by decide +kernel
  cases hok : segmentTransportBlock (List.replicate 50 0) { maxCbInfoBits := 40 } with
  | error fault => rw [hok] at hreturns; cases hreturns
  | ok r =>
      have hfits : ({ maxCbInfoBits := 40 } : SegmentationConfig).FitsInt
          (List.replicate 50 (0 : UInt8)).length := by decide
      exact ⟨r, rfl, (chain_recovers_iff (is_bits_replicate 50) hok).mpr (.inr hfits)⟩

/-- The one block of a huge transport block of zeros does not come back. -/
theorem chain_lost : IsBits (List.replicate (2 ^ 32 + 100) 0) ∧
    ∃ r, segmentTransportBlock (List.replicate (2 ^ 32 + 100) 0) hugeBound = .ok r ∧
      ¬r.Recovers ℚ (List.replicate (2 ^ 32 + 100) 0) hugeBound := by
  have hbits : IsBits (List.replicate (2 ^ 32 + 100) 0) := is_bits_replicate _
  have hlength : (List.replicate (2 ^ 32 + 100) (0 : UInt8)).length = 2 ^ 32 + 100 :=
    List.length_replicate
  generalize List.replicate (2 ^ 32 + 100) (0 : UInt8) = tb at *
  obtain ⟨_, _, hok⟩ := segment_huge hbits hlength
  have hne : tb ≠ [] := List.length_pos_iff.mp (by omega)
  exact ⟨hbits, _, hok, fun hrecovers =>
    huge_not_fits hlength (fits_of_recovers hne hbits hok hrecovers)⟩

end NrBaseband
