import NrBaseband.MimoLink
import NrBaseband.HardDecisions
import NrBaseband.LayerMapping
import NrBaseband.ScramblingSeeds

/-!
# Bits over the MIMO link

Scrambled bits are modulated, dealt to layers, sent over the link and taken back. They arrive when
the equalized noise stays inside the decision regions (`bit_link_recovers`).
-/

namespace NrBaseband

open Foundation Foundation.MachineInt Foundation.Interleaving Foundation.Pieces Matrix

/-- The complex number with these parts. -/
def complexOf (p : Point ℝ) : ℂ := ⟨p.re, p.im⟩

/-- The parts of a complex number. -/
def pointOf (z : ℂ) : Point ℝ := ⟨z.re, z.im⟩

/-- The functions of the transmit path, the link and the functions of the receive path in order. -/
noncomputable def sendOverLink (lib : ChannelLibrary ℝ ℂ) (bits : Bits) (cInit : UInt32)
    (order : ModulationOrder) (ch : MimoChannelConfig ℝ ℂ) (eq : EqualizerConfig ℝ) :
    Checked Bits := do
  let scrambled ← scramble bits cInit
  let symbols ← modulate realNumbers scrambled order
  let layers ← layerMap (symbols.map complexOf) ch.nTx
  let link ← runMimoLink complexNumbers lib layers ch eq
  let received ← layerDemap link.equalized
  descramble (demodulateHard realNumbers (received.map pointOf) order) cInit

section

variable {R : Type} [Field R] [LinearOrder R] [IsStrictOrderedRing R] (num : ExactReal R)

/-- Symbols that stay in their regions are decided for the modulated bits. -/
theorem hard_demodulates (order : ModulationOrder) {bits : Bits} (hbits : IsBits bits)
    (hlength : bits.length % bitsPerSymbol order = 0) (hfit : bits.length ≤ 2 ^ 31) :
    ∃ symbol : Nat → Point R, modulate num bits order =
        .ok (table (bits.length / bitsPerSymbol order) symbol) ∧
      ∀ received : Nat → Point R, (∀ j < bits.length / bitsPerSymbol order,
          InRegion num order (symbol j) (received j)) →
        demodulateHard num (table (bits.length / bitsPerSymbol order) received) order = bits := by
  refine ⟨_, modulate_spec num hbits hlength hfit, fun received hreceived => ?_⟩
  have hsymbol (n : Nat) (hn : n ∈ List.range (bits.length / bitsPerSymbol order)) :
      grayBitsFromAmp (nearest (scaleFor num order) (1 <<< (bitsPerSymbol order / 2))
          (received n).re) (bitsPerSymbol order / 2) ++
        grayBitsFromAmp (nearest (scaleFor num order) (1 <<< (bitsPerSymbol order / 2))
          (received n).im) (bitsPerSymbol order / 2) = piece 0 (bitsPerSymbol order) bits n := by
    have hpiece := is_bits_piece hbits (bitsPerSymbol order) n
    have hlt := fold_push_bit_lt hpiece
    have hlabel := label_bits_fold hpiece
    rw [length_piece] at hlt hlabel
    rw [hard_symbol_region num hlt (hreceived n (List.mem_range.mp hn)), hlabel]
  rw [demodulateHard, table, List.flatMap_map]
  exact (List.flatMap_congr hsymbol).trans (flat_map_pieces 0 hlength)

end

/-- Without a frequency offset nothing is turned. -/
theorem turned_still (lib : ChannelLibrary ℝ ℂ) (tx : List (ComplexVec ℂ))
    {ch : MimoChannelConfig ℝ ℂ} (hcfo : ch.cfoHz = 0) (t : Nat) :
    turned lib tx ch t = streamsAt tx ch.nTx.toNat t := by
  rw [turned, mimoRotation, hcfo, mul_zero, zero_mul, zero_div, lib.cos_sin_zero, one_smul]

/-- The equalized noise of zero forcing stays inside the decision regions for `T` samples. -/
def NoiseInRegion (lib : ChannelLibrary ℝ ℂ) (order : ModulationOrder) (ch : MimoChannelConfig ℝ ℂ)
    (T : Nat) : Prop :=
  ∀ t < T, ∀ d : Fin ch.nTx.toNat → ℂ,
    normalMatrix complexNumbers ch.H ch.nRx.toNat ch.nTx.toNat 0 *ᵥ d =
      (channel ch.H ch.nRx.toNat ch.nTx.toNat)ᴴ *ᵥ noiseAt lib ch t →
    ∀ c, |(d c).re| < scaleFor realNumbers order ∧ |(d c).im| < scaleFor realNumbers order

/-- Layers over a zero-forcing link without a frequency offset come back inside the decision
regions. -/
theorem layers_recovered {lib : ChannelLibrary ℝ ℂ} {order : ModulationOrder}
    {ch : MimoChannelConfig ℝ ℂ} (hch : ch.WellFormed) {n T : Nat} (hn : 1 ≤ n) (htx : ch.nTx = n)
    (hH : toInt32 ch.H.length = ch.nRx * ch.nTx) (hrx : 1 ≤ ch.nRx)
    (hcfo : ch.cfoHz = 0) {eq : EqualizerConfig ℝ} (hzf : eq.type = .zf)
    (hweights : ¬Rejected complexNumbers.toComplexOps ch.H ch.nRx.toNat ch.nTx.toNat eq)
    (hnoise : NoiseInRegion lib order ch T) (layer : Nat → Nat → ℂ) :
    ∃ (link : MimoLinkResult ℂ) (x : Nat → Nat → ℂ),
      runMimoLink complexNumbers lib (table n fun l => table T (layer l)) ch eq = .ok link ∧
      link.equalized = table n (fun l => table T (x l)) ∧
      ∀ t < T, ∀ l < n, InRegion realNumbers order (pointOf (layer l t)) (pointOf (x l t)) := by
  have hcount : ch.nTx.toNat = n := by omega
  have hhead : ((table n fun l => table T (layer l)).headD []).length = T := by
    rw [List.headD_eq_head?_getD, List.head?_eq_getElem?, Table.getElem?_table hn,
      Option.getD_some, Table.length_table]
  have haccepts : MimoAccepts (table n fun l => table T (layer l)) ch := by
    have hproduct := hch.product
    rw [htx] at hproduct
    have hsmall : (n : Int) < 2 ^ 31 :=
      lt_of_le_of_lt (le_mul_of_one_le_left (Int.natCast_nonneg n) hrx) hproduct.2
    refine ⟨?_, hH, Table.table_ne_nil hn, fun L hL => ?_, ?_⟩
    · rw [Table.length_table, to_int32_of_range (by omega) (by omega), htx]
    · rw [hhead, (shaped_table n T layer).samples L hL]
    · have hfits := hch.antennas.2
      rw [← Int.toNat_of_nonneg (by omega : 0 ≤ ch.nRx), to_size_t_natCast (by omega), maxStreams]
      omega
  obtain ⟨link, x, hlink, hequalized, hsolves⟩ :=
    mimo_link_accepted complexNumbers lib hch haccepts (by omega) hweights
  rw [hhead, hcount] at hequalized
  refine ⟨link, x, hlink, hequalized, fun t ht l hl => ?_⟩
  have hreg : eq.reg = 0 := by
    rw [EqualizerConfig.reg, hzf]
  have hnormal := hsolves t
  rw [arrives_eq, hreg] at hnormal
  have hresidual := normal_residual complexNumbers hnormal
  rw [map_zero, zero_smul, sub_zero] at hresidual
  have hlt : l < ch.nTx.toNat := by omega
  have hentry := hnoise t ht _ hresidual ⟨l, hlt⟩
  have hsent : streamsAt (table n fun l => table T (layer l)) ch.nTx.toNat t ⟨l, hlt⟩ =
      layer l t := by
    rw [streamsAt, Table.getD_table hl, Table.getD_table ht]
  rw [turned_still lib _ hcfo, Pi.sub_apply, hsent] at hentry
  exact hentry

/-- Bits that are sent over a zero-forcing link without a frequency offset come back whenever the
channel is not nearly singular and the equalized noise stays inside the decision regions. -/
theorem bit_link_recovers {lib : ChannelLibrary ℝ ℂ} {order : ModulationOrder} {bits : Bits}
    (hbits : IsBits bits) (hfit : bits.length ≤ 2 ^ 31) {n : Nat} (hn : n = 1 ∨ n = 2 ∨ n = 4)
    (hlength : bits.length % (bitsPerSymbol order * n) = 0) (cInit : UInt32)
    {ch : MimoChannelConfig ℝ ℂ} (hch : ch.WellFormed) (htx : ch.nTx = n)
    (hH : toInt32 ch.H.length = ch.nRx * ch.nTx) (hrx : 1 ≤ ch.nRx) (hcfo : ch.cfoHz = 0)
    {eq : EqualizerConfig ℝ} (hzf : eq.type = .zf)
    (hweights : ¬Rejected complexNumbers.toComplexOps ch.H ch.nRx.toNat ch.nTx.toNat eq)
    (hnoise : NoiseInRegion lib order ch (bits.length / bitsPerSymbol order / n)) :
    sendOverLink lib bits cInit order ch eq = .ok bits := by
  obtain ⟨scrambled, hscramble, hback⟩ := descramble_scramble hbits cInit
  obtain ⟨-, hscrambled⟩ := scramble_eq_ok.mp hscramble
  have hsame : scrambled.length = bits.length := by
    rw [hscrambled, Table.length_table]
  have hbytes : IsBits scrambled := (scramble_eq_ok.mp hback).1
  -- the numbers of bits, symbols and samples
  generalize hm : bits.length / bitsPerSymbol order = count at hnoise
  have hwhole : bits.length % bitsPerSymbol order = 0 :=
    Nat.mod_eq_zero_of_dvd ((Nat.dvd_mul_right _ n).trans (Nat.dvd_of_mod_eq_zero hlength))
  have hcount : count = count / n * n := by
    rw [Nat.div_mul_cancel]
    rw [← hm]
    exact Nat.dvd_div_of_mul_dvd (Nat.dvd_of_mod_eq_zero hlength)
  generalize count / n = T at hnoise hcount
  subst hcount
  obtain ⟨symbol, hmodulate, hdemodulate⟩ := hard_demodulates realNumbers order hbytes
    (hsame ▸ hwhole) (hsame ▸ hfit)
  rw [hsame, hm] at hmodulate hdemodulate
  obtain ⟨link, x, hlink, hequalized, hregion⟩ := layers_recovered hch (by omega) htx hH hrx hcfo
    hzf hweights hnoise fun l t => complexOf (symbol (t * n + l))
  have hlayers := layer_map_eq hn (m := T) fun j => complexOf (symbol j)
  rw [sendOverLink, hscramble, Checked.ok_bind, hmodulate, Checked.ok_bind, Table.map_table, htx,
    hlayers, Checked.ok_bind, deal, hlink, Checked.ok_bind, hequalized,
    layer_demap_eq (by omega), Checked.ok_bind, collect, Table.map_table,
    hdemodulate _ fun j hj => ?_, hback]
  have hentry := hregion (j / n) (Nat.div_lt_of_lt_mul (Nat.mul_comm T n ▸ hj)) (j % n)
    (Nat.mod_lt j (by omega))
  rwa [Nat.div_add_mod'] at hentry

/-- Over the identity channel no noise is equalized to none. -/
theorem identity_quiet {n : Nat} {snrDb : ℝ} {seed : UInt32} {d : Fin n → ℂ}
    (h : normalMatrix complexNumbers (identityConfig (K := ℂ) n snrDb seed).H n n 0 *ᵥ d = 0) :
    d = 0 := by
  rwa [identity_normal, add_zero, map_one, one_smul, one_mulVec] at h

/-- Eight bits over two antennas without noise. -/
theorem bit_link_recovers_two :
    sendOverLink (complexLibrary fun _ _ => 0) [1, 0, 0, 1, 1, 1, 0, 1] 0x5a .qpsk
      (identityConfig 2 20 1) { type := .zf } = .ok [1, 0, 0, 1, 1, 1, 0, 1] := by
  have htwo : 2 = 1 ∨ 2 = 2 ∨ 2 = 4 := .inr (.inl rfl)
  have hlayers : ([[], []] : List (ComplexVec ℂ)).length = 2 := rfl
  obtain ⟨hch, haccepts⟩ := identity_accepts htwo hlayers (by simp) (20 : ℝ) 1
  have hreg : (1e-14 : ℝ) < 1 + ({ type := .zf } : EqualizerConfig ℝ).reg := by
    rw [EqualizerConfig.reg]
    norm_num
  refine bit_link_recovers (by simp) (by decide) htwo rfl 0x5a hch rfl haccepts.h_size (by decide)
    rfl rfl (identity_not_rejected complexNumbers htwo (20 : ℝ) 1 hreg) fun t _ d hd c => ?_
  have hquiet :
      noiseAt (complexLibrary fun _ _ => 0) (identityConfig (K := ℂ) 2 (20 : ℝ) 1) t = 0 :=
    funext fun r => mul_zero _
  rw [hquiet, mulVec_zero] at hd
  have hzero : d = 0 := identity_quiet hd
  rw [hzero]
  simp [scale_pos]

end NrBaseband
