import NrBaseband.Demapping

/-!
# Decision regions of the hard demapper

Around every amplitude the nearest level is the amplitude itself as long as a part moves by less
than the scale, half the distance of two levels (`hard_axis_region`). So the hard demapper returns
the bits of a modulated vector whatever moves its symbols inside these regions.
-/

namespace NrBaseband

open Foundation Foundation.MachineInt Foundation.Pieces

variable {R : Type} [Field R] [LinearOrder R] [IsStrictOrderedRing R]

/-- Two amplitudes closer than twice the scale have the same label. -/
theorem level_separated {s x : R} (hs : 0 < s) {nbits g g' : Nat}
    (h : |x - s * (level nbits g : R)| < s) (h' : |x - s * (level nbits g' : R)| < s) : g = g' := by
  obtain ⟨hlow, hhigh⟩ := abs_lt.mp h
  obtain ⟨hlow', hhigh'⟩ := abs_lt.mp h'
  have hbelow : s * ((level nbits g - level nbits g' : Int) : R) < s * (2 : Int) := by
    push_cast
    linarith
  have habove : s * (-2 : Int) < s * ((level nbits g - level nbits g' : Int) : R) := by
    push_cast
    linarith
  have hlt := Int.cast_lt.mp (lt_of_mul_lt_mul_left hbelow hs.le)
  have hgt := Int.cast_lt.mp (lt_of_mul_lt_mul_left habove hs.le)
  -- the amplitudes have the same parity
  have hlevel : level nbits g = level nbits g' := by
    unfold level at *
    omega
  exact level_injective hlevel

/-- A part that is closer to an amplitude than the scale is decided for its label. -/
theorem hard_axis_region {s x : R} (hs : 0 < s) {nbits g : Nat} (hg : g < 2 ^ nbits)
    (h : |x - s * (level nbits g : R)| < s) :
    grayBitsFromAmp (nearest s (1 <<< nbits) x) nbits = labelBits g nbits := by
  obtain ⟨g', _, hbits, hbest⟩ := hard_axis_spec s x nbits
  rw [hbits, level_separated hs (lt_of_le_of_lt (hbest g hg) h) h]

variable (num : ExactReal R)

/-- A received symbol whose parts have moved by less than the scale. -/
def InRegion (order : ModulationOrder) (sent received : Point R) : Prop :=
  |received.re - sent.re| < scaleFor num order ∧ |received.im - sent.im| < scaleFor num order

/-- The hard bits of a symbol in the region of a label are the label. -/
theorem hard_symbol_region {order : ModulationOrder} {n : Nat} (hn : n < 2 ^ bitsPerSymbol order)
    {z : Point R} (h : InRegion num order (labelPoint num order n) z) :
    grayBitsFromAmp (nearest (scaleFor num order) (1 <<< (bitsPerSymbol order / 2)) z.re)
        (bitsPerSymbol order / 2) ++
      grayBitsFromAmp (nearest (scaleFor num order) (1 <<< (bitsPerSymbol order / 2)) z.im)
        (bitsPerSymbol order / 2) = labelBits n (bitsPerSymbol order) := by
  have hs := scale_pos num order
  have hhalf := half_add_half order
  obtain ⟨hre, him⟩ := h
  unfold labelPoint at hre him
  dsimp only at hre him
  generalize bitsPerSymbol order / 2 = half at *
  have hhigh : n >>> half < 2 ^ half := by
    rw [Nat.shiftRight_eq_div_pow]
    refine Nat.div_lt_of_lt_mul ?_
    rwa [← pow_add, hhalf]
  rw [hard_axis_region hs hhigh hre, hard_axis_region hs (Nat.mod_lt _ (Nat.two_pow_pos half)) him,
    ← hhalf, label_bits_add, label_bits_mod n half]

/-- Modulation returns symbols that are decided for the bits wherever they move in their regions. -/
def HardInverts (order : ModulationOrder) (bits : Bits) : Prop :=
  ∃ syms, modulate num bits order = .ok syms ∧
    ∀ received, List.Forall₂ (InRegion num order) syms received →
      demodulateHard num received order = bits

/-- The hard demapper inverts modulation in the whole decision regions exactly when the indices of
the bits fit an `int`. No vector of bytes has `2 ^ 63` of them. -/
theorem hard_inverts_iff (order : ModulationOrder) {bits : Bits} (hbits : IsBits bits)
    (hlength : bits.length % bitsPerSymbol order = 0) (hsize : bits.length < 2 ^ 63) :
    HardInverts num order bits ↔ bits.length ≤ 2 ^ 31 := by
  constructor
  · intro ⟨_, hsyms, _⟩
    exact length_of_modulate num hsize hsyms
  · intro hfit
    refine ⟨_, modulate_spec num hbits hlength hfit, fun received hreceived => ?_⟩
    rw [List.forall₂_map_left_iff] at hreceived
    have hpieces : received.flatMap (fun z =>
        grayBitsFromAmp (nearest (scaleFor num order) (1 <<< (bitsPerSymbol order / 2)) z.re)
            (bitsPerSymbol order / 2) ++
          grayBitsFromAmp (nearest (scaleFor num order) (1 <<< (bitsPerSymbol order / 2)) z.im)
            (bitsPerSymbol order / 2)) =
        (List.range (bits.length / bitsPerSymbol order)).flatMap
          (piece 0 (bitsPerSymbol order) bits) := by
      refine Checked.flat_map_of_forall₂ hreceived fun n _ z hz => ?_
      have hpiece := is_bits_piece hbits (bitsPerSymbol order) n
      have hlt := fold_push_bit_lt hpiece
      have hlabel := label_bits_fold hpiece
      rw [length_piece] at hlt hlabel
      rw [hard_symbol_region num hlt hz, hlabel]
    exact hpieces.trans (flat_map_pieces 0 hlength)

/-- Four bits, two for each part of one symbol. -/
theorem hard_inverts_qam16 : HardInverts realNumbers .qam16 [1, 0, 1, 1] := by
  have hbits : IsBits [1, 0, 1, 1] := by simp
  exact (hard_inverts_iff realNumbers .qam16 hbits rfl (by norm_num)).mpr (by norm_num)

/-- A vector of `2 ^ 31 + 2` zeros, whose last symbol has indices that do not fit. -/
theorem hard_not_inverted :
    IsBits (List.replicate (2 ^ 31 + 2) 0) ∧
      (List.replicate (2 ^ 31 + 2) (0 : UInt8)).length % bitsPerSymbol .qpsk = 0 ∧
      ¬HardInverts realNumbers .qpsk (List.replicate (2 ^ 31 + 2) 0) := by
  refine ⟨is_bits_replicate _, ?_, fun ⟨syms, hsyms, _⟩ => ?_⟩
  · rw [List.length_replicate]
    rfl
  · have hle := length_of_modulate realNumbers (by rw [List.length_replicate]; norm_num) hsyms
    rw [List.length_replicate] at hle
    exact absurd hle (by norm_num)

end NrBaseband
