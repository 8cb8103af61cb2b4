import NrBaseband.ModulationLabels

/-!
# Gray labels

`bin_to_gray` and `gray_to_bin` undo each other at every width, and neighbouring levels have labels
that differ in one bit (`gray_code_spec`).
-/

namespace NrBaseband

open Foundation Foundation.MachineInt

/-! ## The loop -/

/-- A round of the loop of `gray_to_bin`, on the variables `b` and `g`. -/
def grayRound (state : Nat × Nat) : Nat × Nat :=
  (state.1 ^^^ (state.2 >>> 1), state.2 >>> 1)

/-- The loop of `gray_to_bin` runs a number of rounds; then its condition fails. -/
theorem gray_rounds (b g : Nat) : ∃ rounds,
    (∀ r < rounds, (grayRound^[r] (b, g)).2 >>> 1 ≠ 0) ∧
      (grayRound^[rounds] (b, g)).2 >>> 1 = 0 ∧
      (grayRound^[rounds] (b, g)).1 = grayToBinLoop b g := by
  induction b, g using grayToBinLoop.induct with
  | case1 b g h =>
      refine ⟨0, fun r hr => absurd hr (Nat.not_lt_zero r), h, ?_⟩
      rw [grayToBinLoop, if_pos h]
      rfl
  | case2 b g h ih =>
      obtain ⟨rounds, hrun, hend, hresult⟩ := ih
      refine ⟨rounds + 1, fun r hr => ?_, hend, ?_⟩
      · cases r with
        | zero => exact h
        | succ r => exact hrun r (Nat.lt_of_succ_lt_succ hr)
      · rw [grayToBinLoop, if_neg h, ← hresult]
        rfl

/-! ## Neighbours -/

/-- The bits from an index on that `gray_pam_amp` reads. -/
def axisBits (bits : Bits) (start nbits : Nat) : Bits := (bits.drop start).take nbits

/-- An amplitude that is returned is the level of the bits that were read. -/
theorem gray_pam_amp_level {bits : Bits} {start nbits : Nat} (hn : 1 ≤ nbits) {amp : Int}
    (h : grayPamAmp bits start nbits = .ok amp) :
    amp = level nbits ((axisBits bits start nbits).foldl pushBit 0) ∧
      (axisBits bits start nbits).length = nbits := by
  have hlast := gray_pam_amp_reads h (by omega : nbits - 1 < nbits)
  have hindex : toSizeT ((start : Int) + (nbits - 1 : Nat)) = start + (nbits - 1) := by
    rw [← Int.natCast_add]
    exact to_size_t_natCast (by omega)
  rw [hindex] at hlast
  have hlength : start + nbits ≤ bits.length := by omega
  rw [gray_pam_amp_spec hlength (by omega), Except.ok.injEq] at h
  refine ⟨h.symm, ?_⟩
  rw [axisBits, List.length_take, List.length_drop]
  omega

/-- Two vectors of bits that differ at one index. -/
def DifferInOneBit (bits other : Bits) : Prop := ∃ j, ∀ i : Nat, bits[i]? ≠ other[i]? ↔ i = j

/-- The labels of neighbouring levels differ in one bit. -/
theorem neighbours_differ {bits other : Bits} {nbits : Nat} (hbits : IsBits bits)
    (hother : IsBits other) (hlength : bits.length = nbits) (hlength' : other.length = nbits)
    (h : level nbits (other.foldl pushBit 0) = level nbits (bits.foldl pushBit 0) - 2) :
    DifferInOneBit bits other := by
  have hg := fold_push_bit_lt hbits
  have hg' := fold_push_bit_lt hother
  have hlabel := label_bits_fold hbits
  have hlabel' := label_bits_fold hother
  rw [hlength] at hg hlabel
  rw [hlength'] at hg' hlabel'
  generalize bits.foldl pushBit 0 = g at h hg hlabel
  generalize other.foldl pushBit 0 = g' at h hg' hlabel'
  have hnext : Gray.decode g' = Gray.decode g + 1 := by
    unfold level at h
    omega
  obtain ⟨k, hk⟩ := Gray.encode_succ (Gray.decode g)
  rw [← hnext, Gray.encode_decode, Gray.encode_decode] at hk
  refine ⟨nbits - 1 - k, fun i => ?_⟩
  rw [← hk.digits (hk.lt hg hg') i, ← to_nat_label_bits, ← to_nat_label_bits, hlabel, hlabel',
    List.getElem?_map, List.getElem?_map]
  exact ((Option.map_injective fun _ _ => UInt8.toNat_inj.mp).ne_iff).symm

/-! ## The code -/

/-- `gray_to_bin` and `bin_to_gray` undo each other on the numbers of a width, and stay there; the
loop of `gray_to_bin` ends. -/
structure GrayInverse (width v : Nat) : Prop where
  to_bin : grayToBin (binToGray v) = v
  to_gray : binToGray (grayToBin v) = v
  gray_lt : binToGray v < 2 ^ width
  bin_lt : grayToBin v < 2 ^ width
  ends : ∃ rounds, (∀ r < rounds, (grayRound^[r] (v, v)).2 >>> 1 ≠ 0) ∧
    (grayRound^[rounds] (v, v)).2 >>> 1 = 0 ∧ (grayRound^[rounds] (v, v)).1 = grayToBin v

/-- Gray coding is a bijection at every width; the codes of consecutive numbers, and the bits of
neighbouring amplitudes, differ in one bit. -/
theorem gray_code_spec {width : Nat} (hwidth : 1 ≤ width) :
    (∀ v < 2 ^ width, GrayInverse width v) ∧
    (∀ v, v + 1 < 2 ^ width → ∃ k < width, Gray.DifferAt (binToGray v) (binToGray (v + 1)) k) ∧
    ∀ (bits other : Bits) (start start' : Nat) (amp : Int), IsBits bits → IsBits other →
      grayPamAmp bits start width = .ok amp → grayPamAmp other start' width = .ok (amp - 2) →
      DifferInOneBit (axisBits bits start width) (axisBits other start' width) := by
  refine ⟨fun v hv => ?_, fun v hv => ?_, fun bits other start start' amp hbits hother h h' => ?_⟩
  · exact {
      to_bin := (gray_to_bin_eq _).trans (Gray.decode_encode v)
      to_gray := by
        rw [gray_to_bin_eq]
        exact Gray.encode_decode v
      gray_lt := Gray.encode_lt hv
      bin_lt := by
        rw [gray_to_bin_eq]
        exact Gray.decode_lt hv
      ends := gray_rounds v v }
  · obtain ⟨k, hk⟩ := Gray.encode_succ v
    exact ⟨k, hk.lt (Gray.encode_lt (Nat.lt_of_succ_lt hv)) (Gray.encode_lt hv), hk⟩
  · obtain ⟨hamp, hlength⟩ := gray_pam_amp_level hwidth h
    obtain ⟨hamp', hlength'⟩ := gray_pam_amp_level hwidth h'
    refine neighbours_differ ?_ ?_ hlength hlength' (by rw [← hamp, ← hamp'])
    · exact fun b hb => hbits b (List.mem_of_mem_drop (List.mem_of_mem_take hb))
    · exact fun b hb => hother b (List.mem_of_mem_drop (List.mem_of_mem_take hb))

/-- The sixteen codes of four bits. -/
theorem gray_code_spec_four :
    (∀ v < 2 ^ 4, GrayInverse 4 v) ∧
    (∀ v, v + 1 < 2 ^ 4 → ∃ k < 4, Gray.DifferAt (binToGray v) (binToGray (v + 1)) k) ∧
    ∀ (bits other : Bits) (start start' : Nat) (amp : Int), IsBits bits → IsBits other →
      grayPamAmp bits start 4 = .ok amp → grayPamAmp other start' 4 = .ok (amp - 2) →
      DifferInOneBit (axisBits bits start 4) (axisBits other start' 4) :=
  gray_code_spec (by decide)

end NrBaseband
