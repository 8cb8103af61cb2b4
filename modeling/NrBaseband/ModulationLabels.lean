import NrBaseband.Modulation
import NrBaseband.Foundation.GrayCode
import NrBaseband.Foundation.RowMajor

/-!
# Labels and amplitudes

Every point of a constellation has a label, the bits that modulation maps to it: the Gray code of
the level of each part, the real part first. `symbol_from_index_eq` and `modulate_spec` give the
point of a label, and `hard_axis_spec` the nearest level of a received part with its label.
-/

namespace NrBaseband

open Foundation Foundation.MachineInt

/-! ## Labels -/

/-- The last bits of a label. -/
def labelBits (n width : Nat) : Bits := (Gray.digits n width).map UInt8.ofNat

/-- The loop of `gray_to_bin` adds all shifts of its code. -/
theorem gray_to_bin_loop_eq (b g : Nat) : grayToBinLoop b g = b ^^^ Gray.decode (g >>> 1) := by
  induction b, g using grayToBinLoop.induct with
  | case1 b g h => rw [grayToBinLoop, if_pos h, h, Gray.decode_zero, Nat.xor_zero]
  | case2 b g h ih => rw [grayToBinLoop, if_neg h, ih, Nat.xor_assoc, ← Gray.decode_eq]

/-- `gray_to_bin` decodes the Gray code. -/
theorem gray_to_bin_eq (g : Nat) : grayToBin g = Gray.decode g := by
  rw [grayToBin, gray_to_bin_loop_eq, ← Gray.decode_eq]

/-- Pushing bits reads a label. -/
theorem fold_push_bit (bits : Bits) :
    bits.foldl pushBit 0 = Gray.number (bits.map UInt8.toNat) := by
  rw [Gray.number, List.foldl_map]
  rfl

/-- The bits of a label as digits. -/
theorem to_nat_label_bits (n width : Nat) :
    (labelBits n width).map UInt8.toNat = Gray.digits n width := by
  rw [labelBits, List.map_map]
  refine (List.map_congr_left fun d hd => ?_).trans (List.map_id _)
  have hlt := Gray.digits_lt hd
  exact UInt8.toNat_ofNat_of_lt' (by rw [UInt8.size]; omega)

/-- Reading the bits of a label gives it up to its higher part. -/
theorem fold_label_bits (n width : Nat) :
    (labelBits n width).foldl pushBit 0 = n % 2 ^ width := by
  rw [fold_push_bit, to_nat_label_bits, Gray.number_digits]

/-- Bits are binary digits. -/
theorem digits_of_bits {bits : Bits} (h : IsBits bits) : ∀ d ∈ bits.map UInt8.toNat, d < 2 := by
  intro d hd
  obtain ⟨b, hb, rfl⟩ := List.mem_map.mp hd
  rcases h b hb with rfl | rfl
  · exact Nat.two_pos
  · exact Nat.one_lt_two

/-- A vector of bits is the label that it reads as. -/
theorem label_bits_fold {bits : Bits} (h : IsBits bits) :
    labelBits (bits.foldl pushBit 0) bits.length = bits := by
  have hlabel := Gray.digits_number (digits_of_bits h)
  rw [List.length_map, ← fold_push_bit] at hlabel
  rw [labelBits, hlabel, List.map_map]
  exact (List.map_congr_left fun b _ => UInt8.ofNat_toNat).trans (List.map_id _)

/-- A label of bits is below the number of labels. -/
theorem fold_push_bit_lt {bits : Bits} (h : IsBits bits) :
    bits.foldl pushBit 0 < 2 ^ bits.length := by
  have hlt := Gray.number_lt (digits_of_bits h)
  rwa [List.length_map, ← fold_push_bit] at hlt

/-- A label has as many bits as asked for. -/
@[simp] theorem length_label_bits (n width : Nat) : (labelBits n width).length = width := by
  simp [labelBits]

/-- The bits of a label are those of the higher part followed by the last ones. -/
theorem label_bits_add (n p q : Nat) :
    labelBits n (p + q) = labelBits (n >>> q) p ++ labelBits n q := by
  rw [labelBits, Gray.digits_add, List.map_append]
  rfl

/-- The bits only depend on the last part of the label. -/
theorem label_bits_mod (n width : Nat) : labelBits n width = labelBits (n % 2 ^ width) width := by
  rw [labelBits, labelBits, Gray.digits_mod]

/-! ## Levels -/

/-- The amplitude with a Gray label. -/
def level (nbits g : Nat) : Int := (2 ^ nbits - 1) - 2 * Gray.decode g

/-- The number of levels. -/
theorem levels_eq (nbits : Nat) : ((1 <<< nbits : Nat) : Int) = 2 ^ nbits := by
  rw [Nat.one_shiftLeft]
  push_cast
  rfl

/-- Different labels have different amplitudes. -/
theorem level_injective {nbits g g' : Nat} (h : level nbits g = level nbits g') : g = g' := by
  unfold level at h
  have hdecode : Gray.decode g = Gray.decode g' := by omega
  rw [← Gray.encode_decode g, hdecode, Gray.encode_decode]

/-- `gray_bits_from_amp` gives the label of an amplitude. -/
theorem gray_bits_of_level {nbits g : Nat} (hg : g < 2 ^ nbits) :
    grayBitsFromAmp (level nbits g) nbits = labelBits g nbits := by
  have hdecode := Gray.decode_lt hg
  have hhalf : ((2 ^ nbits - 1 : Int) - level nbits g).tdiv 2 = Gray.decode g := by
    have htwice : (2 ^ nbits - 1 : Int) - level nbits g = 2 * Gray.decode g := by
      unfold level
      omega
    rw [htwice, Int.mul_tdiv_cancel_left _ two_ne_zero]
  have hhigh : (Gray.decode g : Int) < 2 ^ nbits := by exact_mod_cast hdecode
  unfold grayBitsFromAmp
  simp only [levels_eq, hhalf]
  rw [if_neg (by omega), if_neg (by omega), Int.toNat_natCast]
  show ((List.range nbits).reverse.map fun i =>
    UInt8.ofNat ((Gray.encode (Gray.decode g) >>> i) &&& 1)) = _
  rw [Gray.encode_decode, labelBits, Gray.digits, List.map_map]
  rfl

/-- `gray_pam_amp` gives the amplitude of the label that it reads. -/
theorem gray_pam_amp_spec {bits : Bits} {start nbits : Nat} (hlength : start + nbits ≤ bits.length)
    (hfit : start + nbits ≤ 2 ^ 31) :
    grayPamAmp bits start nbits =
      .ok (level nbits (((bits.drop start).take nbits).foldl pushBit 0)) := by
  have hloop := range_loop
    (fun k g => g = ((bits.drop start).take k).foldl pushBit 0)
    (fun g (i : Nat) => do
      let index ← int32 ((start : Int) + i)
      let b ← Checked.read bits (toSizeT index)
      return pushBit g b) nbits ?_ (a := 0) rfl
  · obtain ⟨g, hrun, hg⟩ := hloop
    rw [grayPamAmp, hrun, Checked.ok_bind]
    show Except.ok (((1 <<< nbits : Nat) : Int) - 1 - 2 * (grayToBin g : Int)) = _
    rw [gray_to_bin_eq, levels_eq, hg, level]
  · intro k g hk hg
    have hindex : (start : Int) + k = (start + k : Nat) := by push_cast; rfl
    have hlt : start + k < bits.length := by omega
    refine ⟨pushBit g bits[start + k], ?_, ?_⟩
    · rw [int32_of_range (by omega) (by omega), Checked.ok_bind, hindex,
        to_size_t_natCast (by omega), Checked.read_of_lt hlt]
      rfl
    · have hlt' : k < (bits.drop start).length := by
        rw [List.length_drop]
        omega
      rw [List.take_add_one, List.getElem?_eq_getElem hlt', List.foldl_append, ← hg,
        List.getElem_drop]
      rfl

/-- An amplitude that is returned has read its bits at indices that fit an `int`. -/
theorem gray_pam_amp_reads {bits : Bits} {start amp : Int} {nbits j : Nat}
    (h : grayPamAmp bits start nbits = .ok amp) (hj : j < nbits) :
    start + j < 2 ^ 31 ∧ toSizeT (start + j) < bits.length := by
  rw [grayPamAmp] at h
  obtain ⟨g, hloop, _⟩ := Checked.bind_eq_ok.mp h
  obtain ⟨before, after, hstep⟩ := Checked.fold_step hloop (List.mem_range.mpr hj)
  obtain ⟨index, hindex, hrest⟩ := Checked.bind_eq_ok.mp hstep
  obtain ⟨rfl, _, hhigh⟩ := int32_eq_ok.mp hindex
  obtain ⟨b, hread, _⟩ := Checked.bind_eq_ok.mp hrest
  refine ⟨hhigh, not_le.mp fun hle => ?_⟩
  rw [Checked.read_of_le hle] at hread
  cases hread

/-! ## Points -/

section

variable {R : Type} [Field R] [LinearOrder R] (num : ExactReal R)

/-- The point with a label. -/
def labelPoint (order : ModulationOrder) (n : Nat) : Point R :=
  let half := bitsPerSymbol order / 2
  ⟨scaleFor num order * (level half (n >>> half) : R),
    scaleFor num order * (level half (n % 2 ^ half) : R)⟩

/-- The two parts share the bits of a symbol equally. -/
theorem half_add_half (order : ModulationOrder) :
    bitsPerSymbol order / 2 + bitsPerSymbol order / 2 = bitsPerSymbol order := by
  cases order <;> rfl

/-- `symbol_from_index` gives the point of a label. -/
theorem symbol_from_index_eq {order : ModulationOrder} {n : Nat}
    (hn : n < 2 ^ bitsPerSymbol order) : symbolFromIndex num n order = labelPoint num order n := by
  have hbits : (List.range (bitsPerSymbol order)).reverse.map
      (fun i => UInt8.ofNat ((n >>> i) &&& 1)) =
        labelBits (n >>> (bitsPerSymbol order / 2)) (bitsPerSymbol order / 2) ++
          labelBits n (bitsPerSymbol order / 2) := by
    rw [← label_bits_add, half_add_half, labelBits, Gray.digits, List.map_map]
    rfl
  have hhigh : n >>> (bitsPerSymbol order / 2) < 2 ^ (bitsPerSymbol order / 2) := by
    rw [Nat.shiftRight_eq_div_pow]
    refine Nat.div_lt_of_lt_mul ?_
    rwa [← pow_add, half_add_half]
  unfold symbolFromIndex labelPoint
  simp only [hbits, List.take_left' (length_label_bits _ _),
    List.drop_left' (length_label_bits _ _), fold_label_bits, Nat.mod_eq_of_lt hhigh,
    gray_to_bin_eq, levels_eq]
  rfl

/-- One symbol is the point that its bits label. -/
theorem modulate_symbol_spec {bits : Bits} (hbits : IsBits bits) (order : ModulationOrder) {i : Nat}
    (hlength : i + bitsPerSymbol order ≤ bits.length) (hfit : i + bitsPerSymbol order ≤ 2 ^ 31) :
    modulateSymbol num bits order i = .ok (labelPoint num order
      (((bits.drop i).take (bitsPerSymbol order)).foldl pushBit 0)) := by
  have hhalf := half_add_half order
  generalize hh : bitsPerSymbol order / 2 = half at hhalf
  have hm : 0 < bitsPerSymbol order := by cases order <;> decide
  have hcast : toInt32 i = (i : Nat) := to_int32_of_range (by omega) (by omega)
  have hstart : (i : Int) + half = (i + half : Nat) := by push_cast; rfl
  -- the label splits into the labels of the parts
  have hsplit : (bits.drop i).take (bitsPerSymbol order) =
      (bits.drop i).take half ++ (bits.drop (i + half)).take half := by
    rw [← hhalf, List.take_add, List.drop_drop]
  have hlow : IsBits ((bits.drop (i + half)).take half) := fun b hb =>
    hbits b (List.mem_of_mem_drop (List.mem_of_mem_take hb))
  have hcount : ((bits.drop (i + half)).take half).length = half := by
    rw [List.length_take, List.length_drop]
    omega
  have hlabel : ((bits.drop i).take (bitsPerSymbol order)).foldl pushBit 0 =
      ((bits.drop i).take half).foldl pushBit 0 * 2 ^ half +
        ((bits.drop (i + half)).take half).foldl pushBit 0 := by
    rw [hsplit, fold_push_bit, List.map_append, Gray.number_append (digits_of_bits hlow),
      List.length_map, hcount, fold_push_bit, fold_push_bit]
  have hlt := fold_push_bit_lt hlow
  rw [hcount] at hlt
  unfold modulateSymbol labelPoint
  simp only [hh, hcast]
  rw [gray_pam_amp_spec (by omega) (by omega), Checked.ok_bind,
    int32_of_range (by omega) (by omega), Checked.ok_bind, hstart,
    gray_pam_amp_spec (by omega) (by omega), Checked.ok_bind, hlabel, Nat.shiftRight_eq_div_pow,
    Nat.mul_comm, Nat.mul_add_div (Nat.two_pow_pos half), Nat.div_eq_of_lt hlt, Nat.add_zero,
    Nat.mul_add_mod, Nat.mod_eq_of_lt hlt]
  rfl

/-- A symbol that is modulated has read all its bits at indices that fit an `int`. -/
theorem modulate_symbol_reads {bits : Bits} {order : ModulationOrder} {i j : Nat} {z : Point R}
    (h : modulateSymbol num bits order i = .ok z) (hj : j < bitsPerSymbol order) :
    toInt32 i + j < 2 ^ 31 ∧ toSizeT (toInt32 i + j) < bits.length := by
  have hhalf := half_add_half order
  unfold modulateSymbol at h
  generalize bitsPerSymbol order / 2 = half at hhalf h
  obtain ⟨re, hre, h⟩ := Checked.bind_eq_ok.mp h
  obtain ⟨start, hstart, h⟩ := Checked.bind_eq_ok.mp h
  obtain ⟨im, him, _⟩ := Checked.bind_eq_ok.mp h
  have hvalue := (int32_eq_ok.mp hstart).1
  by_cases hfirst : j < half
  · exact gray_pam_amp_reads hre hfirst
  · have hreads := gray_pam_amp_reads him (by omega : j - half < half)
    have hindex : start + ((j - half : Nat) : Int) = toInt32 i + j := by omega
    rwa [hindex] at hreads

/-- The amplitudes that `nearest` compares are the levels. -/
theorem mem_amplitudes {nbits : Nat} {a : Int} :
    a ∈ ((List.range (1 <<< nbits)).map fun i : Nat =>
        -(((1 <<< nbits : Nat) : Int) - 1) + 2 * (i : Int)) ↔
      ∃ g < 2 ^ nbits, a = level nbits g := by
  rw [List.mem_map, levels_eq, Nat.one_shiftLeft]
  constructor
  · intro ⟨i, hi, hamp⟩
    have hlt := List.mem_range.mp hi
    have hcode : 2 ^ nbits - 1 - i < 2 ^ nbits := by omega
    refine ⟨Gray.encode (2 ^ nbits - 1 - i), Gray.encode_lt hcode, ?_⟩
    have hcast : ((2 ^ nbits - 1 - i : Nat) : Int) = 2 ^ nbits - 1 - i := by
      rw [Nat.sub_sub, Nat.cast_sub (by omega)]
      push_cast
      ring
    rw [level, Gray.decode_encode, hcast, ← hamp]
    ring
  · intro ⟨g, hg, hamp⟩
    have hdecode := Gray.decode_lt hg
    refine ⟨2 ^ nbits - 1 - Gray.decode g, List.mem_range.mpr (by omega), ?_⟩
    have hcast : ((2 ^ nbits - 1 - Gray.decode g : Nat) : Int) = 2 ^ nbits - 1 - Gray.decode g := by
      rw [Nat.sub_sub, Nat.cast_sub (by omega)]
      push_cast
      ring
    rw [hamp, level, hcast]
    ring

/-- The hard bits of a part are the label of a nearest level. -/
theorem hard_axis_spec (s x : R) (nbits : Nat) :
    ∃ g < 2 ^ nbits, grayBitsFromAmp (nearest s (1 <<< nbits) x) nbits = labelBits g nbits ∧
      ∀ g' < 2 ^ nbits, |x - s * (level nbits g : R)| ≤ |x - s * (level nbits g' : R)| := by
  have hzero := mem_amplitudes.mpr ⟨0, Nat.two_pow_pos nbits, rfl⟩
  have hfold := nearest_fold (fun a : Int => |x - s * (a : R)|)
    (-(((1 <<< nbits : Nat) : Int) - 1)) ((List.range (1 <<< nbits)).map fun i : Nat =>
      -(((1 <<< nbits : Nat) : Int) - 1) + 2 * (i : Int))
  obtain ⟨hmem, _, hle⟩ := hfold.of_mem hzero
  obtain ⟨g, hg, hbest⟩ := mem_amplitudes.mp hmem
  have hnearest : nearest s (1 <<< nbits) x = level nbits g := hbest
  rw [hnearest]
  refine ⟨g, hg, gray_bits_of_level hg, fun g' hg' => ?_⟩
  rw [hbest] at hle
  exact hle _ (mem_amplitudes.mpr ⟨g', hg', rfl⟩)

end

end NrBaseband
