import NrBaseband.ModulationLabels
import NrBaseband.Bits

/-!
# Soft and hard demapping

Both demappers decide for a nearest point of the constellation: the hard one outputs its label
(`hard_symbol_spec`), and the sign of every soft value fits it (`symbol_llr_fits`). So they agree
wherever a soft value is not zero, and on a modulated symbol, whose nearest point is unique, no soft
value is zero.
-/

namespace NrBaseband

open Foundation Foundation.MachineInt Foundation.Pieces

/-- A bit of a label. -/
def labelBit (m n k : Nat) : UInt8 := if (n >>> (m - 1 - k)) &&& 1 = 0 then 0 else 1

/-- The bits of a label one by one. -/
theorem label_bits_eq (n m : Nat) : labelBits n m = (List.range m).map (labelBit m n) := by
  have hreverse : (List.range m).reverse = (List.range m).map (m - 1 - ·) := by
    rw [List.range_eq_range', List.reverse_range', ← List.range_eq_range']
    refine List.map_congr_left fun i _ => ?_
    rw [Nat.zero_add]
  rw [labelBits, Gray.digits, List.map_map, hreverse, List.map_map]
  refine List.map_congr_left fun k _ => ?_
  show UInt8.ofNat ((n >>> (m - 1 - k)) &&& 1) = labelBit m n k
  rw [labelBit, Nat.and_one_is_mod]
  rcases Nat.mod_two_eq_zero_or_one (n >>> (m - 1 - k)) with h | h <;> rw [h] <;> rfl

variable {R : Type} [Field R] [LinearOrder R]

/-- The sign of a soft value fits a bit. -/
def Fits (e : R) (b : UInt8) : Prop := b = 0 ∧ 0 ≤ e ∨ b = 1 ∧ e ≤ 0

/-- A soft value that is not zero decides for the bit that its sign fits. -/
theorem Fits.decides {e : R} {b : UInt8} (h : Fits e b) (hne : e ≠ 0) :
    (if (Extended.finite e).nonneg then 0 else 1) = b := by
  rw [Extended.nonneg_finite]
  rcases h with ⟨rfl, hle⟩ | ⟨rfl, hle⟩
  · rw [if_pos (decide_eq_true hle)]
  · have hlt : ¬0 ≤ e := not_le.mpr (lt_of_le_of_ne hle hne)
    rw [if_neg (by simpa using hlt)]

/-- Both values of a bit occur among the labels. -/
theorem exists_label {M m k : Nat} (hM : M = 2 ^ m) (hk : k < m) :
    (∃ s : Fin M, (s.val >>> (m - 1 - k)) &&& 1 = 0) ∧
      ∃ s : Fin M, ¬(s.val >>> (m - 1 - k)) &&& 1 = 0 := by
  have hpos := Nat.two_pow_pos m
  refine ⟨⟨⟨0, by omega⟩, by rw [Nat.zero_shiftRight, Nat.zero_and]⟩, ⟨2 ^ (m - 1 - k), ?_⟩, ?_⟩
  · rw [hM]
    exact Nat.pow_lt_pow_right Nat.one_lt_two (by omega)
  · show ¬(2 ^ (m - 1 - k) >>> (m - 1 - k)) &&& 1 = 0
    rw [Nat.shiftRight_eq_div_pow, Nat.div_self (Nat.two_pow_pos _)]
    decide

/-- A soft value compares the least distances of the points whose label has a bit and of those whose
label has not. -/
theorem symbol_llr_eq {M m k : Nat} (hM : M = 2 ^ m) (hk : k < m) (alphabet : Vector (Point R) M)
    (inv2s : R) (y : Point R) :
    ∃ best0 best1 : Fin M, (best0.val >>> (m - 1 - k)) &&& 1 = 0 ∧
      ¬(best1.val >>> (m - 1 - k)) &&& 1 = 0 ∧
      symbolLlr alphabet m inv2s y k = .finite (inv2s * (squaredDistance y (alphabet.get best1) -
        squaredDistance y (alphabet.get best0))) ∧
      (∀ s : Fin M, (s.val >>> (m - 1 - k)) &&& 1 = 0 →
        squaredDistance y (alphabet.get best0) ≤ squaredDistance y (alphabet.get s)) ∧
      ∀ s : Fin M, ¬(s.val >>> (m - 1 - k)) &&& 1 = 0 →
        squaredDistance y (alphabet.get best1) ≤ squaredDistance y (alphabet.get s) := by
  obtain ⟨⟨s0, hs0⟩, s1, hs1⟩ := exists_label hM hk
  obtain ⟨⟨best0, hfirst⟩, best1, hsecond⟩ := class_fold
    (fun s => squaredDistance y (alphabet.get s))
    (fun s : Fin M => (s.val >>> (m - 1 - k)) &&& 1 = 0) s0 (List.finRange M)
  have hmem0 (s : Fin M) (h : (s.val >>> (m - 1 - k)) &&& 1 = 0) :
      s ∈ (List.finRange M).filter fun s => (s.val >>> (m - 1 - k)) &&& 1 = 0 :=
    List.mem_filter.mpr ⟨List.mem_finRange s, decide_eq_true h⟩
  have hmem1 (s : Fin M) (h : ¬(s.val >>> (m - 1 - k)) &&& 1 = 0) :
      s ∈ (List.finRange M).filter fun s => ¬(s.val >>> (m - 1 - k)) &&& 1 = 0 :=
    List.mem_filter.mpr ⟨List.mem_finRange s, decide_eq_true h⟩
  obtain ⟨hbest0, hleast0, hle0⟩ := hfirst.of_mem (hmem0 s0 hs0)
  obtain ⟨hbest1, hleast1, hle1⟩ := hsecond.of_mem (hmem1 s1 hs1)
  refine ⟨best0, best1, of_decide_eq_true (List.mem_filter.mp hbest0).2,
    of_decide_eq_true (List.mem_filter.mp hbest1).2, ?_, fun s hs => hle0 s (hmem0 s hs),
    fun s hs => hle1 s (hmem1 s hs)⟩
  rw [symbolLlr, hleast0, hleast1, Extended.sub, Extended.neg, Extended.add_finite,
    ← sub_eq_add_neg]
  rfl

variable [IsStrictOrderedRing R]

/-- Every soft value of a symbol fits the label of a nearest point, and it is not zero where there
is only one. -/
theorem symbol_llr_fits {M m k : Nat} (hM : M = 2 ^ m) (hk : k < m) {alphabet : Vector (Point R) M}
    {inv2s : R} (hpos : 0 < inv2s) {y : Point R} {t : Fin M}
    (hmin : ∀ s, squaredDistance y (alphabet.get t) ≤ squaredDistance y (alphabet.get s)) :
    ∃ e, symbolLlr alphabet m inv2s y k = .finite e ∧ Fits e (labelBit m t k) ∧
      ((∀ s, s ≠ t → squaredDistance y (alphabet.get t) < squaredDistance y (alphabet.get s)) →
        e ≠ 0) := by
  obtain ⟨best0, best1, hclass0, hclass1, hvalue, hle0, hle1⟩ :=
    symbol_llr_eq hM hk alphabet inv2s y
  refine ⟨_, hvalue, ?_, fun hstrict hzero => ?_⟩
  · rw [labelBit]
    split
    case isTrue hbit =>
      exact .inl ⟨rfl, mul_nonneg (le_of_lt hpos)
        (sub_nonneg.mpr ((hle0 t hbit).trans (hmin best1)))⟩
    case isFalse hbit =>
      exact .inr ⟨rfl, mul_nonpos_of_nonneg_of_nonpos (le_of_lt hpos)
        (sub_nonpos.mpr ((hle1 t hbit).trans (hmin best0)))⟩
  · -- equal distances of the classes would be a second nearest point
    have hequal := sub_eq_zero.mp ((mul_eq_zero.mp hzero).resolve_left (ne_of_gt hpos))
    by_cases hbit : (t.val >>> (m - 1 - k)) &&& 1 = 0
    · have hne : best1 ≠ t := fun h => hclass1 (h ▸ hbit)
      have hlt := hstrict best1 hne
      rw [hequal] at hlt
      exact absurd (hle0 t hbit) (not_le.mpr hlt)
    · have hne : best0 ≠ t := fun h => hbit (h ▸ hclass0)
      have hlt := hstrict best0 hne
      rw [← hequal] at hlt
      exact absurd (hle1 t hbit) (not_le.mpr hlt)

/-! ## Received symbols -/

variable (num : ExactReal R)

/-- A number of labels. -/
theorem num_points (order : ModulationOrder) :
    1 <<< bitsPerSymbol order = 2 ^ bitsPerSymbol order := Nat.one_shiftLeft _

omit [IsStrictOrderedRing R] in
/-- A point of the constellation. -/
theorem get_constellation {order : ModulationOrder} (s : Fin (1 <<< bitsPerSymbol order)) :
    (constellation num order).get s = labelPoint num order s := by
  have hlt := s.is_lt.trans_eq (num_points order)
  rw [← symbol_from_index_eq num hlt]
  exact Vector.getElem_ofFn s.is_lt

/-- The hard bits of a symbol are the label of a nearest point. -/
theorem hard_symbol_spec (order : ModulationOrder) (z : Point R) :
    ∃ t : Fin (1 <<< bitsPerSymbol order),
      grayBitsFromAmp (nearest (scaleFor num order) (1 <<< (bitsPerSymbol order / 2)) z.re)
          (bitsPerSymbol order / 2) ++
        grayBitsFromAmp (nearest (scaleFor num order) (1 <<< (bitsPerSymbol order / 2)) z.im)
          (bitsPerSymbol order / 2) = labelBits t (bitsPerSymbol order) ∧
      ∀ s, squaredDistance z ((constellation num order).get t) ≤
        squaredDistance z ((constellation num order).get s) := by
  have hhalf := half_add_half order
  generalize hh : bitsPerSymbol order / 2 = half at hhalf
  obtain ⟨gI, hgI, hbitsI, hleI⟩ := hard_axis_spec (scaleFor num order) z.re half
  obtain ⟨gQ, hgQ, hbitsQ, hleQ⟩ := hard_axis_spec (scaleFor num order) z.im half
  have hhigh : (gI * 2 ^ half + gQ) >>> half = gI := by
    rw [Nat.shiftRight_eq_div_pow, Nat.mul_comm, Nat.mul_add_div (Nat.two_pow_pos half),
      Nat.div_eq_of_lt hgQ, Nat.add_zero]
  have hlow : (gI * 2 ^ half + gQ) % 2 ^ half = gQ := by
    rw [Nat.mul_comm, Nat.mul_add_mod, Nat.mod_eq_of_lt hgQ]
  have hlt : gI * 2 ^ half + gQ < 1 <<< bitsPerSymbol order := by
    rw [num_points, ← hhalf, pow_add]
    exact RowMajor.index_lt hgI hgQ
  refine ⟨⟨gI * 2 ^ half + gQ, hlt⟩, ?_, fun s => ?_⟩
  · show _ = labelBits (gI * 2 ^ half + gQ) (bitsPerSymbol order)
    rw [hbitsI, hbitsQ, ← hhalf, label_bits_add, hhigh,
      label_bits_mod (gI * 2 ^ half + gQ), hlow]
  · rw [get_constellation, get_constellation, labelPoint, labelPoint, hh]
    show squaredDistance z ⟨scaleFor num order * (level half ((gI * 2 ^ half + gQ) >>> half) : R),
      scaleFor num order * (level half ((gI * 2 ^ half + gQ) % 2 ^ half) : R)⟩ ≤ _
    rw [hhigh, hlow]
    have hs : s.val < 2 ^ half * 2 ^ half :=
      s.is_lt.trans_eq (by rw [num_points, ← hhalf, pow_add])
    have hI := hleI (s.val >>> half) (by
      rw [Nat.shiftRight_eq_div_pow]
      exact Nat.div_lt_of_lt_mul hs)
    have hQ := hleQ (s.val % 2 ^ half) (Nat.mod_lt _ (Nat.two_pow_pos half))
    exact add_le_add (sq_le_sq.mpr hI) (sq_le_sq.mpr hQ)

/-- The soft and the hard bits of a symbol fit each other. -/
theorem symbol_demap_fits (order : ModulationOrder) {inv2s : R} (hpos : 0 < inv2s) (z : Point R) :
    List.Forall₂ (fun l b => ∃ e, l = Extended.finite e ∧ Fits e b)
      ((List.range (bitsPerSymbol order)).map fun k =>
        symbolLlr (constellation num order) (bitsPerSymbol order) inv2s z k)
      (grayBitsFromAmp (nearest (scaleFor num order) (1 <<< (bitsPerSymbol order / 2)) z.re)
          (bitsPerSymbol order / 2) ++
        grayBitsFromAmp (nearest (scaleFor num order) (1 <<< (bitsPerSymbol order / 2)) z.im)
          (bitsPerSymbol order / 2)) := by
  obtain ⟨t, hlabel, hmin⟩ := hard_symbol_spec num order z
  rw [hlabel, label_bits_eq, List.forall₂_map_left_iff, List.forall₂_map_right_iff,
    List.forall₂_same]
  intro k hk
  obtain ⟨e, he, hfits, _⟩ :=
    symbol_llr_fits (num_points order) (List.mem_range.mp hk) hpos hmin
  exact ⟨e, he, hfits⟩

/-- The factor of all soft values is positive. -/
theorem inv2s_pos {noiseVar : R} (hnoise : 0 < noiseVar) : 0 < 1 / ((2 : Nat) * noiseVar) :=
  one_div_pos.mpr (mul_pos (Nat.cast_pos.mpr Nat.two_pos) hnoise)

/-- The two demappers agree on the symbols wherever a soft value is not zero. -/
def DemappersAgree (order : ModulationOrder) (noiseVar : R) (syms : ComplexVec (Point R)) : Prop :=
  ∃ llr, demodulateLlr num syms order noiseVar = .ok llr ∧
    llr.length = (demodulateHard num syms order).length ∧
    ∀ (i : Nat) (l : Extended R), llr[i]? = some l → l ≠ .finite 0 →
      (llrToBits llr)[i]? = (demodulateHard num syms order)[i]?

/-- The demappers agree on every list of symbols. -/
theorem demappers_agree (order : ModulationOrder) {noiseVar : R} (hnoise : 0 < noiseVar)
    (syms : ComplexVec (Point R)) : DemappersAgree num order noiseVar syms := by
  have hpos := inv2s_pos hnoise
  have hfits : List.Forall₂ (fun l b => ∃ e, l = Extended.finite e ∧ Fits e b)
      (syms.flatMap fun y => (List.range (bitsPerSymbol order)).map fun k =>
        symbolLlr (constellation num order) (bitsPerSymbol order) (1 / ((2 : Nat) * noiseVar)) y k)
      (demodulateHard num syms order) := by
    exact Checked.forall₂_flat_map syms fun z _ => symbol_demap_fits num order hpos z
  refine ⟨_, ?_, hfits.length_eq, fun i l hl hne => ?_⟩
  · rw [demodulateLlr, require_of hnoise]
    rfl
  · obtain ⟨hlt, rfl⟩ := List.getElem?_eq_some_iff.mp hl
    have hlt' := hlt
    rw [hfits.length_eq] at hlt'
    obtain ⟨e, he, hfit⟩ := hfits.get hlt hlt'
    rw [List.get_eq_getElem] at he
    rw [llrToBits, List.getElem?_map, hl, List.getElem?_eq_getElem hlt', he]
    have hdecides := hfit.decides fun hzero => hne (he.trans (congrArg Extended.finite hzero))
    exact congrArg some hdecides

/-! ## Modulated symbols -/

/-- Every scale is positive. -/
theorem scale_pos (order : ModulationOrder) : 0 < scaleFor num order := by
  cases order <;> exact one_div_pos.mpr (num.sqrt_pos (Nat.cast_pos.mpr (by decide)))

/-- Different labels have different points. -/
theorem label_point_injective {order : ModulationOrder} {n n' : Nat}
    (h : labelPoint num order n = labelPoint num order n') : n = n' := by
  have hscale : scaleFor num order ≠ 0 := ne_of_gt (scale_pos num order)
  have hre := mul_left_cancel₀ hscale (congrArg Point.re h)
  have him := mul_left_cancel₀ hscale (congrArg Point.im h)
  have hhigh := level_injective (Int.cast_injective hre)
  have hlow := level_injective (Int.cast_injective him)
  rw [Nat.shiftRight_eq_div_pow, Nat.shiftRight_eq_div_pow] at hhigh
  rw [← Nat.div_add_mod n (2 ^ (bitsPerSymbol order / 2)), hhigh, hlow, Nat.div_add_mod]

/-- Different points have a positive distance. -/
theorem squared_distance_pos {y a : Point R} (h : y ≠ a) : 0 < squaredDistance y a := by
  by_cases hre : y.re = a.re
  · have him : y.im - a.im ≠ 0 := fun hzero => h (by
      cases y
      cases a
      simp only [Point.mk.injEq]
      exact ⟨hre, sub_eq_zero.mp hzero⟩)
    exact add_pos_of_nonneg_of_pos (sq_nonneg _) (sq_pos_of_ne_zero him)
  · exact add_pos_of_pos_of_nonneg (sq_pos_of_ne_zero (sub_ne_zero.mpr hre)) (sq_nonneg _)

omit [LinearOrder R] [IsStrictOrderedRing R] in
/-- A point has no distance from itself. -/
theorem squared_distance_self (y : Point R) : squaredDistance y y = 0 := by
  rw [squaredDistance, sub_self, sub_self]
  ring

/-- The soft values of a modulated symbol fit its bits, and none of them is zero. -/
theorem modulated_symbol_fits (order : ModulationOrder) {inv2s : R} (hpos : 0 < inv2s) {bits : Bits}
    (hbits : IsBits bits) (hlength : bits.length = bitsPerSymbol order) :
    List.Forall₂ (fun l b => ∃ e, l = Extended.finite e ∧ Fits e b ∧ e ≠ 0)
      ((List.range (bitsPerSymbol order)).map fun k =>
        symbolLlr (constellation num order) (bitsPerSymbol order) inv2s
          (labelPoint num order (bits.foldl pushBit 0)) k) bits := by
  have hlt := fold_push_bit_lt hbits
  have hlabel := label_bits_fold hbits
  rw [hlength] at hlt hlabel
  generalize bits.foldl pushBit 0 = n at hlt hlabel
  have hstrict (s : Fin (1 <<< bitsPerSymbol order)) (hne : s.val ≠ n) :
      squaredDistance (labelPoint num order n) (labelPoint num order n) <
        squaredDistance (labelPoint num order n) ((constellation num order).get s) := by
    rw [squared_distance_self, get_constellation]
    exact squared_distance_pos fun heq => hne (label_point_injective num heq).symm
  let t : Fin (1 <<< bitsPerSymbol order) := ⟨n, hlt.trans_eq (num_points order).symm⟩
  have hpoint : (constellation num order).get t = labelPoint num order n := get_constellation num t
  have hmin (s : Fin (1 <<< bitsPerSymbol order)) :
      squaredDistance (labelPoint num order n) ((constellation num order).get t) ≤
        squaredDistance (labelPoint num order n) ((constellation num order).get s) := by
    by_cases hs : s.val = n
    · have heq : s = t := Fin.ext hs
      rw [heq]
    · rw [hpoint]
      exact le_of_lt (hstrict s hs)
  rw [← hlabel, label_bits_eq, List.forall₂_map_left_iff, List.forall₂_map_right_iff,
    List.forall₂_same]
  intro k hk
  obtain ⟨e, he, hfits, hne⟩ :=
    symbol_llr_fits (num_points order) (List.mem_range.mp hk) hpos hmin
  refine ⟨e, he, hfits, hne fun s hs => ?_⟩
  rw [hpoint]
  exact hstrict s fun heq => hs (Fin.ext heq)

omit [IsStrictOrderedRing R] in
/-- Soft values that fit bits and are not zero decide for them. -/
theorem llr_to_bits_of_fits {llr : SoftVec (Extended R)} {bits : Bits}
    (h : List.Forall₂ (fun l b => ∃ e, l = Extended.finite e ∧ Fits e b ∧ e ≠ 0) llr bits) :
    (∀ l ∈ llr, l ≠ .finite 0) ∧ llrToBits llr = bits := by
  induction h with
  | nil => exact ⟨fun _ hl => absurd hl List.not_mem_nil, rfl⟩
  | cons hfirst _ ih =>
      obtain ⟨e, rfl, hfits, hne⟩ := hfirst
      refine ⟨fun l hl => ?_, ?_⟩
      · rcases List.mem_cons.mp hl with rfl | hl
        · exact fun hzero => hne (Extended.finite.inj hzero)
        · exact ih.1 l hl
      · exact List.cons_eq_cons.mpr ⟨hfits.decides hne, ih.2⟩

omit [IsStrictOrderedRing R] in
/-- A vector whose indices fit an `int` is modulated piece by piece. -/
theorem modulate_spec {bits : Bits} (hbits : IsBits bits) {order : ModulationOrder}
    (hlength : bits.length % bitsPerSymbol order = 0) (hfit : bits.length ≤ 2 ^ 31) :
    modulate num bits order = .ok ((List.range (bits.length / bitsPerSymbol order)).map fun n =>
      labelPoint num order ((piece 0 (bitsPerSymbol order) bits n).foldl pushBit 0)) := by
  rw [modulate, require_of hlength, Checked.ok_bind]
  refine Checked.map_ok fun n hn => ?_
  have hend : n * bitsPerSymbol order + bitsPerSymbol order ≤ bits.length := by
    rw [← Nat.succ_mul, ← Nat.div_mul_cancel (Nat.dvd_of_mod_eq_zero hlength)]
    exact Nat.mul_le_mul_right _ (List.mem_range.mp hn)
  rw [piece_of_le hend]
  exact modulate_symbol_spec num hbits order hend (hend.trans hfit)

/-- The soft demapper recovers the bits from their modulated symbols, with no soft value zero. -/
def SoftRecovers (order : ModulationOrder) (noiseVar : R) (bits : Bits) : Prop :=
  ∃ syms llr, modulate num bits order = .ok syms ∧
    demodulateLlr num syms order noiseVar = .ok llr ∧ (∀ l ∈ llr, l ≠ .finite 0) ∧
    llrToBits llr = bits

/-- A vector whose indices fit an `int` is recovered. -/
theorem soft_recovers {order : ModulationOrder} {noiseVar : R} (hnoise : 0 < noiseVar)
    {bits : Bits} (hbits : IsBits bits) (hlength : bits.length % bitsPerSymbol order = 0)
    (hfit : bits.length ≤ 2 ^ 31) : SoftRecovers num order noiseVar bits := by
  have hpos := inv2s_pos hnoise
  have hfits : List.Forall₂ (fun l b => ∃ e, l = Extended.finite e ∧ Fits e b ∧ e ≠ 0)
      (((List.range (bits.length / bitsPerSymbol order)).map fun n =>
        labelPoint num order ((piece 0 (bitsPerSymbol order) bits n).foldl pushBit 0)).flatMap
          fun y => (List.range (bitsPerSymbol order)).map fun k =>
            symbolLlr (constellation num order) (bitsPerSymbol order)
              (1 / ((2 : Nat) * noiseVar)) y k)
      bits := by
    have hall := Checked.forall₂_flat_map (List.range (bits.length / bitsPerSymbol order))
      fun n _ => modulated_symbol_fits num order hpos
        (is_bits_piece hbits (bitsPerSymbol order) n) (length_piece 0 _ bits n)
    rw [flat_map_pieces 0 hlength] at hall
    rwa [List.flatMap_map]
  obtain ⟨hne, hdecided⟩ := llr_to_bits_of_fits hfits
  refine ⟨_, _, modulate_spec num hbits hlength hfit, ?_, hne, hdecided⟩
  rw [demodulateLlr, require_of hnoise]
  rfl

omit [IsStrictOrderedRing R] in
/-- A vector of bytes that is modulated has at most `2 ^ 31` of them. -/
theorem length_of_modulate {bits : Bits} {order : ModulationOrder} {syms : ComplexVec (Point R)}
    (hsize : bits.length < 2 ^ 63) (h : modulate num bits order = .ok syms) :
    bits.length ≤ 2 ^ 31 := by
  obtain ⟨hlength, h⟩ := require_bind_eq_ok.mp h
  refine not_lt.mp fun hlong => ?_
  have hm : 0 < bitsPerSymbol order := by cases order <;> decide
  -- the symbol that the bit at `2 ^ 31` belongs to
  have hn : 2 ^ 31 / bitsPerSymbol order < bits.length / bitsPerSymbol order := by
    refine (Nat.div_lt_iff_lt_mul hm).mpr ?_
    rwa [Nat.div_mul_cancel (Nat.dvd_of_mod_eq_zero hlength)]
  obtain ⟨z, hz⟩ := Checked.map_returns_iff.mp ⟨syms, h⟩ _ (List.mem_range.mpr hn)
  have hsplit := Nat.div_add_mod' (2 ^ 31) (bitsPerSymbol order)
  obtain ⟨hfits, hinside⟩ := modulate_symbol_reads num hz (Nat.mod_lt (2 ^ 31) hm)
  generalize 2 ^ 31 / bitsPerSymbol order * bitsPerSymbol order = i at *
  generalize 2 ^ 31 % bitsPerSymbol order = j at *
  by_cases hlast : i < 2 ^ 31
  · rw [to_int32_of_range (by omega) (by omega)] at hfits
    omega
  · have hi : i = 2 ^ 31 := by omega
    have hj : j = 0 := by omega
    have hindex : toSizeT (toInt32 (i : Nat) + (j : Nat)) = 2 ^ 64 - 2 ^ 31 := by
      rw [hi, hj]
      decide
    omega

/-- The demappers agree on all symbols, and the soft one recovers the bits from their modulated
symbols exactly when the indices of the bits fit an `int`. No vector of bytes has `2 ^ 63` of
them. -/
theorem soft_hard_agree_iff (order : ModulationOrder) {noiseVar : R} (hnoise : 0 < noiseVar)
    {bits : Bits} (hbits : IsBits bits) (hlength : bits.length % bitsPerSymbol order = 0)
    (hsize : bits.length < 2 ^ 63) :
    (∀ syms, DemappersAgree num order noiseVar syms) ∧ SoftRecovers num order noiseVar bits ↔
      bits.length ≤ 2 ^ 31 := by
  constructor
  · intro ⟨_, syms, _, hsyms, _⟩
    exact length_of_modulate num hsize hsyms
  · intro hfit
    exact ⟨demappers_agree num order hnoise, soft_recovers num hnoise hbits hlength hfit⟩

/-- Four bits, two for each part of one symbol. -/
theorem soft_hard_agree_qam16 :
    (∀ syms, DemappersAgree realNumbers .qam16 1 syms) ∧
      SoftRecovers realNumbers .qam16 1 [1, 0, 1, 1] := by
  have hbits : IsBits [1, 0, 1, 1] := by simp
  exact (soft_hard_agree_iff realNumbers .qam16 one_pos hbits rfl (by norm_num)).mpr (by norm_num)

/-- A vector of `2 ^ 31 + 2` zeros, the last symbol of which has indices that do not fit. -/
theorem soft_hard_disagree :
    IsBits (List.replicate (2 ^ 31 + 2) 0) ∧
      (List.replicate (2 ^ 31 + 2) (0 : UInt8)).length % bitsPerSymbol .qpsk = 0 ∧
      ¬SoftRecovers realNumbers .qpsk 1 (List.replicate (2 ^ 31 + 2) 0) := by
  refine ⟨is_bits_replicate _, ?_, fun ⟨syms, _, hsyms, _⟩ => ?_⟩
  · rw [List.length_replicate]
    rfl
  · have hle := length_of_modulate realNumbers (by rw [List.length_replicate]; norm_num) hsyms
    rw [List.length_replicate] at hle
    exact absurd hle (by norm_num)

end NrBaseband
