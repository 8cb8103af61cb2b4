import NrBaseband.Bits
import NrBaseband.Crc

/-!
# The checks as polynomial division

A bit vector read with its first bit as the highest power is a polynomial over GF(2), and so is the
generator of each check. `crc_is_division` says that the program's word holds the remainder of the
message, moved up by the length of the check; that a block passes exactly when the generator divides
it; and that what is attached is the only completion that passes.
-/

namespace NrBaseband

open Polynomial Foundation Foundation.BitPolynomial Foundation.CyclicRedundancy

/-- The polynomial of a bit vector, whose first bit has the highest power. -/
noncomputable def messagePoly (bits : Bits) : (ZMod 2)[X] :=
  bits.foldl (fun p b => X * p + C (gf2 b)) 0

/-- The generator polynomial of a check, whose coefficients are the bits of the specified word. -/
noncomputable def generatorOf (type : CrcType) : (ZMod 2)[X] := ofWord (crcSpec type).polyFull

/-- The polynomial of bits is that of the message they are. -/
theorem message_poly_eq {bits : Bits} (h : IsBits bits) :
    messagePoly bits = ofMessage (bits.map (· == 1)) := by
  rw [messagePoly, ofMessage, List.foldl_map]
  refine List.foldl_ext _ _ _ fun p b hb => ?_
  rcases h b hb with rfl | rfl <;> rfl

/-- The message that bits are gives them back. -/
theorem message_bits {bits : Bits} (h : IsBits bits) :
    (bits.map (· == 1)).map Bool.toUInt8 = bits := by
  rw [List.map_map]
  refine (List.map_congr_left fun b hb => ?_).trans bits.map_id
  rcases h b hb with rfl | rfl
  · rfl
  · rfl

/-- Bits are determined by the message they are. -/
theorem bits_of_message {left right : Bits} (hleft : IsBits left) (hright : IsBits right)
    (h : left.map (· == 1) = right.map (· == 1)) : left = right := by
  rw [← message_bits hleft, h, message_bits hright]

/-- The generator is the polynomial of the register with its leading term. -/
theorem generator_of_eq (type : CrcType) : generatorOf type = generator (crcPoly type) := by
  obtain ⟨_, hlt⟩ := crc_len_range type
  have hbits : ∀ i < 32, (crcSpec type).polyFull.getLsbD i =
      (decide (i = (crcSpec type).len) || (crcPoly type).getLsbD i) := by
    cases type <;> decide
  ext i
  rw [generatorOf, generator, coeff_add, coeff_of_word, coeff_of_word, coeff_X_pow]
  by_cases hi : i < 32
  · rw [hbits i hi]
    by_cases hlen : i = (crcSpec type).len
    · rw [BitVec.getLsbD_of_ge (crcPoly type) i (Nat.le_of_eq hlen.symm)]
      simp [hlen]
    · simp [hlen]
  · rw [BitVec.getLsbD_of_ge _ _ (by omega), BitVec.getLsbD_of_ge _ _ (by omega),
      if_neg (by omega)]
    simp

/-- The generator of a check has the degree of the check and the constant term 1. -/
theorem generator_of_spec (type : CrcType) : (generatorOf type).Monic ∧
    (generatorOf type).degree = (crcSpec type).len ∧ (crcPoly type).getLsbD 0 = true := by
  rw [generator_of_eq]
  refine ⟨monic_generator _, degree_generator _, ?_⟩
  cases type <;> decide

/-- Whatever the check accepts consists of bits. -/
theorem is_bits_of_crc {bits : Bits} {type : CrcType} {crc : BitVec 32}
    (h : computeCrc bits type = .ok crc) : IsBits bits := by
  unfold computeCrc at h
  generalize (0 : BitVec 32) = start at h
  induction bits generalizing start with
  | nil => exact is_bits_nil
  | cons b bits ih =>
      rw [List.foldlM_cons, Checked.bind_eq_ok] at h
      obtain ⟨next, hstep, hrest⟩ := h
      rw [require_bind_eq_ok] at hstep
      exact is_bits_cons.mpr ⟨hstep.1, ih next hrest⟩

/-- A block of bits passes a check exactly when the generator divides it. -/
theorem crc_check_iff {coded : Bits} (h : IsBits coded) {type : CrcType}
    (hlength : (crcSpec type).len ≤ coded.length) : ∃ passes, crcCheck coded type = .ok passes ∧
      (passes = true ↔ generatorOf type ∣ messagePoly coded) := by
  obtain ⟨hpos, hlt⟩ := crc_len_range type
  obtain ⟨_, _, hconstant⟩ := generator_of_spec type
  refine ⟨_, by rw [crcCheck, require_of hlength, Checked.ok_bind, compute_crc_ok h,
    Checked.ok_bind, Checked.pure_eq_ok], ?_⟩
  have hword : (crcRegister coded type).setWidth 32 = 0 ↔ crcRegister coded type = 0 := by
    rw [← of_word_eq_zero, of_word_extend (Nat.le_of_lt hlt), of_word_eq_zero]
  rw [beq_iff_eq, hword, crcRegister, remainder_eq_zero_iff hpos hconstant, generator_of_eq,
    message_poly_eq h]

/-- The check is polynomial division: the word that is computed is the remainder of the message,
moved up by the length of the check, modulo the generator; a block that is long enough passes
exactly when the generator divides it; and of all completions by the length of the check exactly
the attached one passes. -/
theorem crc_is_division (type : CrcType) {w : Bits} (hw : IsBits w) :
    ((generatorOf type).Monic ∧ (generatorOf type).degree = (crcSpec type).len) ∧
    (∃ crc, computeCrc w type = .ok crc ∧
      ofWord crc = (X ^ (crcSpec type).len * messagePoly w) %ₘ generatorOf type) ∧
    ((crcSpec type).len ≤ w.length → ∃ passes, crcCheck w type = .ok passes ∧
      (passes = true ↔ generatorOf type ∣ messagePoly w)) ∧
    ∃ coded, crcAttach w type = .ok coded ∧ coded.length = w.length + (crcSpec type).len ∧
      w <+: coded ∧ ∀ completion : Bits, completion.length = (crcSpec type).len →
        (crcCheck (w ++ completion) type = .ok true ↔ w ++ completion = coded) := by
  obtain ⟨hpos, hlt⟩ := crc_len_range type
  obtain ⟨hmonic, hdegree, _⟩ := generator_of_spec type
  refine ⟨⟨hmonic, hdegree⟩, ⟨_, compute_crc_ok hw type, ?_⟩, crc_check_iff hw, ?_⟩
  · rw [of_word_extend (Nat.le_of_lt hlt), crcRegister, of_word_remainder, generator_of_eq,
      message_poly_eq hw]
  · obtain ⟨parity, hattach, hlength, hparity, hpasses⟩ := crc_attach_spec hw type
    refine ⟨_, hattach, by rw [List.length_append, hlength], List.prefix_append _ _,
      fun completion hcompletion => ⟨fun hok => ?_, fun hsame => by rw [hsame, hpasses]⟩⟩
    -- two completions that pass are both divided by the generator
    have hdvd {tail : Bits} (htail : tail.length = (crcSpec type).len)
        (hok : crcCheck (w ++ tail) type = .ok true) : IsBits tail ∧
          generator (crcPoly type) ∣ ofMessage (w.map (· == 1) ++ tail.map (· == 1)) := by
      have hbits : IsBits (w ++ tail) := by
        rw [crcCheck, require_bind_eq_ok, Checked.bind_eq_ok] at hok
        obtain ⟨_, crc, hcrc, _⟩ := hok
        exact is_bits_of_crc hcrc
      obtain ⟨passes, hcheck, hiff⟩ := crc_check_iff hbits
        (by rw [List.length_append]; omega : (crcSpec type).len ≤ (w ++ tail).length)
      rw [hok, Except.ok.injEq] at hcheck
      rw [← List.map_append, ← message_poly_eq hbits, ← generator_of_eq]
      exact ⟨(is_bits_append.mp hbits).2, hiff.mp hcheck.symm⟩
    obtain ⟨hbits, hdvdCompletion⟩ := hdvd hcompletion hok
    have hmessages := completion_unique (crcPoly type) (by rw [List.length_map, hcompletion])
      (by rw [List.length_map, hlength]) hdvdCompletion (hdvd hlength hpasses).2
    rw [bits_of_message hbits hparity hmessages]

/-- The 24-bit check of three bits. -/
theorem crc_is_division_three : ∃ coded, crcAttach [1, 0, 1] .crc24a = .ok coded ∧
    coded.length = 27 ∧ ∀ completion : Bits, completion.length = 24 →
      (crcCheck ([1, 0, 1] ++ completion) .crc24a = .ok true ↔
        [1, 0, 1] ++ completion = coded) := by
  obtain ⟨_, _, _, coded, hcoded, hlength, _, honly⟩ :=
    crc_is_division .crc24a (show IsBits [1, 0, 1] by simp)
  exact ⟨coded, hcoded, hlength, honly⟩

end NrBaseband
