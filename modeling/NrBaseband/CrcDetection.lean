import NrBaseband.CrcDivision

/-!
# Errors the checks detect

A word that passes a check stays a multiple of the generator only under error patterns that are
multiples themselves. `crc_detects_burst` says that no check misses errors within a window of its
own length, and `crc_detects_odd` that the checks of 24 and 16 bits, whose generators vanish at 1,
miss no odd number of errors.
-/

namespace NrBaseband

open Polynomial Foundation Foundation.BitPolynomial Foundation.CyclicRedundancy

/-- The exclusive or of bits is the one of the messages they are. -/
theorem message_xor {c e : Bits} (hc : IsBits c) (he : IsBits e) :
    (xorBits c e).map (· == 1) = List.zipWith (· ^^ ·) (c.map (· == 1)) (e.map (· == 1)) := by
  induction c generalizing e with
  | nil => rfl
  | cons a c ih =>
      cases e with
      | nil => rfl
      | cons b e =>
          rw [is_bits_cons] at hc he
          have hbit : (a ^^^ b == 1) = ((a == 1) ^^ (b == 1)) := by
            rcases hc.1 with rfl | rfl <;> rcases he.1 with rfl | rfl <;> rfl
          show (a ^^^ b == 1) :: (xorBits c e).map (· == 1) = _
          rw [hbit, ih hc.2 he.2]
          rfl

/-- What a check accepts is long enough and consists of bits. -/
theorem crc_check_eq_ok {coded : Bits} {type : CrcType} {passes : Bool}
    (h : crcCheck coded type = .ok passes) :
    IsBits coded ∧ (crcSpec type).len ≤ coded.length := by
  rw [crcCheck, require_bind_eq_ok, Checked.bind_eq_ok] at h
  obtain ⟨hlength, crc, hcrc, _⟩ := h
  exact ⟨is_bits_of_crc hcrc, hlength⟩

/-- A word with errors passes exactly when the generator divides the errors. -/
theorem crc_check_xor {type : CrcType} {c e : Bits} (hpasses : crcCheck c type = .ok true)
    (he : IsBits e) (hlength : e.length = c.length) :
    ∃ passes, crcCheck (xorBits c e) type = .ok passes ∧
      (passes = true ↔ generator (crcPoly type) ∣ ofMessage (e.map (· == 1))) := by
  obtain ⟨hc, hlong⟩ := crc_check_eq_ok hpasses
  have hxor : (xorBits c e).length = c.length := by
    rw [xorBits, List.length_zipWith, hlength, Nat.min_self]
  obtain ⟨clean, hclean, hcleanDvd⟩ := crc_check_iff hc hlong
  obtain ⟨received, hreceived, hreceivedDvd⟩ :=
    crc_check_iff (is_bits_xor hc he) (hlong.trans_eq hxor.symm)
  rw [hpasses, Except.ok.injEq] at hclean
  have hdvd := hcleanDvd.mp hclean.symm
  rw [generator_of_eq, message_poly_eq hc] at hdvd
  refine ⟨received, hreceived, ?_⟩
  rw [hreceivedDvd, generator_of_eq, message_poly_eq (is_bits_xor hc he), message_xor hc he,
    of_message_xor (by rw [List.length_map, List.length_map, hlength])]
  exact dvd_add_right hdvd

/-- After errors that are no multiple of the generator a word no longer passes. -/
theorem crc_detects {type : CrcType} {c e : Bits} (hpasses : crcCheck c type = .ok true)
    (he : IsBits e) (hlength : e.length = c.length)
    (herrors : ¬generator (crcPoly type) ∣ ofMessage (e.map (· == 1))) :
    crcCheck (xorBits c e) type = .ok false := by
  obtain ⟨passes, hcheck, hiff⟩ := crc_check_xor hpasses he hlength
  rw [hcheck, Except.ok.injEq, ← Bool.not_eq_true, hiff]
  exact herrors

/-- The parts of an error pattern before, inside and after a window. -/
theorem window_split (e : Bits) (start n : Nat) :
    e = e.take start ++ (e.drop start).take n ++ e.drop (start + n) := by
  rw [List.append_assoc, ← List.drop_drop, List.take_append_drop, List.take_append_drop]

/-- Bits none of which is 1 are the coefficients of zero. -/
theorem map_one_clear {part : Bits} (hpart : ∀ i : Nat, part[i]? ≠ some 1) :
    ∀ b ∈ part.map (· == 1), b = false := by
  intro b hb
  obtain ⟨x, hx, rfl⟩ := List.mem_map.mp hb
  obtain ⟨i, hi⟩ := List.mem_iff_getElem?.mp hx
  refine beq_eq_false_iff_ne.mpr fun hone => hpart i ?_
  rw [hi, hone]

/-- Ones that all lie in a window are neither before nor after it, and one is inside. -/
theorem window_of_burst {e : Bits} {start n : Nat} (hne : 1 ∈ e)
    (hburst : ∀ i : Nat, e[i]? = some 1 → start ≤ i ∧ i < start + n) :
    (∀ i : Nat, (e.take start)[i]? ≠ some 1) ∧ (∀ i : Nat, (e.drop (start + n))[i]? ≠ some 1) ∧
      1 ∈ (e.drop start).take n := by
  refine ⟨fun i hi => ?_, fun i hi => ?_, ?_⟩
  · rw [List.getElem?_take] at hi
    split at hi
    case isTrue hlt => exact absurd (hburst i hi).1 (Nat.not_le.mpr hlt)
    case isFalse => cases hi
  · rw [List.getElem?_drop] at hi
    have := (hburst _ hi).2
    omega
  · obtain ⟨i, hi⟩ := List.mem_iff_getElem?.mp hne
    obtain ⟨hle, hlt⟩ := hburst i hi
    have hinside : ((e.drop start).take n)[i - start]? = some 1 := by
      rw [List.getElem?_take_of_lt (by omega), List.getElem?_drop, Nat.add_sub_cancel' hle, hi]
    exact List.mem_of_getElem? hinside

/-- A word that passes a check no longer does after errors that all lie within as many consecutive
positions as the check has bits. -/
theorem crc_detects_burst {type : CrcType} {c e : Bits} (hpasses : crcCheck c type = .ok true)
    (he : IsBits e) (hlength : e.length = c.length) (hne : 1 ∈ e) {start : Nat}
    (hburst : ∀ i : Nat, e[i]? = some 1 → start ≤ i ∧ i < start + (crcSpec type).len) :
    crcCheck (xorBits c e) type = .ok false := by
  obtain ⟨hpos, _⟩ := crc_len_range type
  obtain ⟨_, _, hconstant⟩ := generator_of_spec type
  obtain ⟨hbefore, hafter, hset⟩ := window_of_burst hne hburst
  refine crc_detects hpasses he hlength ?_
  rw [window_split e start (crcSpec type).len, List.map_append, List.map_append]
  exact burst_not_dvd hpos hconstant (map_one_clear hbefore) (map_one_clear hafter) (by simp)
    (List.mem_map.mpr ⟨1, hset, rfl⟩)

/-- The attached 6-bit check of two bits, with both of them in error. -/
theorem crc_detects_burst_two : ∃ coded, crcAttach [1, 0] .crc6 = .ok coded ∧
    crcCheck (xorBits coded [1, 1, 0, 0, 0, 0, 0, 0]) .crc6 = .ok false := by
  obtain ⟨parity, hattach, hlength, _, hpasses⟩ :=
    crc_attach_spec (show IsBits [1, 0] by simp) .crc6
  have hcoded : ([1, 1, 0, 0, 0, 0, 0, 0] : Bits).length = ([1, 0] ++ parity).length := by
    rw [List.length_append, hlength]
    rfl
  have hburst : ∀ i : Nat, ([1, 1, 0, 0, 0, 0, 0, 0] : Bits)[i]? = some 1 → 0 ≤ i ∧ i < 0 + 6 := by
    intro i hi
    obtain ⟨hlt, _⟩ := List.getElem?_eq_some_iff.mp hi
    have hcases : ∀ j < 8, ([1, 1, 0, 0, 0, 0, 0, 0] : Bits)[j]? = some 1 → j < 6 := by decide
    exact ⟨Nat.zero_le i, by simpa using hcases i hlt hi⟩
  exact ⟨_, hattach, crc_detects_burst hpasses (by simp) hcoded (by simp) hburst⟩

/-- A word that passes the check of 24 or 16 bits no longer does after an odd number of errors. -/
theorem crc_detects_odd {type : CrcType}
    (htype : type = .crc24a ∨ type = .crc24b ∨ type = .crc16) {c e : Bits}
    (hpasses : crcCheck c type = .ok true) (he : IsBits e) (hlength : e.length = c.length)
    (hodd : Odd (e.count 1)) : crcCheck (xorBits c e) type = .ok false := by
  -- the generators have an even number of terms
  have hroot : (generator (crcPoly type)).eval 1 = 0 := by
    rw [← generator_of_eq, generatorOf, eval_one_of_word]
    rcases htype with rfl | rfl | rfl <;> decide
  have hcount : (e.map (· == 1)).count true = e.count 1 := by
    rw [List.count, List.countP_map]
    exact List.countP_congr fun b _ => by simp
  exact crc_detects hpasses he hlength (odd_not_dvd hroot (by rwa [hcount]))

/-- The attached 16-bit check of two bits, with one of them in error. -/
theorem crc_detects_odd_two : ∃ coded, crcAttach [1, 0] .crc16 = .ok coded ∧
    crcCheck (xorBits coded (1 :: List.replicate 17 0)) .crc16 = .ok false := by
  obtain ⟨parity, hattach, hlength, _, hpasses⟩ :=
    crc_attach_spec (show IsBits [1, 0] by simp) .crc16
  have hcoded : (1 :: List.replicate 17 0 : Bits).length = ([1, 0] ++ parity).length := by
    rw [List.length_append, hlength]
    rfl
  exact ⟨_, hattach, crc_detects_odd (.inr (.inr rfl)) hpasses (by simp) hcoded (by decide)⟩

end NrBaseband
