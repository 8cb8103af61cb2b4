import Mathlib.Tactic.Common

/-!
# Decimal numerals

Texts of decimal digits, beside the core library's `Nat.toDigits` and `Nat.ofDigitChars`: printed
numbers are numerals, the beginning of a numeral is one with a smaller value, and a digit differs
from every character outside the range of digits.
-/

namespace Foundation.Numeral

/-- A nonempty sequence of digits. -/
def IsNumeral (digits : List Char) : Prop := digits ≠ [] ∧ ∀ c ∈ digits, c.isDigit = true

/-- Printed numbers are numerals. -/
theorem is_numeral_to_digits (n : Nat) : IsNumeral (Nat.toDigits 10 n) :=
  ⟨Nat.toDigits_ne_nil, fun _ hc => Nat.isDigit_of_mem_toDigits (by decide) (by decide) hc⟩

/-- The beginning of a numeral is a numeral. -/
theorem IsNumeral.take {digits : List Char} (h : IsNumeral digits) {n : Nat} (hn : 0 < n) :
    IsNumeral (digits.take n) := by
  refine ⟨fun hnil => ?_, fun c hc => h.2 c (List.mem_of_mem_take hc)⟩
  rcases List.take_eq_nil_iff.mp hnil with hzero | hempty
  · exact absurd hzero (Nat.ne_of_gt hn)
  · exact h.1 hempty

/-- The value of the beginning of a numeral is at most that of the numeral. -/
theorem of_digit_chars_take_le (digits : List Char) (n : Nat) :
    Nat.ofDigitChars 10 (digits.take n) 0 ≤ Nat.ofDigitChars 10 digits 0 := by
  calc Nat.ofDigitChars 10 (digits.take n) 0
      ≤ 10 ^ (digits.drop n).length * Nat.ofDigitChars 10 (digits.take n) 0 :=
        Nat.le_mul_of_pos_left _ (Nat.pow_pos (by decide))
    _ ≤ 10 ^ (digits.drop n).length * Nat.ofDigitChars 10 (digits.take n) 0 +
          Nat.ofDigitChars 10 (digits.drop n) 0 := Nat.le_add_right _ _
    _ = Nat.ofDigitChars 10 digits 0 := by
        rw [← Nat.ofDigitChars_eq_ofDigitChars_zero, ← Nat.ofDigitChars_append,
          List.take_append_drop]

/-- The codes of the digits. -/
theorem digit_range {c : Char} (h : c.isDigit = true) : 48 ≤ c.toNat ∧ c.toNat ≤ 57 := by
  simp only [Char.isDigit, Bool.and_eq_true, decide_eq_true_eq, ge_iff_le] at h
  exact h

/-- A digit is no other character that the reader or the conversion looks for. -/
theorem digit_ne {c other : Char} (h : c.isDigit = true)
    (hother : other.toNat < 48 ∨ 57 < other.toNat) : c ≠ other := by
  have hrange := digit_range h
  intro heq
  rw [heq] at hrange
  omega

end Foundation.Numeral
