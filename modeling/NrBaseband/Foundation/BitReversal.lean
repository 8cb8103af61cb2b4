import Mathlib.Tactic.Ring
import Mathlib.Data.Nat.Bitwise

/-!
# Bit reversal

`bitReverse m b` has the `m` bits of `b` in the opposite order. It is an involution on the numbers
below `2 ^ m` (`bit_reverse_bit_reverse`). Counting in reversed order is done by a carry that runs
from the highest bit down (`carry_bit_reverse`), and any involution is carried out in place by
exchanging each pair once (`exchanged_succ`).
-/

namespace Foundation

/-- The `m` low bits of `b` in the opposite order. -/
def bitReverse : Nat → Nat → Nat
  | 0, _ => 0
  | m + 1, b => b % 2 * 2 ^ m + bitReverse m (b / 2)

/-- A reversed number has as many bits as were reversed. -/
theorem bit_reverse_lt (m b : Nat) : bitReverse m b < 2 ^ m := by
  induction m generalizing b with
  | zero => exact Nat.one_pos
  | succ m ih =>
      have hrest := ih (b / 2)
      have hbit : b % 2 * 2 ^ m ≤ 1 * 2 ^ m := Nat.mul_le_mul_right _ (by omega)
      rw [bitReverse, pow_succ]
      omega

/-- The lowest bit becomes the highest one. -/
theorem bit_reverse_even (m b : Nat) : bitReverse (m + 1) (2 * b) = bitReverse m b := by
  have hbit : 2 * b % 2 = 0 := by omega
  have hrest : 2 * b / 2 = b := by omega
  rw [bitReverse, hbit, hrest, Nat.zero_mul, Nat.zero_add]

/-- The last bit becomes the first one. -/
theorem bit_reverse_odd (m b : Nat) :
    bitReverse (m + 1) (2 * b + 1) = 2 ^ m + bitReverse m b := by
  have hbit : (2 * b + 1) % 2 = 1 := by omega
  have hrest : (2 * b + 1) / 2 = b := by omega
  rw [bitReverse, hbit, hrest, Nat.one_mul]

/-- The highest bit becomes the lowest one. -/
theorem bit_reverse_high {m b : Nat} (h : Nat) (hb : b < 2 ^ m) (hh : h < 2) :
    bitReverse (m + 1) (h * 2 ^ m + b) = 2 * bitReverse m b + h := by
  induction m generalizing b with
  | zero =>
      have hzero : b = 0 := by simpa using hb
      subst hzero
      simp only [bitReverse]
      omega
  | succ m ih =>
      have hdouble : h * 2 ^ (m + 1) = 2 * (h * 2 ^ m) := by ring
      have hbit : (h * 2 ^ (m + 1) + b) % 2 = b % 2 := by omega
      have hrest : (h * 2 ^ (m + 1) + b) / 2 = h * 2 ^ m + b / 2 := by omega
      have hlower : b / 2 < 2 ^ m := by
        rw [pow_succ] at hb
        omega
      rw [bitReverse, hbit, hrest, ih hlower, bitReverse, pow_succ]
      ring

/-- Reversing twice gives the number back. -/
theorem bit_reverse_bit_reverse {m b : Nat} (hb : b < 2 ^ m) :
    bitReverse m (bitReverse m b) = b := by
  induction m generalizing b with
  | zero =>
      have hzero : b = 0 := by simpa using hb
      rw [hzero, bitReverse]
  | succ m ih =>
      have hlower : b / 2 < 2 ^ m := by
        rw [pow_succ] at hb
        omega
      rw [bitReverse.eq_def (m + 1) b]
      dsimp only
      rw [bit_reverse_high (b % 2) (bit_reverse_lt m (b / 2)) (by omega), ih hlower]
      omega

/-- Reversal keeps nothing but the bits. -/
theorem bit_reverse_zero (m : Nat) : bitReverse m 0 = 0 := by
  induction m with
  | zero => rfl
  | succ m ih => rw [bitReverse, Nat.zero_mod, Nat.zero_mul, Nat.zero_div, ih]

/-! ## Counting in reversed order -/

/-- The next number in reversed order: the carry clears the bits that are set from `bit` down and
sets the first that is not. -/
def reverseCarry (j bit : Nat) : Nat :=
  if j &&& bit ≠ 0 then reverseCarry (j ^^^ bit) (bit >>> 1) else j ^^^ bit
termination_by bit
decreasing_by
  have hpos : bit ≠ 0 := fun hzero => by simp_all
  rw [Nat.shiftRight_one]
  omega

/-- Exclusive or with a bit above a number adds it. -/
theorem xor_two_pow {m b : Nat} (hb : b < 2 ^ m) : b ^^^ 2 ^ m = 2 ^ m + b := by
  refine Nat.eq_of_testBit_eq fun j => ?_
  rw [Nat.testBit_xor, Nat.testBit_two_pow]
  rcases lt_trichotomy j m with hlow | rfl | hhigh
  · rw [Nat.testBit_two_pow_add_gt hlow, decide_eq_false hlow.ne', Bool.xor_false]
  · rw [Nat.testBit_two_pow_add_eq, decide_eq_true rfl, Bool.xor_true]
  · have hpow : 2 ^ (m + 1) ≤ 2 ^ j := Nat.pow_le_pow_right (by omega) hhigh
    rw [pow_succ] at hpow
    rw [Nat.testBit_lt_two_pow (by omega), Nat.testBit_lt_two_pow (by omega),
      decide_eq_false hhigh.ne, Bool.xor_false]

/-- The carry sets a bit that is not set. -/
theorem carry_clear {m b : Nat} (hb : b < 2 ^ m) : reverseCarry b (2 ^ m) = 2 ^ m + b := by
  have hclear : b &&& 2 ^ m = 0 := by
    rw [Nat.and_two_pow, Nat.testBit_lt_two_pow hb, Bool.toNat_false, Nat.zero_mul]
  rw [reverseCarry, hclear, if_neg (not_not.mpr rfl), xor_two_pow hb]

/-- The carry clears a bit that is set and goes on with the next one. -/
theorem carry_set {m b : Nat} (hb : b < 2 ^ m) :
    reverseCarry (2 ^ m + b) (2 ^ m) = reverseCarry b (2 ^ m >>> 1) := by
  have hset : (2 ^ m + b) &&& 2 ^ m ≠ 0 := by
    rw [Nat.and_two_pow, Nat.testBit_two_pow_add_eq, Nat.testBit_lt_two_pow hb, Bool.not_false,
      Bool.toNat_true, Nat.one_mul]
    exact (Nat.two_pow_pos m).ne'
  have hcleared : (2 ^ m + b) ^^^ 2 ^ m = b := by
    rw [← xor_two_pow hb, Nat.xor_xor_cancel_right]
  rw [reverseCarry, if_pos hset, hcleared]

/-- The carry counts in reversed order. -/
theorem carry_bit_reverse {m i : Nat} (h : i + 1 < 2 ^ (m + 1)) :
    reverseCarry (bitReverse (m + 1) i) (2 ^ m) = bitReverse (m + 1) (i + 1) := by
  induction m generalizing i with
  | zero =>
      have hzero : i = 0 := by omega
      subst hzero
      exact carry_clear (bit_reverse_lt 0 0)
  | succ m ih =>
      obtain ⟨half, heven | hodd⟩ := Nat.even_or_odd' i
      · rw [heven, bit_reverse_even, bit_reverse_odd]
        exact carry_clear (bit_reverse_lt (m + 1) half)
      · have hnext : i + 1 = 2 * (half + 1) := by omega
        have hlower : half + 1 < 2 ^ (m + 1) := by
          rw [pow_succ] at h
          omega
        have hshift : 2 ^ (m + 1) >>> 1 = 2 ^ m := by
          rw [Nat.shiftRight_one, pow_succ, Nat.mul_div_cancel _ Nat.two_pos]
        rw [hnext, bit_reverse_even, hodd, bit_reverse_odd,
          carry_set (bit_reverse_lt (m + 1) half), hshift]
        exact ih hlower

/-! ## Carrying out an involution in place -/

section Exchange

variable {α : Type} {σ : Nat → Nat} {f : Nat → α}

/-- The values after the pairs of `σ` with a member below `t` are exchanged. -/
def exchanged (σ : Nat → Nat) (f : Nat → α) (t x : Nat) : α :=
  if min x (σ x) < t then f (σ x) else f x

/-- The pair of `t` is exchanged when its other member is above. -/
theorem exchanged_succ {t x : Nat} (hσ : σ (σ x) = x) (ht : σ (σ t) = t) (h : t < σ t) :
    exchanged σ f (t + 1) x = Function.update (Function.update (exchanged σ f t) t
      (exchanged σ f t (σ t))) (σ t) (exchanged σ f t t) x := by
  by_cases hupper : x = σ t
  · subst hupper
    rw [Function.update_self, exchanged, exchanged, ht, if_pos (by omega), if_neg (by omega)]
  · rw [Function.update_of_ne hupper]
    by_cases hlower : x = t
    · subst hlower
      rw [Function.update_self, exchanged, exchanged, ht, if_pos (by omega), if_neg (by omega)]
    · have hother : σ x ≠ t := fun heq => hupper (by rw [← heq, hσ])
      rw [Function.update_of_ne hlower, exchanged, exchanged]
      have hsame : min x (σ x) < t + 1 ↔ min x (σ x) < t := by omega
      simp only [hsame]

/-- Nothing is left to exchange when its other member is not above. -/
theorem exchanged_skip {t x : Nat} (hσ : σ (σ x) = x) (ht : σ (σ t) = t) (h : ¬t < σ t) :
    exchanged σ f (t + 1) x = exchanged σ f t x := by
  rw [exchanged, exchanged]
  by_cases hsame : min x (σ x) < t
  · rw [if_pos hsame, if_pos (by omega)]
  · rw [if_neg hsame]
    by_cases hfixed : min x (σ x) < t + 1
    · -- the smaller member is `t` itself, which is then fixed
      have hx : x = t ∨ σ x = t := by omega
      have heq : σ x = x := by
        rcases hx with rfl | hσx
        · omega
        · have hx' : x = σ t := by rw [← hσx, hσ]
          omega
      rw [if_pos hfixed, heq]
    · rw [if_neg hfixed]

end Exchange

end Foundation
