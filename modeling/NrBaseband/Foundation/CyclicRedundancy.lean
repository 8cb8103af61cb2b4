import NrBaseband.Foundation.BitPolynomial
import Mathlib.Algebra.Polynomial.Inductions
import Mathlib.Algebra.Polynomial.Monic
import Mathlib.RingTheory.Coprime.Lemmas
import Mathlib.Tactic.LinearCombination

/-!
# Cyclic redundancy checks

A feedback register of some width that is fed the bits of a message, highest first. The register
after a message is its remainder, and `remainder_append_check` says that a message followed by the
bits of its remainder leaves the register empty. `of_word_remainder` says what the register
computes: the remainder of the message, moved up by the width, modulo the generator polynomial.
-/

namespace Foundation.CyclicRedundancy

open Polynomial BitPolynomial

variable {w : Nat}

/-- Feed one bit: the register moves up by one, and the polynomial is added when the bit that
leaves the register differs from the one that arrives. -/
def feed (poly r : BitVec w) (b : Bool) : BitVec w :=
  if r.msb ^^ b then (r <<< 1) ^^^ poly else r <<< 1

/-- The register after a message. -/
def remainder (poly : BitVec w) (bits : List Bool) : BitVec w := bits.foldl (feed poly) 0

/-- The bits of a register, highest first. -/
def checkBits (r : BitVec w) : List Bool := (List.range w).map r.getMsbD

/-- A register has as many bits as its width. -/
@[simp] theorem length_check_bits (r : BitVec w) : (checkBits r).length = w := by simp [checkBits]

/-- Feeding the bit that leaves the register only moves it. -/
theorem feed_msb (poly r : BitVec w) : feed poly r r.msb = r <<< 1 := by simp [feed]

/-- Feeding the highest bits of the register moves them out. -/
theorem feed_leading (poly r : BitVec w) (n : Nat) :
    ((List.range n).map r.getMsbD).foldl (feed poly) r = r <<< n := by
  induction n with
  | zero => simp
  | succ n ih =>
      have hleaves : (r <<< n).msb = r.getMsbD n := by simp [BitVec.msb, BitVec.getMsbD_shiftLeft]
      rw [List.range_succ, List.map_append, List.foldl_append, ih, List.map_singleton,
        List.foldl_cons, List.foldl_nil, ← hleaves, feed_msb, BitVec.shiftLeft_add]

/-- A message followed by the bits of its remainder leaves nothing. -/
theorem remainder_append_check (poly : BitVec w) (bits : List Bool) :
    remainder poly (bits ++ checkBits (remainder poly bits)) = 0 := by
  have happend : remainder poly (bits ++ checkBits (remainder poly bits)) =
      (checkBits (remainder poly bits)).foldl (feed poly) (remainder poly bits) := by
    rw [remainder, List.foldl_append]
    rfl
  rw [happend, checkBits, feed_leading]
  exact BitVec.shiftLeft_eq_zero (Nat.le_refl w)

/-! ## The register as a remainder -/

/-- The generator polynomial, with the leading term that the register leaves out. -/
noncomputable def generator (poly : BitVec w) : (ZMod 2)[X] := X ^ w + ofWord poly

/-- The generator is monic. -/
theorem monic_generator (poly : BitVec w) : (generator poly).Monic :=
  monic_X_pow_add (degree_of_word poly)

/-- The degree of the generator is the width of the register. -/
theorem degree_generator (poly : BitVec w) : (generator poly).degree = w := by
  have hlow : (ofWord poly).degree < ((X : (ZMod 2)[X]) ^ w).degree := by
    rw [degree_X_pow]
    exact degree_of_word poly
  rw [generator, degree_add_eq_left_of_degree_lt hlow, degree_X_pow]

/-- Feeding a bit multiplies by the indeterminate, adds the bit at the width of the register, and
adds the generator when the highest coefficient is set. -/
theorem of_word_feed (poly r : BitVec w) (b : Bool) : ofWord (feed poly r b) =
    X * ofWord r + C (bit b) * X ^ w + C (bit (r.msb ^^ b)) * generator poly := by
  ext i
  have hfeed : bit ((feed poly r b).getLsbD i) =
      bit ((r <<< 1).getLsbD i) + bit (r.msb ^^ b) * bit (poly.getLsbD i) := by
    unfold feed
    cases r.msb ^^ b with
    | true => simp [BitVec.getLsbD_xor, bit_xor]
    | false => simp
  rw [coeff_of_word, hfeed, generator, mul_add, coeff_add, coeff_add, coeff_add,
    coeff_C_mul_X_pow, coeff_C_mul_X_pow, coeff_C_mul, coeff_of_word, ← add_assoc]
  congr 1
  cases i with
  | zero =>
      by_cases hw : 0 = w
      · -- a register of no width only compares
        subst hw
        simp [BitVec.msb, BitVec.getMsbD, CharTwo.add_self_eq_zero]
      · simp [hw]
  | succ i =>
      rw [coeff_X_mul, coeff_of_word, BitVec.getLsbD_shiftLeft]
      rcases Nat.lt_trichotomy (i + 1) w with hlow | heq | hhigh
      · simp [hlow, Nat.ne_of_lt hlow]
      · -- the coefficient that leaves the register cancels
        have hmsb : r.getLsbD i = r.msb := by
          rw [BitVec.msb_eq_getLsbD_last]
          congr 1
          omega
        have hcancel : bit r.msb + bit b + (bit r.msb + bit b) = 0 := CharTwo.add_self_eq_zero _
        rw [hmsb, bit_xor, if_pos heq, if_pos heq, hcancel]
        simp [heq]
      · rw [BitVec.getLsbD_of_ge _ _ (by omega : w ≤ i)]
        simp [Nat.ne_of_gt hhigh, Nat.not_lt.mpr (Nat.le_of_lt hhigh)]

/-- The register differs from the message, moved up by the width, by a multiple of the generator. -/
theorem generator_dvd_sub (poly : BitVec w) (bits : List Bool) :
    generator poly ∣ X ^ w * ofMessage bits - ofWord (remainder poly bits) := by
  induction bits using List.reverseRecOn with
  | nil =>
      have hempty : remainder poly [] = 0 := rfl
      rw [hempty, of_word_zero, of_message_nil, mul_zero, sub_zero]
      exact dvd_zero _
  | append_singleton bits b ih =>
      have hfeed : remainder poly (bits ++ [b]) = feed poly (remainder poly bits) b := by
        simp [remainder]
      obtain ⟨quotient, hquotient⟩ := ih
      refine ⟨X * quotient - C (bit ((remainder poly bits).msb ^^ b)), ?_⟩
      rw [hfeed, of_word_feed, of_message_concat]
      linear_combination X * hquotient

/-- The register after a message is the remainder of the message, moved up by the width, modulo the
generator. -/
theorem of_word_remainder (poly : BitVec w) (bits : List Bool) :
    ofWord (remainder poly bits) = (X ^ w * ofMessage bits) %ₘ generator poly := by
  have hmonic := monic_generator poly
  rw [modByMonic_eq_of_dvd_sub hmonic (generator_dvd_sub poly bits),
    (modByMonic_eq_self_iff hmonic).mpr]
  rw [degree_generator]
  exact degree_of_word _

/-- A generator with a constant term has no factor in common with the powers. -/
theorem coprime_generator {poly : BitVec w} (hw : 0 < w) (hpoly : poly.getLsbD 0 = true)
    (n : Nat) : IsCoprime (generator poly) (X ^ n) := by
  have hconstant : (generator poly).coeff 0 = 1 := by
    rw [generator, coeff_add, coeff_of_word, hpoly, coeff_X_pow, if_neg (Nat.ne_of_lt hw),
      zero_add, bit_true]
  have hsplit := divX_mul_X_add (generator poly)
  rw [hconstant, C_1] at hsplit
  exact IsCoprime.pow_right ⟨1, -(generator poly).divX, by linear_combination -hsplit⟩

/-- With a constant term in the generator, a message leaves nothing exactly when the generator
divides it. -/
theorem remainder_eq_zero_iff {poly : BitVec w} (hw : 0 < w) (hpoly : poly.getLsbD 0 = true)
    (bits : List Bool) : remainder poly bits = 0 ↔ generator poly ∣ ofMessage bits := by
  have hcoprime := coprime_generator hw hpoly w
  rw [← of_word_eq_zero, of_word_remainder, modByMonic_eq_zero_iff_dvd (monic_generator poly)]
  exact ⟨hcoprime.dvd_of_dvd_mul_left, fun h => h.mul_left _⟩

/-- Among the messages of the register's width only one completes a given message to a multiple of
the generator. -/
theorem completion_unique (poly : BitVec w) {bits left right : List Bool} (hleft : left.length = w)
    (hright : right.length = w) (hleftDvd : generator poly ∣ ofMessage (bits ++ left))
    (hrightDvd : generator poly ∣ ofMessage (bits ++ right)) : left = right := by
  refine of_message_inj (hleft.trans hright.symm) (sub_eq_zero.mp ?_)
  -- the difference is a multiple of the generator of smaller degree
  have hdvd : generator poly ∣ ofMessage left - ofMessage right := by
    have hsub := dvd_sub hleftDvd hrightDvd
    rwa [of_message_append, of_message_append, hleft, hright, add_sub_add_left_eq_sub] at hsub
  refine eq_zero_of_dvd_of_degree_lt hdvd ?_
  rw [degree_generator]
  refine (degree_sub_le _ _).trans_lt (max_lt ?_ ?_)
  · exact hleft ▸ degree_of_message left
  · exact hright ▸ degree_of_message right

/-! ## Errors that are detected -/

/-- Errors within a window of the register's width are no multiple of the generator. -/
theorem burst_not_dvd {poly : BitVec w} (hw : 0 < w) (hpoly : poly.getLsbD 0 = true)
    {before window after : List Bool} (hbefore : ∀ b ∈ before, b = false)
    (hafter : ∀ b ∈ after, b = false) (hlength : window.length ≤ w) (hset : true ∈ window) :
    ¬generator poly ∣ ofMessage (before ++ window ++ after) := by
  intro hdvd
  rw [of_message_append, of_message_append, of_message_eq_zero.mpr hbefore,
    of_message_eq_zero.mpr hafter, mul_zero, zero_add, add_zero] at hdvd
  -- the powers after the window do not help, and the window alone has too small a degree
  have hwindow := (coprime_generator hw hpoly after.length).dvd_of_dvd_mul_left hdvd
  have hdegree : (ofMessage window).degree < (generator poly).degree := by
    rw [degree_generator]
    exact (degree_of_message window).trans_le (by exact_mod_cast hlength)
  have hzero := eq_zero_of_dvd_of_degree_lt hwindow hdegree
  exact Bool.noConfusion (of_message_eq_zero.mp hzero true hset)

/-- Where the generator vanishes at 1, an odd number of errors is no multiple of it. -/
theorem odd_not_dvd {poly : BitVec w} (hroot : (generator poly).eval 1 = 0) {bits : List Bool}
    (hodd : Odd (bits.count true)) : ¬generator poly ∣ ofMessage bits := by
  rintro ⟨quotient, hquotient⟩
  have heval := congrArg (eval 1) hquotient
  rw [eval_mul, hroot, zero_mul, eval_one_of_message, ZMod.natCast_eq_zero_iff_even] at heval
  exact Nat.not_even_iff_odd.mpr hodd heval

end Foundation.CyclicRedundancy
