import NrBaseband.Foundation.CyclicRedundancy
import Mathlib.GroupTheory.OrderOfElement
import Mathlib.RingTheory.AdjoinRoot

/-!
# The period of a generator

The period of a generator polynomial is the order of the indeterminate modulo it. `powWord` computes
powers of the indeterminate in the register by squaring, so that `order_of_root` finds the period
from a few evaluations, and `two_errors_dvd_iff` says which pairs of errors are multiples of the
generator: those whose distance the period divides.
-/

namespace Foundation.CyclicRedundancy

open Polynomial BitPolynomial

variable {w : Nat} (poly : BitVec w)

/-! ## Arithmetic in the register -/

/-- What a register stands for modulo the generator. -/
noncomputable def residue (r : BitVec w) : AdjoinRoot (generator poly) :=
  AdjoinRoot.mk (generator poly) (ofWord r)

/-- The exclusive or of words adds their polynomials. -/
theorem of_word_xor (r s : BitVec w) : ofWord (r ^^^ s) = ofWord r + ofWord s := by
  ext i
  simp [BitVec.getLsbD_xor, bit_xor]

/-- Exclusive or of words is addition of residues. -/
theorem residue_xor (r s : BitVec w) :
    residue poly (r ^^^ s) = residue poly r + residue poly s := by
  rw [residue, of_word_xor, map_add]
  rfl

/-- The word without bits has residue zero. -/
@[simp] theorem residue_zero : residue poly 0 = 0 := by
  rw [residue, of_word_zero, map_zero]

/-- The word of the lowest bit has residue one. -/
@[simp] theorem residue_one (hw : 0 < w) : residue poly 1 = 1 := by
  have hone : ofWord (1 : BitVec w) = 1 := by
    ext i
    rw [coeff_of_word, coeff_one, show (1 : BitVec w) = 1#w from rfl, BitVec.getLsbD_one]
    by_cases hi : i = 0
    · simp [hi, hw]
    · simp [hi, hw]
  rw [residue, hone, map_one]

/-- Registers that stand for the same are the same. -/
theorem residue_inj {r s : BitVec w} : residue poly r = residue poly s ↔ r = s := by
  refine ⟨fun h => ?_, fun h => h ▸ rfl⟩
  rw [residue, residue, AdjoinRoot.mk_eq_mk] at h
  have hdegree : (ofWord r - ofWord s).degree < (generator poly).degree := by
    rw [degree_generator]
    exact (degree_sub_le _ _).trans_lt (max_lt (degree_of_word r) (degree_of_word s))
  have hsame := sub_eq_zero.mp (eq_zero_of_dvd_of_degree_lt h hdegree)
  refine BitVec.eq_of_getLsbD_eq fun i _ => bit_inj ?_
  rw [← coeff_of_word, ← coeff_of_word, hsame]

/-- Feeding no bit multiplies by the indeterminate. -/
theorem residue_feed (r : BitVec w) :
    residue poly (feed poly r false) = AdjoinRoot.root (generator poly) * residue poly r := by
  rw [residue, of_word_feed, map_add, map_add, map_mul, map_mul, map_mul, AdjoinRoot.mk_self,
    mul_zero, add_zero, bit_false, C_0, map_zero, zero_mul, add_zero, AdjoinRoot.mk_X]
  rfl

/-- One round of the multiplication: the product so far, and the first factor moved up. -/
def mulStep (b : BitVec w) (state : BitVec w × BitVec w) (i : Nat) : BitVec w × BitVec w :=
  (if b.getLsbD i then state.1 ^^^ state.2 else state.1, feed poly state.2 false)

/-- The product of two registers. -/
def mulWord (a b : BitVec w) : BitVec w := ((List.range w).foldl (mulStep poly b) (0, a)).1

/-- The product of words is that of their residues. -/
theorem residue_mul_word (a b : BitVec w) :
    residue poly (mulWord poly a b) = residue poly a * residue poly b := by
  have hrounds (n : Nat) :
      residue poly ((List.range n).foldl (mulStep poly b) (0, a)).1 = residue poly a *
          AdjoinRoot.mk (generator poly)
            (∑ i ∈ Finset.range n, C (bit (b.getLsbD i)) * X ^ i) ∧
        residue poly ((List.range n).foldl (mulStep poly b) (0, a)).2 =
          AdjoinRoot.root (generator poly) ^ n * residue poly a := by
    induction n with
    | zero => exact ⟨by simpa using residue_zero poly, by simp⟩
    | succ n ih =>
        obtain ⟨hproduct, hmoved⟩ := ih
        rw [List.range_succ, List.foldl_append, List.foldl_cons, List.foldl_nil,
          Finset.sum_range_succ]
        generalize (List.range n).foldl (mulStep poly b) (0, a) = state at hproduct hmoved
        constructor
        · unfold mulStep
          cases b.getLsbD n with
          | true =>
              rw [if_pos rfl, residue_xor, hproduct, hmoved, map_add, bit_true, C_1, one_mul,
                map_pow, AdjoinRoot.mk_X]
              ring
          | false =>
              rw [if_neg Bool.false_ne_true, hproduct, bit_false, C_0, zero_mul, add_zero]
        · show residue poly (feed poly state.2 false) = _
          rw [residue_feed, hmoved, pow_succ]
          ring
  exact (hrounds w).1

/-- A power of the indeterminate whose exponent has at most `k` binary digits. -/
def powWord : Nat → Nat → BitVec w
  | 0, _ => 1
  | k + 1, n =>
      let half := powWord k (n / 2)
      let square := mulWord poly half half
      if n % 2 = 1 then feed poly square false else square

/-- The power of a word is that of the root. -/
theorem residue_pow_word (hw : 0 < w) {k n : Nat} (hn : n < 2 ^ k) :
    residue poly (powWord poly k n) = AdjoinRoot.root (generator poly) ^ n := by
  induction k generalizing n with
  | zero =>
      obtain rfl : n = 0 := by omega
      rw [powWord, residue_one poly hw, pow_zero]
  | succ k ih =>
      have hhalf := ih (n := n / 2) (by omega)
      have hsquare : residue poly (mulWord poly (powWord poly k (n / 2)) (powWord poly k (n / 2))) =
          AdjoinRoot.root (generator poly) ^ (2 * (n / 2)) := by
        rw [residue_mul_word, hhalf, ← pow_add, two_mul]
      simp only [powWord]
      by_cases hodd : n % 2 = 1
      · rw [if_pos hodd, residue_feed, hsquare, ← pow_succ']
        congr 1
        omega
      · rw [if_neg hodd, hsquare]
        congr 1
        omega

/-- The power is 1 exactly when the word is. -/
theorem root_pow_eq_one_iff (hw : 0 < w) {k n : Nat} (hn : n < 2 ^ k) :
    AdjoinRoot.root (generator poly) ^ n = 1 ↔ powWord poly k n = 1 := by
  rw [← residue_pow_word poly hw hn, ← residue_one poly hw, residue_inj]

/-- The period is an exponent that gives 1 and none of whose quotients by a prime does. -/
theorem order_of_root (hw : 0 < w) {k n : Nat} (hpos : 0 < n) (hn : n < 2 ^ k)
    (hone : powWord poly k n = 1)
    (hprimes : ∀ p : Nat, p.Prime → p ∣ n → powWord poly k (n / p) ≠ 1) :
    orderOf (AdjoinRoot.root (generator poly)) = n := by
  refine orderOf_eq_of_pow_and_pow_div_prime hpos ((root_pow_eq_one_iff poly hw hn).mpr hone)
    fun p hp hdvd h => hprimes p hp hdvd ?_
  exact (root_pow_eq_one_iff poly hw ((Nat.div_le_self n p).trans_lt hn)).mp h

/-! ## Single and double errors -/

/-- Each bit of a message has the power of its distance from the end. -/
theorem of_message_eq_sum (bits : List Bool) : ofMessage bits =
    ∑ i ∈ Finset.range bits.length, C (bit (bits.getD i false)) * X ^ (bits.length - 1 - i) := by
  induction bits with
  | nil => simp
  | cons b bits ih =>
      rw [of_message_cons, ih, List.length_cons, Finset.sum_range_succ', add_comm]
      congr 1
      refine Finset.sum_congr rfl fun i hi => ?_
      have hlt := Finset.mem_range.mp hi
      rw [List.getD_cons_succ, show bits.length + 1 - 1 - (i + 1) = bits.length - 1 - i by omega]

variable {poly}

/-- A pair of errors is a multiple of the generator exactly when the period divides their
distance. -/
theorem two_errors_dvd_iff (hw : 0 < w) (hpoly : poly.getLsbD 0 = true) (m d : Nat) :
    generator poly ∣ X ^ (m + d) + X ^ m ↔
      orderOf (AdjoinRoot.root (generator poly)) ∣ d := by
  have hfactor : (X : (ZMod 2)[X]) ^ (m + d) + X ^ m = X ^ m * (X ^ d - 1) := by
    rw [pow_add, mul_sub, mul_one, CharTwo.sub_eq_add]
  have hcoprime := coprime_generator hw hpoly m
  rw [hfactor, orderOf_dvd_iff_pow_eq_one, ← sub_eq_zero, ← AdjoinRoot.mk_X, ← map_pow,
    ← map_one (AdjoinRoot.mk (generator poly)), ← map_sub, AdjoinRoot.mk_eq_zero]
  exact ⟨hcoprime.dvd_of_dvd_mul_left, fun h => h.mul_left _⟩

/-- A single error is no multiple of the generator. -/
theorem one_error_not_dvd (hw : 0 < w) (hpoly : poly.getLsbD 0 = true) (m : Nat) :
    ¬generator poly ∣ X ^ m := by
  intro hdvd
  have hunit := (coprime_generator hw hpoly m).isUnit_of_dvd' dvd_rfl hdvd
  have hdegree := degree_eq_zero_of_isUnit hunit
  rw [degree_generator, Nat.cast_eq_zero] at hdegree
  omega

/-- The polynomial of a message with one bit set is a power. -/
theorem of_message_one {bits : List Bool} (h : bits.count true = 1) :
    ∃ m < bits.length, ofMessage bits = X ^ m := by
  obtain ⟨before, after, rfl, hbefore⟩ :=
    List.eq_append_cons_of_mem (List.count_pos_iff.mp (h.symm ▸ Nat.one_pos))
  rw [List.count_append, List.count_cons_self, List.count_eq_zero.mpr hbefore] at h
  have hclear {part : List Bool} (hpart : true ∉ part) : ofMessage part = 0 :=
    of_message_eq_zero.mpr fun b hb => Bool.eq_false_iff.mpr fun hset => hpart (hset ▸ hb)
  have hafter : true ∉ after := List.count_eq_zero.mp (by omega)
  refine ⟨after.length, by simp; omega, ?_⟩
  rw [of_message_append, hclear hbefore, of_message_cons, hclear hafter]
  simp

/-- The polynomial of a message with two bits set is the sum of two powers. -/
theorem of_message_two {bits : List Bool} (h : bits.count true = 2) :
    ∃ m d, 0 < d ∧ m + d < bits.length ∧ ofMessage bits = X ^ (m + d) + X ^ m := by
  obtain ⟨before, after, rfl, hbefore⟩ :=
    List.eq_append_cons_of_mem (List.count_pos_iff.mp (h.symm ▸ Nat.two_pos))
  rw [List.count_append, List.count_cons_self, List.count_eq_zero.mpr hbefore] at h
  obtain ⟨m, hm, hafter⟩ := of_message_one (by omega : after.count true = 1)
  have hclear : ofMessage before = 0 :=
    of_message_eq_zero.mpr fun b hb => Bool.eq_false_iff.mpr fun hset => hbefore (hset ▸ hb)
  refine ⟨m, after.length - m, by omega, by simp; omega, ?_⟩
  rw [of_message_append, hclear, of_message_cons, hafter, Nat.add_sub_cancel' hm.le]
  simp

end Foundation.CyclicRedundancy
