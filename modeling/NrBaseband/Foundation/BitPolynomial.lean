import Mathlib.Algebra.Polynomial.Div
import Mathlib.Algebra.Polynomial.Degree.Lemmas
import Mathlib.Algebra.Field.ZMod
import Mathlib.Algebra.CharP.Two

/-!
# Bits as polynomials

Polynomials over GF(2) given by bits: `ofWord` takes the bits of a word as coefficients, lowest
first, and `ofMessage` those of a message, highest first. A message of fewer than `n` bits has
degree less than `n`, and messages of one length are determined by their polynomials.
-/

namespace Foundation.BitPolynomial

open Polynomial

/-- A bit as an element of GF(2). -/
def bit (b : Bool) : ZMod 2 := if b then 1 else 0

/-- A clear bit is zero. -/
@[simp] theorem bit_false : bit false = 0 := rfl

/-- A set bit is one. -/
@[simp] theorem bit_true : bit true = 1 := rfl

/-- Exclusive or is addition. -/
theorem bit_xor (a b : Bool) : bit (a ^^ b) = bit a + bit b := by
  cases a <;> cases b <;> decide

/-- A bit is determined by its element. -/
theorem bit_inj {a b : Bool} (h : bit a = bit b) : a = b := by
  cases a <;> cases b <;> first | rfl | exact absurd h (by decide)

/-- The polynomial whose coefficients are the bits of a word. -/
noncomputable def ofWord {w : Nat} (r : BitVec w) : (ZMod 2)[X] :=
  ∑ i ∈ Finset.range w, C (bit (r.getLsbD i)) * X ^ i

/-- The coefficients of a word are its bits. -/
@[simp] theorem coeff_of_word {w : Nat} (r : BitVec w) (i : Nat) :
    (ofWord r).coeff i = bit (r.getLsbD i) := by
  rw [ofWord, finsetSum_coeff]
  simp only [coeff_C_mul_X_pow]
  rw [Finset.sum_ite_eq]
  by_cases hi : i < w
  · rw [if_pos (Finset.mem_range.mpr hi)]
  · rw [if_neg (fun h => hi (Finset.mem_range.mp h)), BitVec.getLsbD_of_ge _ _ (by omega),
      bit_false]

/-- The degree of a word is less than its width. -/
theorem degree_of_word {w : Nat} (r : BitVec w) : (ofWord r).degree < w := by
  rw [degree_lt_iff_coeff_zero]
  intro i hi
  rw [coeff_of_word, BitVec.getLsbD_of_ge _ _ hi, bit_false]

/-- The word without bits is zero. -/
@[simp] theorem of_word_zero (w : Nat) : ofWord (0 : BitVec w) = 0 := by
  ext i
  simp

/-- A word with no polynomial is zero. -/
theorem of_word_eq_zero {w : Nat} {r : BitVec w} : ofWord r = 0 ↔ r = 0 := by
  constructor
  · intro h
    refine BitVec.eq_of_getLsbD_eq fun i _ => bit_inj ?_
    rw [← coeff_of_word, h]
    simp
  · rintro rfl
    exact of_word_zero w

/-- Extending a word does not change its polynomial. -/
theorem of_word_extend {w v : Nat} (h : w ≤ v) (r : BitVec w) :
    ofWord (r.setWidth v) = ofWord r := by
  ext i
  rw [coeff_of_word, coeff_of_word, BitVec.getLsbD_setWidth]
  by_cases hi : i < v
  · simp [hi]
  · rw [BitVec.getLsbD_of_ge _ _ (by omega : w ≤ i)]
    simp

/-- The polynomial of a message, whose first bit has the highest power. -/
noncomputable def ofMessage (bits : List Bool) : (ZMod 2)[X] :=
  bits.foldl (fun p b => X * p + C (bit b)) 0

/-- The empty message is zero. -/
@[simp] theorem of_message_nil : ofMessage [] = 0 := rfl

/-- A further bit of a message is its lowest coefficient. -/
theorem of_message_concat (bits : List Bool) (b : Bool) :
    ofMessage (bits ++ [b]) = X * ofMessage bits + C (bit b) := by
  simp [ofMessage]

/-- Appending a message moves the powers of the first one up. -/
theorem of_message_append (left right : List Bool) :
    ofMessage (left ++ right) = X ^ right.length * ofMessage left + ofMessage right := by
  induction right using List.reverseRecOn with
  | nil => simp
  | append_singleton right b ih =>
      rw [← List.append_assoc, of_message_concat, of_message_concat, ih, List.length_append,
        List.length_singleton, pow_succ]
      ring

/-- The first bit of a message has the highest power. -/
theorem of_message_cons (b : Bool) (bits : List Bool) :
    ofMessage (b :: bits) = C (bit b) * X ^ bits.length + ofMessage bits := by
  rw [← List.singleton_append, of_message_append, mul_comm]
  congr 2
  simp [ofMessage]

/-- The degree of a message is less than its length. -/
theorem degree_of_message (bits : List Bool) : (ofMessage bits).degree < bits.length := by
  rw [degree_lt_iff_coeff_zero]
  induction bits with
  | nil => simp
  | cons b bits ih =>
      intro i hi
      rw [List.length_cons] at hi
      rw [of_message_cons, coeff_add, coeff_C_mul_X_pow, if_neg (by omega), ih i (by omega),
        add_zero]

/-- The exclusive or of messages of one length adds their polynomials. -/
theorem of_message_xor {left right : List Bool} (hlength : left.length = right.length) :
    ofMessage (List.zipWith (· ^^ ·) left right) = ofMessage left + ofMessage right := by
  induction left generalizing right with
  | nil =>
      obtain rfl : right = [] := (List.length_eq_zero_iff.mp hlength.symm)
      simp
  | cons a left ih =>
      cases right with
      | nil => cases hlength
      | cons b right =>
          have hrest : left.length = right.length := Nat.succ_inj.mp hlength
          have hzip : (List.zipWith (· ^^ ·) left right).length = right.length := by
            rw [List.length_zipWith, hrest, Nat.min_self]
          rw [List.zipWith_cons_cons, of_message_cons, of_message_cons, of_message_cons, ih hrest,
            hzip, hrest, bit_xor, C_add]
          ring

/-- The value at 1 counts the bits that are set. -/
theorem eval_one_of_message (bits : List Bool) :
    (ofMessage bits).eval 1 = (bits.count true : ZMod 2) := by
  induction bits with
  | nil => simp
  | cons b bits ih =>
      rw [of_message_cons, eval_add, ih]
      cases b with
      | true => simp [add_comm]
      | false => simp

/-- The value of a word at 1 adds up its bits. -/
theorem eval_one_of_word {w : Nat} (r : BitVec w) :
    (ofWord r).eval 1 = ∑ i ∈ Finset.range w, bit (r.getLsbD i) := by
  simp [ofWord, eval_finsetSum]

/-- Messages of one length with the same polynomial are equal. -/
theorem of_message_inj {left right : List Bool} (hlength : left.length = right.length)
    (h : ofMessage left = ofMessage right) : left = right := by
  induction left generalizing right with
  | nil => exact (List.length_eq_zero_iff.mp hlength.symm).symm
  | cons a left ih =>
      cases right with
      | nil => cases hlength
      | cons b right =>
          have hrest : left.length = right.length := Nat.succ_inj.mp hlength
          rw [of_message_cons, of_message_cons, hrest] at h
          -- the highest coefficient is that of the first bit
          have htop (bits : List Bool) (hbits : bits.length = right.length) :
              (ofMessage bits).coeff right.length = 0 :=
            degree_lt_iff_coeff_zero _ _ |>.mp (degree_of_message bits) _ (Nat.le_of_eq hbits)
          have hfirst := congrArg (coeff · right.length) h
          simp only [coeff_add, coeff_C_mul_X_pow, if_true, htop left hrest, htop right rfl,
            add_zero] at hfirst
          have hhead := bit_inj hfirst
          subst hhead
          rw [ih hrest (add_left_cancel h)]

/-- A message has no polynomial when none of its bits is set. -/
theorem of_message_eq_zero {bits : List Bool} : ofMessage bits = 0 ↔ ∀ b ∈ bits, b = false := by
  have hclear (n : Nat) : ofMessage (List.replicate n false) = 0 := by
    induction n with
    | zero => rfl
    | succ n ih => rw [List.replicate_succ, of_message_cons, ih, bit_false, C_0, zero_mul, add_zero]
  rw [← List.eq_replicate_length]
  constructor
  · intro h
    exact of_message_inj (by simp) (h.trans (hclear bits.length).symm)
  · intro h
    rw [h]
    exact hclear bits.length

end Foundation.BitPolynomial
