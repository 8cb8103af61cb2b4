import Mathlib.Data.List.Induction
import Mathlib.Data.Nat.Bitwise
import Mathlib.Tactic.Ring

/-!
# Binary labels and the Gray code

A label is a list of binary digits, the most significant one first; `number` reads it and `digits`
writes it. The reflected Gray code of a number is its exclusive or with its half (`encode`), and
`decode` undoes it; neither needs more digits than the number. The codes of consecutive numbers
differ in one digit (`encode_succ`).
-/

namespace Foundation.Gray

/-! ## Labels -/

/-- The number with these digits. -/
def number (label : List Nat) : Nat := label.foldl (fun n d => (n <<< 1) ||| d) 0

/-- The last digits of a number. -/
def digits (n width : Nat) : List Nat :=
  (List.range width).reverse.map fun i => (n >>> i) &&& 1

/-- There are as many digits as asked for. -/
@[simp] theorem length_digits (n width : Nat) : (digits n width).length = width := by
  simp [digits]

/-- The digits of a number are binary digits. -/
theorem digits_lt {n width d : Nat} (h : d ∈ digits n width) : d < 2 := by
  obtain ⟨j, _, rfl⟩ := List.mem_map.mp h
  rw [Nat.and_one_is_mod]
  exact Nat.mod_lt _ Nat.two_pos

/-- The digits are those of the higher part followed by the last ones. -/
theorem digits_add (n p q : Nat) : digits n (p + q) = digits (n >>> q) p ++ digits n q := by
  unfold digits
  rw [Nat.add_comm p q, List.range_add, List.reverse_append, List.map_append, ← List.map_reverse,
    List.map_map]
  congr 1
  refine List.map_congr_left fun i _ => ?_
  show (n >>> (q + i)) &&& 1 = _
  rw [Nat.shiftRight_add]

/-- One more digit. -/
theorem digits_succ (n width : Nat) : digits n (width + 1) = digits (n >>> 1) width ++ [n % 2] := by
  rw [digits_add]
  congr 1
  simp [digits, Nat.and_one_is_mod]

/-- A digit at the end. -/
theorem number_concat {label : List Nat} {d : Nat} (hd : d < 2) :
    number (label ++ [d]) = 2 * number label + d := by
  unfold number
  rw [List.foldl_append, List.foldl_cons, List.foldl_nil,
    ← Nat.shiftLeft_add_eq_or_of_lt (by simpa using hd), Nat.shiftLeft_eq, pow_one, Nat.mul_comm]

/-- Reading digits gives the number up to the higher part. -/
theorem number_digits (n width : Nat) : number (digits n width) = n % 2 ^ width := by
  induction width generalizing n with
  | zero => rw [pow_zero, Nat.mod_one]; rfl
  | succ width ih =>
      rw [digits_succ, number_concat (Nat.mod_lt n Nat.two_pos), ih, Nat.shiftRight_one,
        pow_succ', Nat.mod_mul, Nat.add_comm]

/-- The digits only depend on the last part of the number. -/
theorem digits_mod (n width : Nat) : digits (n % 2 ^ width) width = digits n width := by
  refine List.map_congr_left fun i hi => ?_
  have hlt : i < width := by simpa using hi
  rw [Nat.and_one_is_mod, Nat.and_one_is_mod, Nat.shiftRight_eq_div_pow, Nat.shiftRight_eq_div_pow]
  have hmod := Nat.testBit_mod_two_pow n width i
  rw [Nat.testBit_eq_decide_div_mod_eq, Nat.testBit_eq_decide_div_mod_eq, decide_eq_true hlt,
    Bool.true_and, decide_eq_decide] at hmod
  omega

/-- Writing a number gives its label. -/
theorem digits_number {label : List Nat} (h : ∀ d ∈ label, d < 2) :
    digits (number label) label.length = label := by
  induction label using List.reverseRecOn with
  | nil => rfl
  | append_singleton label d ih =>
      have hd : d < 2 := h d (by simp)
      have hhalf : (2 * number label + d) >>> 1 = number label := by
        rw [Nat.shiftRight_one]
        omega
      have hlast : (2 * number label + d) % 2 = d := by omega
      rw [List.length_append, List.length_singleton, digits_succ, number_concat hd, hhalf, hlast,
        ih fun d' hd' => h d' (List.mem_append_left _ hd')]

/-- A label has fewer numbers than its digits allow. -/
theorem number_lt {label : List Nat} (h : ∀ d ∈ label, d < 2) :
    number label < 2 ^ label.length := by
  have hmod := number_digits (number label) label.length
  rw [digits_number h] at hmod
  rw [hmod]
  exact Nat.mod_lt _ (Nat.two_pow_pos _)

/-- Labels one after the other. -/
theorem number_append {left right : List Nat} (h : ∀ d ∈ right, d < 2) :
    number (left ++ right) = number left * 2 ^ right.length + number right := by
  induction right using List.reverseRecOn with
  | nil => simp [number]
  | append_singleton right d ih =>
      have hd : d < 2 := h d (by simp)
      rw [← List.append_assoc, number_concat hd, number_concat hd,
        ih fun d' hd' => h d' (List.mem_append_left _ hd'), List.length_append,
        List.length_singleton, pow_succ]
      ring

/-! ## The code -/

/-- The Gray code of a number. -/
def encode (v : Nat) : Nat := v ^^^ (v >>> 1)

/-- The number with this Gray code: the exclusive or of its code with all shifts of it. -/
def decode (g : Nat) : Nat := if g = 0 then 0 else g ^^^ decode (g >>> 1)
  termination_by g
  decreasing_by
    rw [Nat.shiftRight_one]
    omega

/-- The code without ones stands for zero. -/
@[simp] theorem decode_zero : decode 0 = 0 := by
  rw [decode, if_pos rfl]

/-- The equation of the decoder at every code. -/
theorem decode_eq (g : Nat) : decode g = g ^^^ decode (g >>> 1) := by
  by_cases h : g = 0
  · rw [h, Nat.zero_shiftRight, decode_zero, Nat.xor_zero]
  · rw [decode, if_neg h]

/-- Encoding commutes with halving. -/
theorem encode_half (v : Nat) : encode v >>> 1 = encode (v >>> 1) :=
  Nat.shiftRight_xor_distrib

/-- Decoding undoes encoding. -/
theorem decode_encode (v : Nat) : decode (encode v) = v := by
  induction v using decode.induct with
  | case1 => exact decode_zero
  | case2 v _ ih => rw [decode_eq, encode_half, ih, encode, Nat.xor_xor_cancel_right]

/-- Encoding undoes decoding. -/
theorem encode_decode (g : Nat) : encode (decode g) = g := by
  induction g using decode.induct with
  | case1 =>
      rw [decode_zero]
      rfl
  | case2 g _ ih =>
      rw [decode_eq]
      generalize decode (g >>> 1) = d at ih
      have hhalf : (g ^^^ d) >>> 1 = d := by
        rw [Nat.shiftRight_xor_distrib, ← ih, encode, Nat.xor_xor_cancel_right]
      rw [encode, hhalf, Nat.xor_xor_cancel_right]

/-- Encoding needs no more digits. -/
theorem encode_lt {v width : Nat} (h : v < 2 ^ width) : encode v < 2 ^ width :=
  Nat.xor_lt_two_pow h (Nat.lt_of_le_of_lt (Nat.shiftRight_le v 1) h)

/-- Decoding needs no more digits. -/
theorem decode_lt {g width : Nat} (h : g < 2 ^ width) : decode g < 2 ^ width := by
  induction g using decode.induct with
  | case1 =>
      rw [decode_zero]
      exact Nat.two_pow_pos width
  | case2 g _ ih =>
      rw [decode_eq]
      exact Nat.xor_lt_two_pow h (ih (Nat.lt_of_le_of_lt (Nat.shiftRight_le g 1) h))

/-! ## Steps -/

/-- Two numbers that differ in one binary digit. -/
def DifferAt (m n k : Nat) : Prop := ∀ i, m.testBit i ≠ n.testBit i ↔ i = k

/-- A digit of a code is the exclusive or of two digits of the number. -/
theorem test_bit_encode (v i : Nat) :
    (encode v).testBit i = (v.testBit i ^^ v.testBit (i + 1)) := by
  rw [encode, Nat.testBit_xor, Nat.testBit_shiftRight, Nat.add_comm 1]

/-- The codes of an even number and the next one only differ in their last digit. -/
theorem encode_succ_of_even {v : Nat} (h : v.testBit 0 = false) :
    DifferAt (encode v) (encode (v + 1)) 0 := by
  have heven : v % 2 = 0 := by simpa using h
  have hhalf (i : Nat) : (v + 1).testBit (i + 1) = v.testBit (i + 1) := by
    rw [Nat.testBit_succ, Nat.testBit_succ]
    congr 1
    omega
  have hlast : (v + 1).testBit 0 = true := by
    rw [Nat.testBit_zero, decide_eq_true_eq]
    omega
  intro i
  rw [test_bit_encode, test_bit_encode, hhalf]
  cases i with
  | zero => simp [h, hlast]
  | succ i => simp [hhalf]

/-- The codes of an odd number and the next one differ where those of the halves do. -/
theorem encode_succ_of_odd {v k : Nat} (h : v.testBit 0 = true)
    (hhalf : DifferAt (encode (v / 2)) (encode (v / 2 + 1)) k) :
    DifferAt (encode v) (encode (v + 1)) (k + 1) := by
  have hodd : v % 2 = 1 := by simpa using h
  have hnext : (v + 1) / 2 = v / 2 + 1 := by omega
  have hlast : (v + 1).testBit 0 = false := by
    rw [Nat.testBit_zero, decide_eq_false_iff_not]
    omega
  have hturn : (v / 2 + 1).testBit 0 = !(v / 2).testBit 0 := by
    rw [Nat.testBit_zero, Nat.testBit_zero, ← decide_not, decide_eq_decide]
    omega
  intro i
  cases i with
  | zero =>
      rw [test_bit_encode, test_bit_encode, Nat.testBit_succ, Nat.testBit_succ, hnext, h, hlast,
        hturn]
      simp
  | succ i =>
      have hdigit (w : Nat) : (encode w).testBit (i + 1) = (encode (w / 2)).testBit i := by
        rw [test_bit_encode, test_bit_encode, Nat.testBit_succ, Nat.testBit_succ]
      rw [hdigit, hdigit, hnext, hhalf i, Nat.add_right_cancel_iff]

/-- The codes of consecutive numbers differ in one digit. -/
theorem encode_succ (v : Nat) : ∃ k, DifferAt (encode v) (encode (v + 1)) k := by
  induction v using Nat.strongRecOn with
  | ind v ih =>
      cases hlast : v.testBit 0 with
      | false => exact ⟨0, encode_succ_of_even hlast⟩
      | true =>
          have hodd : v % 2 = 1 := by simpa using hlast
          obtain ⟨k, hk⟩ := ih (v / 2) (by omega)
          exact ⟨k + 1, encode_succ_of_odd hlast hk⟩

/-- Numbers that differ in one digit differ in one of their first digits, if they have no others. -/
theorem DifferAt.lt {m n k width : Nat} (h : DifferAt m n k) (hm : m < 2 ^ width)
    (hn : n < 2 ^ width) : k < width := by
  refine not_le.mp fun hle => (h k).mpr rfl ?_
  have hpow : 2 ^ width ≤ 2 ^ k := Nat.pow_le_pow_right Nat.two_pos hle
  rw [Nat.testBit_lt_two_pow (hm.trans_le hpow), Nat.testBit_lt_two_pow (hn.trans_le hpow)]

/-- A digit at its place in the label. -/
theorem digits_get {n width i : Nat} (hi : i < width) :
    (digits n width)[i]? = some (n.testBit (width - 1 - i)).toNat := by
  have hlt : i < (List.range width).length := by
    rw [List.length_range]
    exact hi
  rw [digits, List.getElem?_map, List.getElem?_reverse hlt, List.length_range,
    List.getElem?_range (by omega), Option.map_some, Nat.toNat_testBit, Nat.and_one_is_mod,
    Nat.shiftRight_eq_div_pow]

/-- The labels of numbers that differ in one digit differ at one place. -/
theorem DifferAt.digits {m n k width : Nat} (h : DifferAt m n k) (hk : k < width) (i : Nat) :
    (digits m width)[i]? ≠ (digits n width)[i]? ↔ i = width - 1 - k := by
  by_cases hi : i < width
  · have hdigit := h (width - 1 - i)
    have hsame : (m.testBit (width - 1 - i)).toNat = (n.testBit (width - 1 - i)).toNat ↔
        m.testBit (width - 1 - i) = n.testBit (width - 1 - i) := by
      cases m.testBit (width - 1 - i) <;> cases n.testBit (width - 1 - i) <;> decide
    rw [digits_get hi, digits_get hi, ne_eq, Option.some.injEq, hsame, ← ne_eq, hdigit]
    omega
  · have hlength (n : Nat) : (Gray.digits n width).length ≤ i := by
      rw [length_digits]
      omega
    rw [List.getElem?_eq_none (hlength m), List.getElem?_eq_none (hlength n)]
    exact iff_of_false (not_not_intro rfl) (by omega)

end Foundation.Gray
