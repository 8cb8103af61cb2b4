import NrBaseband.Foundation.Checked
import Mathlib.Algebra.Order.Ring.Int

/-!
# Machine integers

Values are mathematical integers; what the machine adds is stated where it happens. `toInt32` and
`toSizeT` are conversions, which wrap around, and `int32` is the result of signed 32-bit
arithmetic, which is undefined when it does not fit. The lemmas say that in range nothing happens.
-/

namespace Foundation.MachineInt

/-- Conversion to a signed 32-bit integer: the value modulo `2 ^ 32` that fits. -/
def toInt32 (value : Int) : Int := value.bmod (2 ^ 32)

/-- Conversion to an unsigned 64-bit size. -/
def toSizeT (value : Int) : Nat := (value % 2 ^ 64).toNat

/-- The result of signed 32-bit arithmetic; undefined on overflow. -/
def int32 (value : Int) : Checked Int :=
  if -2 ^ 31 ≤ value ∧ value < 2 ^ 31 then .ok value else .error .undefined

/-- The remainder of signed 32-bit integers; undefined where the quotient is. -/
def remainder32 (a b : Int) : Checked Int :=
  if b = 0 then .error .undefined
  else do
    let _ ← int32 (a.tdiv b)
    return a.tmod b

/-- The index of an element of an array; undefined before the array. -/
def arrayIndex (i : Int) : Checked Nat := if 0 ≤ i then .ok i.toNat else .error .undefined

/-- Converting a value that fits keeps it. -/
theorem to_int32_of_range {value : Int} (hlow : -2 ^ 31 ≤ value) (hhigh : value < 2 ^ 31) :
    toInt32 value = value := by
  simp only [toInt32, Int.bmod]
  omega

/-- The result of a conversion fits. -/
theorem to_int32_range (value : Int) : -2 ^ 31 ≤ toInt32 value ∧ toInt32 value < 2 ^ 31 := by
  simp only [toInt32, Int.bmod]
  omega

/-- A conversion to a nonnegative value never increases a nonnegative one. -/
theorem to_int32_le {value : Int} (h : 0 ≤ value) : toInt32 value ≤ value := by
  simp only [toInt32, Int.bmod]
  omega

/-- A size below `2 ^ 32` whose conversion is nonnegative is not changed by it. -/
theorem eq_of_to_int32 {value : Int} {result : Nat} (h : toInt32 value = result) (hlow : 0 ≤ value)
    (hhigh : value < 2 ^ 32) : value = result := by
  simp only [toInt32, Int.bmod] at h
  omega

/-- Converting a size that fits keeps it. -/
theorem to_size_t_of_lt {value : Int} (hlow : 0 ≤ value) (hhigh : value < 2 ^ 64) :
    (toSizeT value : Int) = value := by
  unfold toSizeT
  omega

/-- A conversion to a size never increases a nonnegative value. -/
theorem to_size_t_le {n : Nat} : toSizeT n ≤ n := by
  unfold toSizeT
  omega

/-- Converting a natural number that fits keeps it. -/
theorem to_size_t_natCast {n : Nat} (h : n < 2 ^ 64) : toSizeT n = n := by
  unfold toSizeT
  omega

/-- Arithmetic returns exactly the values that fit. -/
theorem int32_eq_ok {value result : Int} :
    int32 value = .ok result ↔ result = value ∧ -2 ^ 31 ≤ value ∧ value < 2 ^ 31 := by
  unfold int32
  split
  · simp_all [eq_comm]
  · simp_all

/-- Arithmetic whose result fits returns it. -/
theorem int32_of_range {value : Int} (hlow : -2 ^ 31 ≤ value) (hhigh : value < 2 ^ 31) :
    int32 value = .ok value := if_pos ⟨hlow, hhigh⟩

/-- Arithmetic returns its value or is undefined. -/
theorem int32_cases (value : Int) :
    int32 value = .ok value ∨ int32 value = .error .undefined := by
  unfold int32
  split
  · exact .inl rfl
  · exact .inr rfl

/-- The remainder of natural numbers that fit. -/
theorem remainder32_natCast {a b : Nat} (ha : a < 2 ^ 31) (hb : 0 < b) :
    remainder32 a b = .ok ((a % b : Nat) : Int) := by
  have hquotient : int32 ((a : Int).tdiv b) = .ok ((a / b : Nat) : Int) := by
    have hle : a / b ≤ a := Nat.div_le_self a b
    rw [← Int.ofNat_tdiv]
    generalize a / b = q at hle
    exact int32_of_range (by omega) (by omega)
  rw [remainder32, if_neg (by omega), hquotient, Checked.ok_bind, Checked.pure_eq_ok,
    Int.ofNat_tmod]

/-- The index of an element from the start on. -/
@[simp] theorem array_index_natCast (i : Nat) : arrayIndex i = .ok i := by
  simp [arrayIndex]

end Foundation.MachineInt
