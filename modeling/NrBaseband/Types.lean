import NrBaseband.Foundation.Checked

/-!
# Shared types

The vectors of `types.hpp` and its `require`. A `Bits` is a vector of bytes that the program calls
a bit vector; that every byte is 0 or 1 is the predicate `IsBits`, which the program checks in some
places and takes for granted in others.
-/

namespace NrBaseband

open Foundation

/-- `BitVec`: a vector of bytes, meant to be 0 or 1. -/
abbrev Bits : Type := List UInt8

/-- `SoftVec`: a vector of log-likelihood ratios over the numbers `R`. -/
abbrev SoftVec (R : Type) : Type := List R

/-- The byte is 0 or 1. -/
def IsBit (b : UInt8) : Prop := b = 0 ∨ b = 1

instance (b : UInt8) : Decidable (IsBit b) := inferInstanceAs (Decidable (_ ∨ _))

/-- Every byte of the vector is 0 or 1. -/
def IsBits (bits : Bits) : Prop := ∀ b ∈ bits, IsBit b

instance (bits : Bits) : Decidable (IsBits bits) :=
  inferInstanceAs (Decidable (∀ b ∈ bits, IsBit b))

/-- Zero is a bit. -/
@[simp] theorem is_bit_zero : IsBit 0 := .inl rfl

/-- One is a bit. -/
@[simp] theorem is_bit_one : IsBit 1 := .inr rfl

/-- Exclusive or keeps bits. -/
theorem IsBit.xor {a b : UInt8} (ha : IsBit a) (hb : IsBit b) : IsBit (a ^^^ b) := by
  rcases ha with rfl | rfl <;> rcases hb with rfl | rfl <;> decide

/-- The empty list consists of bits. -/
@[simp] theorem is_bits_nil : IsBits [] := fun _ hb => absurd hb List.not_mem_nil

/-- A list consists of bits when its head and tail do. -/
@[simp] theorem is_bits_cons {b : UInt8} {bits : Bits} :
    IsBits (b :: bits) ↔ IsBit b ∧ IsBits bits := List.forall_mem_cons

/-- Two lists together consist of bits when both do. -/
@[simp] theorem is_bits_append {left right : Bits} :
    IsBits (left ++ right) ↔ IsBits left ∧ IsBits right := List.forall_mem_append

/-- Zeros are bits. -/
@[simp] theorem is_bits_replicate (n : Nat) : IsBits (List.replicate n 0) :=
  fun _ hb => .inl (List.eq_of_mem_replicate hb)

/-- A read with default 0 gives a bit. -/
theorem IsBits.getD {bits : Bits} (h : IsBits bits) (i : Nat) : IsBit (bits.getD i 0) := by
  rw [List.getD_eq_getElem?_getD]
  cases hget : bits[i]? with
  | none => exact is_bit_zero
  | some b => exact h b (List.mem_of_getElem? hget)

/-- Throw an error with this message unless the condition holds. -/
def require (cond : Prop) [Decidable cond] (msg : String) : Checked Unit :=
  if cond then .ok () else .error (.error msg)

/-- `require` that returns the evidence of its condition. -/
def ensure (cond : Prop) [Decidable cond] (msg : String) : Checked (PLift cond) :=
  if h : cond then .ok ⟨h⟩ else .error (.error msg)

/-- A requirement passes exactly when its condition holds. -/
@[simp] theorem require_eq_ok {cond : Prop} [Decidable cond] {msg : String} :
    require cond msg = .ok () ↔ cond := by
  unfold require
  split <;> simp [*]

/-- A requirement that holds does nothing. -/
theorem require_of {cond : Prop} [Decidable cond] {msg : String} (h : cond) :
    require cond msg = .ok () := require_eq_ok.mpr h

/-- A requirement that holds returns its evidence. -/
theorem ensure_of {cond : Prop} [Decidable cond] {msg : String} (h : cond) :
    ensure cond msg = .ok ⟨h⟩ := dif_pos h

/-- A requirement that fails throws its message. -/
theorem require_of_not {cond : Prop} [Decidable cond] {msg : String} (h : ¬cond) :
    require cond msg = .error (.error msg) := if_neg h

/-- A sequence that starts with a requirement returns exactly when the requirement holds and the
rest returns. -/
theorem require_bind_eq_ok {α : Type} {cond : Prop} [Decidable cond] {msg : String}
    {next : Unit → Checked α} {a : α} :
    (require cond msg >>= next) = .ok a ↔ cond ∧ next () = .ok a := by
  rw [Checked.check_bind_eq_ok, require_eq_ok]

/-- The same for a requirement whose evidence the rest uses. -/
theorem ensure_bind_eq_ok {α : Type} {cond : Prop} [Decidable cond] {msg : String}
    {next : PLift cond → Checked α} {a : α} :
    (ensure cond msg >>= next) = .ok a ↔ ∃ h : cond, next ⟨h⟩ = .ok a := by
  by_cases h : cond
  · rw [ensure_of h, Checked.ok_bind]
    exact ⟨fun hnext => ⟨h, hnext⟩, fun ⟨_, hnext⟩ => hnext⟩
  · have hthrows : ensure cond msg = .error (.error msg) := dif_neg h
    rw [hthrows, Checked.error_bind]
    constructor
    · intro hnext
      cases hnext
    · intro ⟨hcond, _⟩
      exact absurd hcond h

end NrBaseband
