import NrBaseband.Scheduler
import NrBaseband.Foundation.WordMixing

/-!
# The replay hash

The hash that `schedule` leaves in its result is a chain of `mix64` steps, one for each allocation.
Every part of a step is injective: `mix64` itself, and each hashed field of an allocation while the
others stay. So the hash keeps apart two seeds, and two lists of allocations with a single change.
-/

namespace NrBaseband

open Foundation Foundation.MachineInt

variable {R : Type}

/-- Adding a right-shifted copy of a 64-bit word loses nothing. -/
theorem xor_shift_injective_64 (shift : UInt64) (hshift : 0 < (shift.toBitVec % 64).toNat) :
    Function.Injective fun x : UInt64 => x ^^^ (x >>> shift) := by
  intro x y h
  have hwords := congrArg UInt64.toBitVec h
  simp only [UInt64.toBitVec_xor, UInt64.toBitVec_shiftRight] at hwords
  exact UInt64.toBitVec_inj.mp (WordMixing.xor_shift_injective hshift hwords)

/-- Multiplying a 64-bit word by one that has an inverse loses nothing. -/
theorem mul_injective_64 (inverse : UInt64) {factor : UInt64} (h : factor * inverse = 1) :
    Function.Injective fun x : UInt64 => x * factor := by
  intro x y hxy
  have hwords := congrArg UInt64.toBitVec hxy
  simp only [UInt64.toBitVec_mul] at hwords
  have hunit : factor.toBitVec * inverse.toBitVec = 1 := by
    rw [← UInt64.toBitVec_mul, h]
    rfl
  exact UInt64.toBitVec_inj.mp (WordMixing.mul_injective hunit hwords)

/-- `mix64` loses nothing. -/
theorem mix_injective : Function.Injective mix64 := by
  intro x y h
  -- from the last step of the function back to its first one
  have hfourth := xor_shift_injective_64 31 (by decide) h
  have hthird := mul_injective_64 0x319642b2d24d8ec3 (by decide) hfourth
  have hsecond := xor_shift_injective_64 27 (by decide) hthird
  have hfirst := mul_injective_64 0x96de1b173f119089 (by decide) hsecond
  exact xor_shift_injective_64 30 (by decide) hfirst

/-- The `int` fields of an allocation fit an `int`. -/
structure PrbAllocation.InRange (a : PrbAllocation R) : Prop where
  prb_start : -2 ^ 31 ≤ a.prbStart ∧ a.prbStart < 2 ^ 31
  prb_count : -2 ^ 31 ≤ a.prbCount ∧ a.prbCount < 2 ^ 31
  mcs : -2 ^ 31 ≤ a.mcs ∧ a.mcs < 2 ^ 31

/-- The fields that the hash reads are the same. -/
def PrbAllocation.Agree (a b : PrbAllocation R) : Prop :=
  a.ueId = b.ueId ∧ a.prbStart = b.prbStart ∧ a.prbCount = b.prbCount ∧ a.mcs = b.mcs

/-- Exactly one of the fields that the hash reads differs. -/
def PrbAllocation.DifferInOne (a b : PrbAllocation R) : Prop :=
  (a.ueId ≠ b.ueId ∧ a.prbStart = b.prbStart ∧ a.prbCount = b.prbCount ∧ a.mcs = b.mcs) ∨
  (a.ueId = b.ueId ∧ a.prbStart ≠ b.prbStart ∧ a.prbCount = b.prbCount ∧ a.mcs = b.mcs) ∨
  (a.ueId = b.ueId ∧ a.prbStart = b.prbStart ∧ a.prbCount ≠ b.prbCount ∧ a.mcs = b.mcs) ∨
  (a.ueId = b.ueId ∧ a.prbStart = b.prbStart ∧ a.prbCount = b.prbCount ∧ a.mcs ≠ b.mcs)

/-- The value of the 64-bit word of a number. -/
theorem of_int_to_nat (a : Int) : ((UInt64.ofInt a).toNat : Int) = a % 2 ^ 64 := by
  rw [UInt64.ofInt, UInt64.toNat_ofNat']
  omega

/-- The sign-extended word of a number that fits an `int` determines the number. -/
theorem of_int_injective {a b : Int} (ha : -2 ^ 31 ≤ a ∧ a < 2 ^ 31) (hb : -2 ^ 31 ≤ b ∧ b < 2 ^ 31)
    (h : UInt64.ofInt a = UInt64.ofInt b) : a = b := by
  have hvalue := congrArg (fun word : UInt64 => (word.toNat : Int)) h
  simp only [of_int_to_nat] at hvalue
  omega

/-- So does its copy shifted by 16: what falls out at the top is the sign. -/
theorem of_int_shift_injective {a b : Int} (ha : -2 ^ 31 ≤ a ∧ a < 2 ^ 31)
    (hb : -2 ^ 31 ≤ b ∧ b < 2 ^ 31) (h : UInt64.ofInt a <<< 16 = UInt64.ofInt b <<< 16) :
    a = b := by
  have hvalue := congrArg UInt64.toNat h
  have hwordA := of_int_to_nat a
  have hwordB := of_int_to_nat b
  simp only [UInt64.toNat_shiftLeft, Nat.shiftLeft_eq] at hvalue
  have hshift : (16 : UInt64).toNat % 64 = 16 := rfl
  rw [hshift] at hvalue
  omega

/-- A UE id shifted to the upper half of the word determines the id. -/
theorem ue_id_shift_injective {a b : UInt32} (h : a.toUInt64 <<< 32 = b.toUInt64 <<< 32) :
    a = b := by
  have hvalue := congrArg UInt64.toNat h
  simp only [UInt64.toNat_shiftLeft, Nat.shiftLeft_eq, UInt32.toNat_toUInt64] at hvalue
  have hshift : (32 : UInt64).toNat % 64 = 32 := rfl
  have hltA := a.toNat_lt
  have hltB := b.toNat_lt
  rw [hshift] at hvalue
  exact UInt32.toNat_inj.mp (by omega)

/-- The step of the hash keeps states apart. -/
theorem hash_allocation_injective (a : PrbAllocation R) :
    Function.Injective fun h => hashAllocation h a := by
  intro x y h
  have hword := mix_injective h
  simpa only [UInt64.xor_left_inj] using hword

/-- The step of the hash reads only the four fields. -/
theorem hash_allocation_congr {a b : PrbAllocation R} (hagree : a.Agree b) (h : UInt64) :
    hashAllocation h a = hashAllocation h b := by
  obtain ⟨hid, hstart, hcount, hmcs⟩ := hagree
  rw [hashAllocation, hashAllocation, hid, hstart, hcount, hmcs]

/-- The step of the hash sees a change of one field. -/
theorem hash_allocation_ne {a b : PrbAllocation R} (ha : a.InRange) (hb : b.InRange)
    (hdiffer : a.DifferInOne b) (h : UInt64) : hashAllocation h a ≠ hashAllocation h b := by
  intro heq
  have hword := mix_injective heq
  rcases hdiffer with ⟨hne, h₁, h₂, h₃⟩ | ⟨h₁, hne, h₂, h₃⟩ | ⟨h₁, h₂, hne, h₃⟩ | ⟨h₁, h₂, h₃, hne⟩
  · rw [h₁, h₂, h₃] at hword
    simp only [UInt64.xor_left_inj, UInt64.xor_right_inj] at hword
    exact hne (ue_id_shift_injective hword)
  · rw [h₁, h₂, h₃] at hword
    simp only [UInt64.xor_left_inj, UInt64.xor_right_inj] at hword
    exact hne (of_int_injective ha.prb_start hb.prb_start hword)
  · rw [h₁, h₂, h₃] at hword
    simp only [UInt64.xor_left_inj, UInt64.xor_right_inj] at hword
    exact hne (of_int_shift_injective ha.prb_count hb.prb_count hword)
  · rw [h₁, h₂, h₃] at hword
    simp only [UInt64.xor_right_inj] at hword
    exact hne (of_int_injective ha.mcs hb.mcs hword)

/-- `mix64` is injective, so the hash over the allocations keeps two seeds apart, and it keeps apart
two lists of one length that differ at one index in one of the fields it reads. -/
theorem replay_hash_keeps_changes :
    Function.Injective mix64 ∧
    (∀ (allocations : List (PrbAllocation R)) (seed other : UInt64), seed ≠ other →
      allocations.foldl hashAllocation seed ≠ allocations.foldl hashAllocation other) ∧
    ∀ (seed : UInt64) (xs ys : List (PrbAllocation R)) (_ : xs.length = ys.length),
      (∀ a ∈ xs, a.InRange) → (∀ a ∈ ys, a.InRange) →
      ∀ (i : Nat) (_ : i < xs.length), xs[i].DifferInOne ys[i] →
      (∀ (j : Nat) (_ : j < xs.length), j ≠ i → xs[j].Agree ys[j]) →
      xs.foldl hashAllocation seed ≠ ys.foldl hashAllocation seed := by
  refine ⟨mix_injective, fun allocations seed other hne heq => ?_, ?_⟩
  · exact hne (WordMixing.fold_injective hash_allocation_injective allocations heq)
  · intro seed xs ys hlength hxs hys i hi hdiffer hsame
    have hi' : i < ys.length := hlength ▸ hi
    refine WordMixing.fold_ne hash_allocation_injective hlength hi (fun j hne hj h => ?_)
      (fun h => ?_) seed
    · exact hash_allocation_congr (hsame j hj hne) h
    · exact hash_allocation_ne (hxs _ (List.getElem_mem hi)) (hys _ (List.getElem_mem hi'))
        hdiffer h

/-- Of three allocations the second one starts elsewhere. -/
theorem replay_hash_keeps_moved_range :
    [(⟨7, 0, 5, 4, 1, 2⟩ : PrbAllocation Int), ⟨8, 5, 3, 4, 1, 2⟩, ⟨9, 8, 2, 4, 1, 2⟩].foldl
        hashAllocation 1 ≠
      [⟨7, 0, 5, 4, 1, 2⟩, ⟨8, -5, 3, 4, 1, 2⟩, ⟨9, 8, 2, 4, 1, 2⟩].foldl hashAllocation 1 := by
  refine replay_hash_keeps_changes.2.2 1
    [⟨7, 0, 5, 4, 1, 2⟩, ⟨8, 5, 3, 4, 1, 2⟩, ⟨9, 8, 2, 4, 1, 2⟩]
    [⟨7, 0, 5, 4, 1, 2⟩, ⟨8, -5, 3, 4, 1, 2⟩, ⟨9, 8, 2, 4, 1, 2⟩] rfl
    (fun a ha => ?_) (fun a ha => ?_) 1 (by decide) ?_ fun j hj hne => ?_
  · simp only [List.mem_cons, List.not_mem_nil, or_false] at ha
    rcases ha with rfl | rfl | rfl <;> exact ⟨by decide, by decide, by decide⟩
  · simp only [List.mem_cons, List.not_mem_nil, or_false] at ha
    rcases ha with rfl | rfl | rfl <;> exact ⟨by decide, by decide, by decide⟩
  · exact .inr (.inl ⟨rfl, by decide, rfl, rfl⟩)
  · obtain rfl | rfl : j = 0 ∨ j = 2 := by
      simp only [List.length_cons, List.length_nil] at hj
      omega
    all_goals exact ⟨rfl, rfl, rfl, rfl⟩

end NrBaseband
