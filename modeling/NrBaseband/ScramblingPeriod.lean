import NrBaseband.Bits
import NrBaseband.ScramblingSeeds
import NrBaseband.Foundation.LinearRecurrence
import Mathlib.NumberTheory.LucasLehmer

/-!
# The period of the scrambling sequence

Both registers of the Gold sequence run through linear recurrences over GF(2) whose generators have
the prime period `2 ^ 31 - 1`. `gold_windows_separated` says that 62 elements tell the place in the
sequence: two windows are alike exactly when their distance is a multiple of the period, whatever
the seed.
-/

namespace NrBaseband

open Foundation Foundation.BitPolynomial Foundation.ShiftRegister Foundation.CyclicRedundancy
  Foundation.LinearRecurrence

/-- The period of the two registers. -/
def goldPeriod : Nat := 2 ^ 31 - 1

/-- The elements that the feedback of the first register adds. -/
def goldTaps1 : BitVec 31 := 0b1001

/-- The elements that the feedback of the second register adds. -/
def goldTaps2 : BitVec 31 := 0b1111

/-- The period of the generators is a Mersenne prime. -/
theorem prime_gold_period : goldPeriod.Prime := by
  have htest := lucas_lehmer_sufficiency 31 (by norm_num) (by norm_num)
  exact htest

/-- The powers of the indeterminate at the period. -/
theorem gold_powers :
    powWord goldTaps1 31 goldPeriod = 1 ∧ powWord goldTaps2 31 goldPeriod = 1 := by
  decide +kernel

/-- The first register as a sequence over GF(2). -/
def goldFirst (n : Nat) : ZMod 2 := gf2 (stream 31 goldNext1 goldSeed1 n)

/-- The second register as a sequence over GF(2). -/
def goldSecond (cInit : UInt32) (n : Nat) : ZMod 2 := gf2 (stream 31 goldNext2 (goldSeed2 cInit) n)

/-- The recurrence of the first generator, written out. -/
theorem recurs_taps1_iff {f : Nat → ZMod 2} :
    Recurs goldTaps1 f ↔ ∀ n, f (n + 31) = f (n + 3) + f n := by
  refine forall_congr' fun n => ?_
  have hsum : ∑ i ∈ Finset.range 31, bit (goldTaps1.getLsbD i) * f (n + i) = f (n + 3) + f n := by
    simp [Finset.sum_range_succ, goldTaps1, add_comm]
  rw [hsum]

/-- The recurrence of the second generator, written out. -/
theorem recurs_taps2_iff {f : Nat → ZMod 2} :
    Recurs goldTaps2 f ↔ ∀ n, f (n + 31) = f (n + 3) + f (n + 2) + f (n + 1) + f n := by
  refine forall_congr' fun n => ?_
  have hsum : ∑ i ∈ Finset.range 31, bit (goldTaps2.getLsbD i) * f (n + i) =
      f (n + 3) + f (n + 2) + f (n + 1) + f n := by
    simp [Finset.sum_range_succ, goldTaps2]
    ring
  rw [hsum]

/-- The first generator obeys its recurrence. -/
theorem recurs_first : Recurs goldTaps1 goldFirst := by
  refine recurs_taps1_iff.mpr fun n => ?_
  rw [goldFirst, stream_next (by omega) gold_next1_congr]
  exact gf2_xor _ _

/-- The second generator obeys its recurrence from every seed. -/
theorem recurs_second (cInit : UInt32) : Recurs goldTaps2 (goldSecond cInit) := by
  refine recurs_taps2_iff.mpr fun n => ?_
  rw [goldSecond, stream_next (by omega) gold_next2_congr]
  unfold goldNext2
  rw [gf2_xor, gf2_xor, gf2_xor]
  rfl

/-- The Gold sequence adds the two registers. -/
theorem gf2_gold (cInit : UInt32) (n : Nat) :
    gf2 (gold cInit n) = goldFirst (n + goldOffset) + goldSecond cInit (n + goldOffset) :=
  gf2_xor _ _

/-- The first generator is periodic. -/
theorem periodic_first : Function.Periodic goldFirst goldPeriod :=
  recurs_first.periodic ((root_pow_eq_one_iff _ (by decide) (by decide)).mpr gold_powers.1)

/-- The second generator is periodic from every seed. -/
theorem periodic_second (cInit : UInt32) : Function.Periodic (goldSecond cInit) goldPeriod :=
  (recurs_second cInit).periodic
    ((root_pow_eq_one_iff _ (by decide) (by decide)).mpr gold_powers.2)

/-- No part of the first register is zero: run backwards it would be zero from its start on. -/
theorem first_ne_zero (m : Nat) : ∃ n, goldFirst (n + m) ≠ 0 := by
  by_contra h
  have hzero (n : Nat) : goldFirst (n + m) = 0 := not_not.mp fun hn => h ⟨n, hn⟩
  clear h
  induction m with
  | zero =>
      have hseed : goldFirst 0 = 1 := rfl
      exact one_ne_zero (hseed.symm.trans (hzero 0))
  | succ m ih =>
      refine ih fun n => ?_
      cases n with
      | zero =>
          have hstep := recurs_taps1_iff.mp recurs_first m
          rw [show m + 31 = 30 + (m + 1) by omega, show m + 3 = 2 + (m + 1) by omega, hzero,
            hzero, zero_add] at hstep
          rw [Nat.zero_add, ← hstep]
      | succ n =>
          rw [Nat.add_right_comm]
          exact hzero n

/-- The two recurrences have only the zero sequence in common: sequences of the one and of the other
that agree on 62 elements are both zero. -/
theorem eq_zero_of_agree {f g : Nat → ZMod 2} (hf : Recurs goldTaps1 f) (hg : Recurs goldTaps2 g)
    (h : ∀ n < 62, f n = g n) (n : Nat) : f n = 0 := by
  have hfirst := recurs_taps1_iff.mp hf
  have hsecond := recurs_taps2_iff.mp hg
  -- what the first recurrence makes of the second sequence is zero on 31 elements
  have hmiss (n : Nat) : g (n + 2) + g (n + 1) = 0 := by
    have hrecurs : Recurs goldTaps2 fun n => g (n + 2) + g (n + 1) := (hg.drop 2).add (hg.drop 1)
    refine hrecurs.eq_zero (fun n hn => ?_) n
    have hstep := hsecond n
    rw [← h (n + 31) (by omega), hfirst n, h (n + 3) (by omega), h n (by omega)] at hstep
    linear_combination -hstep
  -- so that the second sequence is constant from its second element on
  have hconstant (n : Nat) : g (n + 1) = g 1 := by
    induction n with
    | zero => rfl
    | succ n ih => rw [← ih, ← CharTwo.add_eq_zero, hmiss n]
  have hone : g 1 = 0 := by
    have hstep := hsecond 1
    rw [hconstant 31, hconstant 3, hconstant 2, hconstant 1] at hstep
    linear_combination hstep + 2 * CharTwo.add_self_eq_zero (g 1)
  have hzero : g 0 = 0 := by
    have hstep := hsecond 0
    rw [hconstant 30, hconstant 2, hconstant 1, hconstant 0, hone] at hstep
    linear_combination -hstep
  refine hf.eq_zero (fun n hn => ?_) n
  rw [h n (by omega)]
  cases n with
  | zero => exact hzero
  | succ n => rw [hconstant n, hone]

/-- Only multiples of the period move the first register onto itself. -/
theorem period_dvd_of_first {m d : Nat}
    (h : ∀ n, goldFirst (n + m + d) = goldFirst (n + m)) : goldPeriod ∣ d := by
  by_contra hdvd
  have hcoprime : Nat.Coprime goldPeriod d := (prime_gold_period.coprime_iff_not_dvd).mpr hdvd
  have hlong : Function.Periodic (fun n => goldFirst (n + m)) goldPeriod := by
    intro n
    show goldFirst (n + goldPeriod + m) = goldFirst (n + m)
    rw [Nat.add_right_comm]
    exact periodic_first (n + m)
  have hshort : Function.Periodic (fun n => goldFirst (n + m)) d := by
    intro n
    show goldFirst (n + d + m) = goldFirst (n + m)
    rw [Nat.add_right_comm]
    exact h n
  have hconstant (n : Nat) : goldFirst (n + m) = goldFirst m := by
    induction n with
    | zero => rw [Nat.zero_add]
    | succ n ih => exact (constant_of_coprime hlong hshort hcoprime n).trans ih
  obtain ⟨n, hn⟩ := first_ne_zero m
  refine hn ?_
  have hstep := recurs_taps1_iff.mp recurs_first (n + m)
  rw [Nat.add_right_comm, Nat.add_right_comm n m 3, hconstant, hconstant, hconstant] at hstep
  rw [hconstant]
  linear_combination -hstep

/-- Windows of 62 elements of the Gold sequence are alike exactly when the period divides their
distance. -/
theorem gold_window_iff (cInit : UInt32) (i d : Nat) :
    (∀ k < 62, gold cInit (i + d + k) = gold cInit (i + k)) ↔ goldPeriod ∣ d := by
  constructor
  · intro h
    refine period_dvd_of_first (m := i + goldOffset) fun n => ?_
    have hzero := eq_zero_of_agree
      ((recurs_first.drop (i + d + goldOffset)).add (recurs_first.drop (i + goldOffset)))
      (((recurs_second cInit).drop (i + d + goldOffset)).add
        ((recurs_second cInit).drop (i + goldOffset))) (fun k hk => ?_) n
    · rw [CharTwo.add_eq_zero] at hzero
      rw [← hzero]
      congr 1
      omega
    · have hgold := congrArg gf2 (h k hk)
      rw [gf2_gold, gf2_gold, ← sub_eq_zero, CharTwo.sub_eq_add] at hgold
      rw [← CharTwo.add_eq_zero, ← hgold, show i + d + k + goldOffset = k + (i + d + goldOffset) by
        omega, show i + k + goldOffset = k + (i + goldOffset) by omega]
      ring
  · rintro ⟨m, rfl⟩ k _
    refine gf2_inj (is_bit_gold _ _) (is_bit_gold _ _) ?_
    have hfirst := periodic_first.nat_mul m (i + k + goldOffset)
    have hsecond := (periodic_second cInit).nat_mul m (i + k + goldOffset)
    rw [Nat.cast_id] at hfirst hsecond
    have hplace : i + goldPeriod * m + k + goldOffset = i + k + goldOffset + m * goldPeriod := by
      ring
    rw [gf2_gold, gf2_gold, hplace, hfirst, hsecond]

/-- Wherever 62 elements of a scrambling sequence are taken, they tell the place modulo the period:
two windows are alike exactly when their places agree modulo `2 ^ 31 - 1`. -/
theorem gold_windows_separated (length : Nat) (cInit : UInt32) :
    ∃ sequence, goldSequence length cInit = .ok sequence ∧ ∀ i j : Nat, i + 62 ≤ length →
      j + 62 ≤ length → ((sequence.drop i).take 62 = (sequence.drop j).take 62 ↔
        i % goldPeriod = j % goldPeriod) := by
  refine ⟨_, gold_sequence_ok length cInit, fun i j hi hj => ?_⟩
  have hwindow {i : Nat} (hi : i + 62 ≤ length) :
      ((table length (gold cInit)).drop i).take 62 = table 62 fun k => gold cInit (i + k) := by
    rw [Table.drop_table, Table.take_table (by omega)]
  rw [hwindow hi, hwindow hj]
  have hsame (i d : Nat) : table 62 (fun k => gold cInit (i + d + k)) =
      table 62 (fun k => gold cInit (i + k)) ↔ (i + d) % goldPeriod = i % goldPeriod := by
    have hplace := Nat.modEq_iff_dvd' (n := goldPeriod) (Nat.le_add_right i d)
    rw [Nat.add_sub_cancel_left, Nat.ModEq] at hplace
    rw [eq_comm (a := (i + d) % goldPeriod), hplace, ← gold_window_iff cInit i d]
    simp only [table, List.map_inj_left, List.mem_range]
  -- of two places one is not before the other
  rcases Nat.le_total i j with hle | hle
  · obtain ⟨d, rfl⟩ := Nat.exists_eq_add_of_le hle
    rw [eq_comm, hsame, eq_comm]
  · obtain ⟨d, rfl⟩ := Nat.exists_eq_add_of_le hle
    exact hsame j d

end NrBaseband
