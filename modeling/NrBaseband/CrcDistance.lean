import NrBaseband.CrcDetection
import NrBaseband.Foundation.GeneratorPeriod
import Mathlib.Tactic.NormNum.Prime

/-!
# Few errors

The periods of the five generators. A check misses two errors exactly when the period divides their
distance, so that no word up to the period hides two errors, or three where the generator vanishes
at 1 (`crc_detects_few`). The blocks of a segmented transport block are far below that length.
-/

namespace NrBaseband

open Polynomial Foundation Foundation.BitPolynomial Foundation.CyclicRedundancy

/-- The period of the generator of a check. -/
def CrcType.period : CrcType → Nat
  | .crc24a => 8388607
  | .crc24b => 8388607
  | .crc16 => 32767
  | .crc11 => 2047
  | .crc6 => 63

/-- How many errors a check never misses in a word up to the period. -/
def CrcType.detected : CrcType → Nat
  | .crc24a => 3
  | .crc24b => 3
  | .crc16 => 3
  | .crc11 => 2
  | .crc6 => 2

/-- The factors of the periods. -/
def CrcType.periodFactors : CrcType → List Nat
  | .crc24a => [47, 178481]
  | .crc24b => [47, 178481]
  | .crc16 => [7, 31, 151]
  | .crc11 => [23, 89]
  | .crc6 => [3, 3, 7]

/-- The factors of a period are prime. -/
theorem prime_period_factors (type : CrcType) : ∀ q ∈ type.periodFactors, q.Prime := by
  cases type <;> simp only [CrcType.periodFactors, List.forall_mem_cons] <;> norm_num

/-- The primes that divide a period are its factors. -/
theorem mem_period_factors {type : CrcType} {p : Nat} (hp : p.Prime) (hdvd : p ∣ type.period) :
    p ∈ type.periodFactors := by
  have hproduct : type.period = type.periodFactors.prod := by cases type <;> rfl
  rw [hproduct, hp.prime.dvd_prod_iff] at hdvd
  obtain ⟨q, hq, hdvd⟩ := hdvd
  rwa [(Nat.prime_dvd_prime_iff_eq hp (prime_period_factors type q hq)).mp hdvd]

/-- The powers of the indeterminate at the period and at its quotients by a prime. -/
theorem period_powers (type : CrcType) :
    powWord (crcPoly type) 24 type.period = 1 ∧
      ∀ p ∈ type.periodFactors, powWord (crcPoly type) 24 (type.period / p) ≠ 1 := by
  cases type <;> decide +kernel

/-- The indeterminate modulo a generator has the period of the check as its order. -/
theorem order_of_period (type : CrcType) :
    orderOf (AdjoinRoot.root (generator (crcPoly type))) = type.period := by
  obtain ⟨hwidth, _⟩ := crc_len_range type
  obtain ⟨hone, hquotients⟩ := period_powers type
  refine order_of_root _ hwidth ?_ ?_ hone fun p hp hdvd =>
    hquotients p (mem_period_factors hp hdvd)
  · cases type <;> decide
  · cases type <;> decide

/-- The polynomial of a pattern with ones at two places. -/
theorem of_message_pair {e : Bits} {i j : Nat} (hij : i < j)
    (hones : ∀ k : Nat, e[k]? = some 1 ↔ k = i ∨ k = j) :
    ofMessage (e.map (· == 1)) = X ^ (e.length - 1 - j + (j - i)) + X ^ (e.length - 1 - j) := by
  have hread (k : Nat) : (e.map (· == 1)).getD k false = decide (k = i ∨ k = j) := by
    rw [List.getD_eq_getElem?_getD, List.getElem?_map, Bool.eq_iff_iff, decide_eq_true_iff,
      ← hones k]
    cases e[k]? <;> simp
  have hlt {k : Nat} (hk : k = i ∨ k = j) : k < e.length :=
    (List.getElem?_eq_some_iff.mp ((hones k).mpr hk)).1
  have hj := hlt (.inr rfl)
  rw [of_message_eq_sum, List.length_map]
  simp only [hread]
  rw [Finset.sum_eq_add i j hij.ne (fun k _ hk => ?_) (fun h => ?_) fun h => ?_]
  · simp [show e.length - 1 - i = e.length - 1 - j + (j - i) by omega]
  · simp [hk.1, hk.2]
  · exact absurd (Finset.mem_range.mpr (hlt (.inl rfl))) h
  · exact absurd (Finset.mem_range.mpr hj) h

/-- The generators that vanish at 1 miss no three errors. -/
theorem three_errors_not_dvd {type : CrcType} (htype : type.detected = 3) {bits : List Bool}
    (hthree : bits.count true = 3) : ¬generator (crcPoly type) ∣ ofMessage bits := by
  have hroot : (generator (crcPoly type)).eval 1 = 0 := by
    rw [← generator_of_eq, generatorOf, eval_one_of_word]
    cases type <;> first | decide | exact absurd htype (by decide)
  exact odd_not_dvd hroot (by rw [hthree]; decide)

/-- What a check makes of few errors in a word that passes: one error is always seen, two are missed
exactly when the period divides their distance, and in a word up to the period no pattern of at most
as many errors as the check detects is missed. -/
theorem crc_detects_few {type : CrcType} {c e : Bits} (hpasses : crcCheck c type = .ok true)
    (he : IsBits e) (hlength : e.length = c.length) :
    (e.count 1 = 1 → crcCheck (xorBits c e) type = .ok false) ∧
    (∀ i j : Nat, i < j → (∀ k : Nat, e[k]? = some 1 ↔ k = i ∨ k = j) →
      crcCheck (xorBits c e) type = .ok (decide (type.period ∣ j - i))) ∧
    (e.length ≤ type.period → 0 < e.count 1 → e.count 1 ≤ type.detected →
      crcCheck (xorBits c e) type = .ok false) := by
  obtain ⟨hwidth, _⟩ := crc_len_range type
  obtain ⟨_, _, hconstant⟩ := generator_of_spec type
  obtain ⟨passes, hcheck, hiff⟩ := crc_check_xor hpasses he hlength
  have hcount : (e.map (· == 1)).count true = e.count 1 := by
    rw [List.count, List.countP_map]
    exact List.countP_congr fun b _ => by simp
  have hmissed (h : ¬generator (crcPoly type) ∣ ofMessage (e.map (· == 1))) :
      crcCheck (xorBits c e) type = .ok false := by
    rw [hcheck, Bool.eq_false_iff.mpr fun hp => h (hiff.mp hp)]
  have hone (h : e.count 1 = 1) : crcCheck (xorBits c e) type = .ok false := by
    obtain ⟨m, _, hm⟩ := of_message_one (hcount.trans h)
    exact hmissed (hm ▸ one_error_not_dvd hwidth hconstant m)
  refine ⟨hone, fun i j hij hones => ?_, fun hshort hsome hfew => ?_⟩
  · rw [of_message_pair hij hones, two_errors_dvd_iff hwidth hconstant, order_of_period] at hiff
    rw [hcheck, Bool.eq_iff_iff.mpr (hiff.trans decide_eq_true_iff.symm)]
  · have hdetected : type.detected = 2 ∨ type.detected = 3 := by cases type <;> decide
    rcases (by omega : e.count 1 = 1 ∨ e.count 1 = 2 ∨ e.count 1 = 3 ∧ type.detected = 3) with
      h | h | ⟨h, htype⟩
    · exact hone h
    · obtain ⟨m, d, hd, hlt, hm⟩ := of_message_two (hcount.trans h)
      rw [List.length_map] at hlt
      refine hmissed ?_
      rw [hm, two_errors_dvd_iff hwidth hconstant, order_of_period]
      exact fun hdvd => absurd (Nat.le_of_dvd hd hdvd) (by omega)
    · exact hmissed (three_errors_not_dvd htype (hcount.trans h))

/-- The attached 24-bit check of two bits, with three errors. -/
theorem crc_detects_few_three : ∃ coded, crcAttach [1, 0] .crc24a = .ok coded ∧
    crcCheck (xorBits coded (1 :: 1 :: 0 :: 1 :: List.replicate 22 0)) .crc24a = .ok false := by
  obtain ⟨parity, hattach, hlength, _, hpasses⟩ :=
    crc_attach_spec (show IsBits [1, 0] by simp) .crc24a
  have hcoded : (1 :: 1 :: 0 :: 1 :: List.replicate 22 0 : Bits).length =
      ([1, 0] ++ parity).length := by
    rw [List.length_append, hlength]
    rfl
  exact ⟨_, hattach, (crc_detects_few hpasses (by simp) hcoded).2.2 (by decide) (by decide)
    (by decide)⟩

end NrBaseband
