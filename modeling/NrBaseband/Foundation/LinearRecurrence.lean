import NrBaseband.Foundation.GeneratorPeriod
import Mathlib.Algebra.Algebra.ZMod
import Mathlib.Algebra.Field.ZMod
import Mathlib.Algebra.Polynomial.AlgebraMap
import Mathlib.Algebra.Ring.Periodic

/-!
# Linear recurrences

Sequences over GF(2) whose elements are sums of the `w` elements before them, selected by the bits
of a word. A sequence is determined by `w` elements (`Recurs.eq_zero`), and it repeats with the
period of the generator whose lower coefficients are the word (`Recurs.periodic`). Where the period
is prime, a sequence that repeats with a distance which the period does not divide is constant.
-/

namespace Foundation.LinearRecurrence

open Polynomial BitPolynomial CyclicRedundancy

variable {w : Nat} {poly : BitVec w} {f g : Nat → ZMod 2}

/-- Each element is the sum of the selected ones of the `w` elements before it. -/
def Recurs (poly : BitVec w) (f : Nat → ZMod 2) : Prop :=
  ∀ n, f (n + w) = ∑ i ∈ Finset.range w, bit (poly.getLsbD i) * f (n + i)

/-- The sum of two sequences obeys the recurrence of both. -/
theorem Recurs.add (hf : Recurs poly f) (hg : Recurs poly g) :
    Recurs poly fun n => f n + g n := by
  intro n
  simp only [hf n, hg n, mul_add, Finset.sum_add_distrib]

/-- A sequence obeys its recurrence from any index on. -/
theorem Recurs.drop (hf : Recurs poly f) (m : Nat) : Recurs poly fun n => f (n + m) := by
  intro n
  show f (n + w + m) = ∑ i ∈ Finset.range w, bit (poly.getLsbD i) * f (n + i + m)
  rw [Nat.add_right_comm, hf (n + m)]
  exact Finset.sum_congr rfl fun i _ => by rw [Nat.add_right_comm]

/-- A sequence that starts with `w` zeros is zero. -/
theorem Recurs.eq_zero (hf : Recurs poly f) (hstart : ∀ n < w, f n = 0) (n : Nat) : f n = 0 := by
  induction n using Nat.strong_induction_on with
  | _ n ih =>
      by_cases hn : n < w
      · exact hstart n hn
      · obtain ⟨m, rfl⟩ := Nat.exists_eq_add_of_le (Nat.not_lt.mp hn)
        rw [Nat.add_comm, hf m]
        refine Finset.sum_eq_zero fun i hi => ?_
        have hlt := Finset.mem_range.mp hi
        rw [ih (m + i) (by omega), mul_zero]

/-! ## Periods -/

/-- Moving a sequence on by one element. -/
def shift : Module.End (ZMod 2) (Nat → ZMod 2) where
  toFun f n := f (n + 1)
  map_add' _ _ := rfl
  map_smul' _ _ := rfl

/-- Shifting several times. -/
theorem shift_pow (m : Nat) (f : Nat → ZMod 2) (n : Nat) : (shift ^ m) f n = f (n + m) := by
  induction m generalizing f with
  | zero => rfl
  | succ m ih =>
      rw [pow_succ, Module.End.mul_apply, ih]
      exact congrArg f (Nat.add_assoc n m 1)

/-- The generator of a recurrence maps its sequences to zero. -/
theorem Recurs.annihilated (hf : Recurs poly f) : aeval shift (generator poly) f = 0 := by
  funext n
  rw [generator, ofWord, map_add, map_sum, LinearMap.add_apply, LinearMap.sum_apply, Pi.add_apply,
    Finset.sum_apply, map_pow, aeval_X, shift_pow, hf n, Pi.zero_apply]
  have hterm (i : Nat) : (aeval shift (C (bit (poly.getLsbD i)) * X ^ i) f : Nat → ZMod 2) n =
      bit (poly.getLsbD i) * f (n + i) := by
    rw [map_mul, aeval_C, map_pow, aeval_X, Module.End.mul_apply, Module.algebraMap_end_apply,
      Pi.smul_apply, shift_pow, smul_eq_mul]
  rw [Finset.sum_congr rfl fun i _ => hterm i, CharTwo.add_self_eq_zero]

/-- A sequence repeats with the period of its generator. -/
theorem Recurs.periodic (hf : Recurs poly f) {period : Nat}
    (hperiod : AdjoinRoot.root (generator poly) ^ period = 1) :
    Function.Periodic f period := by
  rw [← sub_eq_zero, ← AdjoinRoot.mk_X, ← map_pow, ← map_one (AdjoinRoot.mk (generator poly)),
    ← map_sub, AdjoinRoot.mk_eq_zero] at hperiod
  obtain ⟨quotient, hquotient⟩ := hperiod
  have hzero : aeval shift (X ^ period - 1 : (ZMod 2)[X]) f = 0 := by
    rw [hquotient, mul_comm, map_mul, Module.End.mul_apply, hf.annihilated, map_zero]
  intro n
  have helement := congrFun hzero n
  rw [map_sub, map_pow, aeval_X, map_one, LinearMap.sub_apply, Pi.sub_apply, shift_pow,
    Module.End.one_apply, Pi.zero_apply, sub_eq_zero] at helement
  exact helement

/-- Two periods without a common factor make a sequence constant. -/
theorem constant_of_coprime {α : Type} {f : Nat → α} {a b : Nat} (ha : Function.Periodic f a)
    (hb : Function.Periodic f b) (hcoprime : Nat.Coprime a b) (n : Nat) : f (n + 1) = f n := by
  by_cases hone : b = 1
  · exact hone ▸ hb n
  · by_cases hzero : b = 0
    · -- the other period is 1
      rw [hzero, Nat.coprime_zero_right] at hcoprime
      exact hcoprime ▸ ha n
    · -- a multiple of one period is one more than a multiple of the other
      obtain ⟨m, -, hm⟩ := Nat.exists_mul_mod_eq_one_of_coprime hcoprime (by omega)
      have hsplit := Nat.div_add_mod (a * m) b
      rw [hm] at hsplit
      calc f (n + 1) = f (n + 1 + a * m / b * b) := (hb.nat_mul _ _).symm
        _ = f (n + m * a) := congrArg f (by rw [mul_comm m a, mul_comm _ b]; omega)
        _ = f n := ha.nat_mul _ _

end Foundation.LinearRecurrence
