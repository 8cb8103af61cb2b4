import Mathlib.RingTheory.RootsOfUnity.PrimitiveRoots
import Mathlib.Algebra.Ring.GeomSum

/-!
# Discrete Fourier transforms

The transform of `n` samples with respect to an `n`-th root of unity, as sums over a ring. A
transform of length `2 * n` splits into those of the even and the odd samples (`dft_split`,
`dft_split_high`); a primitive root makes the transform invertible (`dft_inverse`); and delaying
the samples round a circle multiplies the transform by powers of the root (`dft_delay`).
-/

namespace Foundation

open Finset

variable {K : Type} [CommRing K]

/-- The transform of the first `n` samples at frequency `k`. -/
def dft (ω : K) (n : Nat) (x : Nat → K) (k : Nat) : K := ∑ t ∈ range n, x t * ω ^ (k * t)

/-- Only the samples inside the length matter. -/
theorem dft_congr {n : Nat} {x y : Nat → K} (h : ∀ t < n, x t = y t) (ω : K) (k : Nat) :
    dft ω n x k = dft ω n y k :=
  sum_congr rfl fun t ht => by rw [h t (mem_range.mp ht)]

/-- The transform of a sum is the sum of the transforms. -/
theorem dft_sum {ι : Type} (terms : Finset ι) (ω : K) (n : Nat) (x : ι → Nat → K) (k : Nat) :
    dft ω n (fun t => ∑ l ∈ terms, x l t) k = ∑ l ∈ terms, dft ω n (x l) k := by
  simp only [dft, sum_mul]
  exact sum_comm

/-- A factor of all samples is one of the transform. -/
theorem dft_mul_left (c ω : K) (n : Nat) (x : Nat → K) (k : Nat) :
    dft ω n (fun t => c * x t) k = c * dft ω n x k := by
  simp only [dft, mul_sum, mul_assoc]

/-- Frequencies repeat after the length. -/
theorem dft_periodic {ω : K} {n : Nat} (h : ω ^ n = 1) (x : Nat → K) (k : Nat) :
    dft ω n x (k + n) = dft ω n x k := by
  refine sum_congr rfl fun t _ => ?_
  rw [add_mul, pow_add, pow_mul ω n t, h, one_pow, mul_one]

/-! ## Splitting -/

/-- A sum over twice as many terms pairs even and odd ones. -/
theorem sum_even_odd (f : Nat → K) (n : Nat) :
    ∑ t ∈ range (2 * n), f t = ∑ t ∈ range n, f (2 * t) + ∑ t ∈ range n, f (2 * t + 1) := by
  induction n with
  | zero => simp
  | succ n ih =>
      have hdouble : 2 * (n + 1) = 2 * n + 1 + 1 := by omega
      rw [hdouble, sum_range_succ, sum_range_succ, ih, sum_range_succ, sum_range_succ]
      ring

/-- The transform from those of the even and odd samples. -/
theorem dft_split (ω : K) (n : Nat) (x : Nat → K) (k : Nat) :
    dft ω (2 * n) x k = dft (ω ^ 2) n (fun t => x (2 * t)) k +
      dft (ω ^ 2) n (fun t => x (2 * t + 1)) k * ω ^ k := by
  rw [dft, sum_even_odd, dft, dft, sum_mul]
  congr 1
  · refine sum_congr rfl fun t _ => ?_
    rw [← pow_mul]
    ring
  · refine sum_congr rfl fun t _ => ?_
    rw [← pow_mul]
    ring

/-- In the upper half of the frequencies the odd samples count negatively. -/
theorem dft_split_high {ω : K} {n : Nat} (h : ω ^ n = -1) (x : Nat → K) (k : Nat) :
    dft ω (2 * n) x (k + n) = dft (ω ^ 2) n (fun t => x (2 * t)) k -
      dft (ω ^ 2) n (fun t => x (2 * t + 1)) k * ω ^ k := by
  have hsquare : (ω ^ 2) ^ n = 1 := by rw [← pow_mul, mul_comm, pow_mul, h, neg_one_sq]
  rw [dft_split, dft_periodic hsquare, dft_periodic hsquare, pow_add, h]
  ring

/-! ## Inversion -/

section Inversion

variable [IsDomain K] {ω ω' : K} {n : Nat}

/-- The powers of two frequencies are orthogonal. -/
theorem sum_root_pow (hω : IsPrimitiveRoot ω n) (hinv : ω * ω' = 1) {s t : Nat} (hs : s < n)
    (ht : t < n) : ∑ k ∈ range n, ω ^ (k * t) * ω' ^ (s * k) = if t = s then (n : K) else 0 := by
  have hterm (k : Nat) : ω ^ (k * t) * ω' ^ (s * k) = (ω ^ t * ω' ^ s) ^ k := by
    rw [mul_pow, ← pow_mul, ← pow_mul, mul_comm k t]
  have hcancel : ω' ^ s * ω ^ s = 1 := by rw [← mul_pow, mul_comm ω', hinv, one_pow]
  simp only [hterm]
  split
  case isTrue heq =>
    rw [heq, mul_comm (ω ^ s), hcancel]
    simp
  case isFalse hne =>
    have hroot : (ω ^ t * ω' ^ s) ^ n = 1 := by
      have hω' : ω' ^ n = 1 := by
        have hpow := congrArg (· ^ n) hinv
        simpa [mul_pow, hω.pow_eq_one] using hpow
      rw [mul_pow, ← pow_mul, ← pow_mul, mul_comm t, mul_comm s, pow_mul, pow_mul, hω.pow_eq_one,
        hω', one_pow, one_pow, mul_one]
    have hnot : ω ^ t * ω' ^ s ≠ 1 := by
      intro hone
      have hpow : ω ^ t = ω ^ s := by
        rw [← mul_one (ω ^ t), ← hcancel, ← mul_assoc, hone, one_mul]
      exact hne (hω.pow_inj ht hs hpow)
    have hzero := geom_sum_mul (ω ^ t * ω' ^ s) n
    rw [hroot, sub_self, mul_eq_zero] at hzero
    exact hzero.resolve_right (sub_ne_zero.mpr hnot)

/-- Transforming back with the inverse root multiplies the samples by the length. -/
theorem dft_inverse (hω : IsPrimitiveRoot ω n) (hinv : ω * ω' = 1) (x : Nat → K) {s : Nat}
    (hs : s < n) : dft ω' n (dft ω n x) s = n * x s := by
  have hswap : dft ω' n (dft ω n x) s =
      ∑ t ∈ range n, x t * ∑ k ∈ range n, ω ^ (k * t) * ω' ^ (s * k) := by
    simp only [dft, sum_mul, mul_sum]
    rw [sum_comm]
    exact sum_congr rfl fun t _ => sum_congr rfl fun k _ => mul_assoc _ _ _
  rw [hswap, sum_eq_single s]
  · rw [sum_root_pow hω hinv hs hs, if_pos rfl, mul_comm]
  · intro t ht hne
    rw [sum_root_pow hω hinv hs (mem_range.mp ht), if_neg hne, mul_zero]
  · intro hnot
    exact absurd (mem_range.mpr hs) hnot

end Inversion

/-! ## Delay -/

/-- Delaying the samples round the circle multiplies the transform. -/
theorem dft_delay {ω : K} {n : Nat} (h : ω ^ n = 1) {l : Nat} (hl : l ≤ n) (x : Nat → K)
    (k : Nat) : dft ω n (fun t => x ((n + t - l) % n)) k = ω ^ (k * l) * dft ω n x k := by
  obtain ⟨m, rfl⟩ := Nat.exists_eq_add_of_le hl
  have hearly : ∀ t < l, (l + m + t - l) % (l + m) = m + t := by
    intro t ht
    have hsub : l + m + t - l = m + t := by omega
    rw [hsub, Nat.mod_eq_of_lt (by omega)]
  have hlate : ∀ t < m, (l + m + (l + t) - l) % (l + m) = t := by
    intro t ht
    have hsub : l + m + (l + t) - l = l + m + t := by omega
    rw [hsub, Nat.add_mod_left, Nat.mod_eq_of_lt (by omega)]
  -- the last `l` samples come first and the others follow
  have hleft : dft ω (l + m) (fun t => x ((l + m + t - l) % (l + m))) k =
      ∑ t ∈ range l, x (m + t) * ω ^ (k * t) + ∑ t ∈ range m, x t * ω ^ (k * (l + t)) := by
    rw [dft, sum_range_add]
    congr 1
    · exact sum_congr rfl fun t ht => by rw [hearly t (mem_range.mp ht)]
    · exact sum_congr rfl fun t ht => by rw [hlate t (mem_range.mp ht)]
  have hround (t : Nat) : ω ^ (k * l) * ω ^ (k * (m + t)) = ω ^ (k * t) := by
    have hexp : k * l + k * (m + t) = (l + m) * k + k * t := by ring
    rw [← pow_add, hexp, pow_add, pow_mul, h, one_pow, one_mul]
  rw [hleft, dft, Nat.add_comm l m, sum_range_add, mul_add, add_comm]
  congr 1
  · rw [mul_sum]
    refine sum_congr rfl fun t _ => ?_
    rw [mul_add, pow_add]
    ring
  · rw [mul_sum]
    refine sum_congr rfl fun t _ => ?_
    rw [mul_left_comm, hround]

end Foundation
