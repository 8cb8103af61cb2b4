import NrBaseband.Foundation.BitReversal
import NrBaseband.Foundation.Fourier

/-!
# Fast Fourier transforms

Radix-2 decimation in time. The stages start from the samples in bit-reversed order; stage `s + 1`
joins blocks of length `2 ^ s` in pairs by butterflies (`butterflies`). After stage `s` every block
of length `2 ^ s` is a transform of equally spaced samples (`stages_eq_dft`), so that the last stage
leaves the whole transform (`stages_last`).
-/

namespace Foundation

variable {K : Type} [CommRing K]

/-- Roots of unity for the stages: each is a square root of the one before, and the first after
`1` is `-1`. -/
structure RootTower (ω : Nat → K) : Prop where
  zero : ω 0 = 1
  one : ω 1 = -1
  square : ∀ s, ω (s + 1) ^ 2 = ω s

namespace RootTower

variable {ω : Nat → K}

/-- Half a turn is `-1`. -/
theorem half (h : RootTower ω) (s : Nat) : ω (s + 1) ^ 2 ^ s = -1 := by
  induction s with
  | zero => rw [pow_zero, pow_one, h.one]
  | succ s ih => rw [pow_succ', pow_mul, h.square, ih]

/-- A whole turn is `1`. -/
theorem whole (h : RootTower ω) (s : Nat) : ω s ^ 2 ^ s = 1 := by
  cases s with
  | zero => rw [h.zero, one_pow]
  | succ s => rw [pow_succ, pow_mul, h.half, neg_one_sq]

end RootTower

/-- The butterflies of one stage: blocks of length `half` are joined in pairs with the powers of
`w`. -/
def butterflies (w : K) (half : Nat) (f : Nat → K) (x : Nat) : K :=
  if x % (2 * half) < half then f x + f (x + half) * w ^ (x % (2 * half))
  else f (x - half) - f x * w ^ (x % (2 * half) - half)

/-- The lower half of a block after its butterflies. -/
theorem butterflies_low (w : K) {half k : Nat} (hk : k < half) (f : Nat → K) (b : Nat) :
    butterflies w half f (b * (2 * half) + k) =
      f (b * (2 * half) + k) + f (b * (2 * half) + (k + half)) * w ^ k := by
  have hmod : (b * (2 * half) + k) % (2 * half) = k := by
    rw [Nat.mul_comm, Nat.mul_add_mod, Nat.mod_eq_of_lt (by omega)]
  rw [butterflies, hmod, if_pos hk, Nat.add_assoc]

/-- The upper half of a block after its butterflies. -/
theorem butterflies_high (w : K) {half k : Nat} (hk : k < half) (f : Nat → K) (b : Nat) :
    butterflies w half f (b * (2 * half) + (k + half)) =
      f (b * (2 * half) + k) - f (b * (2 * half) + (k + half)) * w ^ k := by
  have hmod : (b * (2 * half) + (k + half)) % (2 * half) = k + half := by
    rw [Nat.mul_comm, Nat.mul_add_mod, Nat.mod_eq_of_lt (by omega)]
  rw [butterflies, hmod, if_neg (by omega), Nat.add_sub_cancel, ← Nat.add_assoc,
    Nat.add_sub_cancel]

/-- The first `s` stages. -/
def stages (ω : Nat → K) (f : Nat → K) : Nat → Nat → K
  | 0 => f
  | s + 1 => butterflies (ω (s + 1)) (2 ^ s) (stages ω f s)

/-- After `s` stages the block `b` of length `2 ^ s` is the transform of the samples with distance
`2 ^ r` that start at the reversed number of the block. -/
theorem stages_eq_dft {ω : Nat → K} (h : RootTower ω) (x : Nat → K) {m : Nat} (s : Nat) :
    ∀ {r b k : Nat}, m = s + r → b < 2 ^ r → k < 2 ^ s →
      stages ω (fun i => x (bitReverse m i)) s (b * 2 ^ s + k) =
        dft (ω s) (2 ^ s) (fun t => x (t * 2 ^ r + bitReverse r b)) k := by
  induction s with
  | zero =>
      intro r b k hm hb hk
      have hzero : k = 0 := by simpa using hk
      subst hzero hm
      simp [stages, dft]
  | succ s ih =>
      intro r b k hm hb hk
      -- the two blocks that are joined have the numbers `2 * b` and `2 * b + 1`
      have hfirst : b * (2 * 2 ^ s) = 2 * b * 2 ^ s := by ring
      have hsecond (j : Nat) : 2 * b * 2 ^ s + (j + 2 ^ s) = (2 * b + 1) * 2 ^ s + j := by ring
      have hstage : m = s + (r + 1) := by omega
      have hlower : 2 * b + 1 < 2 ^ (r + 1) := by
        rw [pow_succ]
        omega
      have heven (j : Nat) (hj : j < 2 ^ s) :
          stages ω (fun i => x (bitReverse m i)) s (2 * b * 2 ^ s + j) =
            dft (ω (s + 1) ^ 2) (2 ^ s) (fun t => x (2 * t * 2 ^ r + bitReverse r b)) j := by
        rw [ih hstage (Nat.lt_of_succ_lt hlower) hj, h.square, bit_reverse_even]
        exact dft_congr (fun t _ => by rw [pow_succ]; ring_nf) _ _
      have hodd (j : Nat) (hj : j < 2 ^ s) :
          stages ω (fun i => x (bitReverse m i)) s ((2 * b + 1) * 2 ^ s + j) =
            dft (ω (s + 1) ^ 2) (2 ^ s) (fun t => x ((2 * t + 1) * 2 ^ r + bitReverse r b)) j := by
        rw [ih hstage hlower hj, h.square, bit_reverse_odd]
        exact dft_congr (fun t _ => by rw [pow_succ]; ring_nf) _ _
      rw [stages, pow_succ']
      rcases Nat.lt_or_ge k (2 ^ s) with hlow | hhigh
      · rw [butterflies_low _ hlow, hfirst, hsecond, heven k hlow, hodd k hlow]
        exact (dft_split (ω (s + 1)) (2 ^ s) (fun t => x (t * 2 ^ r + bitReverse r b)) k).symm
      · obtain ⟨j, rfl⟩ := Nat.exists_eq_add_of_le' hhigh
        have hj : j < 2 ^ s := by
          rw [pow_succ] at hk
          omega
        rw [butterflies_high _ hj, hfirst, hsecond, heven j hj, hodd j hj]
        exact (dft_split_high (h.half s) (fun t => x (t * 2 ^ r + bitReverse r b)) j).symm

/-- The last stage leaves the transform of all samples. -/
theorem stages_last {ω : Nat → K} (h : RootTower ω) (x : Nat → K) {m k : Nat} (hk : k < 2 ^ m) :
    stages ω (fun i => x (bitReverse m i)) m k = dft (ω m) (2 ^ m) x k := by
  have hlast := stages_eq_dft h x m (m := m) (r := 0) (b := 0) rfl Nat.one_pos hk
  simpa [bitReverse] using hlast

end Foundation
