import Mathlib.Data.BitVec
import Mathlib.Logic.Function.Basic

/-!
# Mixing words

The steps a hash of machine words is built from, each of which loses nothing: adding a shifted copy
of the word (`xor_shift_injective`) and multiplying by a unit (`mul_injective`). A hash chains such
steps over a sequence, so it keeps apart two start values (`fold_injective`) and two sequences that
differ in one place (`fold_ne`).
-/

namespace Foundation.WordMixing

variable {width : Nat}

/-- A word that its own right shift does not change is zero. -/
theorem eq_zero_of_shift {shift : Nat} (hshift : 0 < shift) {word : BitVec width}
    (h : word = word >>> shift) : word = 0 := by
  have hvalue : word.toNat = word.toNat / 2 ^ shift := by
    have := congrArg BitVec.toNat h
    rwa [BitVec.toNat_ushiftRight, Nat.shiftRight_eq_div_pow] at this
  have hpow : 1 < 2 ^ shift := Nat.one_lt_two_pow (Nat.ne_of_gt hshift)
  have hzero : word.toNat = 0 := by
    by_contra hne
    have hlt := Nat.div_lt_self (Nat.pos_of_ne_zero hne) hpow
    omega
  exact BitVec.eq_of_toNat_eq hzero

/-- Adding a right-shifted copy of the word. -/
theorem xor_shift_injective {shift : Nat} (hshift : 0 < shift) :
    Function.Injective fun word : BitVec width => word ^^^ (word >>> shift) := by
  intro x y h
  have heq : x ^^^ (x >>> shift) = y ^^^ (y >>> shift) := h
  have hx : x = y ^^^ (y >>> shift) ^^^ (x >>> shift) := by
    rw [← heq, BitVec.xor_assoc, BitVec.xor_self, BitVec.xor_zero]
  have hsum : x ^^^ y = (x ^^^ y) >>> shift := by
    calc x ^^^ y = y ^^^ (y >>> shift) ^^^ (x >>> shift) ^^^ y := congrArg (· ^^^ y) hx
      _ = (x >>> shift) ^^^ (y >>> shift) ^^^ (y ^^^ y) := by ac_rfl
      _ = (x ^^^ y) >>> shift := by
          rw [BitVec.xor_self, BitVec.xor_zero, BitVec.ushiftRight_xor_distrib]
  exact BitVec.xor_eq_zero_iff.mp (eq_zero_of_shift hshift hsum)

/-- Multiplying by a word that has an inverse. -/
theorem mul_injective {factor inverse : BitVec width} (h : factor * inverse = 1) :
    Function.Injective fun word : BitVec width => word * factor := by
  intro x y hxy
  have hback (word : BitVec width) : word * factor * inverse = word := by
    rw [BitVec.mul_assoc, h]
    exact BitVec.mul_one word
  rw [← hback x, ← hback y]
  exact congrArg (· * inverse) hxy

variable {State Item : Type} {step : State → Item → State}

/-- A chain of injective steps keeps its start values apart. -/
theorem fold_injective (hstep : ∀ item, Function.Injective fun state => step state item)
    (items : List Item) : Function.Injective fun state => items.foldl step state := by
  induction items with
  | nil => exact fun _ _ h => h
  | cons item items ih => exact fun _ _ h => hstep item (ih h)

/-- Two sequences of one length whose steps agree at every index chain to the same state. -/
theorem fold_congr {xs ys : List Item} (hlength : xs.length = ys.length)
    (hsame : ∀ j (hj : j < xs.length) state, step state xs[j] = step state ys[j])
    (state : State) : xs.foldl step state = ys.foldl step state := by
  induction xs generalizing ys state with
  | nil =>
      obtain rfl := List.length_eq_zero_iff.mp hlength.symm
      rfl
  | cons x xs ih =>
      cases ys with
      | nil => cases hlength
      | cons y ys =>
          have hfirst : step state x = step state y := hsame 0 (Nat.succ_pos _) state
          rw [List.foldl_cons, List.foldl_cons, hfirst]
          exact ih (Nat.succ.inj hlength) (fun j hj => hsame (j + 1) (Nat.succ_lt_succ hj)) _

/-- A chain of injective steps keeps apart two sequences of one length that differ at one index,
where the step sees the difference, and at the others at most in what the step does not see. -/
theorem fold_ne (hstep : ∀ item, Function.Injective fun state => step state item)
    {xs ys : List Item} (hlength : xs.length = ys.length) {i : Nat} (hi : i < xs.length)
    (hsame : ∀ j, j ≠ i → ∀ (hj : j < xs.length) state, step state xs[j] = step state ys[j])
    (hdiffer : ∀ state, step state xs[i] ≠ step state ys[i]) (state : State) :
    xs.foldl step state ≠ ys.foldl step state := by
  induction xs generalizing ys i state with
  | nil => exact absurd hi (Nat.not_lt_zero i)
  | cons x xs ih =>
      cases ys with
      | nil => cases hlength
      | cons y ys =>
          rw [List.foldl_cons, List.foldl_cons]
          have hrest : xs.length = ys.length := Nat.succ.inj hlength
          have hlater (j : Nat) (hj : j < xs.length) (hne : j + 1 ≠ i) (state : State) :
              step state xs[j] = step state ys[j] :=
            hsame (j + 1) hne (Nat.succ_lt_succ hj) state
          cases i with
          | zero =>
              -- the states differ after this step, and the later steps are the same for both
              rw [fold_congr hrest (fun j hj => hlater j hj (Nat.succ_ne_zero j)) (step state x)]
              exact fun heq => hdiffer state (fold_injective hstep ys heq)
          | succ i =>
              have hfirst : step state x = step state y :=
                hsame 0 (Nat.succ_ne_zero i).symm (Nat.succ_pos _) state
              rw [hfirst]
              refine ih hrest (Nat.lt_of_succ_lt_succ hi) (fun j hne hj => ?_) hdiffer _
              exact hlater j hj fun h => hne (Nat.succ.inj h)

end Foundation.WordMixing
