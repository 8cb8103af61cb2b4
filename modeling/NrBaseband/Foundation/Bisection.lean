import NrBaseband.Foundation.Checked
import Mathlib.Order.Basic

/-!
# Bisection

A search for the last index with a property that holds up to some index and not after it. The
search halves a bracket of two indices, and the sum of the indices must stay below a limit.
`bisect_eq` says what it returns: the last index, where it is before `safeBelow`. Only the way to
the upper end leads to large sums, so a bracket whose upper end is at most half the limit is always
searched (`safe_below_of_le`).
-/

namespace Foundation

/-- Halve a bracket around the last index with a property, while it is wider than one step. -/
def bisect (limit : Nat) (below : Nat → Bool) (lo hi : Nat) : Checked Nat :=
  if hi ≤ lo + 1 then .ok lo
  else if limit ≤ lo + hi then .error .undefined
  else if below ((lo + hi) / 2) then bisect limit below ((lo + hi) / 2) hi
  else bisect limit below lo ((lo + hi) / 2)
  termination_by hi - lo

/-- The first lower end on the way to the upper end whose sum with it reaches the limit, or the
upper end. -/
def safeBelow (limit lo hi : Nat) : Nat :=
  if hi ≤ lo + 1 then hi
  else if limit ≤ lo + hi then lo
  else safeBelow limit ((lo + hi) / 2) hi
  termination_by hi - lo

/-- The lower end is between the ends. -/
theorem le_safe_below (limit : Nat) {lo hi : Nat} (h : lo ≤ hi) : lo ≤ safeBelow limit lo hi := by
  fun_induction safeBelow limit lo hi with
  | case1 => exact h
  | case2 => exact Nat.le_refl _
  | case3 lo hwide hsum ih =>
      have hmid := ih (by omega)
      omega

/-- The upper end is after the first lower end that is not searched. -/
theorem safe_below_le (limit : Nat) {lo hi : Nat} (h : lo ≤ hi) : safeBelow limit lo hi ≤ hi := by
  fun_induction safeBelow limit lo hi with
  | case1 => exact Nat.le_refl _
  | case2 => exact h
  | case3 lo hwide hsum ih => exact ih (by omega)

/-- Where no sum with the upper end reaches the limit, the whole bracket is searched. -/
theorem safe_below_of_le {limit lo hi : Nat} (h : 2 * hi ≤ limit + 1) :
    safeBelow limit lo hi = hi := by
  fun_induction safeBelow limit lo hi with
  | case1 => rfl
  | case2 lo hwide hsum => omega
  | case3 lo hwide hsum ih => exact ih

/-- Where the last sum with the upper end reaches the limit, the last step is not searched. -/
theorem safe_below_add_two_le {limit lo hi : Nat} (hwide : lo + 2 ≤ hi)
    (h : limit + 2 ≤ 2 * hi) : safeBelow limit lo hi + 2 ≤ hi := by
  fun_induction safeBelow limit lo hi with
  | case1 => omega
  | case2 => exact hwide
  | case3 lo hwide hsum ih => exact ih (by omega)

/-- The search returns the last index with the property, exactly where that index is before the
first lower end whose sum with the upper end reaches the limit. -/
theorem bisect_eq {limit lo hi i : Nat} {below : Nat → Bool} (hlo : lo ≤ i) (hhi : i < hi)
    (hbelow : ∀ j ≤ hi, below j = true ↔ j ≤ i) :
    bisect limit below lo hi =
      if i < safeBelow limit lo hi then .ok i else .error .undefined := by
  fun_induction bisect limit below lo hi with
  | case1 lo hi hnarrow =>
      rw [safeBelow, if_pos hnarrow, if_pos hhi]
      exact congrArg Except.ok (by omega)
  | case2 lo hi hwide hsum =>
      rw [safeBelow, if_neg hwide, if_pos hsum, if_neg (by omega)]
  | case3 lo hi hwide hsum htest ih =>
      have hmid := (hbelow _ (by omega)).mp htest
      rw [safeBelow, if_neg hwide, if_neg hsum]
      exact ih hmid hhi hbelow
  | case4 lo hi hwide hsum htest ih =>
      have hmid : i < (lo + hi) / 2 :=
        Nat.lt_of_not_le fun hle => htest ((hbelow _ (by omega)).mpr hle)
      -- a move to the left leaves no sum that reaches the limit
      have hsafe := le_safe_below limit (by omega : (lo + hi) / 2 ≤ hi)
      rw [ih hlo hmid fun j hj => hbelow j (by omega), safe_below_of_le (by omega), if_pos hmid,
        safeBelow, if_neg hwide, if_neg hsum, if_pos (by omega)]

/-- A property that holds at first and not at last, and below every index where it holds, has a
last index. -/
theorem exists_last_below {below : Nat → Prop} {hi : Nat} (hfirst : below 0) (hlast : ¬below hi)
    (hdown : ∀ j k, j ≤ k → k ≤ hi → below k → below j) :
    ∃ i < hi, ∀ j ≤ hi, below j ↔ j ≤ i := by
  induction hi with
  | zero => exact absurd hfirst hlast
  | succ hi ih =>
      by_cases hbefore : below hi
      · refine ⟨hi, Nat.lt_succ_self hi, fun j hj => ⟨fun h => ?_, fun h => ?_⟩⟩
        · rcases Nat.lt_or_eq_of_le hj with hlt | rfl
          · exact Nat.le_of_lt_succ hlt
          · exact absurd h hlast
        · exact hdown j hi h (Nat.le_succ hi) hbefore
      · obtain ⟨i, hi', hbelow⟩ := ih hbefore fun j k hjk hk => hdown j k hjk (by omega)
        refine ⟨i, by omega, fun j hj => ?_⟩
        rcases Nat.lt_or_eq_of_le hj with hlt | rfl
        · exact hbelow j (Nat.le_of_lt_succ hlt)
        · exact iff_of_false hlast (by omega)

end Foundation
