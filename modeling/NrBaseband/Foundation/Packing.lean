import Mathlib.Algebra.Order.BigOperators.Group.List
import Mathlib.Algebra.Order.Group.Basic
import Mathlib.Algebra.BigOperators.Ring.List
import Mathlib.Algebra.Order.Floor.Ring
import Mathlib.Data.List.Forall2
import Mathlib.Tactic.Linarith

/-!
# Packing a budget

Takers are served in order from a budget. Each takes what it demands or what is left, and the last
one takes all that is left: `greedy` are the amounts. They add up to the budget (`greedy_sum`), and
everybody gets something exactly when the demands before the last leave something
(`greedy_pos_iff`). `layOut` puts the amounts one behind the other. Takers with descending quotas
who demand whole parts get them (`floor_le_greedy`), and then nobody's amount is far from its quota
(`within_of_floor_le`); with proportional shares as the quotas this is `greedy_proportional`.
-/

namespace Foundation.Packing

variable {α : Type} [AddCommGroup α] [LinearOrder α]

/-- The amounts that the takers get, in order. -/
def greedy (budget : α) : List α → List α
  | [] => []
  | [_] => [budget]
  | demand :: next :: rest =>
      min demand budget :: greedy (budget - min demand budget) (next :: rest)

/-- There is an amount for everybody. -/
theorem greedy_length (budget : α) (demands : List α) :
    (greedy budget demands).length = demands.length := by
  induction demands generalizing budget with
  | nil => rfl
  | cons demand rest ih =>
      cases rest with
      | nil => rfl
      | cons next rest => rw [greedy, List.length_cons, List.length_cons, ih]

/-- The whole budget is given away. -/
theorem greedy_sum {demands : List α} (h : demands ≠ []) (budget : α) :
    (greedy budget demands).sum = budget := by
  induction demands generalizing budget with
  | nil => exact absurd rfl h
  | cons demand rest ih =>
      cases rest with
      | nil => exact List.sum_singleton
      | cons next rest =>
          rw [greedy, List.sum_cons, ih (List.cons_ne_nil next rest), add_sub_cancel]

variable [IsOrderedAddMonoid α]

/-- Nobody gets less than nothing. -/
theorem greedy_nonneg {demands : List α} (hdemands : ∀ d ∈ demands, 0 ≤ d) {budget : α}
    (hbudget : 0 ≤ budget) : ∀ n ∈ greedy budget demands, 0 ≤ n := by
  induction demands generalizing budget with
  | nil => exact fun n hn => absurd hn List.not_mem_nil
  | cons demand rest ih =>
      cases rest with
      | nil =>
          intro n hn
          rw [greedy, List.mem_singleton] at hn
          rwa [hn]
      | cons next rest =>
          intro n hn
          rw [greedy, List.mem_cons] at hn
          rcases hn with rfl | hlater
          · exact le_min (hdemands demand List.mem_cons_self) hbudget
          · exact ih (fun d hd => hdemands d (List.mem_cons_of_mem demand hd))
              (sub_nonneg.mpr (min_le_right demand budget)) n hlater

/-- Everybody gets something exactly when the demands before the last leave something. -/
theorem greedy_pos_iff {demands : List α} (hdemands : ∀ d ∈ demands.dropLast, 0 < d)
    (h : demands ≠ []) (budget : α) :
    (∀ n ∈ greedy budget demands, 0 < n) ↔ demands.dropLast.sum < budget := by
  induction demands generalizing budget with
  | nil => exact absurd rfl h
  | cons demand rest ih =>
      cases rest with
      | nil => rw [greedy, List.forall_mem_singleton, List.dropLast_singleton, List.sum_nil]
      | cons next rest =>
          rw [List.dropLast_cons_cons, List.forall_mem_cons] at hdemands
          obtain ⟨hdemand, hlater⟩ := hdemands
          have hsum : 0 ≤ (next :: rest).dropLast.sum :=
            List.sum_nonneg fun d hd => (hlater d hd).le
          rw [greedy, List.forall_mem_cons, ih hlater (List.cons_ne_nil next rest),
            List.dropLast_cons_cons, List.sum_cons]
          rcases le_or_gt demand budget with hfits | hexceeds
          · rw [min_eq_left hfits, lt_sub_iff_add_lt']
            exact and_iff_right hdemand
          · -- the demand takes everything that is left
            rw [min_eq_right hexceeds.le, sub_self]
            refine iff_of_false (fun hnone => absurd hnone.2 hsum.not_gt) fun hleft => ?_
            exact absurd hexceeds (lt_of_le_of_lt (le_add_of_nonneg_right hsum) hleft).not_gt

/-- Amounts laid out from `start` on: where each begins, and the amount. -/
def layOut (start : α) : List α → List (α × α)
  | [] => []
  | n :: rest => (start, n) :: layOut (start + n) rest

omit [LinearOrder α] [IsOrderedAddMonoid α] in
/-- The amounts that are laid out. -/
theorem lay_out_amounts (start : α) (ns : List α) : (layOut start ns).map Prod.snd = ns := by
  induction ns generalizing start with
  | nil => rfl
  | cons n rest ih => rw [layOut, List.map_cons, ih]

omit [LinearOrder α] [IsOrderedAddMonoid α] in
/-- Every amount begins where those before it end. -/
theorem lay_out_start (start : α) (ns : List α) {i : Nat} {piece : α × α}
    (h : (layOut start ns)[i]? = some piece) : piece.1 = start + (ns.take i).sum := by
  induction ns generalizing start i with
  | nil => cases h
  | cons n rest ih =>
      cases i with
      | zero =>
          rw [layOut, List.getElem?_cons_zero, Option.some.injEq] at h
          rw [← h, List.take_zero, List.sum_nil, add_zero]
      | succ i =>
          rw [layOut, List.getElem?_cons_succ] at h
          rw [ih (start + n) h, List.take_succ_cons, List.sum_cons, add_assoc]

/-! ## Quotas -/

section Quotas

variable {R : Type} [Field R] [LinearOrder R] [IsStrictOrderedRing R] [FloorRing R]

/-- Takers with descending quotas, who each demand the whole part of their quota but at least one,
get at least the whole part, as long as the budget covers the quotas or they are all below one. -/
theorem floor_le_greedy {quotas : List R} (hsorted : quotas.Pairwise (· ≥ ·)) {budget : Int}
    (hbudget : 0 ≤ budget) (hpositive : ∀ q ∈ quotas, 0 ≤ q)
    (hroom : quotas.sum ≤ budget ∨ ∀ q ∈ quotas, q < 1) :
    List.Forall₂ (fun q n => ⌊q⌋ ≤ n) quotas
      (greedy budget (quotas.map fun q => max 1 ⌊q⌋)) := by
  induction quotas generalizing budget with
  | nil => exact .nil
  | cons q rest ih =>
      obtain ⟨hfirst, hrest⟩ := List.pairwise_cons.mp hsorted
      have hlater : ∀ r ∈ rest, 0 ≤ r := fun r hr => hpositive r (List.mem_cons_of_mem q hr)
      -- a quota below one has whole part zero, and so have all those after it
      have hsmall (hq : q < 1) : ⌊q⌋ ≤ 0 := Int.lt_add_one_iff.mp (Int.floor_lt.mpr (by simpa))
      have hlarge (hq : 1 ≤ q) : q + rest.sum ≤ budget := by
        rcases hroom with hcovered | hbelow
        · rwa [List.sum_cons] at hcovered
        · exact absurd (hbelow q List.mem_cons_self) hq.not_gt
      have hfits (hq : 1 ≤ q) : ⌊q⌋ ≤ budget := by
        have htotal := le_of_add_le_of_nonneg_left (hlarge hq) (List.sum_nonneg hlater)
        exact Int.cast_le.mp ((Int.floor_le q).trans htotal)
      cases rest with
      | nil =>
          refine .cons ?_ .nil
          rcases lt_or_ge q 1 with hq | hq
          · exact (hsmall hq).trans hbudget
          · exact hfits hq
      | cons next rest =>
          have hserved : greedy budget ((q :: next :: rest).map fun q => max 1 ⌊q⌋) =
              min (max 1 ⌊q⌋) budget :: greedy (budget - min (max 1 ⌊q⌋) budget)
                ((next :: rest).map fun q => max 1 ⌊q⌋) := rfl
          rw [hserved]
          have hleft : 0 ≤ budget - min (max 1 ⌊q⌋) budget :=
            sub_nonneg.mpr (min_le_right _ _)
          rcases lt_or_ge q 1 with hq | hq
          · have hnone : 0 ≤ min (max 1 ⌊q⌋) budget :=
              le_min (zero_le_one.trans (le_max_left _ _)) hbudget
            refine .cons ((hsmall hq).trans hnone) (ih hrest hleft hlater (.inr ?_))
            exact fun r hr => (hfirst r hr).trans_lt hq
          · have hwhole : (1 : Int) ≤ ⌊q⌋ := Int.le_floor.mpr (by simpa)
            rw [max_eq_right hwhole, min_eq_left (hfits hq)] at hleft ⊢
            refine .cons (le_refl _) (ih hrest hleft hlater (.inl ?_))
            have hfloor := Int.floor_le q
            have htotal := hlarge hq
            rw [Int.cast_sub]
            linarith

omit [IsStrictOrderedRing R] in
/-- Amounts that are at least the whole parts exceed them by no more than the whole surplus. -/
theorem surplus_le {quotas : List R} {ns : List Int}
    (h : List.Forall₂ (fun q n => ⌊q⌋ ≤ n) quotas ns) :
    (quotas.map Int.floor).sum ≤ ns.sum ∧ List.Forall₂ (fun q n =>
      ⌊q⌋ ≤ n ∧ n - ⌊q⌋ ≤ ns.sum - (quotas.map Int.floor).sum) quotas ns := by
  induction h with
  | nil => exact ⟨le_refl _, .nil⟩
  | @cons q n quotas ns hn _ ih =>
      obtain ⟨hsum, hlater⟩ := ih
      rw [List.map_cons, List.sum_cons, List.sum_cons]
      refine ⟨add_le_add hn hsum, .cons ⟨hn, by omega⟩ (hlater.imp fun r m ⟨hm, hle⟩ => ?_)⟩
      exact ⟨hm, by omega⟩

/-- The whole parts miss less than one for each quota. -/
theorem sum_lt_floors {quotas : List R} (h : quotas ≠ []) :
    quotas.sum < ((quotas.map Int.floor).sum : Int) + (quotas.length : R) := by
  induction quotas with
  | nil => exact absurd rfl h
  | cons q rest ih =>
      have hq := Int.lt_floor_add_one q
      rw [List.sum_cons, List.map_cons, List.sum_cons, List.length_cons, Int.cast_add,
        Nat.cast_succ]
      cases rest with
      | nil => simp
      | cons next rest => linarith [ih (List.cons_ne_nil next rest)]

/-- Amounts that add up to the quotas and are at least their whole parts differ from them by less
than the number of takers. -/
theorem within_of_floor_le {quotas : List R} {ns : List Int}
    (h : List.Forall₂ (fun q n => ⌊q⌋ ≤ n) quotas ns) (hsum : (ns.sum : R) = quotas.sum) :
    List.Forall₂ (fun q n => ⌊q⌋ ≤ n ∧ |(n : R) - q| < quotas.length) quotas ns := by
  cases hquotas : quotas with
  | nil =>
      rw [hquotas, List.forall₂_nil_left_iff] at h
      rw [h]
      exact .nil
  | cons first rest =>
      rw [← hquotas]
      have htakers : 1 ≤ (quotas.length : R) := by
        rw [hquotas, List.length_cons, Nat.cast_succ]
        exact le_add_of_nonneg_left (Nat.cast_nonneg _)
      have hmissing := sum_lt_floors (hquotas ▸ List.cons_ne_nil first rest)
      refine (surplus_le h).2.imp fun q n ⟨hfloor, hsurplus⟩ => ⟨hfloor, ?_⟩
      have hwhole := Int.lt_floor_add_one q
      have hbelow := Int.floor_le q
      have hleast : (⌊q⌋ : R) ≤ n := Int.cast_le.mpr hfloor
      have hmost : (n : R) - ⌊q⌋ ≤ ns.sum - ((quotas.map Int.floor).sum : Int) := by
        exact_mod_cast hsurplus
      rw [abs_lt]
      constructor
      · linarith
      · linarith

omit [LinearOrder R] [IsStrictOrderedRing R] [FloorRing R] in
/-- Proportional shares add up to what is shared. -/
theorem sum_shares {weights : List R} (h : weights.sum ≠ 0) (total : R) :
    (weights.map fun w => total * (w / weights.sum)).sum = total := by
  rw [List.sum_map_mul_left]
  simp only [div_eq_mul_inv]
  rw [List.sum_map_mul_right, List.map_id', mul_inv_cancel₀ h, mul_one]

/-- Takers with descending weights, who each demand the whole part of their proportional share of
the budget but at least one, get the whole part and differ from the share by less than the number of
takers. -/
theorem greedy_proportional {weights : List R} (hsorted : weights.Pairwise (· ≥ ·))
    (hpositive : ∀ w ∈ weights, 0 < w) {budget : Int} (hbudget : 0 ≤ budget) :
    List.Forall₂ (fun w n => ⌊budget * (w / weights.sum)⌋ ≤ n ∧
        |(n : R) - budget * (w / weights.sum)| < weights.length)
      weights (greedy budget (weights.map fun w => max 1 ⌊budget * (w / weights.sum)⌋)) := by
  cases hweights : weights with
  | nil => exact .nil
  | cons first rest =>
      rw [← hweights]
      have hne : weights ≠ [] := hweights ▸ List.cons_ne_nil first rest
      have htotal : 0 < weights.sum := List.sum_pos weights hpositive hne
      have hfactor : (0 : R) ≤ budget := Int.cast_nonneg hbudget
      have hsum := sum_shares htotal.ne' (budget : R)
      have hdescend : (weights.map fun w => budget * (w / weights.sum)).Pairwise (· ≥ ·) := by
        refine List.pairwise_map.mpr (hsorted.imp fun hab => ?_)
        exact mul_le_mul_of_nonneg_left (div_le_div_of_nonneg_right hab htotal.le) hfactor
      have hnonneg : ∀ q ∈ weights.map fun w => budget * (w / weights.sum), 0 ≤ q := by
        refine List.forall_mem_map.mpr fun w hw => ?_
        exact mul_nonneg hfactor (div_nonneg (hpositive w hw).le htotal.le)
      have hwhole := floor_le_greedy hdescend hbudget hnonneg (.inl hsum.le)
      rw [List.map_map] at hwhole
      have hgiven : (greedy budget (weights.map
          ((fun q : R => max 1 ⌊q⌋) ∘ fun w => budget * (w / weights.sum)))).sum = budget :=
        greedy_sum (by simpa) budget
      have hwithin := within_of_floor_le hwhole (by rw [hgiven, hsum])
      rwa [List.forall₂_map_left_iff, List.length_map] at hwithin

end Quotas

end Foundation.Packing
