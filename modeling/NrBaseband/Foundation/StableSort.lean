import Mathlib.Data.List.Pairwise
import Mathlib.Order.Lattice
import Mathlib.Tactic.Common

/-!
# Stable sorting by a key

A list sorted by descending keys. The sort is stable: the elements of one key keep their order
(`filter_key`), so it refines every order of the list it is given (`stable_sorted`). A list whose
keys are distinct is sorted into the same list in whatever order it comes (`sort_unique`).
-/

namespace Foundation.StableSort

variable {α κ : Type} [LinearOrder κ] (key : α → κ) (l : List α)

/-- The descending order of keys is transitive. -/
theorem key_trans (a b c : α) (hab : decide (key a ≥ key b) = true)
    (hbc : decide (key b ≥ key c) = true) : decide (key a ≥ key c) = true := by
  rw [decide_eq_true_eq] at hab hbc ⊢
  exact ge_trans hab hbc

/-- The descending order of keys is total. -/
theorem key_total (a b : α) : (decide (key a ≥ key b) || decide (key b ≥ key a)) = true := by
  rw [Bool.or_eq_true, decide_eq_true_eq, decide_eq_true_eq]
  exact le_total _ _

/-- The keys descend. -/
theorem descending_sorted :
    (l.mergeSort fun a b => key a ≥ key b).Pairwise fun a b => key a ≥ key b :=
  (List.pairwise_mergeSort (key_trans key) (key_total key) l).imp of_decide_eq_true

/-- Elements are sorted as their images of the same keys. -/
theorem map_sort {β : Type} (f : β → α) (xs : List β) :
    (xs.mergeSort fun a b => key (f a) ≥ key (f b)).map f =
      (xs.map f).mergeSort fun a b => key a ≥ key b :=
  List.map_mergeSort fun _ _ _ _ => rfl

/-- The elements of one key keep their order. -/
theorem filter_key (k : κ) : (l.mergeSort fun a b => key a ≥ key b).filter (fun a => key a = k) =
    l.filter fun a => key a = k := by
  have hsame : (l.filter fun a => key a = k).Pairwise fun a b => decide (key a ≥ key b) = true := by
    refine List.pairwise_of_forall_mem_list fun a ha b hb => ?_
    have hakey : key a = k := of_decide_eq_true (List.mem_filter.mp ha).2
    have hbkey : key b = k := of_decide_eq_true (List.mem_filter.mp hb).2
    exact decide_eq_true (hakey.trans hbkey.symm).ge
  have hsublist := List.sublist_mergeSort (key_trans key) (key_total key) hsame
    List.filter_sublist
  have hfiltered := hsublist.filter fun a => decide (key a = k)
  simp only [List.filter_filter, Bool.and_self] at hfiltered
  have hlength := ((List.mergeSort_perm l fun a b => decide (key a ≥ key b)).filter
    fun a => decide (key a = k)).length_eq
  exact (hfiltered.eq_of_length hlength.symm).symm

/-- In a list that comes in some order, elements of one key stay in that order. -/
theorem stable_sorted {before : α → α → Prop} (h : l.Pairwise before) :
    (l.mergeSort fun a b => key a ≥ key b).Pairwise
      fun a b => key b < key a ∨ key a = key b ∧ before a b := by
  refine List.pairwise_iff_forall_sublist.mpr fun {a b} hpair => ?_
  have hsorted := List.pairwise_iff_forall_sublist.mp (descending_sorted key l) hpair
  rcases hsorted.lt_or_eq with hlt | heq
  · exact .inl hlt
  · have hboth := hpair.filter fun c => decide (key c = key a)
    rw [filter_key] at hboth
    have hkept : [a, b].filter (fun c => key c = key a) = [a, b] := by simp [heq]
    rw [hkept] at hboth
    exact .inr ⟨heq.symm, List.pairwise_iff_forall_sublist.mp h (hboth.trans List.filter_sublist)⟩

/-- Lists with the same elements of distinct keys are sorted into the same list. -/
theorem sort_unique {l l' : List α} (h : l.Perm l')
    (hdistinct : ∀ a ∈ l, ∀ b ∈ l, key a = key b → a = b) :
    (l.mergeSort fun a b => key a ≥ key b) = l'.mergeSort fun a b => key a ≥ key b := by
  have hleft := List.mergeSort_perm l fun a b => decide (key a ≥ key b)
  have hright := List.mergeSort_perm l' fun a b => decide (key a ≥ key b)
  refine List.Perm.eq_of_pairwise (fun a b ha hb hab hba => ?_) (descending_sorted key l)
    (descending_sorted key l') ((hleft.trans h).trans hright.symm)
  rw [List.mem_mergeSort] at ha hb
  exact hdistinct a ha b (h.mem_iff.mpr hb) (le_antisymm hba hab)

end Foundation.StableSort
