import NrBaseband.Foundation.Extended
import Mathlib.Data.List.Induction
import Mathlib.Order.Lattice

/-!
# Running minima

A loop that starts at infinity and keeps each strictly smaller distance ends at the first nearest of
its candidates (`nearest_fold`). A loop that does so for two classes of candidates at once ends at
the least distance of each class (`class_fold`). A candidate that is nearest of all is nearest in
its class, which is what a decision between the classes rests on.
-/

namespace Foundation

variable {R α : Type} [LinearOrder R]

/-- A nearest candidate of a list and its distance, infinite where there is no candidate. -/
inductive IsNearest (dist : α → R) (xs : List α) (best : α) : Extended R → Prop where
  | none (h : xs = []) : IsNearest dist xs best .posInf
  | found (hmem : best ∈ xs) (hle : ∀ a ∈ xs, dist best ≤ dist a) :
      IsNearest dist xs best (.finite (dist best))

namespace IsNearest

variable {dist : α → R} {xs : List α} {best : α} {least : Extended R}

/-- A list with a candidate has a nearest one. -/
theorem of_mem (h : IsNearest dist xs best least) {a : α} (ha : a ∈ xs) :
    best ∈ xs ∧ least = .finite (dist best) ∧ ∀ b ∈ xs, dist best ≤ dist b := by
  cases h with
  | none h => exact absurd (h ▸ ha) List.not_mem_nil
  | found hmem hle => exact ⟨hmem, rfl, hle⟩

/-- A further candidate replaces the nearest one when it is strictly nearer. -/
theorem concat (h : IsNearest dist xs best least) (a : α) :
    if Extended.lt (.finite (dist a)) least then IsNearest dist (xs ++ [a]) a (.finite (dist a))
    else IsNearest dist (xs ++ [a]) best least := by
  have hlast : a ∈ xs ++ [a] := List.mem_append_right xs List.mem_cons_self
  cases h with
  | none h =>
      subst h
      exact found hlast fun b hb => le_of_eq (by rw [List.mem_singleton.mp hb])
  | found hmem hle =>
      show if decide (dist a < dist best) then _ else _
      by_cases hlt : dist a < dist best
      · rw [if_pos (decide_eq_true hlt)]
        refine found hlast fun b hb => ?_
        rcases List.mem_append.mp hb with hb | hb
        · exact le_of_lt (lt_of_lt_of_le hlt (hle b hb))
        · exact le_of_eq (by rw [List.mem_singleton.mp hb])
      · rw [if_neg (by simpa using hlt)]
        refine found (List.mem_append_left _ hmem) fun b hb => ?_
        rcases List.mem_append.mp hb with hb | hb
        · exact hle b hb
        · rw [List.mem_singleton.mp hb]
          exact not_lt.mp hlt

end IsNearest

/-- One round of the loop over all candidates. -/
def nearestStep (dist : α → R) (found : α × Extended R) (a : α) : α × Extended R :=
  if Extended.lt (.finite (dist a)) found.2 then (a, .finite (dist a)) else found

/-- The loop over all candidates finds a nearest one. -/
theorem nearest_fold (dist : α → R) (start : α) (xs : List α) :
    IsNearest dist xs (xs.foldl (nearestStep dist) (start, .posInf)).1
      (xs.foldl (nearestStep dist) (start, .posInf)).2 := by
  induction xs using List.reverseRecOn with
  | nil => exact .none rfl
  | append_singleton xs a ih =>
      rw [List.foldl_append, List.foldl_cons, List.foldl_nil, nearestStep]
      have hnext := ih.concat a
      split
      case isTrue hlt => rwa [if_pos hlt] at hnext
      case isFalse hlt => rwa [if_neg hlt] at hnext

/-- One round of the loop over two classes. -/
def classStep (dist : α → R) (first : α → Prop) [DecidablePred first]
    (least : Extended R × Extended R) (a : α) : Extended R × Extended R :=
  if first a then
    if Extended.lt (.finite (dist a)) least.1 then (.finite (dist a), least.2) else least
  else
    if Extended.lt (.finite (dist a)) least.2 then (least.1, .finite (dist a)) else least

/-- The loop over two classes finds the least distance of each. -/
theorem class_fold (dist : α → R) (first : α → Prop) [DecidablePred first] (start : α)
    (xs : List α) :
    (∃ best, IsNearest dist (xs.filter fun a => first a) best
      (xs.foldl (classStep dist first) (.posInf, .posInf)).1) ∧
    ∃ best, IsNearest dist (xs.filter fun a => ¬first a) best
      (xs.foldl (classStep dist first) (.posInf, .posInf)).2 := by
  induction xs using List.reverseRecOn with
  | nil => exact ⟨⟨start, .none rfl⟩, start, .none rfl⟩
  | append_singleton xs a ih =>
      rw [List.foldl_append, List.foldl_cons, List.foldl_nil, List.filter_append,
        List.filter_append]
      obtain ⟨⟨best, hfirst⟩, best', hsecond⟩ := ih
      generalize xs.foldl (classStep dist first) (.posInf, .posInf) = least at hfirst hsecond
      rw [classStep]
      by_cases hclass : first a
      · have hnext := hfirst.concat a
        rw [if_pos hclass, List.filter_cons_of_pos (by simpa using hclass),
          List.filter_cons_of_neg (by simpa using hclass), List.filter_nil, List.filter_nil,
          List.append_nil]
        split
        case isTrue hlt =>
          rw [if_pos hlt] at hnext
          exact ⟨⟨a, hnext⟩, best', hsecond⟩
        case isFalse hlt =>
          rw [if_neg hlt] at hnext
          exact ⟨⟨best, hnext⟩, best', hsecond⟩
      · have hnext := hsecond.concat a
        rw [if_neg hclass, List.filter_cons_of_neg (by simpa using hclass),
          List.filter_cons_of_pos (by simpa using hclass), List.filter_nil, List.filter_nil,
          List.append_nil]
        split
        case isTrue hlt =>
          rw [if_pos hlt] at hnext
          exact ⟨⟨best, hfirst⟩, a, hnext⟩
        case isFalse hlt =>
          rw [if_neg hlt] at hnext
          exact ⟨⟨best, hfirst⟩, best', hnext⟩

end Foundation
