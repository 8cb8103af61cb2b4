import Mathlib.Algebra.BigOperators.Ring.Finset
import Mathlib.Algebra.Field.ZMod

/-!
# Parity checks on a Tanner graph

A Tanner graph is a list of edges between checks and variables. `checkSum` adds a word over GF(2)
along the edges of one check, and `incidence` is the entry of the dense parity-check matrix: the
number of edges between a check and a variable modulo two. `sum_incidence` says the two
representations have the same syndromes, coincident edges included.
-/

namespace Foundation

open Finset

/-- An edge between a check and a variable. -/
structure TannerEdge where
  check : Nat
  var : Nat
  deriving DecidableEq, Repr

namespace TannerGraph

/-- The sum of the word's values along the edges of check `r`. -/
def checkSum (edges : List TannerEdge) (word : Nat → ZMod 2) (r : Nat) : ZMod 2 :=
  (edges.map fun e => if e.check = r then word e.var else 0).sum

/-- Without edges the sum is zero. -/
@[simp] theorem check_sum_nil (word : Nat → ZMod 2) (r : Nat) : checkSum [] word r = 0 := rfl

/-- An edge adds its variable to the sum of its check. -/
@[simp] theorem check_sum_cons (e : TannerEdge) (edges : List TannerEdge) (word : Nat → ZMod 2)
    (r : Nat) : checkSum (e :: edges) word r =
      (if e.check = r then word e.var else 0) + checkSum edges word r := rfl

/-- The sums of two lists of edges are added. -/
@[simp] theorem check_sum_append (left right : List TannerEdge) (word : Nat → ZMod 2) (r : Nat) :
    checkSum (left ++ right) word r = checkSum left word r + checkSum right word r := by
  simp [checkSum]

/-- A check depends only on the variables its edges reach. -/
theorem check_sum_congr {edges : List TannerEdge} {word other : Nat → ZMod 2} {r : Nat}
    (h : ∀ e ∈ edges, e.check = r → word e.var = other e.var) :
    checkSum edges word r = checkSum edges other r := by
  unfold checkSum
  congr 1
  refine List.map_congr_left fun e he => ?_
  by_cases hr : e.check = r
  · simp [hr, h e he hr]
  · simp [hr]

/-- The entry of the dense matrix: the parity of the number of edges from `r` to `c`. -/
def incidence (edges : List TannerEdge) (r c : Nat) : ZMod 2 :=
  checkSum edges (fun v => if v = c then 1 else 0) r

/-- Multiplying the dense matrix with a word adds the word along the edges. -/
theorem sum_incidence {edges : List TannerEdge} {n : Nat} (hvar : ∀ e ∈ edges, e.var < n)
    (word : Nat → ZMod 2) (r : Nat) :
    ∑ c ∈ range n, incidence edges r c * word c = checkSum edges word r := by
  induction edges with
  | nil => simp [incidence]
  | cons e edges ih =>
      have hrest := ih fun e' he' => hvar e' (List.mem_cons_of_mem e he')
      have hlt := hvar e List.mem_cons_self
      simp only [incidence, check_sum_cons] at hrest ⊢
      simp only [add_mul, Finset.sum_add_distrib, hrest]
      by_cases hr : e.check = r
      · simp [hr, hlt]
      · simp [hr]

end TannerGraph

end Foundation
