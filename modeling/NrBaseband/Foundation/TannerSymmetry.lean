import NrBaseband.Foundation.QuasiCyclic
import NrBaseband.Foundation.Table
import Mathlib.Data.Fintype.EquivFin

/-!
# Symmetries of Tanner graphs

A symmetry renames the edges, the checks and the variables of a Tanner graph so that every edge
joins the renamed ends. It carries the edges of a variable or of a check to those of the renamed
one, in another order (`Symmetry.filter_perm`), so an algorithm that passes messages along the
edges and does not depend on their order commutes with it. Rotating all blocks of a quasi-cyclic
code by the same number of positions is a symmetry (`rotation`).
-/

namespace Foundation

namespace TannerGraph

/-- A renaming of edges, checks and variables that keeps the ends of every edge. -/
structure Symmetry (edges : List TannerEdge) where
  edge : Equiv.Perm (Fin edges.length)
  check : Nat → Nat
  var : Nat → Nat
  check_injective : Function.Injective check
  var_injective : Function.Injective var
  check_edge : ∀ i, edges[edge i].check = check edges[i].check
  var_edge : ∀ i, edges[edge i].var = var edges[i].var

/-- The edges that satisfy a condition are the renamed edges that satisfy the renamed one. -/
theorem Symmetry.filter_perm {edges : List TannerEdge} (σ : Symmetry edges)
    {condition renamed : Fin edges.length → Bool}
    (h : ∀ i, renamed (σ.edge i) = condition i) :
    ((List.finRange edges.length).filter renamed).Perm
      (((List.finRange edges.length).filter condition).map σ.edge) := by
  refine (List.perm_ext_iff_of_nodup ((List.nodup_finRange _).filter _)
    (((List.nodup_finRange _).filter _).map σ.edge.injective)).mpr fun j => ?_
  obtain ⟨i, rfl⟩ := σ.edge.surjective j
  rw [List.mem_map_of_injective σ.edge.injective, List.mem_filter, List.mem_filter, h]
  exact and_congr_left fun _ => iff_of_true (List.mem_finRange _) (List.mem_finRange _)

end TannerGraph

namespace QuasiCyclic

open TannerGraph

/-- The block and the offset that a rotated position has. -/
theorem rotated_div_mod {zc : Nat} (hzc : 0 < zc) (t p : Nat) :
    rotated zc t p / zc = p / zc ∧ rotated zc t p % zc = (p % zc + t) % zc := by
  have hlt := Nat.mod_lt (p % zc + t) hzc
  constructor
  · rw [rotated, Nat.mul_comm, Nat.mul_add_div hzc, Nat.div_eq_of_lt hlt, Nat.add_zero]
  · rw [rotated, Nat.mul_comm, Nat.mul_add_mod, Nat.mod_mod]

/-- Rotating twice is rotating by the sum. -/
theorem rotated_rotated {zc : Nat} (hzc : 0 < zc) (s t p : Nat) :
    rotated zc s (rotated zc t p) = rotated zc (t + s) p := by
  obtain ⟨hblock, hoffset⟩ := rotated_div_mod hzc t p
  rw [rotated, hblock, hoffset, rotated, Nat.mod_add_mod, Nat.add_assoc]

/-- A rotation by whole blocks does nothing. -/
theorem rotated_whole {zc t : Nat} (h : zc ∣ t) (p : Nat) : rotated zc t p = p := by
  rw [rotated, Nat.add_mod, Nat.mod_eq_zero_of_dvd h, Nat.add_zero, Nat.mod_mod, Nat.mod_mod,
    Nat.div_add_mod']

/-- Every rotation is undone by another one. -/
theorem rotated_back {zc : Nat} (hzc : 0 < zc) (t p : Nat) :
    rotated zc (zc - t % zc) (rotated zc t p) = p := by
  rw [rotated_rotated hzc]
  refine rotated_whole ⟨t / zc + 1, ?_⟩ p
  have hlt := Nat.mod_lt t hzc
  have hdiv := Nat.div_add_mod t zc
  rw [Nat.mul_add, Nat.mul_one]
  omega

/-- A rotation is injective. -/
theorem rotated_injective {zc : Nat} (hzc : 0 < zc) (t : Nat) :
    Function.Injective (rotated zc t) :=
  Function.LeftInverse.injective (rotated_back hzc t)

/-- A rotation keeps the number of the block. -/
theorem rotated_lt_iff {zc n p : Nat} (hzc : 0 < zc) (t : Nat) :
    rotated zc t p < n * zc ↔ p < n * zc := by
  rw [← Nat.div_lt_iff_lt_mul hzc, ← Nat.div_lt_iff_lt_mul hzc, (rotated_div_mod hzc t p).1]

/-- The lifted edge of an index. -/
def liftedEdge (zc : Nat) (blocks : List Circulant) (j : Nat) : TannerEdge :=
  let b := blocks.getD (j / zc) ⟨0, 0, 0⟩
  ⟨b.row * zc + j % zc, liftedVar zc b (j % zc)⟩

/-- The lifted edges by their indices. -/
theorem lift_eq_table (zc : Nat) (blocks : List Circulant) :
    lift zc blocks = table (blocks.length * zc) (liftedEdge zc blocks) := by
  have htables := Table.flatten_tables blocks.length zc fun k z =>
    (⟨(blocks.getD k ⟨0, 0, 0⟩).row * zc + z, liftedVar zc (blocks.getD k ⟨0, 0, 0⟩) z⟩ :
      TannerEdge)
  refine Eq.trans ?_ htables
  conv_lhs => rw [Table.eq_table blocks ⟨0, 0, 0⟩, lift, List.flatMap_def, Table.map_table]
  rfl

/-- A lifted edge is joined to the rotated ends when its index is rotated. -/
theorem lifted_edge_rotated {zc : Nat} (hzc : 0 < zc) (blocks : List Circulant) (t j : Nat) :
    (liftedEdge zc blocks (rotated zc t j)).check =
        rotated zc t (liftedEdge zc blocks j).check ∧
      (liftedEdge zc blocks (rotated zc t j)).var =
        rotated zc t (liftedEdge zc blocks j).var := by
  obtain ⟨hblock, hoffset⟩ := rotated_div_mod hzc t j
  simp only [liftedEdge, hblock, hoffset]
  generalize blocks.getD (j / zc) ⟨0, 0, 0⟩ = b
  have hcell {col z : Nat} (hz : z < zc) :
      rotated zc t (col * zc + z) = col * zc + (z + t) % zc := by
    rw [rotated, Nat.mul_comm col, Nat.mul_add_div hzc, Nat.div_eq_of_lt hz, Nat.add_zero,
      Nat.mul_add_mod, Nat.mod_eq_of_lt hz, Nat.mul_comm]
  constructor
  · rw [hcell (Nat.mod_lt j hzc)]
  · rw [liftedVar, liftedVar, hcell (Nat.mod_lt _ hzc), Nat.mod_add_mod, Nat.mod_add_mod,
      Nat.add_right_comm]

/-- The number of lifted edges. -/
theorem length_lift (zc : Nat) (blocks : List Circulant) :
    (lift zc blocks).length = blocks.length * zc := by
  rw [lift_eq_table, Table.length_table]

/-- Reading a lifted edge. -/
theorem getElem_lift {zc : Nat} {blocks : List Circulant} {j : Nat}
    (hj : j < (lift zc blocks).length) : (lift zc blocks)[j] = liftedEdge zc blocks j := by
  simp [lift_eq_table, table]

/-- The index of a lifted edge, rotated. -/
def rotatedIndex {zc : Nat} (hzc : 0 < zc) (t : Nat) (blocks : List Circulant)
    (i : Fin (lift zc blocks).length) : Fin (lift zc blocks).length :=
  ⟨rotated zc t i.val, by
    have hi := i.isLt
    simp only [length_lift] at hi ⊢
    exact (rotated_lt_iff hzc t).mpr hi⟩

/-- Rotating the indices is injective. -/
theorem rotated_index_injective {zc : Nat} (hzc : 0 < zc) (t : Nat) (blocks : List Circulant) :
    Function.Injective (rotatedIndex hzc t blocks) :=
  fun _ _ h => Fin.ext (rotated_injective hzc t (Fin.mk.inj h))

/-- Rotating every block by the same number of positions is a symmetry of the lifted graph. -/
noncomputable def rotation {zc : Nat} (hzc : 0 < zc) (t : Nat) (blocks : List Circulant) :
    Symmetry (lift zc blocks) where
  edge := Equiv.ofBijective _
    (Finite.injective_iff_bijective.mp (rotated_index_injective hzc t blocks))
  check := rotated zc t
  var := rotated zc t
  check_injective := rotated_injective hzc t
  var_injective := rotated_injective hzc t
  check_edge i := by
    rw [Fin.getElem_fin, Fin.getElem_fin, getElem_lift, getElem_lift]
    exact (lifted_edge_rotated hzc blocks t i).1
  var_edge i := by
    rw [Fin.getElem_fin, Fin.getElem_fin, getElem_lift, getElem_lift]
    exact (lifted_edge_rotated hzc blocks t i).2

end QuasiCyclic

end Foundation
