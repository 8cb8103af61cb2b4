import NrBaseband.Foundation.Table
import Mathlib.Data.List.Nodup
import Mathlib.Data.List.ReduceOption

/-!
# Grids of threads that store

A grid runs the threads of its blocks in an order that is not fixed. A thread that reads nothing
that another one writes is a computation of its store, if it makes one, and the run of the grid is
the sequence of the stores. Stores into different cells commute (`stores_perm`), so a grid whose
threads store once into every cell of a range leaves the same contents in every order
(`stores_ok`). `grid_indices` numbers the threads through the blocks.
-/

namespace Foundation

/-- A value and the index of the cell it is written into. -/
structure Store (α : Type) where
  index : Nat
  value : α
  deriving DecidableEq, Repr

variable {α : Type}

/-- Make the stores one after the other. -/
def runStores (stores : List (Store α)) (cells : List α) : Checked (List α) :=
  stores.foldlM (fun cells s => Checked.write cells s.index s.value) cells

/-- The stores of the threads of a grid, in the order in which the threads run. -/
def gridStores {Thread : Type} (kernel : Thread → Checked (Option (Store α)))
    (order : List Thread) : Checked (List (Store α)) :=
  (order.mapM kernel).map List.reduceOption

/-- An order in which the threads of a grid run. -/
structure Schedule (Thread : Type) where
  order : List Thread → List Thread
  perm (threads : List Thread) : (order threads).Perm threads

/-- The threads of a grid, as pairs of a block and a thread of the block. -/
def grid (blocks size : Nat) : List (Nat × Nat) :=
  (List.range blocks).flatMap fun block => (List.range size).map fun thread => (block, thread)

/-- The threads are numbered without gaps. -/
theorem grid_indices (blocks size : Nat) :
    (grid blocks size).map (fun t => t.1 * size + t.2) = List.range (blocks * size) := by
  induction blocks with
  | zero => simp [grid]
  | succ blocks ih =>
      rw [grid, List.range_succ, List.flatMap_append, List.map_append, ← grid, ih, Nat.succ_mul,
        List.range_add]
      simp [Function.comp_def]

/-- Writes of different cells commute. -/
theorem write_comm {i j : Nat} (h : i ≠ j) (cells : List α) (x y : α) :
    (Checked.write cells i x >>= fun cells => Checked.write cells j y) =
      (Checked.write cells j y >>= fun cells => Checked.write cells i x) := by
  unfold Checked.write
  by_cases hi : i < cells.length <;> by_cases hj : j < cells.length <;>
    simp [hi, hj, List.set_comm x y h]

/-- Stores into different cells may be made in any order. -/
theorem stores_perm {stores stores' : List (Store α)} (hperm : stores.Perm stores') :
    (stores.map Store.index).Nodup → ∀ cells, runStores stores cells = runStores stores' cells := by
  induction hperm with
  | nil => intro _ _; rfl
  | cons s _ ih =>
      intro hnodup cells
      rw [List.map_cons, List.nodup_cons] at hnodup
      rw [runStores, runStores, List.foldlM_cons, List.foldlM_cons]
      exact bind_congr (ih hnodup.2)
  | swap s t stores =>
      intro hnodup cells
      simp only [List.map_cons, List.nodup_cons, List.mem_cons, not_or] at hnodup
      rw [runStores, runStores, List.foldlM_cons, List.foldlM_cons]
      simp only [List.foldlM_cons]
      rw [← bind_assoc, ← bind_assoc, write_comm hnodup.1.1]
  | trans hfirst _ ih₁ ih₂ =>
      intro hnodup cells
      rw [ih₁ hnodup, ih₂ ((hfirst.map _).nodup_iff.mp hnodup)]

/-- Stores into the cells of a range, in their order. -/
theorem stores_table {n : Nat} (value : Nat → α) {cells : List α} (h : n ≤ cells.length) :
    runStores (table n fun i => ⟨i, value i⟩) cells = .ok (table n value ++ cells.drop n) := by
  induction n with
  | zero => rfl
  | succ n ih =>
      have hlast : n < (table n value ++ cells.drop n).length := by
        rw [List.length_append, Table.length_table, List.length_drop]
        omega
      have hrun := ih (by omega)
      rw [runStores, table] at hrun ⊢
      rw [List.range_succ, List.map_append, List.foldlM_append, hrun, Checked.ok_bind,
        List.map_singleton, List.foldlM_cons, Checked.write, if_pos hlast, Checked.ok_bind,
        List.foldlM_nil, Checked.pure_eq_ok, List.set_append_right _ _ (by simp),
        Table.length_table, Nat.sub_self, List.drop_eq_getElem_cons (by omega), List.set_cons_zero,
        table, table, List.range_succ, List.map_append, List.append_assoc]
      rfl

/-- Stores into the cells of a range, in any order, replace exactly these cells. -/
theorem stores_ok {stores : List (Store α)} {n : Nat} {value : Nat → α}
    (hperm : stores.Perm (table n fun i => ⟨i, value i⟩)) {cells : List α}
    (h : n ≤ cells.length) : runStores stores cells = .ok (table n value ++ cells.drop n) := by
  have hindices : (table n fun i => (⟨i, value i⟩ : Store α)).map Store.index = List.range n := by
    rw [Table.map_table, Table.range_eq_table]
    rfl
  rw [stores_perm hperm ((hperm.map _).nodup_iff.mpr (hindices ▸ List.nodup_range)),
    stores_table value h]

/-- Every store is made by a thread. -/
theorem mem_grid_stores {Thread : Type} {kernel : Thread → Checked (Option (Store α))}
    {order : List Thread} {stores : List (Store α)} (h : gridStores kernel order = .ok stores)
    {s : Store α} (hs : s ∈ stores) : ∃ t ∈ order, kernel t = .ok (some s) := by
  rw [gridStores] at h
  cases hrun : order.mapM kernel with
  | error fault => rw [hrun] at h; cases h
  | ok made =>
      rw [hrun] at h
      cases h
      have hmade : some s ∈ made := List.reduceOption_mem_iff.mp hs
      exact Checked.map_mem hrun hmade

/-- Threads that are numbered without gaps and store at their numbers below `n` make one store
into each of the first `n` cells. -/
theorem grid_stores_ok {Thread : Type} {kernel : Thread → Checked (Option (Store α))}
    {index : Thread → Nat} {threads order : List Thread} {n total : Nat} {value : Nat → α}
    (horder : order.Perm threads) (hindices : threads.map index = List.range total)
    (hn : n ≤ total) (hkernel : ∀ t ∈ threads, kernel t =
      .ok (if index t < n then some ⟨index t, value (index t)⟩ else none)) :
    ∃ stores, gridStores kernel order = .ok stores ∧
      stores.Perm (table n fun i => ⟨i, value i⟩) := by
  let store (i : Nat) : Option (Store α) := if i < n then some ⟨i, value i⟩ else none
  have hrun : order.mapM kernel = .ok (order.map fun t => store (index t)) :=
    Checked.map_ok fun t ht => hkernel t (horder.mem_iff.mp ht)
  refine ⟨(order.map fun t => store (index t)).reduceOption, by rw [gridStores, hrun]; rfl, ?_⟩
  have hordered : (order.map fun t => store (index t)).Perm ((List.range total).map store) := by
    rw [← hindices, List.map_map]
    exact horder.map _
  have hfirst : ((List.range total).map store).reduceOption =
      table n fun i => (⟨i, value i⟩ : Store α) := by
    have hbelow : (List.range n).filterMap store = table n fun i => ⟨i, value i⟩ := by
      rw [table, ← List.filterMap_eq_map]
      exact List.filterMap_congr fun i hi => if_pos (List.mem_range.mp hi)
    have habove : ((List.range (total - n)).map (n + ·)).filterMap store = [] := by
      rw [List.filterMap_eq_nil_iff]
      intro i hi
      obtain ⟨k, _, rfl⟩ := List.mem_map.mp hi
      exact if_neg (by omega)
    rw [List.reduceOption, List.filterMap_map, Function.id_comp, ← Nat.add_sub_cancel' hn,
      List.range_add, List.filterMap_append, hbelow, habove, List.append_nil]
  rw [← hfirst]
  exact hordered.filterMap id

end Foundation
