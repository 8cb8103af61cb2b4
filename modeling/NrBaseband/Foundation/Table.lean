import NrBaseband.Foundation.Checked
import Mathlib.Algebra.BigOperators.Group.Finset.Basic

/-!
# Tables

`table n f` is the sequence of the `n` values of `f`; every sequence is one (`eq_table`). Reading,
writing and modifying a table inside its bounds reads and updates the function, so a loop that
fills an array cell by cell becomes an equation between functions: `gather` for a loop that reads
at computed indices, `scatter_add` for one that adds at computed indices and `scatter_write` for one
that writes there.
-/

namespace Foundation

open Finset

/-- The values of `f` at `0, 1, …, n - 1`. -/
def table {α : Type} (n : Nat) (f : Nat → α) : List α := (List.range n).map f

namespace Table

variable {α β : Type} {n : Nat} {f g : Nat → α}

/-- A table has as many cells as asked for. -/
@[simp] theorem length_table (n : Nat) (f : Nat → α) : (table n f).length = n := by simp [table]

/-- A table with a cell is not empty. -/
theorem table_ne_nil (h : 0 < n) : table n f ≠ [] := by
  rw [← List.length_pos_iff, length_table]
  exact h

/-- Reading a cell of a table. -/
theorem getElem?_table {j : Nat} (h : j < n) : (table n f)[j]? = some (f j) := by
  simp [table, h]

/-- Reading a cell of a table with a default. -/
theorem getD_table {j : Nat} (h : j < n) (default : α) : (table n f).getD j default = f j := by
  rw [List.getD_eq_getElem?_getD, getElem?_table h, Option.getD_some]

/-- Mapping a table composes with its function. -/
theorem map_table (n : Nat) (f : Nat → α) (value : α → β) :
    (table n f).map value = table n fun i => value (f i) := by
  simp [table]

/-- Two tables are equal when their functions agree inside the bounds. -/
theorem table_congr (h : ∀ i < n, f i = g i) : table n f = table n g :=
  List.map_congr_left fun i hi => h i (List.mem_range.mp hi)

/-- A constant table. -/
theorem replicate_eq_table (n : Nat) (a : α) : List.replicate n a = table n fun _ => a := by
  simp [table, List.map_const']

/-- Every sequence is the table of its elements. -/
theorem eq_table (xs : List α) (default : α) : xs = table xs.length fun i => xs.getD i default := by
  refine List.ext_getElem (by simp) fun i hi _ => ?_
  simp [table, hi]

/-- The range is the table of the identity. -/
theorem range_eq_table (n : Nat) : List.range n = table n id := by simp [table]

/-- Combining two tables of one length combines their functions. -/
theorem zip_with_table {γ : Type} (combine : α → β → γ) (n : Nat) (f : Nat → α) (g : Nat → β) :
    List.zipWith combine (table n f) (table n g) = table n fun i => combine (f i) (g i) := by
  simp [table, List.zipWith_map]

/-- How often a value occurs in a table. -/
theorem count_table [DecidableEq α] (n : Nat) (f : Nat → α) (a : α) :
    (table n f).count a = ((range n).filter fun i => f i = a).card := by
  induction n with
  | zero => rfl
  | succ n ih =>
      rw [table, List.range_succ, List.map_append, List.count_append, ← table, ih,
        Finset.range_add_one, Finset.filter_insert]
      by_cases hlast : f n = a
      · rw [if_pos hlast, Finset.card_insert_of_notMem (by simp)]
        simp [hlast]
      · rw [if_neg hlast]
        simp [hlast]

/-- A table without its first values. -/
theorem drop_table (k n : Nat) (f : Nat → α) :
    (table n f).drop k = table (n - k) fun i => f (k + i) := by
  refine List.ext_getElem (by simp) fun i hi _ => ?_
  simp [table]

/-- The first values of a table. -/
theorem take_table {k : Nat} (h : k ≤ n) (f : Nat → α) : (table n f).take k = table k f := by
  rw [table, ← List.map_take, List.take_range, Nat.min_eq_left h, table]

/-- A table followed by the table of the next values. -/
theorem append_table (n k : Nat) (f : Nat → α) :
    table n f ++ table k (fun i => f (n + i)) = table (n + k) f := by
  simp only [table, List.range_add, List.map_append, List.map_map]
  rfl

/-- Tables of one length in order. -/
theorem flatten_tables (n m : Nat) (f : Nat → Nat → α) :
    ((List.range n).map fun c => table m (f c)).flatten =
      table (n * m) fun j => f (j / m) (j % m) := by
  induction n with
  | zero => simp [table]
  | succ n ih =>
      rw [List.range_succ, List.map_append, List.flatten_append, ih, List.map_singleton,
        List.flatten_singleton, Nat.succ_mul, ← append_table]
      congr 1
      refine table_congr fun i hi => ?_
      rw [Nat.mul_add_mod_of_lt hi, Nat.mul_comm, Nat.mul_add_div (by omega), Nat.div_eq_of_lt hi,
        Nat.add_zero]

/-- Reading a table inside its bounds. -/
theorem read_table {j : Nat} (h : j < n) : Checked.read (table n f) j = .ok (f j) := by
  rw [Checked.read, getElem?_table h]

/-- Writing a table inside its bounds. -/
theorem write_table {j : Nat} (h : j < n) (a : α) :
    Checked.write (table n f) j a = .ok (table n (Function.update f j a)) := by
  rw [Checked.write, if_pos (by simpa using h), Except.ok.injEq]
  refine List.ext_getElem (by simp) fun i hi _ => ?_
  by_cases heq : j = i
  · subst heq
    simp [table]
  · simp [table, heq, Function.update_of_ne (Ne.symm heq)]

/-- Modifying a table inside its bounds. -/
theorem modify_table {j : Nat} (h : j < n) (change : α → α) :
    Checked.modify (table n f) j change = .ok (table n (Function.update f j (change (f j)))) := by
  rw [Checked.modify, read_table h, Checked.ok_bind, write_table h]

/-- Exchanging two cells of a table. -/
theorem exchange_table {i j : Nat} (hi : i < n) (hj : j < n) :
    (Checked.write (table n f) i (f j) >>= fun cells => Checked.write cells j (f i)) =
      .ok (table n (Function.update (Function.update f i (f j)) j (f i))) := by
  rw [write_table hi, Checked.ok_bind, write_table hj]

/-- A loop that adds up values over the indices. -/
theorem fold_sum {R : Type} [AddCommMonoid R] {value : Nat → R} {step : R → Nat → Checked R}
    (h : ∀ sum, ∀ i < n, step sum i = .ok (sum + value i)) :
    (List.range n).foldlM step 0 = .ok (∑ i ∈ range n, value i) := by
  induction n with
  | zero => rfl
  | succ n ih =>
      rw [List.range_succ, List.foldlM_append, ih fun sum i hi => h sum i (by omega),
        Checked.ok_bind, List.foldlM_cons, h _ n (by omega), Checked.ok_bind, List.foldlM_nil,
        Checked.pure_eq_ok, Finset.sum_range_succ]

/-- A loop over the indices whose every step succeeds makes a table. -/
theorem gather {step : Nat → Checked α} (h : ∀ i < n, step i = .ok (f i)) :
    (List.range n).mapM step = .ok (table n f) :=
  Checked.map_ok fun i hi => h i (List.mem_range.mp hi)

/-- What a loop over the indices that succeeds returns. -/
theorem range_map_eq_ok {step : Nat → Checked α} {ys : List α} :
    (List.range n).mapM step = .ok ys ↔
      ys.length = n ∧ ∀ i (hi : i < ys.length), step i = .ok ys[i] := by
  rw [Checked.map_eq_ok, List.forall₂_iff_get]
  simp only [List.length_range, List.get_eq_getElem, List.getElem_range]
  constructor
  · rintro ⟨rfl, h⟩
    exact ⟨rfl, fun i hi => h i hi hi⟩
  · rintro ⟨rfl, h⟩
    exact ⟨rfl, fun i hi _ => h i hi⟩

/-- A loop that adds each value at its index leaves in every cell the sum of the values with that
index. -/
theorem scatter_add {R : Type} [AddCommMonoid R] {start value : Nat → R} {index : Nat → Nat}
    {m : Nat} {step : List R → Nat → Checked (List R)}
    (hstep : ∀ cells, ∀ i < m, step cells i = Checked.modify cells (index i) (· + value i))
    (hindex : ∀ i < m, index i < n) : (List.range m).foldlM step (table n start) =
      .ok (table n fun j => start j + ∑ i ∈ (range m).filter (fun i => index i = j), value i) := by
  induction m with
  | zero => simp
  | succ m ih =>
      rw [List.range_succ, List.foldlM_append,
        ih (fun cells i hi => hstep cells i (by omega)) fun i hi => hindex i (by omega),
        Checked.ok_bind, List.foldlM_cons, hstep _ m (by omega), modify_table (hindex m (by omega)),
        Checked.ok_bind, List.foldlM_nil, Checked.pure_eq_ok, Except.ok.injEq]
      refine table_congr fun j _ => ?_
      rw [Finset.range_add_one, Finset.filter_insert]
      by_cases hj : index m = j
      · subst hj
        rw [Function.update_self, if_pos rfl, Finset.sum_insert (by simp), add_assoc]
        congr 1
        exact add_comm _ _
      · rw [Function.update_of_ne (Ne.symm hj), if_neg hj]

/-- What is in cell `j` after writing the first `m` values at their indices: the value written last,
or what was there before. -/
def written (index : Nat → Nat) (start value : Nat → α) : Nat → Nat → α
  | 0, j => start j
  | m + 1, j => if index m = j then value m else written index start value m j

/-- A loop that writes each value at its index. -/
theorem scatter_write {start value : Nat → α} {index : Nat → Nat} {m : Nat}
    {step : List α → Nat → Checked (List α)}
    (hstep : ∀ cells, ∀ i < m, step cells i = Checked.write cells (index i) (value i))
    (hindex : ∀ i < m, index i < n) : (List.range m).foldlM step (table n start) =
      .ok (table n (written index start value m)) := by
  induction m with
  | zero => rfl
  | succ m ih =>
      rw [List.range_succ, List.foldlM_append,
        ih (fun cells i hi => hstep cells i (by omega)) fun i hi => hindex i (by omega),
        Checked.ok_bind, List.foldlM_cons, hstep _ m (by omega), write_table (hindex m (by omega)),
        Checked.ok_bind, List.foldlM_nil, Checked.pure_eq_ok, Except.ok.injEq]
      refine table_congr fun j _ => ?_
      by_cases hj : index m = j
      · subst hj
        rw [Function.update_self, written, if_pos rfl]
      · rw [Function.update_of_ne (Ne.symm hj), written, if_neg hj]

/-- A cell holds the value of the last index that is the cell's own. -/
theorem written_last (index : Nat → Nat) (start value : Nat → α) {m i : Nat} (hi : i < m)
    (hlast : ∀ later, i < later → later < m → index later ≠ index i) :
    written index start value m (index i) = value i := by
  induction m with
  | zero => omega
  | succ m ih =>
      by_cases heq : i = m
      · subst heq
        rw [written, if_pos rfl]
      · rw [written, if_neg (hlast m (by omega) (by omega))]
        exact ih (by omega) fun later hafter hlater => hlast later hafter (by omega)

/-- A cell that no index reaches is left as it was. -/
theorem written_none (index : Nat → Nat) (start value : Nat → α) {m j : Nat}
    (h : ∀ i < m, index i ≠ j) : written index start value m j = start j := by
  induction m with
  | zero => rfl
  | succ m ih =>
      rw [written, if_neg (h m (by omega))]
      exact ih fun i hi => h i (by omega)

/-- A loop that copies values to consecutive cells replaces exactly these cells. -/
theorem copy_to {start value : Nat → α} {first m : Nat} {step : List α → Nat → Checked (List α)}
    (hstep : ∀ cells, ∀ i < m, step cells i = Checked.write cells (first + i) (value i))
    (h : first + m ≤ n) : (List.range m).foldlM step (table n start) =
      .ok (table n fun j => if first ≤ j ∧ j < first + m then value (j - first) else start j) := by
  rw [scatter_write hstep fun i hi => by omega, Except.ok.injEq]
  refine table_congr fun j _ => ?_
  by_cases hj : first ≤ j ∧ j < first + m
  · obtain ⟨i, rfl⟩ := Nat.exists_eq_add_of_le hj.1
    rw [if_pos hj, Nat.add_sub_cancel_left]
    exact written_last (first + ·) start value (by omega) fun later _ _ => by omega
  · rw [if_neg hj]
    exact written_none (first + ·) start value fun i hi => by omega

/-- A loop that writes every cell once makes the table of the values. -/
theorem fill_table {start value : Nat → α} {step : List α → Nat → Checked (List α)}
    (hstep : ∀ cells, ∀ i < n, step cells i = Checked.write cells i (value i)) :
    (List.range n).foldlM step (table n start) = .ok (table n value) := by
  rw [scatter_write hstep fun i hi => hi, Except.ok.injEq]
  refine table_congr fun j hj => ?_
  exact written_last (fun i => i) start value hj fun later hafter _ => by omega

end Table

end Foundation
