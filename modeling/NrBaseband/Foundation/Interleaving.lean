import NrBaseband.Foundation.Refinement
import NrBaseband.Foundation.Table
import Mathlib.Data.List.GetD

/-!
# Dealing a sequence to rows

The elements of a sequence go to `n` rows in turn, `m` to each, and come back in the same order.
`deal` and `collect` state the two directions by indices, and each undoes the other. A program
deals with two nested loops that write into rows of the final length (`deal_loop`), and collects
with two nested loops that append (`collect_loop`).
-/

namespace Foundation.Interleaving

variable {α : Type}

/-- Row `l` gets the elements `l`, `n + l`, `2 * n + l`, .. of a sequence. -/
def deal (n m : Nat) (value : Nat → α) : List (List α) :=
  table n fun l => table m fun t => value (t * n + l)

/-- The first elements of the rows, the second ones, .. -/
def collect (n m : Nat) (entry : Nat → Nat → α) : List α :=
  table (m * n) fun j => entry (j % n) (j / n)

/-- Collecting what was dealt gives the sequence. -/
theorem collect_deal (n m : Nat) (value : Nat → α) :
    collect n m (fun l t => value (t * n + l)) = table (m * n) value := by
  refine Table.table_congr fun j _ => ?_
  dsimp only
  rw [Nat.div_add_mod']

/-- Dealing what was collected gives the rows. -/
theorem deal_collect (n m : Nat) (entry : Nat → Nat → α) :
    deal n m (fun j => entry (j % n) (j / n)) = table n fun l => table m fun t => entry l t := by
  refine Table.table_congr fun l hl => Table.table_congr fun t _ => ?_
  dsimp only
  rw [Nat.mul_add_mod', Nat.mod_eq_of_lt hl, Nat.mul_comm, Nat.mul_add_div (by omega),
    Nat.div_eq_of_lt hl, Nat.add_zero]

/-- Rows of one length are the table of their elements. -/
theorem eq_tables {rows : List (List α)} {m : Nat} (h : ∀ row ∈ rows, row.length = m)
    (default : α) :
    rows = table rows.length fun l => table m fun t => (rows.getD l []).getD t default := by
  conv_lhs => rw [Table.eq_table rows []]
  refine Table.table_congr fun l hl => ?_
  have hrow : (rows.getD l []).length = m := by
    rw [List.getD_eq_getElem _ _ hl]
    exact h _ (List.getElem_mem hl)
  conv_lhs => rw [Table.eq_table (rows.getD l []) default, hrow]

/-- Rows that are read at one index after the other. -/
theorem collect_loop (n m : Nat) (entry : Nat → Nat → α) :
    ((List.range m).mapM fun t => (table n fun l => table m fun t => entry l t).mapM fun row =>
      Checked.read row t).map List.flatten = .ok (collect n m entry) := by
  have hindex (t : Nat) (ht : t < m) : ((table n fun l => table m fun t => entry l t).mapM
      fun row => Checked.read row t) = .ok (table n fun l => entry l t) := by
    rw [table, List.mapM_map]
    exact Table.gather fun l _ => Table.read_table ht
  rw [Table.gather hindex]
  exact congrArg Except.ok (Table.flatten_tables m n fun t l => entry l t)

/-- Rows of the final length that are written one index after the other. -/
theorem deal_loop {n m : Nat} {value : Nat → α} {step : Nat → Nat → Checked α} (start : α)
    (hstep : ∀ t < m, ∀ l < n, step t l = .ok (value (t * n + l))) :
    (List.range m).foldlM (fun rows t => (List.range n).foldlM (fun rows l => do
        let x ← step t l
        let row ← Checked.read rows l
        let row ← Checked.write row t x
        Checked.write rows l row) rows) (List.replicate n (List.replicate m start)) =
      .ok (deal n m value) := by
  -- the rows before element `l` of the round `t`
  let rowsAt (t l : Nat) : List (List α) := table n fun l' => table m fun t' =>
    if t' < t ∨ t' = t ∧ l' < l then value (t' * n + l') else start
  have hloop := range_loop (fun t rows => rows = rowsAt t 0) (fun rows t =>
    (List.range n).foldlM (fun rows l => do
      let x ← step t l
      let row ← Checked.read rows l
      let row ← Checked.write row t x
      Checked.write rows l row) rows) m ?_
    (a := List.replicate n (List.replicate m start)) ?_
  · obtain ⟨rows, hrun, hrows⟩ := hloop
    rw [hrun, hrows, Except.ok.injEq]
    exact Table.table_congr fun l _ => Table.table_congr fun t ht => if_pos (.inl ht)
  · intro t rows ht hrows
    have hround := range_loop (fun l rows => rows = rowsAt t l) (fun rows l => do
      let x ← step t l
      let row ← Checked.read rows l
      let row ← Checked.write row t x
      Checked.write rows l row) n ?_ hrows
    · obtain ⟨final, hrun, hfinal⟩ := hround
      refine ⟨final, hrun, hfinal.trans ?_⟩
      refine Table.table_congr fun l hl => Table.table_congr fun t' _ => if_congr ?_ rfl rfl
      omega
    · rintro l rows hl rfl
      refine ⟨_, ?_, rfl⟩
      rw [hstep t ht l hl, Checked.ok_bind, Table.read_table hl, Checked.ok_bind,
        Table.write_table ht, Checked.ok_bind, Table.write_table hl, Except.ok.injEq]
      refine Table.table_congr fun l' _ => ?_
      by_cases hrow : l' = l
      · subst hrow
        rw [Function.update_self]
        refine Table.table_congr fun t' _ => ?_
        by_cases hcell : t' = t
        · subst hcell
          rw [Function.update_self, if_pos (.inr ⟨rfl, Nat.lt_succ_self l'⟩)]
        · rw [Function.update_of_ne hcell]
          exact if_congr (by omega) rfl rfl
      · rw [Function.update_of_ne hrow]
        exact Table.table_congr fun t' _ => if_congr (by omega) rfl rfl
  · rw [Table.replicate_eq_table, Table.replicate_eq_table]
    refine Table.table_congr fun l _ => Table.table_congr fun t _ => (if_neg ?_).symm
    omega

end Foundation.Interleaving
