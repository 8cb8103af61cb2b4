import NrBaseband.Foundation.Checked

/-!
# Refinement of checked computations

`Refines R concrete abstract` says that two computations end in the same fault or return values
that `R` relates, so a program over arrays can be compared with one over vectors that are never
left. It composes along sequences (`Refines.bind`), along loops with one body each (`Refines.fold`)
and along a loop that fills cells against a table of entries (`Refines.fill`). `counted_loop` is
the rule for a loop over consecutive indices that never fails.
-/

namespace Foundation

/-- The computations end in the same fault, or in values related by `R`. -/
inductive Refines {α β : Type} (R : α → β → Prop) : Checked α → Checked β → Prop where
  | ok {a : α} {b : β} (h : R a b) : Refines R (.ok a) (.ok b)
  | error (fault : Fault) : Refines R (.error fault) (.error fault)

namespace Refines

variable {α β γ δ ι : Type} {R : α → β → Prop} {S : γ → δ → Prop}

/-- A computation refines itself. -/
theorem refl (computation : Checked α) : Refines Eq computation computation := by
  cases computation with
  | error fault => exact .error fault
  | ok a => exact .ok rfl

/-- Computations related by equality of their values are equal. -/
theorem eq {concrete abstract : Checked α} (h : Refines Eq concrete abstract) :
    concrete = abstract := by
  cases h with
  | ok h => rw [h]
  | error fault => rfl

/-- A weaker relation on the values. -/
theorem mono {R' : α → β → Prop} {concrete : Checked α} {abstract : Checked β}
    (h : Refines R concrete abstract) (himp : ∀ a b, R a b → R' a b) :
    Refines R' concrete abstract := by
  cases h with
  | ok h => exact .ok (himp _ _ h)
  | error fault => exact .error fault

/-- Sequences are compared step by step. -/
theorem bind {concrete : Checked α} {abstract : Checked β} {next : α → Checked γ}
    {next' : β → Checked δ} (h : Refines R concrete abstract)
    (hnext : ∀ a b, R a b → Refines S (next a) (next' b)) :
    Refines S (concrete >>= next) (abstract >>= next') := by
  cases h with
  | ok h => exact hnext _ _ h
  | error fault => exact .error fault

/-- Values that are related are mapped to the same results. -/
theorem map_eq {concrete : Checked α} {abstract : Checked β} {f : α → γ} {g : β → γ}
    (h : Refines (fun a b => f a = g b) concrete abstract) : concrete.map f = abstract.map g := by
  cases h with
  | ok h => exact congrArg Except.ok h
  | error fault => rfl

/-- Sequences that start with the same computation are compared after it. -/
theorem bind_same {first : Checked α} {next : α → Checked γ} {next' : α → Checked δ}
    (hnext : ∀ a, Refines S (next a) (next' a)) : Refines S (first >>= next) (first >>= next') := by
  refine (refl first).bind fun a b hsame => ?_
  rw [hsame]
  exact hnext b

/-- A computation followed by a step that never fails, against the computation alone. -/
theorem of_bind {abstract : Checked β} {next : β → Checked α}
    (h : ∀ b, ∃ a, next b = .ok a ∧ R a b) : Refines R (abstract >>= next) abstract := by
  cases abstract with
  | error fault => exact .error fault
  | ok b =>
      obtain ⟨a, ha, hrel⟩ := h b
      rw [Checked.ok_bind, ha]
      exact .ok hrel

/-- Loops over one list are compared body by body. -/
theorem fold {step : α → ι → Checked α} {step' : β → ι → Checked β} {is : List ι}
    (hstep : ∀ a b, R a b → ∀ i ∈ is, Refines R (step a i) (step' b i)) {a : α} {b : β}
    (h : R a b) : Refines R (is.foldlM step a) (is.foldlM step' b) := by
  induction is generalizing a b with
  | nil => exact .ok h
  | cons i is ih =>
      rw [List.foldlM_cons, List.foldlM_cons]
      refine (hstep a b h i List.mem_cons_self).bind fun a' b' h' => ?_
      exact ih (fun a b hab j hj => hstep a b hab j (List.mem_cons_of_mem i hj)) h'

/-- A loop that computes and stores one entry after the other, against the table of the entries.
`Inv k` relates the state after `k` rounds to the first `k` entries. -/
theorem fill {n : Nat} (Inv : (k : Nat) → α → Vector β k → Prop) {step : α → Nat → Checked α}
    (entry : Nat → Checked β) (hstep : ∀ k < n, ∀ a (entries : Vector β k), Inv k a entries →
      Refines (fun a' b => Inv (k + 1) a' (entries.push b)) (step a k) (entry k)) {a : α}
    (h : Inv 0 a #v[]) :
    Refines (Inv n) ((List.range n).foldlM step a) (Vector.ofFnM fun i : Fin n => entry i) := by
  induction n with
  | zero =>
      rw [Vector.ofFnM_zero]
      exact .ok h
  | succ n ih =>
      rw [List.range_succ, List.foldlM_append, Vector.ofFnM_succ]
      refine (ih fun k hk => hstep k (by omega)).bind fun a' entries hentries => ?_
      rw [List.foldlM_cons]
      refine (hstep n (by omega) a' entries hentries).bind fun a'' b hb => ?_
      exact .ok hb

/-- A loop that computes and stores the cells of a sequence one after the other. -/
theorem fill_cells {n : Nat} (entry : Nat → Checked α) (default : α) :
    Refines (fun cells (entries : Vector α n) => cells = entries.toList)
      ((List.range n).foldlM (fun cells i => do
        let a ← entry i
        Checked.write cells i a) (List.replicate n default))
      (Vector.ofFnM fun i : Fin n => entry i) := by
  refine (fill (fun k cells (entries : Vector α k) =>
    cells = entries.toList ++ List.replicate (n - k) default) entry
    (fun k hk cells entries => ?_) (by simp)).mono fun cells entries h => by simpa using h
  intro hcells
  refine of_bind fun a => ⟨(entries.push a).toList ++ List.replicate (n - (k + 1)) default, ?_, rfl⟩
  have hlt : k < cells.length := by
    rw [hcells]
    simp
    omega
  obtain ⟨rest, hrest⟩ := Nat.exists_eq_add_of_lt hk
  have hcount : n - k = rest + 1 := by omega
  have hnext : n - (k + 1) = rest := by omega
  rw [Checked.write, if_pos hlt, hcells, hcount, hnext, Except.ok.injEq,
    List.set_append_right _ _ (by simp), Vector.length_toList, Nat.sub_self,
    List.replicate_succ, List.set_cons_zero, Vector.toList_push, List.append_assoc]
  rfl

end Refines

/-- A loop over consecutive indices whose every round keeps the invariant, or ends in one fault for
which there is a reason. -/
theorem counted_loop_or {α : Type} (Inv : Nat → α → Prop) (step : α → Nat → Checked α)
    (fault : Fault) (Reason : Prop) (first count : Nat)
    (hstep : ∀ i a, first ≤ i → i < first + count → Inv i a →
      (∃ next, step a i = .ok next ∧ Inv (i + 1) next) ∨ (step a i = .error fault ∧ Reason))
    {a : α} (h : Inv first a) :
    (∃ final, (List.range' first count).foldlM step a = .ok final ∧ Inv (first + count) final) ∨
      ((List.range' first count).foldlM step a = .error fault ∧ Reason) := by
  induction count with
  | zero => exact .inl ⟨a, rfl, h⟩
  | succ count ih =>
      rw [List.range'_1_concat, List.foldlM_append]
      rcases ih fun i a hle hlt => hstep i a hle (by omega) with
        ⟨before, hbefore, hinv⟩ | ⟨hfault, hreason⟩
      · rw [hbefore, Checked.ok_bind, List.foldlM_cons]
        rcases hstep (first + count) before (by omega) (by omega) hinv with
          ⟨final, hfinal, hlast⟩ | ⟨hfault, hreason⟩
        · exact .inl ⟨final, by rw [hfinal]; rfl, hlast⟩
        · exact .inr ⟨by rw [hfault]; rfl, hreason⟩
      · exact .inr ⟨by rw [hfault]; rfl, hreason⟩

/-- A loop over consecutive indices whose every round succeeds and keeps the invariant. -/
theorem counted_loop {α : Type} (Inv : Nat → α → Prop) (step : α → Nat → Checked α)
    (first count : Nat) (hstep : ∀ i a, first ≤ i → i < first + count → Inv i a →
      ∃ next, step a i = .ok next ∧ Inv (i + 1) next) {a : α} (h : Inv first a) :
    ∃ final, (List.range' first count).foldlM step a = .ok final ∧ Inv (first + count) final :=
  (counted_loop_or Inv step .undefined False first count
    (fun i a hle hlt hinv => .inl (hstep i a hle hlt hinv)) h).resolve_right fun h => h.2

/-- The same for a loop from zero on. -/
theorem range_loop {α : Type} (Inv : Nat → α → Prop) (step : α → Nat → Checked α) (count : Nat)
    (hstep : ∀ i a, i < count → Inv i a → ∃ next, step a i = .ok next ∧ Inv (i + 1) next) {a : α}
    (h : Inv 0 a) : ∃ final, (List.range count).foldlM step a = .ok final ∧ Inv count final := by
  have hloop := counted_loop Inv step 0 count
    (fun i a _ hlt hinv => hstep i a (by omega) hinv) h
  rwa [Nat.zero_add, ← List.range_eq_range'] at hloop

/-- A loop that also moves a position on by `stride` in every round is the loop without it. -/
theorem positioned_loop {α : Type} (step : α × Nat → Nat → Checked (α × Nat))
    (plain : α → Nat → Checked α) (first stride count : Nat)
    (hstep : ∀ i < count, ∀ a, step (a, first + i * stride) i =
      (plain a i).map fun next => (next, first + i * stride + stride)) (a : α) :
    (List.range count).foldlM step (a, first) =
      ((List.range count).foldlM plain a).map fun final => (final, first + count * stride) := by
  induction count with
  | zero => simp [Except.map, pure, Except.pure]
  | succ count ih =>
      rw [List.range_succ, List.foldlM_append, List.foldlM_append,
        ih fun i hi => hstep i (by omega)]
      cases (List.range count).foldlM plain a with
      | error fault => rfl
      | ok before =>
          show step (before, first + count * stride) count >>= _ = (plain before count >>= _).map _
          rw [hstep count (by omega), Nat.succ_mul, ← Nat.add_assoc]
          cases plain before count with
          | error fault => rfl
          | ok final => rfl

end Foundation
