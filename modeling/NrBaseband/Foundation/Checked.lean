import Mathlib.Data.List.Forall2
import Mathlib.Tactic.Common

/-!
# Checked computations

`Checked α` is a computation that returns an `α`, throws an error with a message, or does
something its language leaves undefined. `read` and `write` access a sequence by index and are
undefined outside it, so a bounds fact about a program is the statement that its computation never
ends in `Fault.undefined`. The lemmas peel a successful computation apart (`bind_eq_ok`) and run a
loop whose every step succeeds (`map_ok`, `fold_ok`).
-/

namespace Foundation

/-- Why a computation has no result. -/
inductive Fault where
  /-- An exception was thrown with this message. -/
  | error (message : String)
  /-- The language gives the operation no meaning. -/
  | undefined
  deriving DecidableEq, Repr

/-- A computation that returns a value or ends in a fault. -/
abbrev Checked (α : Type) : Type := Except Fault α

namespace Checked

variable {α β γ : Type}

/-- A sequence of two computations returns `b` exactly when the first returns some value on which
the second returns `b`. -/
theorem bind_eq_ok {first : Checked α} {next : α → Checked β} {b : β} :
    (first >>= next) = .ok b ↔ ∃ a, first = .ok a ∧ next a = .ok b := by
  cases first with
  | error fault => simp [bind, Except.bind]
  | ok a => simp [bind, Except.bind]

/-- A computation goes on with the value of its first part. -/
@[simp] theorem ok_bind (a : α) (next : α → Checked β) :
    ((.ok a : Checked α) >>= next) = next a := rfl

/-- A fault ends a computation. -/
@[simp] theorem error_bind (fault : Fault) (next : α → Checked β) :
    ((.error fault : Checked α) >>= next) = .error fault := rfl

/-- Returning a value is succeeding with it. -/
@[simp] theorem pure_eq_ok (a : α) : (pure a : Checked α) = .ok a := rfl

/-- A computation whose value is mapped. -/
theorem bind_ok_map (first : Checked α) (f : α → β) :
    (first >>= fun a => .ok (f a)) = first.map f := by
  cases first with
  | error fault => rfl
  | ok a => rfl

/-- A sequence of computations that return or end in one fault returns or ends in it. -/
theorem bind_cases {first : Checked α} {next : α → Checked β} {fault : Fault}
    (hfirst : (∃ a, first = .ok a) ∨ first = .error fault)
    (hnext : ∀ a, (∃ b, next a = .ok b) ∨ next a = .error fault) :
    (∃ b, (first >>= next) = .ok b) ∨ (first >>= next) = .error fault := by
  rcases hfirst with ⟨a, rfl⟩ | rfl
  · exact hnext a
  · exact .inr rfl

/-- The element of `xs` at index `i`; undefined outside the sequence. -/
def read (xs : List α) (i : Nat) : Checked α :=
  match xs[i]? with
  | some x => .ok x
  | none => .error .undefined

/-- Reading inside the sequence returns the element. -/
theorem read_of_lt {xs : List α} {i : Nat} (h : i < xs.length) : read xs i = .ok xs[i] := by
  simp [read, List.getElem?_eq_getElem h]

/-- Reading outside the sequence is undefined. -/
theorem read_of_le {xs : List α} {i : Nat} (h : xs.length ≤ i) : read xs i = .error .undefined := by
  simp [read, List.getElem?_eq_none h]

/-- Reading returns an element or is undefined. -/
theorem read_cases (xs : List α) (i : Nat) :
    (∃ x, read xs i = .ok x) ∨ read xs i = .error .undefined := by
  by_cases h : i < xs.length
  · exact .inl ⟨_, read_of_lt h⟩
  · exact .inr (read_of_le (Nat.le_of_not_lt h))

/-- `xs` with the element at index `i` replaced; undefined outside the sequence. -/
def write (xs : List α) (i : Nat) (x : α) : Checked (List α) :=
  if i < xs.length then .ok (xs.set i x) else .error .undefined

/-- `xs` with the element at index `i` changed by `f`; undefined outside the sequence. -/
def modify (xs : List α) (i : Nat) (f : α → α) : Checked (List α) := do
  let x ← read xs i
  write xs i (f x)

/-- `xs` with the elements at two indices exchanged; undefined outside the sequence. -/
def exchange (xs : List α) (i j : Nat) : Checked (List α) := do
  let x ← read xs i
  let y ← read xs j
  let xs ← write xs i y
  write xs j x

/-- Exchanging two elements reorders a sequence. -/
theorem exchange_perm {xs : List α} {i j : Nat} (hi : i < xs.length) (hj : j < xs.length) :
    ∃ exchanged, exchange xs i j = .ok exchanged ∧ exchanged.Perm xs := by
  refine ⟨(xs.set i xs[j]).set j xs[i], ?_, List.set_set_perm hi hj⟩
  have hset : j < (xs.set i xs[j]).length := by rwa [List.length_set]
  rw [exchange, read_of_lt hi, ok_bind, read_of_lt hj, ok_bind, write, if_pos hi, ok_bind, write,
    if_pos hset]

/-- Copy `ys` into `xs` from index `start` on, one element after the other. -/
def writeFrom (xs : List α) (start : Nat) : List α → Checked (List α)
  | [] => .ok xs
  | y :: ys => do
      let updated ← write xs start y
      writeFrom updated (start + 1) ys

/-- A copy that fits replaces exactly the elements it covers. -/
theorem write_from_ok {xs : List α} {start : Nat} {ys : List α}
    (h : start + ys.length ≤ xs.length) :
    writeFrom xs start ys =
      .ok (xs.take start ++ ys ++ xs.drop (start + ys.length)) := by
  induction ys generalizing xs start with
  | nil => simp [writeFrom]
  | cons y ys ih =>
      simp only [List.length_cons] at h
      have hlt : start < xs.length := by omega
      have hfit : start + 1 + ys.length ≤ (xs.set start y).length := by
        rw [List.length_set]
        omega
      simp only [writeFrom, write, if_pos hlt, ok_bind, ih hfit]
      rw [List.take_add_one, List.take_set_of_le (Nat.le_refl start),
        List.drop_set_of_lt (by omega)]
      simp [hlt, Nat.add_assoc, Nat.add_comm 1]

/-- A copy that succeeds fits. -/
theorem write_from_length {xs ys out : List α} {start : Nat} (hstart : start ≤ xs.length)
    (h : writeFrom xs start ys = .ok out) : start + ys.length ≤ xs.length := by
  induction ys generalizing xs start with
  | nil => exact hstart
  | cons y ys ih =>
      rw [writeFrom, write] at h
      split at h
      · rw [ok_bind] at h
        have hrest := ih (by rw [List.length_set]; omega) h
        rw [List.length_set] at hrest
        rw [List.length_cons]
        omega
      · cases h

/-- A loop that reads the first `k` elements of a sequence, changes each by `f` and writes it is a
copy. -/
theorem copy_loop (f : α → β) {ys : List α} {k : Nat} (hk : k ≤ ys.length) (xs : List β)
    (start : Nat) : (List.range k).foldlM (fun xs i => do
      let y ← read ys i
      write xs (start + i) (f y)) xs = writeFrom xs start ((ys.take k).map f) := by
  induction ys generalizing k xs start with
  | nil =>
      obtain rfl : k = 0 := Nat.le_zero.mp hk
      rfl
  | cons y ys ih =>
      cases k with
      | zero => rfl
      | succ k =>
          rw [List.range_succ_eq_map, List.foldlM_cons, List.take_succ_cons, List.map_cons,
            writeFrom]
          show write xs start (f y) >>= _ = write xs start (f y) >>= _
          cases write xs start (f y) with
          | error fault => rfl
          | ok updated =>
              rw [ok_bind, ok_bind, List.foldlM_map,
                ← ih (Nat.le_of_succ_le_succ hk) updated (start + 1)]
              congr 1
              funext xs i
              show read ys i >>= _ = read ys i >>= _
              rw [Nat.succ_add_eq_add_succ]

/-- A loop whose every step succeeds returns the results in order. -/
theorem map_ok {step : α → Checked β} {value : α → β} {xs : List α}
    (h : ∀ x ∈ xs, step x = .ok (value x)) : xs.mapM step = .ok (xs.map value) := by
  induction xs with
  | nil => rfl
  | cons x xs ih =>
      have hrest := ih fun y hy => h y (List.mem_cons_of_mem x hy)
      simp [h x (List.mem_cons_self), hrest]

/-- A loop succeeds exactly when each of its steps does, with the results in order. -/
theorem map_eq_ok {step : α → Checked β} {xs : List α} {ys : List β} :
    xs.mapM step = .ok ys ↔ List.Forall₂ (fun x y => step x = .ok y) xs ys := by
  induction xs generalizing ys with
  | nil =>
      rw [List.mapM_nil, pure_eq_ok, Except.ok.injEq, List.forall₂_nil_left_iff, eq_comm]
  | cons x xs ih =>
      simp only [List.mapM_cons, bind_eq_ok, pure_eq_ok, Except.ok.injEq,
        List.forall₂_cons_left_iff, ih]
      constructor
      · rintro ⟨y, hy, rest, hrest, rfl⟩
        exact ⟨y, rest, hy, hrest, rfl⟩
      · rintro ⟨y, rest, hy, hrest, rfl⟩
        exact ⟨y, hy, rest, hrest, rfl⟩

/-- A loop succeeds exactly when every step does. -/
theorem map_returns_iff {step : α → Checked β} {xs : List α} :
    (∃ ys, xs.mapM step = .ok ys) ↔ ∀ x ∈ xs, ∃ y, step x = .ok y := by
  induction xs with
  | nil => exact iff_of_true ⟨[], rfl⟩ fun x hx => absurd hx List.not_mem_nil
  | cons x xs ih =>
      rw [List.forall_mem_cons, ← ih]
      simp only [List.mapM_cons, bind_eq_ok, pure_eq_ok]
      constructor
      · intro ⟨_, y, hy, ys, hys, _⟩
        exact ⟨⟨y, hy⟩, ys, hys⟩
      · intro ⟨⟨y, hy⟩, ys, hys⟩
        exact ⟨y :: ys, y, hy, ys, hys, rfl⟩

/-- A loop whose steps return or end in one fault returns or ends in it. -/
theorem map_cases {step : α → Checked β} {fault : Fault} {xs : List α}
    (h : ∀ x ∈ xs, (∃ y, step x = .ok y) ∨ step x = .error fault) :
    (∃ ys, xs.mapM step = .ok ys) ∨ xs.mapM step = .error fault := by
  induction xs with
  | nil => exact .inl ⟨[], rfl⟩
  | cons x xs ih =>
      obtain ⟨hfirst, hrest⟩ := List.forall_mem_cons.mp h
      rw [List.mapM_cons]
      refine bind_cases hfirst fun y => ?_
      refine bind_cases (ih hrest) fun ys => ?_
      exact .inl ⟨y :: ys, rfl⟩

/-- A loop whose every step returns or ends in one fault, and one of them does, ends in it. -/
theorem map_error {step : α → Checked β} {fault : Fault} {xs : List α}
    (hall : ∀ x ∈ xs, (∃ y, step x = .ok y) ∨ step x = .error fault) {x : α} (hx : x ∈ xs)
    (hfault : step x = .error fault) : xs.mapM step = .error fault := by
  rcases map_cases hall with hreturns | hend
  · obtain ⟨y, hy⟩ := map_returns_iff.mp hreturns x hx
    rw [hfault] at hy
    cases hy
  · exact hend

/-- Loops with the same steps. -/
theorem map_congr {step step' : α → Checked β} {xs : List α} (h : ∀ x ∈ xs, step x = step' x) :
    xs.mapM step = xs.mapM step' := by
  induction xs with
  | nil => rfl
  | cons x xs ih =>
      rw [List.mapM_cons, List.mapM_cons, h x List.mem_cons_self,
        ih fun y hy => h y (List.mem_cons_of_mem x hy)]

/-- A loop whose results are mapped one by one. -/
theorem map_results {step : α → Checked β} {g : β → γ} (xs : List α) :
    xs.mapM (fun x => (step x).map g) = (xs.mapM step).map (List.map g) := by
  induction xs with
  | nil => rfl
  | cons x xs ih =>
      rw [List.mapM_cons, List.mapM_cons, ih]
      cases step x with
      | error fault => rfl
      | ok y =>
          cases xs.mapM step with
          | error fault => rfl
          | ok ys => rfl

/-- Sequences that are made of parts are compared part by part. -/
theorem forall₂_flat_map {P : α → β → Prop} (xs : List γ) {f : γ → List α} {g : γ → List β}
    (h : ∀ x ∈ xs, List.Forall₂ P (f x) (g x)) : List.Forall₂ P (xs.flatMap f) (xs.flatMap g) := by
  induction xs with
  | nil => exact .nil
  | cons x xs ih =>
      rw [List.flatMap_cons, List.flatMap_cons]
      have hrest := ih fun y hy => h y (List.mem_cons_of_mem x hy)
      exact List.rel_append (h x List.mem_cons_self) hrest

/-- Sequences that are made of parts are equal where corresponding elements have the same part. -/
theorem flat_map_of_forall₂ {P : α → β → Prop} {f : α → List γ} {g : β → List γ} {xs : List α}
    {ys : List β} (h : List.Forall₂ P xs ys) (hpart : ∀ x ∈ xs, ∀ y, P x y → g y = f x) :
    ys.flatMap g = xs.flatMap f := by
  induction h with
  | nil => rfl
  | cons hfirst _ ih =>
      rw [List.flatMap_cons, List.flatMap_cons, hpart _ List.mem_cons_self _ hfirst,
        ih fun x hx => hpart x (List.mem_cons_of_mem _ hx)]

/-- A loop that succeeds returns one result for each element. -/
theorem map_length {step : α → Checked β} {xs : List α} {ys : List β}
    (h : xs.mapM step = .ok ys) : ys.length = xs.length :=
  (map_eq_ok.mp h).length_eq.symm

/-- Every result of a loop that succeeds is the result of a step. -/
theorem map_mem {step : α → Checked β} {xs : List α} {ys : List β} (h : xs.mapM step = .ok ys)
    {y : β} (hy : y ∈ ys) : ∃ x ∈ xs, step x = .ok y := by
  induction map_eq_ok.mp h with
  | nil => exact absurd hy List.not_mem_nil
  | cons hfirst hrest ih =>
      rcases List.mem_cons.mp hy with rfl | hlater
      · exact ⟨_, List.mem_cons_self, hfirst⟩
      · obtain ⟨x, hx, hstep⟩ := ih (map_eq_ok.mpr hrest) hlater
        exact ⟨x, List.mem_cons_of_mem _ hx, hstep⟩

/-- A table whose every entry is computed successfully holds the entries. -/
theorem table_ok {n : Nat} {entry : Fin n → Checked α} {value : Fin n → α}
    (h : ∀ i, entry i = .ok (value i)) : Vector.ofFnM entry = .ok (Vector.ofFn value) := by
  rw [funext h]
  exact Vector.ofFnM_pure

/-- A table whose entries are computed or end in one fault, and one of them does, ends in it. -/
theorem table_error {n : Nat} {entry : Fin n → Checked α} {fault : Fault}
    (hall : ∀ i, (∃ a, entry i = .ok a) ∨ entry i = .error fault) {i : Fin n}
    (hi : entry i = .error fault) : Vector.ofFnM entry = .error fault := by
  induction n with
  | zero => exact i.elim0
  | succ n ih =>
      rw [Vector.ofFnM_succ]
      by_cases hbefore : ∃ j : Fin n, entry j.castSucc = .error fault
      · obtain ⟨j, hj⟩ := hbefore
        rw [ih (fun j => hall j.castSucc) hj, error_bind]
      · -- the entries before the last one are computed, so `i` is the last one
        have hvalues (j : Fin n) : ∃ a, entry j.castSucc = .ok a :=
          (hall j.castSucc).resolve_right fun hj => hbefore ⟨j, hj⟩
        choose value hvalue using hvalues
        have hlast : i = Fin.last n := by
          cases i using Fin.lastCases with
          | last => rfl
          | cast j => exact absurd ⟨j, hi⟩ hbefore
        rw [table_ok hvalue, ok_bind, ← hlast, hi, error_bind]

/-- Such a table without the fault is computed. -/
theorem table_cases {n : Nat} {entry : Fin n → Checked α} {fault : Fault}
    (hall : ∀ i, (∃ a, entry i = .ok a) ∨ entry i = .error fault) :
    (∃ values, Vector.ofFnM entry = .ok values) ∨ Vector.ofFnM entry = .error fault := by
  by_cases hfault : ∃ i, entry i = .error fault
  · obtain ⟨i, hi⟩ := hfault
    exact .inr (table_error hall hi)
  · have hvalues (i : Fin n) : ∃ a, entry i = .ok a :=
      (hall i).resolve_right fun hi => hfault ⟨i, hi⟩
    choose value hvalue using hvalues
    exact .inl ⟨_, table_ok hvalue⟩

/-- An accumulating loop whose every step succeeds returns the plain fold. -/
theorem fold_ok {step : γ → α → Checked γ} {next : γ → α → γ} {xs : List α} {start : γ}
    (h : ∀ acc, ∀ x ∈ xs, step acc x = .ok (next acc x)) :
    xs.foldlM step start = .ok (xs.foldl next start) := by
  induction xs generalizing start with
  | nil => rfl
  | cons x xs ih =>
      rw [List.foldlM_cons, h start x (List.mem_cons_self), ok_bind, List.foldl_cons]
      exact ih fun acc y hy => h acc y (List.mem_cons_of_mem x hy)

/-- An accumulating loop that returns has run each of its steps. -/
theorem fold_step {step : γ → α → Checked γ} {xs : List α} {start out : γ}
    (h : xs.foldlM step start = .ok out) {x : α} (hx : x ∈ xs) :
    ∃ before after, step before x = .ok after := by
  induction xs generalizing start with
  | nil => exact absurd hx List.not_mem_nil
  | cons y ys ih =>
      rw [List.foldlM_cons] at h
      obtain ⟨next, hfirst, hrest⟩ := bind_eq_ok.mp h
      rcases List.mem_cons.mp hx with rfl | hlater
      · exact ⟨start, next, hfirst⟩
      · exact ih hrest hlater

/-- A search for a failing test, every test of which returns, returns whether all succeed. -/
theorem all_ok {test : α → Checked Bool} {value : α → Bool} {xs : List α}
    (h : ∀ x ∈ xs, test x = .ok (value x)) : xs.allM test = .ok (xs.all value) := by
  induction xs with
  | nil => rfl
  | cons x xs ih =>
      have hrest := ih fun y hy => h y (List.mem_cons_of_mem x hy)
      rw [List.allM, h x List.mem_cons_self, ok_bind, List.all_cons]
      cases value x with
      | true => exact hrest
      | false => rfl

/-- Run a check on every element in order, stopping at the first that fails. -/
def forEach (check : α → Checked Unit) : List α → Checked Unit
  | [] => .ok ()
  | x :: xs => do
      check x
      forEach check xs

/-- A check sequenced before `next` has passed when the sequence returns. -/
theorem check_bind_eq_ok {check : Checked Unit} {next : Unit → Checked β} {b : β} :
    (check >>= next) = .ok b ↔ check = .ok () ∧ next () = .ok b := by
  rw [bind_eq_ok]
  exact ⟨fun ⟨(), hcheck, hnext⟩ => ⟨hcheck, hnext⟩, fun ⟨hcheck, hnext⟩ => ⟨(), hcheck, hnext⟩⟩

/-- A loop of checks passes exactly when every check does. -/
theorem for_each_eq_ok {check : α → Checked Unit} {xs : List α} :
    forEach check xs = .ok () ↔ ∀ x ∈ xs, check x = .ok () := by
  induction xs with
  | nil => simp [forEach]
  | cons x xs ih => simp [forEach, check_bind_eq_ok, ih]

end Checked

end Foundation
