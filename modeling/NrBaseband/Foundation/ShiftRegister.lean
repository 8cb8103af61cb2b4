import NrBaseband.Foundation.Table

/-!
# Shift registers

A shift register of some width holds a window of a stream and computes the next element from it.
`stream` is the sequence that runs through the register, and `fill_stream` says that a loop which
computes an array element by element from the window before it fills the array with the stream.
Where a step can be undone, any window of the stream determines the seed (`seed_of_stream`).
-/

namespace Foundation.ShiftRegister

variable {α : Type}

/-- The window after `n` steps: the elements move down by one and the next one enters on top. -/
def window (width : Nat) (next : (Nat → α) → α) (seed : Nat → α) : Nat → Nat → α
  | 0 => seed
  | n + 1 => fun i =>
      if i + 1 < width then window width next seed n (i + 1) else next (window width next seed n)

/-- The elements in the order in which they leave the register. -/
def stream (width : Nat) (next : (Nat → α) → α) (seed : Nat → α) (n : Nat) : α :=
  window width next seed n 0

variable {width : Nat} {next : (Nat → α) → α} {seed : Nat → α}

/-- The window holds the next elements of the stream. -/
theorem window_eq {n i : Nat} (h : i < width) :
    window width next seed n i = stream width next seed (n + i) := by
  induction i generalizing n with
  | zero => rfl
  | succ i ih =>
      have hshift : window width next seed (n + 1) i = window width next seed n (i + 1) := by
        simp only [window]
        exact if_pos h
      rw [← hshift, ih (by omega)]
      congr 1
      omega

/-- The stream starts with the seed. -/
theorem stream_of_lt {i : Nat} (h : i < width) : stream width next seed i = seed i := by
  rw [← Nat.zero_add i, ← window_eq h]
  simp [window]

/-- Every later element is computed from the window before it. -/
theorem stream_next (hwidth : 0 < width)
    (hnext : ∀ w w', (∀ i < width, w i = w' i) → next w = next w') (n : Nat) :
    stream width next seed (n + width) = next fun i => stream width next seed (n + i) := by
  have hlast : window width next seed (n + 1) (width - 1) = next (window width next seed n) := by
    simp only [window]
    exact if_neg (by omega)
  have hposition : n + width = n + 1 + (width - 1) := by omega
  rw [hposition, ← window_eq (by omega), hlast]
  exact hnext _ _ fun i hi => window_eq hi

/-- A property of the seed that every step keeps holds of the whole stream. -/
theorem stream_invariant {property : α → Prop} (hseed : ∀ i, property (seed i))
    (hstep : ∀ w, (∀ i, property (w i)) → property (next w)) (n : Nat) :
    property (stream width next seed n) := by
  have hwindow (n : Nat) : ∀ i, property (window width next seed n i) := by
    induction n with
    | zero => exact hseed
    | succ n ih =>
        intro i
        simp only [window]
        split
        · exact ih _
        · exact hstep _ ih
  exact hwindow n 0

/-- Registers with the same seed run through the same stream. -/
theorem stream_congr (hwidth : 0 < width)
    (hnext : ∀ w w', (∀ i < width, w i = w' i) → next w = next w') {seed' : Nat → α}
    (hseed : ∀ i < width, seed i = seed' i) (n : Nat) :
    stream width next seed n = stream width next seed' n := by
  induction n using Nat.strong_induction_on with
  | _ n ih =>
      by_cases hn : n < width
      · rw [stream_of_lt hn, stream_of_lt hn, hseed n hn]
      · obtain ⟨m, rfl⟩ := Nat.exists_eq_add_of_le (Nat.not_lt.mp hn)
        rw [Nat.add_comm, stream_next hwidth hnext, stream_next hwidth hnext]
        exact hnext _ _ fun i hi => ih (m + i) (by omega)

/-- Where a step can be undone, every window of the stream determines the seed. -/
theorem seed_of_stream (hwidth : 0 < width)
    (hnext : ∀ w w', (∀ i < width, w i = w' i) → next w = next w')
    (hback : ∀ w w', (∀ i < width, 0 < i → w i = w' i) → next w = next w' → w 0 = w' 0)
    {seed' : Nat → α} (n : Nat)
    (h : ∀ i < width, stream width next seed (n + i) = stream width next seed' (n + i)) :
    ∀ i < width, seed i = seed' i := by
  induction n with
  | zero =>
      intro i hi
      have hstart := h i hi
      rwa [Nat.zero_add, stream_of_lt hi, stream_of_lt hi] at hstart
  | succ n ih =>
      -- the window one step earlier: its later elements are known, and the first one is undone
      have hlater (i : Nat) (hi : i < width) (hpos : 0 < i) :
          stream width next seed (n + i) = stream width next seed' (n + i) := by
        have hstep := h (i - 1) (by omega)
        have hposition : n + 1 + (i - 1) = n + i := by omega
        rwa [hposition] at hstep
      have hlast := h (width - 1) (by omega)
      have hposition : n + 1 + (width - 1) = n + width := by omega
      rw [hposition, stream_next hwidth hnext, stream_next hwidth hnext] at hlast
      refine ih fun i hi => ?_
      cases i with
      | zero =>
          exact hback (fun i => stream width next seed (n + i))
            (fun i => stream width next seed' (n + i)) hlater hlast
      | succ i => exact hlater (i + 1) hi (Nat.succ_pos i)

/-- A loop that writes at `n + width` what the window from `n` on gives fills an array that starts
with the seed with the stream. -/
theorem fill_stream (seed : Nat → α) (hwidth : 0 < width)
    (hnext : ∀ w w', (∀ i < width, w i = w' i) → next w = next w') {size m : Nat}
    {start : Nat → α} {step : List α → Nat → Checked (List α)}
    (hstep : ∀ f, ∀ n < m, step (table size f) n =
      Checked.write (table size f) (n + width) (next fun i => f (n + i)))
    (hsize : m + width ≤ size) (hstart : ∀ i < width, start i = seed i) :
    (List.range m).foldlM step (table size start) = .ok (table size fun j =>
      if j < m + width then stream width next seed j else start j) := by
  induction m with
  | zero =>
      refine congrArg Except.ok (Table.table_congr fun j _ => ?_)
      split
      case isTrue h => rw [stream_of_lt (by omega), hstart j (by omega)]
      case isFalse => rfl
  | succ m ih =>
      rw [List.range_succ, List.foldlM_append,
        ih (fun f n hn => hstep f n (by omega)) (by omega), Checked.ok_bind, List.foldlM_cons,
        hstep _ m (by omega), Table.write_table (by omega), Checked.ok_bind, List.foldlM_nil,
        Checked.pure_eq_ok, Except.ok.injEq]
      refine Table.table_congr fun j _ => ?_
      by_cases hj : j = m + width
      · subst hj
        rw [Function.update_self, if_pos (by omega), stream_next hwidth hnext]
        exact hnext _ _ fun i hi => if_pos (by omega)
      · rw [Function.update_of_ne hj]
        exact if_congr (by omega) rfl rfl

end Foundation.ShiftRegister
