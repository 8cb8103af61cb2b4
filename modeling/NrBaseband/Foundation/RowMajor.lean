import NrBaseband.Foundation.Refinement
import Mathlib.Logic.Equiv.Basic

/-!
# Dense matrices in row-major order

An `m` by `n` matrix is stored as one sequence of `m * n` cells, and a program reaches entry
`(r, c)` through the index `r * n + c`. `Represents` says that a sequence holds the entries of an
abstract matrix; reading and modifying at a computed index then read and modify that entry, and
loops over the cells of rows fill them (`fill_rows`), exchange two of them (`exchange_rows`) or add
one to another (`add_row`).
-/

namespace Foundation.RowMajor

variable {α : Type} {m n : Nat}

/-- An index determines its row and its column. -/
theorem index_inj {r c r' c' : Nat} (hc : c < n) (hc' : c' < n) :
    r * n + c = r' * n + c' ↔ r = r' ∧ c = c' := by
  constructor
  · intro h
    have hrow : r = r' := by
      have := congrArg (· / n) h
      simpa [Nat.mul_comm, Nat.mul_add_div (by omega : 0 < n), Nat.div_eq_of_lt, hc, hc'] using this
    subst hrow
    exact ⟨rfl, by omega⟩
  · rintro ⟨rfl, rfl⟩
    rfl

/-- The index of an entry lies inside the sequence. -/
theorem index_lt {r c : Nat} (hr : r < m) (hc : c < n) : r * n + c < m * n := by
  have hle : (r + 1) * n ≤ m * n := Nat.mul_le_mul_right n hr
  rw [Nat.succ_mul] at hle
  omega

/-- Reading the cells gives the entries of an `m` by `n` matrix. -/
def Reads (m n : Nat) (cells : List α) (entry : Nat → Nat → α) : Prop :=
  ∀ r < m, ∀ c < n, Checked.read cells (r * n + c) = .ok (entry r c)

/-- A cell inside a sequence is read with any default. -/
theorem read_getD {cells : List α} {i : Nat} (h : i < cells.length) (default : α) :
    Checked.read cells i = .ok (cells.getD i default) := by
  rw [Checked.read_of_lt h]
  show _ = Except.ok (cells.getD i default)
  rw [List.getD_eq_getElem?_getD, List.getElem?_eq_getElem h]
  rfl

/-- A cell that is read is read with any default. -/
theorem getD_of_read {cells : List α} {i : Nat} {a : α} (h : Checked.read cells i = .ok a)
    (default : α) : cells.getD i default = a := by
  rw [Checked.read] at h
  rw [List.getD_eq_getElem?_getD]
  cases hget : cells[i]? with
  | none => simp [hget] at h
  | some a' => simpa [hget] using h

/-- The first cells of a sequence that is long enough are read with any default. -/
theorem reads_getD {cells : List α} (h : m * n ≤ cells.length) (default : α) :
    Reads m n cells fun r c => cells.getD (r * n + c) default :=
  fun _ hr _ hc => read_getD (Nat.lt_of_lt_of_le (index_lt hr hc) h) default

/-- The cells hold the entries of an `m` by `n` matrix. -/
structure Represents (m n : Nat) (cells : List α) (entry : Nat → Nat → α) : Prop where
  length_eq : cells.length = m * n
  read_eq : ∀ r < m, ∀ c < n, Checked.read cells (r * n + c) = .ok (entry r c)

/-- A represented matrix can be read. -/
theorem Represents.reads {cells : List α} {entry : Nat → Nat → α}
    (h : Represents m n cells entry) : Reads m n cells entry := h.read_eq

/-- A sequence of equal cells holds a constant matrix. -/
theorem Represents.replicate (m n : Nat) (a : α) :
    Represents m n (List.replicate (m * n) a) fun _ _ => a := by
  refine ⟨List.length_replicate, fun r hr c hc => ?_⟩
  have hlt : r * n + c < (List.replicate (m * n) a).length := by
    rw [List.length_replicate]
    exact index_lt hr hc
  rw [Checked.read_of_lt hlt, List.getElem_replicate]

/-- A read with a default inside the sequence gives the entry. -/
theorem Represents.getD_eq {cells : List α} {entry : Nat → Nat → α}
    (h : Represents m n cells entry) {r c : Nat} (hr : r < m) (hc : c < n) (default : α) :
    cells.getD (r * n + c) default = entry r c :=
  getD_of_read (h.read_eq r hr c hc) default

/-- The entries only matter inside the matrix. -/
theorem Represents.congr {cells : List α} {entry other : Nat → Nat → α}
    (h : Represents m n cells entry) (heq : ∀ r < m, ∀ c < n, entry r c = other r c) :
    Represents m n cells other :=
  ⟨h.length_eq, fun r hr c hc => by rw [h.read_eq r hr c hc, heq r hr c hc]⟩

/-- Writing a cell replaces its entry and no other. -/
theorem Represents.write {cells : List α} {entry : Nat → Nat → α} (h : Represents m n cells entry)
    {r c : Nat} (hr : r < m) (hc : c < n) (a : α) :
    ∃ updated, Checked.write cells (r * n + c) a = .ok updated ∧
      Represents m n updated fun r' c' => if r' = r ∧ c' = c then a else entry r' c' := by
  have hlt : r * n + c < cells.length := by
    rw [h.length_eq]
    exact index_lt hr hc
  refine ⟨cells.set (r * n + c) a, if_pos hlt, by rw [List.length_set, h.length_eq], ?_⟩
  intro r' hr' c' hc'
  have hold := h.read_eq r' hr' c' hc'
  have hindex : r * n + c = r' * n + c' ↔ r' = r ∧ c' = c := by
    rw [index_inj hc hc']
    exact ⟨And.imp Eq.symm Eq.symm, And.imp Eq.symm Eq.symm⟩
  have hlt' : r' * n + c' < cells.length := by
    rw [h.length_eq]
    exact index_lt hr' hc'
  rw [Checked.read_of_lt hlt'] at hold
  rw [Checked.read_of_lt (by rw [List.length_set]; exact hlt'), List.getElem_set]
  by_cases hsame : r' = r ∧ c' = c
  · rw [if_pos (hindex.mpr hsame), if_pos hsame]
  · rw [if_neg (mt hindex.mp hsame), if_neg hsame, hold]

/-- Modifying a cell modifies its entry and no other. -/
theorem Represents.modify {cells : List α} {entry : Nat → Nat → α} (h : Represents m n cells entry)
    {r c : Nat} (hr : r < m) (hc : c < n) (f : α → α) :
    ∃ updated, Checked.modify cells (r * n + c) f = .ok updated ∧
      Represents m n updated fun r' c' =>
        if r' = r ∧ c' = c then f (entry r c) else entry r' c' := by
  obtain ⟨updated, hwrite, hrep⟩ := h.write hr hc (f (entry r c))
  refine ⟨updated, ?_, hrep⟩
  rw [Checked.modify, h.read_eq r hr c hc, Checked.ok_bind, hwrite]

/-- Two nested loops that compute and store every entry, against the table of the entries. -/
theorem fill_rows {value : Nat → Nat → Checked α} {cells : List α} {entry : Nat → Nat → α}
    (h : Represents m n cells entry) :
    Refines (fun cells (rows : Vector (Vector α n) m) => ∃ entry, Represents m n cells entry ∧
        ∀ r (hr : r < m) c (hc : c < n), entry r c = rows[r][c])
      ((List.range m).foldlM (fun cells r => (List.range n).foldlM (fun cells c => do
        let a ← value r c
        Checked.write cells (r * n + c) a) cells) cells)
      (Vector.ofFnM fun r : Fin m => Vector.ofFnM fun c : Fin n => value r c) := by
  refine Refines.fill (fun k cells rows => ∃ entry, Represents m n cells entry ∧
      ∀ r (hr : r < k) c (hc : c < n), entry r c = rows[r][c])
    (fun r => Vector.ofFnM fun c : Fin n => value r c)
    (fun r hr cells rows => ?_) ⟨entry, h, fun _ hr => absurd hr (Nat.not_lt_zero _)⟩
  rintro ⟨before, hbefore, hrows⟩
  -- within row `r` the rows before it stay, and the first `k` entries are stored
  refine (Refines.fill (fun k cells (row : Vector α k) => ∃ entry, Represents m n cells entry ∧
      (∀ r' (hr' : r' < r) c (hc : c < n), entry r' c = rows[r'][c]) ∧
      ∀ c (hc : c < k), entry r c = row[c]) (value r) (fun k hk cells row => ?_)
    ⟨before, hbefore, hrows, fun _ hc => absurd hc (Nat.not_lt_zero _)⟩).mono ?_
  · rintro ⟨entry, hentry, hprevious, hrow⟩
    refine Refines.of_bind fun a => ?_
    obtain ⟨updated, hwrite, hupdated⟩ := hentry.write hr hk a
    refine ⟨updated, hwrite, _, hupdated, fun r' hr' c hc => ?_, fun c hc => ?_⟩
    · rw [if_neg (by omega), hprevious r' hr' c hc]
    · rw [Vector.getElem_push]
      by_cases hlast : c = k
      · rw [if_pos ⟨rfl, hlast⟩, dif_neg (by omega)]
      · rw [if_neg fun h => hlast h.2, dif_pos (by omega), hrow c (by omega)]
  · rintro cells row ⟨entry, hentry, hprevious, hrow⟩
    refine ⟨entry, hentry, fun r' hr' c hc => ?_⟩
    by_cases hlast : r' = r
    · subst hlast
      rw [hrow c hc]
      simp
    · rw [hprevious r' (by omega) c hc, Vector.getElem_push_lt (by omega)]

/-- A loop that exchanges the cells of two rows exchanges the rows. -/
theorem Represents.exchange_rows {cells : List α} {entry : Nat → Nat → α}
    (h : Represents m n cells entry) {p q : Nat} (hp : p < m) (hq : q < m) :
    ∃ exchanged, (List.range n).foldlM
        (fun cells c => Checked.exchange cells (p * n + c) (q * n + c)) cells = .ok exchanged ∧
      Represents m n exchanged fun r c => entry (Equiv.swap p q r) c := by
  have hloop := range_loop
    (fun k cells => Represents m n cells fun r c =>
      if c < k then entry (Equiv.swap p q r) c else entry r c)
    (fun cells c => Checked.exchange cells (p * n + c) (q * n + c)) n ?_ (by simpa using h)
  · obtain ⟨exchanged, hrun, hrep⟩ := hloop
    exact ⟨exchanged, hrun, hrep.congr fun r _ c hc => if_pos hc⟩
  · intro k cells hlt hinv
    obtain ⟨first, hfirst, hrepFirst⟩ := hinv.write hp hlt (entry q k)
    obtain ⟨second, hsecond, hrepSecond⟩ := hrepFirst.write hq hlt (entry p k)
    refine ⟨second, ?_, hrepSecond.congr fun r _ c _ => ?_⟩
    · rw [Checked.exchange, hinv.read_eq p hp k hlt, Checked.ok_bind, hinv.read_eq q hq k hlt,
        Checked.ok_bind, if_neg (Nat.lt_irrefl k), if_neg (Nat.lt_irrefl k), hfirst,
        Checked.ok_bind, hsecond]
    · by_cases hc : c = k
      · subst hc
        rw [if_pos (Nat.lt_succ_self c), Equiv.swap_apply_def]
        by_cases hrq : r = q
        · rw [if_pos ⟨hrq, rfl⟩]
          by_cases hrp : r = p
          · rw [if_pos hrp, ← hrq, ← hrp]
          · rw [if_neg hrp, if_pos hrq]
        · rw [if_neg fun h => hrq h.1]
          by_cases hrp : r = p
          · rw [if_pos ⟨hrp, rfl⟩, if_pos hrp]
          · rw [if_neg fun h => hrp h.1, if_neg (Nat.lt_irrefl c), if_neg hrp, if_neg hrq]
      · have hiff : c < k ↔ c < k + 1 := by omega
        simp only [hc, and_false, if_false, hiff]

/-- Modifying a cell stores its modified entry. -/
theorem Represents.modify_eq {cells : List α} {entry : Nat → Nat → α}
    (h : Represents m n cells entry) {r c : Nat} (hr : r < m) (hc : c < n) (f : α → α) :
    Checked.modify cells (r * n + c) f = Checked.write cells (r * n + c) (f (entry r c)) := by
  rw [Checked.modify, h.read_eq r hr c hc, Checked.ok_bind]

/-- A loop over `count` columns from `first` on, each round of which stores a value in row `r`. A
round may rely on the other rows and on what its row has not stored yet. -/
theorem Represents.update_row {cells : List α} {entry : Nat → Nat → α}
    (h : Represents m n cells entry) {r first count : Nat} (hr : r < m) (hcount : first + count ≤ n)
    (value : Nat → α) (step : List α → Nat → Checked (List α))
    (hstep : ∀ c, first ≤ c → c < first + count → ∀ cells' entry', Represents m n cells' entry' →
      (∀ r' c', r' ≠ r ∨ c ≤ c' → entry' r' c' = entry r' c') →
      step cells' c = Checked.write cells' (r * n + c) (value c)) :
    ∃ final, (List.range' first count).foldlM step cells = .ok final ∧
      Represents m n final fun r' c =>
        if r' = r ∧ first ≤ c ∧ c < first + count then value c else entry r' c := by
  refine counted_loop
    (fun k cells => Represents m n cells fun r' c =>
      if r' = r ∧ first ≤ c ∧ c < k then value c else entry r' c)
    step first count (fun k cells hle hk hinv => ?_)
    (h.congr fun r' _ c _ => (if_neg (by omega)).symm)
  have hlt : k < n := by omega
  obtain ⟨updated, hwrite, hrep⟩ := hinv.write hr hlt (value k)
  refine ⟨updated, ?_, hrep.congr fun r' _ c _ => ?_⟩
  · rw [hstep k hle hk cells _ hinv fun r' c' hother => if_neg (by omega), hwrite]
  · by_cases hc : c = k
    · subst hc
      by_cases hsame : r' = r
      · simp [hsame, hle]
      · simp [hsame]
    · have hiff : c < k ↔ c < k + 1 := by omega
      simp only [hc, and_false, if_false, hiff]

/-- The same for a loop over all columns. -/
theorem Represents.update_whole_row {cells : List α} {entry : Nat → Nat → α}
    (h : Represents m n cells entry) {r : Nat} (hr : r < m) (value : Nat → α)
    (step : List α → Nat → Checked (List α))
    (hstep : ∀ c < n, ∀ cells' entry', Represents m n cells' entry' →
      (∀ r' c', r' ≠ r ∨ c ≤ c' → entry' r' c' = entry r' c') →
      step cells' c = Checked.write cells' (r * n + c) (value c)) :
    ∃ final, (List.range n).foldlM step cells = .ok final ∧
      Represents m n final fun r' c => if r' = r then value c else entry r' c := by
  obtain ⟨final, hrun, hrep⟩ := h.update_row hr (Nat.le_of_eq (Nat.zero_add n)) value step
    fun c _ hc cells' entry' hinv hsame => hstep c (by omega) cells' entry' hinv hsame
  rw [← List.range_eq_range'] at hrun
  refine ⟨final, hrun, hrep.congr fun r' _ c hc => ?_⟩
  have hiff : (r' = r ∧ 0 ≤ c ∧ c < 0 + n) ↔ r' = r := by omega
  simp only [hiff]

/-- A loop that adds a row to another one from a column on. -/
theorem Represents.add_row [Add α] {cells : List α} {entry : Nat → Nat → α}
    (h : Represents m n cells entry) {r p first : Nat} (hr : r < m) (hp : p < m) (hne : r ≠ p)
    (hfirst : first ≤ n) :
    ∃ added, (List.range' first (n - first)).foldlM (fun cells c => do
        let x ← Checked.read cells (p * n + c)
        Checked.modify cells (r * n + c) (· + x)) cells = .ok added ∧
      Represents m n added fun r' c =>
        if r' = r ∧ first ≤ c then entry r c + entry p c else entry r' c := by
  have hcount : first + (n - first) ≤ n := by omega
  have hloop := h.update_row hr hcount (fun c => entry r c + entry p c) (fun cells c => do
    let x ← Checked.read cells (p * n + c)
    Checked.modify cells (r * n + c) (· + x)) fun c _ hc cells' entry' hinv hsame => ?_
  · obtain ⟨added, hrun, hrep⟩ := hloop
    refine ⟨added, hrun, hrep.congr fun r' _ c hc => ?_⟩
    have hiff : (r' = r ∧ first ≤ c ∧ c < first + (n - first)) ↔ r' = r ∧ first ≤ c := by omega
    simp only [hiff]
  · rw [hinv.read_eq p hp c (by omega), Checked.ok_bind, hinv.modify_eq hr (by omega),
      hsame p c (.inl hne.symm), hsame r c (.inr (Nat.le_refl c))]

/-- A loop over the rows, each round of which replaces one row and keeps the others. -/
theorem Represents.each_row {cells : List α} {entry : Nat → Nat → α}
    (h : Represents m n cells entry) (value : Nat → Nat → α)
    (step : List α → Nat → Checked (List α))
    (hstep : ∀ r < m, ∀ cells' entry', Represents m n cells' entry' →
      (∀ r' c, r ≤ r' → entry' r' c = entry r' c) → (∀ r' c, r' < r → entry' r' c = value r' c) →
      ∃ next, step cells' r = .ok next ∧
        Represents m n next fun r' c => if r' = r then value r c else entry' r' c) :
    ∃ final, (List.range m).foldlM step cells = .ok final ∧ Represents m n final value := by
  have hloop := range_loop
    (fun k cells => Represents m n cells fun r c => if r < k then value r c else entry r c)
    step m ?_ (by simpa using h)
  · obtain ⟨final, hrun, hrep⟩ := hloop
    exact ⟨final, hrun, hrep.congr fun r hr c _ => if_pos hr⟩
  · intro k cells hk hinv
    obtain ⟨next, hrun, hrep⟩ := hstep k hk cells _ hinv
      (fun r c hle => if_neg (Nat.not_lt.mpr hle)) fun r c hlt => if_pos hlt
    refine ⟨next, hrun, hrep.congr fun r _ c _ => ?_⟩
    by_cases hr : r = k
    · rw [if_pos hr, if_pos (by omega), hr]
    · have hiff : r < k ↔ r < k + 1 := by omega
      simp only [hr, if_false, hiff]

/-- Two nested loops that store every entry, each of whose rounds may read anything but the
matrix itself. -/
theorem Represents.fill_with {cells : List α} {entry : Nat → Nat → α}
    (h : Represents m n cells entry) (value : Nat → Nat → α)
    (step : Nat → List α → Nat → Checked (List α))
    (hstep : ∀ r < m, ∀ c < n, ∀ cells', step r cells' c =
      Checked.write cells' (r * n + c) (value r c)) :
    ∃ final, (List.range m).foldlM (fun cells r => (List.range n).foldlM (step r) cells) cells =
        .ok final ∧ Represents m n final value := by
  refine h.each_row value _ fun r hr cells' entry' hrep _ _ => ?_
  exact hrep.update_whole_row hr (value r) (step r) fun c hc cells'' _ _ _ =>
    hstep r hr c hc cells''

end Foundation.RowMajor
