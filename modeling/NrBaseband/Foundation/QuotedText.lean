import Mathlib.Data.List.Infix
import Mathlib.Tactic.Common

/-!
# Searching quoted text

Search for the first occurrence of a pattern (`find`), in a text given by the chunks between its
quotes. A key in quotes occurs exactly where a chunk is the key, so the search passes every other
chunk (`find_quoted`). A search in the beginning of a text finds what it finds in the whole text,
cut off, or nothing (`find_take`).
-/

namespace Foundation.QuotedText

variable {α : Type} [DecidableEq α]

/-- The text from the first occurrence of the pattern on. -/
def find (pattern : List α) : List α → Option (List α)
  | [] => if pattern = [] then some [] else none
  | a :: rest => if pattern <+: a :: rest then some (a :: rest) else find pattern rest

/-- The key between quotes. -/
def quoted (q : α) (key : List α) : List α := q :: (key ++ [q])

/-- The chunks, each closed by a quote, and the text after the last of these quotes. -/
def join (q : α) (chunks : List (List α)) (rest : List α) : List α :=
  chunks.foldr (fun chunk text => chunk ++ q :: text) rest

omit [DecidableEq α] in
/-- Without chunks there is only the rest. -/
@[simp] theorem join_nil (q : α) (rest : List α) : join q [] rest = rest := rfl

omit [DecidableEq α] in
/-- A chunk stands in front, followed by a quote. -/
@[simp] theorem join_cons (q : α) (chunk : List α) (chunks : List (List α)) (rest : List α) :
    join q (chunk :: chunks) rest = chunk ++ q :: join q chunks rest := rfl

/-- A pattern at the start of the text is found there. -/
theorem find_of_prefix {pattern text : List α} (h : pattern <+: text) :
    find pattern text = some text := by
  cases text with
  | nil => rw [find, if_pos (List.prefix_nil.mp h)]
  | cons a rest => rw [find, if_pos h]

/-- The search passes symbols with which the pattern does not start. -/
theorem find_skip {q : α} {pattern block : List α} (hblock : q ∉ block) (rest : List α) :
    find (q :: pattern) (block ++ rest) = find (q :: pattern) rest := by
  induction block with
  | nil => rfl
  | cons a block ih =>
      rw [List.mem_cons, not_or] at hblock
      have hmiss : ¬q :: pattern <+: a :: (block ++ rest) :=
        fun h => hblock.1 (List.cons_prefix_cons.mp h).1
      rw [List.cons_append, find, if_neg hmiss]
      exact ih hblock.2

omit [DecidableEq α] in
/-- Two chunks followed by a quote are the same. -/
theorem chunk_unique {q : α} {key chunk rest : List α} (hkey : q ∉ key) (hchunk : q ∉ chunk)
    (h : key ++ [q] <+: chunk ++ q :: rest) : key = chunk := by
  induction key generalizing chunk with
  | nil =>
      cases chunk with
      | nil => rfl
      | cons b chunk =>
          have hhead : q = b := (List.cons_prefix_cons.mp h).1
          exact absurd (hhead ▸ List.mem_cons_self) hchunk
  | cons a key ih =>
      rw [List.mem_cons, not_or] at hkey
      cases chunk with
      | nil =>
          have hhead : a = q := (List.cons_prefix_cons.mp h).1
          exact absurd hhead.symm hkey.1
      | cons b chunk =>
          rw [List.mem_cons, not_or] at hchunk
          obtain ⟨hhead, htail⟩ := List.cons_prefix_cons.mp h
          rw [hhead, ih hkey.2 hchunk.2 htail]

/-- The search for a key in quotes passes a chunk that is not the key. -/
theorem find_chunk {q : α} {key first chunk rest : List α} (hkey : q ∉ key) (hfirst : q ∉ first)
    (hchunk : q ∉ chunk) (hne : chunk ≠ key) :
    find (quoted q key) (first ++ q :: (chunk ++ q :: rest)) =
      find (quoted q key) (chunk ++ q :: rest) := by
  have hmiss : ¬q :: (key ++ [q]) <+: q :: (chunk ++ q :: rest) := fun h =>
    hne (chunk_unique hkey hchunk (List.cons_prefix_cons.mp h).2).symm
  rw [quoted, find_skip hfirst, find, if_neg hmiss]

/-- The search for a key in quotes ends at the first chunk that is the key. -/
theorem find_quoted {q : α} {key first : List α} {chunks : List (List α)} (hkey : q ∉ key)
    (hfirst : q ∉ first) (hchunks : ∀ chunk ∈ chunks, q ∉ chunk ∧ chunk ≠ key) (rest : List α) :
    find (quoted q key) (join q (first :: chunks) (key ++ q :: rest)) =
      some (quoted q key ++ rest) := by
  induction chunks generalizing first with
  | nil =>
      have hshape : q :: (key ++ q :: rest) = quoted q key ++ rest := by
        simp [quoted]
      rw [join_cons, join_nil, quoted, find_skip hfirst, ← quoted, hshape]
      exact find_of_prefix (List.prefix_append _ _)
  | cons chunk chunks ih =>
      obtain ⟨⟨hfree, hne⟩, hlater⟩ := List.forall_mem_cons.mp hchunks
      rw [join_cons, join_cons, find_chunk hkey hfirst hfree hne, ← join_cons]
      exact ih hfree hlater

/-- What a search finds: an occurrence, and there is none before it. -/
theorem find_eq_some {pattern text found : List α} (h : find pattern text = some found) :
    ∃ before, text = before ++ found ∧ pattern <+: found ∧
      ∀ n < before.length, ¬pattern <+: text.drop n := by
  induction text with
  | nil =>
      rw [find] at h
      split at h
      case isTrue hnil =>
        cases h
        exact ⟨[], rfl, hnil ▸ List.nil_prefix, fun n hn => absurd hn (Nat.not_lt_zero n)⟩
      case isFalse => cases h
  | cons a rest ih =>
      rw [find] at h
      split at h
      case isTrue hprefix =>
        cases h
        exact ⟨[], rfl, hprefix, fun n hn => absurd hn (Nat.not_lt_zero n)⟩
      case isFalse hmiss =>
        obtain ⟨before, hrest, hfound, hearlier⟩ := ih h
        refine ⟨a :: before, by rw [hrest, List.cons_append], hfound, fun n hn => ?_⟩
        cases n with
        | zero => exact hmiss
        | succ n => exact hearlier n (Nat.lt_of_succ_lt_succ hn)

/-- A search returns the first occurrence. -/
theorem find_of_first {pattern before found : List α} (hfound : pattern <+: found)
    (hearlier : ∀ n < before.length, ¬pattern <+: (before ++ found).drop n) :
    find pattern (before ++ found) = some found := by
  induction before with
  | nil => exact find_of_prefix hfound
  | cons a before ih =>
      have hmiss : ¬pattern <+: a :: (before ++ found) := hearlier 0 (Nat.succ_pos _)
      rw [List.cons_append, find, if_neg hmiss]
      exact ih fun n hn => hearlier (n + 1) (Nat.succ_lt_succ hn)

/-- A search without an occurrence returns nothing. -/
theorem find_of_none {pattern text : List α} (h : ∀ n, ¬pattern <+: text.drop n) :
    find pattern text = none := by
  induction text with
  | nil =>
      have hne : pattern ≠ [] := fun hnil => h 0 (List.prefix_nil.mpr hnil)
      rw [find, if_neg hne]
  | cons a rest ih =>
      have hmiss : ¬pattern <+: a :: rest := h 0
      rw [find, if_neg hmiss]
      exact ih fun n => h (n + 1)

/-- A search in the beginning of a text finds what it finds in the whole text, cut off, or nothing
where the occurrence is cut. -/
theorem find_take {pattern text found : List α} (hpattern : pattern ≠ [])
    (h : find pattern text = some found) (n : Nat) :
    find pattern (text.take n) = none ∨ ∃ k, n + found.length = text.length + k ∧
      pattern.length ≤ k ∧ find pattern (text.take n) = some (found.take k) := by
  obtain ⟨before, rfl, hfound, hearlier⟩ := find_eq_some h
  by_cases hcut : before.length + pattern.length ≤ n
  · refine .inr ⟨n - before.length, by rw [List.length_append]; omega, by omega, ?_⟩
    rw [List.take_append, List.take_of_length_le (by omega)]
    refine find_of_first ?_ fun i hi hoccurs => hearlier i hi ?_
    · exact List.prefix_take_iff.mpr ⟨hfound, by omega⟩
    · refine hoccurs.trans ?_
      have hbeginning : before ++ found.take (n - before.length) <+: before ++ found :=
        (List.prefix_append_right_inj before).mpr (List.take_prefix _ _)
      exact List.IsPrefix.drop hbeginning i
  · refine .inl (find_of_none fun i hoccurs => ?_)
    have hlength := hoccurs.length_le
    rw [List.length_drop, List.length_take] at hlength
    have hpos := List.length_pos_iff.mpr hpattern
    have hwhole : pattern <+: (before ++ found).drop i :=
      hoccurs.trans (List.IsPrefix.drop (List.take_prefix _ _) i)
    exact hearlier i (by omega) hwhole

end Foundation.QuotedText
