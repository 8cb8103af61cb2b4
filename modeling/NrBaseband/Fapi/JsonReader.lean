import NrBaseband.Fapi.Json
import NrBaseband.Foundation.Numeral
import Mathlib.Data.List.TakeWhile

/-!
# The reader of FAPI lines

What the reader gets for a key, in a text given by the chunks between its quotes: `json_get_join`
for a whole text and `json_get_take` for one that is cut. `HoldsNumber` says that a text holds a
number under a key, and its rules say what the reader makes of it. `from_json_line_eq_ok` lists
everything a successful call has done.
-/

namespace NrBaseband

open Foundation Foundation.MachineInt Foundation.Numeral Foundation.QuotedText

/-- The conversion of a numeral is its value, or it throws. -/
theorem stoul_numeral {digits : List Char} (h : IsNumeral digits) :
    stoul (String.ofList digits) =
      if 2 ^ 64 ≤ Nat.ofDigitChars 10 digits 0 then .error (.error "stoul")
      else .ok (Nat.ofDigitChars 10 digits 0) := by
  obtain ⟨hne, hdigits⟩ := h
  obtain ⟨c, rest, rfl⟩ := List.exists_cons_of_ne_nil hne
  have hc : c.isDigit = true := hdigits c List.mem_cons_self
  have hspace : isSpace c = false := by
    have hrange := digit_range hc
    simp only [isSpace, Bool.or_eq_false_iff, Bool.and_eq_false_iff, decide_eq_false_iff_not]
    omega
  have htext : (c :: rest).dropWhile isSpace = c :: rest := by
    rw [List.dropWhile_cons, hspace]
    rfl
  have hall : (c :: rest).takeWhile Char.isDigit = c :: rest :=
    List.takeWhile_eq_self_iff.mpr hdigits
  have hminus : c ≠ '-' := digit_ne hc (by decide)
  have hplus : c ≠ '+' := digit_ne hc (by decide)
  simp only [stoul, String.toList_ofList, htext, List.head?_cons, Option.some.injEq, hminus, hplus,
    decide_false, Bool.or_self, Bool.false_eq_true, if_false, hall, if_neg hne]

/-! ## What the reader gets for a key -/

/-- The reader's keys: without quotes and colons. -/
structure IsKey (key : List Char) : Prop where
  no_quote : quote ∉ key
  no_colon : ':' ∉ key

/-- The search for the colon after a key. -/
theorem find_colon {key : List Char} (hkey : IsKey key) (rest : List Char) :
    find [':'] (quoted quote key ++ rest) = find [':'] rest := by
  refine find_skip ?_ rest
  simp only [quoted, List.mem_cons, List.mem_append, List.not_mem_nil, or_false, not_or]
  exact ⟨by decide, hkey.no_colon, by decide⟩

/-- What the lambda `get` takes after a key that is followed by a colon. -/
theorem json_get_join {line key : String} {first value : List Char} {chunks : List (List Char)}
    (hkey : IsKey key.toList) (hfirst : quote ∉ first)
    (hchunks : ∀ chunk ∈ chunks, quote ∉ chunk ∧ chunk ≠ key.toList)
    (hline : line.toList = join quote (first :: chunks) (key.toList ++ quote :: ':' :: value)) :
    jsonGet line key = String.ofList (jsonValue value) := by
  have hcolon : find [':'] (quoted quote key.toList ++ ':' :: value) = some (':' :: value) := by
    rw [find_colon hkey]
    exact find_of_prefix (List.prefix_append [':'] value)
  simp only [jsonGet, hline, find_quoted hkey.no_quote hfirst hchunks, hcolon, List.tail_cons]

/-- The same for the beginning of such a text: nothing, or what it takes where the value is cut. -/
theorem json_get_take {line key : String} {text first value : List Char}
    {chunks : List (List Char)} (hkey : IsKey key.toList) (hfirst : quote ∉ first)
    (hchunks : ∀ chunk ∈ chunks, quote ∉ chunk ∧ chunk ≠ key.toList)
    (htext : text = join quote (first :: chunks) (key.toList ++ quote :: ':' :: value)) {n : Nat}
    (hline : line.toList = text.take n) :
    jsonGet line key = "" ∨ ∃ k, n + value.length = text.length + k ∧
      jsonGet line key = String.ofList (jsonValue (value.take k)) := by
  have hfound : find (quoted quote key.toList) text =
      some (quoted quote key.toList ++ ':' :: value) := by
    rw [htext]
    exact find_quoted hkey.no_quote hfirst hchunks _
  have hpattern : quoted quote key.toList ≠ [] := List.cons_ne_nil _ _
  rcases find_take hpattern hfound n with hnone | ⟨k, hk, hle, hsome⟩
  · left
    simp only [jsonGet, hline, hnone]
  · rw [List.take_append, List.take_of_length_le hle] at hsome
    simp only [List.length_append, List.length_cons] at hk
    cases hrest : k - (quoted quote key.toList).length with
    | zero =>
        -- the text ends before the colon
        have hcolon : find [':'] (quoted quote key.toList ++ []) = none := find_colon hkey []
        rw [hrest, List.take_zero] at hsome
        left
        simp only [jsonGet, hline, hsome, hcolon]
    | succ j =>
        have hcolon : find [':'] (quoted quote key.toList ++ ':' :: value.take j) =
            some (':' :: value.take j) := by
          rw [find_colon hkey]
          exact find_of_prefix (List.prefix_append [':'] _)
        rw [hrest, List.take_succ_cons] at hsome
        refine .inr ⟨j, by omega, ?_⟩
        simp only [jsonGet, hline, hsome, hcolon, List.tail_cons]

/-- A value that starts with a numeral, followed by something else or nothing. -/
theorem json_value_numeral {digits rest : List Char} (h : IsNumeral digits)
    (hrest : ∀ c ∈ rest.head?, c.isDigit = false ∧ c ≠ '-') :
    jsonValue (digits ++ rest) = digits := by
  obtain ⟨c, later, rfl⟩ := List.exists_cons_of_ne_nil h.1
  have hc : c.isDigit = true := h.2 c List.mem_cons_self
  have hspace : c ≠ ' ' := digit_ne hc (by decide)
  have hquote : c ≠ quote := digit_ne hc (by decide)
  have hstop : rest.takeWhile (fun c => c.isDigit || decide (c = '-')) = [] := by
    cases rest with
    | nil => rfl
    | cons d rest =>
        obtain ⟨hdigit, hminus⟩ := hrest d rfl
        rw [List.takeWhile_cons, hdigit, decide_eq_false hminus]
        rfl
  rw [List.cons_append, jsonValue, if_neg hspace, if_neg hquote, ← List.cons_append,
    List.takeWhile_append_of_pos fun d hd => by rw [h.2 d hd, Bool.true_or], hstop,
    List.append_nil]

/-- The same where the text is cut. -/
theorem json_value_numeral_take {digits rest : List Char} (h : IsNumeral digits)
    (hrest : ∀ c ∈ rest.head?, c.isDigit = false ∧ c ≠ '-') (k : Nat) :
    jsonValue ((digits ++ rest).take k) = digits.take k := by
  rw [List.take_append]
  by_cases hcut : k ≤ digits.length
  · have hnone : rest.take (k - digits.length) = [] := by
      rw [Nat.sub_eq_zero_of_le hcut, List.take_zero]
    rw [hnone]
    cases k with
    | zero => rfl
    | succ k => exact json_value_numeral (h.take (Nat.succ_pos k)) fun c hc => by cases hc
  · have hwhole : digits.take k = digits := List.take_of_length_le (by omega)
    rw [hwhole]
    refine json_value_numeral h fun c hc => hrest c ?_
    rwa [List.head?_take, if_neg (by omega)] at hc

/-- A value in quotes, with or without the closing one. -/
theorem json_value_quoted {text rest : List Char} (htext : quote ∉ text)
    (hrest : ∀ c ∈ rest.head?, c = quote) : jsonValue (quote :: (text ++ rest)) = text := by
  have hstop : rest.takeWhile (fun c => decide (c ≠ quote)) = [] := by
    cases rest with
    | nil => rfl
    | cons c rest =>
        rw [List.takeWhile_cons, hrest c rfl]
        rfl
  have hall (c : Char) (hc : c ∈ text) : decide (c ≠ quote) = true :=
    decide_eq_true fun heq => htext (heq ▸ hc)
  rw [jsonValue, if_neg (by decide), if_pos rfl, List.takeWhile_append_of_pos hall, hstop,
    List.append_nil]

/-! ## The reader -/

/-- A choice between a value and the rest gives the value under the condition, or the rest. -/
theorem choice_eq_some {α : Type} {cond : Prop} [Decidable cond] {a b : α} {rest : Option α}
    (h : (if cond then some a else rest) = some b) : cond ∧ a = b ∨ rest = some b := by
  by_cases hcond : cond
  · rw [if_pos hcond, Option.some.injEq] at h
    exact .inl ⟨hcond, h⟩
  · rw [if_neg hcond] at h
    exact .inr h

/-- The name of a type and no other text is read as the type. -/
theorem parse_type_eq_some {s : String} {type : FapiMsgType} :
    parseType s = some type ↔ s = type.typeName := by
  constructor
  · intro h
    unfold parseType at h
    iterate 11
      rcases choice_eq_some h with ⟨hname, rfl⟩ | h
      · exact hname
    cases h
  · intro h
    subst h
    cases type <;> rfl

/-- What the reader returns. -/
theorem from_json_line_eq_ok {line : String} {m : FapiMessage} :
    fapiFromJsonLine line = .ok m ↔
      ∃ type version sfn slot handle, parseType (jsonGet line "type") = some type ∧
        jsonNumber line "version" UInt16.ofNat fapiMsgVersion = .ok version ∧
        jsonNumber line "sfn" UInt32.ofNat 0 = .ok sfn ∧
        jsonNumber line "slot" UInt32.ofNat 0 = .ok slot ∧
        jsonNumber line "handle" UInt32.ofNat 0 = .ok handle ∧
        m = { version, type, sfn, slot, handle, jsonMeta := line } := by
  unfold fapiFromJsonLine
  cases htype : parseType (jsonGet line "type") with
  | none => simp
  | some type =>
      simp only [Checked.ok_bind, Checked.bind_eq_ok, Checked.pure_eq_ok, Except.ok.injEq,
        Option.some.injEq]
      constructor
      · rintro ⟨version, hversion, sfn, hsfn, slot, hslot, handle, hhandle, rfl⟩
        exact ⟨type, version, sfn, slot, handle, rfl, hversion, hsfn, hslot, hhandle, rfl⟩
      · rintro ⟨_, version, sfn, slot, handle, rfl, hversion, hsfn, hslot, hhandle, rfl⟩
        exact ⟨version, hversion, sfn, hsfn, slot, hslot, handle, hhandle, rfl⟩

/-- The conversion returns or throws. -/
theorem stoul_cases (s : String) :
    (∃ n, stoul s = .ok n) ∨ stoul s = .error (.error "stoul") := by
  have hchecks (empty large : Prop) [Decidable empty] [Decidable large] (n : Nat)
      (result : Checked Nat) (hresult : (if empty then .error (.error "stoul")
        else if large then .error (.error "stoul") else .ok n) = result) :
      (∃ n, result = .ok n) ∨ result = .error (.error "stoul") := by
    subst hresult
    split_ifs
    · exact .inr rfl
    · exact .inr rfl
    · exact .inl ⟨n, rfl⟩
  exact hchecks _ _ _ _ rfl

/-- A numeric field is read or throws. -/
theorem json_number_cases {α : Type} (line key : String) (cast : Nat → α) (default : α) :
    (∃ value, jsonNumber line key cast default = .ok value) ∨
      jsonNumber line key cast default = .error (.error "stoul") := by
  unfold jsonNumber
  dsimp only
  split
  · exact .inl ⟨_, rfl⟩
  · exact Checked.bind_cases (stoul_cases _) fun value => .inl ⟨cast value, rfl⟩

/-- The reader returns a message or throws. -/
theorem from_json_line_cases (line : String) :
    (∃ m, fapiFromJsonLine line = .ok m) ∨
      ∃ text, fapiFromJsonLine line = .error (.error text) := by
  unfold fapiFromJsonLine
  cases htype : parseType (jsonGet line "type") with
  | none => exact .inr ⟨_, rfl⟩
  | some type =>
      refine Or.imp_right (fun hthrow => ⟨"stoul", hthrow⟩) ?_
      dsimp only
      rw [Checked.ok_bind]
      refine Checked.bind_cases (json_number_cases line "version" _ _) fun version => ?_
      refine Checked.bind_cases (json_number_cases line "sfn" _ _) fun sfn => ?_
      refine Checked.bind_cases (json_number_cases line "slot" _ _) fun slot => ?_
      refine Checked.bind_cases (json_number_cases line "handle" _ _) fun handle => ?_
      exact .inl ⟨_, rfl⟩

/-! ## Numbers in a line -/

/-- The text holds the number under the key: the key's first occurrence is followed by a colon, the
number's digits and something that is no part of a number. -/
def HoldsNumber (text : List Char) (key : String) (n : Nat) : Prop :=
  IsKey key.toList ∧ ∃ first chunks rest, quote ∉ first ∧
    (∀ chunk ∈ chunks, quote ∉ chunk ∧ chunk ≠ key.toList) ∧
    (∀ c ∈ rest.head?, c.isDigit = false ∧ c ≠ '-') ∧
    text = join quote (first :: chunks)
      (key.toList ++ quote :: ':' :: (Nat.toDigits 10 n ++ rest))

/-- The reader's conversion of a numeral. -/
theorem json_number_of_get {α : Type} {line key : String} {digits : List Char}
    (h : IsNumeral digits) (hget : jsonGet line key = String.ofList digits) (cast : Nat → α)
    (default : α) : jsonNumber line key cast default =
      if 2 ^ 64 ≤ Nat.ofDigitChars 10 digits 0 then .error (.error "stoul")
      else .ok (cast (Nat.ofDigitChars 10 digits 0)) := by
  have hne : String.ofList digits ≠ "" := fun hempty =>
    h.1 (by rw [← String.toList_ofList (l := digits), hempty]; rfl)
  rw [jsonNumber, hget, if_neg hne, stoul_numeral h]
  split
  · rfl
  · rfl

/-- The reader converts the number that a line holds. -/
theorem HoldsNumber.read {α : Type} {line key : String} {n : Nat}
    (h : HoldsNumber line.toList key n) (cast : Nat → α) (default : α) :
    jsonNumber line key cast default =
      if 2 ^ 64 ≤ n then .error (.error "stoul") else .ok (cast n) := by
  obtain ⟨hkey, first, chunks, rest, hfirst, hchunks, hrest, hline⟩ := h
  have hnumeral := is_numeral_to_digits n
  have hget := json_get_join hkey hfirst hchunks hline
  rw [json_value_numeral hnumeral hrest] at hget
  rw [json_number_of_get hnumeral hget, Nat.ofDigitChars_ten_toDigits]

/-- Where the text is cut, a number that the conversion can hold is never a reason to throw. -/
theorem HoldsNumber.read_take {α : Type} {line key : String} {text : List Char} {n k : Nat}
    (h : HoldsNumber text key n) (hn : n < 2 ^ 64) (hline : line.toList = text.take k)
    (cast : Nat → α) (default : α) :
    ∃ value, jsonNumber line key cast default = .ok value := by
  obtain ⟨hkey, first, chunks, rest, hfirst, hchunks, hrest, htext⟩ := h
  have hnumeral := is_numeral_to_digits n
  have hempty (hget : jsonGet line key = "") : jsonNumber line key cast default = .ok default := by
    rw [jsonNumber, hget, if_pos rfl]
  rcases json_get_take hkey hfirst hchunks htext hline with hget | ⟨j, _, hget⟩
  · exact ⟨default, hempty hget⟩
  · rw [json_value_numeral_take hnumeral hrest] at hget
    cases j with
    | zero => exact ⟨default, hempty hget⟩
    | succ j =>
        have hle := of_digit_chars_take_le (Nat.toDigits 10 n) (j + 1)
        rw [Nat.ofDigitChars_ten_toDigits] at hle
        have hpos : 0 < j + 1 := Nat.succ_pos j
        have hread := json_number_of_get (hnumeral.take hpos) hget cast default
        rw [if_neg (by omega)] at hread
        exact ⟨_, hread⟩

end NrBaseband
