import NrBaseband.Fapi.JsonReader
import NrBaseband.Fapi.Runs

/-!
# Reading back written messages

Every line the writer produces, and every line of the same shape with numbers of any size, is a
head up to the end of the type name and a tail from there on. `from_json_line_text` gives the whole
result of the reader on such a line, and the results about the round trip, lost fields, wrapped
numbers and cut lines follow.
-/

namespace NrBaseband

open Foundation Foundation.MachineInt Foundation.Numeral Foundation.QuotedText

/-! ## Written lines -/

/-- A line up to the end of the type name. -/
def headText (version : Nat) (type : List Char) : List Char :=
  join quote ["\x7b".toList, "version".toList, ':' :: (Nat.toDigits 10 version ++ [',']),
    "type".toList, [':']] type

/-- A line from the quote after the type name on. -/
def tailText (sfn slot handle : Nat) (rest : List Char) : List Char :=
  quote :: join quote [[','], "sfn".toList, ':' :: (Nat.toDigits 10 sfn ++ [',']), "slot".toList,
    ':' :: (Nat.toDigits 10 slot ++ [',']), "handle".toList]
    (':' :: (Nat.toDigits 10 handle ++ rest))

/-- The names of the fields are keys. -/
theorem is_key_field {key : String} (h : key ∈ ["version", "type", "sfn", "slot", "handle"]) :
    IsKey key.toList := by
  have hkeys : ∀ key ∈ ["version", "type", "sfn", "slot", "handle"],
      quote ∉ key.toList ∧ ':' ∉ key.toList := by decide
  exact ⟨(hkeys key h).1, (hkeys key h).2⟩

/-- Printed numbers hold no quotes. -/
theorem quote_not_mem_digits (n : Nat) : quote ∉ Nat.toDigits 10 n := fun h =>
  digit_ne ((is_numeral_to_digits n).2 quote h) (by decide) rfl

/-- A chunk with a number holds no quotes and is no key. -/
theorem number_chunk (n : Nat) {key : List Char} (hkey : IsKey key) :
    quote ∉ ':' :: (Nat.toDigits 10 n ++ [',']) ∧ ':' :: (Nat.toDigits 10 n ++ [',']) ≠ key := by
  refine ⟨?_, fun h => hkey.no_colon (h ▸ List.mem_cons_self)⟩
  simp only [List.mem_cons, List.mem_append, List.not_mem_nil, or_false, not_or]
  exact ⟨by decide, quote_not_mem_digits n, by decide⟩

/-- The version, whatever follows the type name. -/
theorem head_holds_version (version : Nat) (type rest : List Char) :
    HoldsNumber (headText version type ++ rest) "version" version := by
  refine ⟨is_key_field (by simp), "\x7b".toList, [],
    ',' :: quote :: ("type".toList ++ quote :: ':' :: quote :: (type ++ rest)), by decide,
    fun chunk hchunk => absurd hchunk List.not_mem_nil, fun c hc => ?_, ?_⟩
  · cases hc
    decide
  · simp [headText]

/-- A head in chunks up to the key of the type, none of which is the key. -/
theorem head_before_type (version : Nat) : ∃ first chunks, quote ∉ first ∧
    (∀ chunk ∈ chunks, quote ∉ chunk ∧ chunk ≠ "type".toList) ∧
    ∀ type rest, headText version type ++ rest = join quote (first :: chunks)
      ("type".toList ++ quote :: ':' :: (quote :: (type ++ rest))) := by
  refine ⟨"\x7b".toList, ["version".toList, ':' :: (Nat.toDigits 10 version ++ [','])],
    by decide, ?_, fun type rest => by simp [headText]⟩
  have hkey : IsKey "type".toList := is_key_field (by simp)
  simp only [List.forall_mem_cons]
  exact ⟨by decide, number_chunk version hkey, fun chunk h => absurd h List.not_mem_nil⟩

/-- The type name, with its closing quote or at the end of the line. -/
theorem head_type {line : String} {version : Nat} {type rest : List Char} (htype : quote ∉ type)
    (hrest : ∀ c ∈ rest.head?, c = quote) (hline : line.toList = headText version type ++ rest) :
    jsonGet line "type" = String.ofList type := by
  obtain ⟨first, chunks, hfirst, hchunks, htext⟩ := head_before_type version
  rw [json_get_join (is_key_field (by simp)) hfirst hchunks (hline.trans (htext type rest)),
    json_value_quoted htype hrest]

section Tail

variable (version sfn slot handle : Nat) {type rest : List Char}

/-- The system frame number after the type name. -/
theorem tail_holds_sfn (htype : quote ∉ type ∧ type ≠ "sfn".toList) :
    HoldsNumber (headText version type ++ tailText sfn slot handle rest) "sfn" sfn := by
  have hkey : IsKey "sfn".toList := is_key_field (by simp)
  refine ⟨hkey, "\x7b".toList, ["version".toList, ':' :: (Nat.toDigits 10 version ++ [',']),
    "type".toList, [':'], type, [',']], ',' :: quote :: join quote ["slot".toList,
    ':' :: (Nat.toDigits 10 slot ++ [',']), "handle".toList]
    (':' :: (Nat.toDigits 10 handle ++ rest)), by decide, ?_, fun c hc => ?_, ?_⟩
  · simp only [List.forall_mem_cons]
    exact ⟨by decide, number_chunk version hkey, by decide, by decide, htype, by decide,
      fun chunk h => absurd h List.not_mem_nil⟩
  · cases hc
    decide
  · simp [headText, tailText]

/-- The slot after it. -/
theorem tail_holds_slot (htype : quote ∉ type ∧ type ≠ "slot".toList) :
    HoldsNumber (headText version type ++ tailText sfn slot handle rest) "slot" slot := by
  have hkey : IsKey "slot".toList := is_key_field (by simp)
  refine ⟨hkey, "\x7b".toList, ["version".toList, ':' :: (Nat.toDigits 10 version ++ [',']),
    "type".toList, [':'], type, [','], "sfn".toList, ':' :: (Nat.toDigits 10 sfn ++ [','])],
    ',' :: quote :: join quote ["handle".toList] (':' :: (Nat.toDigits 10 handle ++ rest)),
    by decide, ?_, fun c hc => ?_, ?_⟩
  · simp only [List.forall_mem_cons]
    exact ⟨by decide, number_chunk version hkey, by decide, by decide, htype, by decide, by decide,
      number_chunk sfn hkey, fun chunk h => absurd h List.not_mem_nil⟩
  · cases hc
    decide
  · simp [headText, tailText]

/-- The handle, which what follows must not extend. -/
theorem tail_holds_handle (htype : quote ∉ type ∧ type ≠ "handle".toList)
    (hrest : ∀ c ∈ rest.head?, c.isDigit = false ∧ c ≠ '-') :
    HoldsNumber (headText version type ++ tailText sfn slot handle rest) "handle" handle := by
  have hkey : IsKey "handle".toList := is_key_field (by simp)
  refine ⟨hkey, "\x7b".toList, ["version".toList, ':' :: (Nat.toDigits 10 version ++ [',']),
    "type".toList, [':'], type, [','], "sfn".toList, ':' :: (Nat.toDigits 10 sfn ++ [',']),
    "slot".toList, ':' :: (Nat.toDigits 10 slot ++ [','])], rest, by decide, ?_, hrest, ?_⟩
  · simp only [List.forall_mem_cons]
    exact ⟨by decide, number_chunk version hkey, by decide, by decide, htype, by decide, by decide,
      number_chunk sfn hkey, by decide, number_chunk slot hkey,
      fun chunk h => absurd h List.not_mem_nil⟩
  · simp [headText, tailText]

end Tail

/-- The names of the types hold no quotes and are no keys. -/
theorem type_name_chunk (type : FapiMsgType) :
    quote ∉ type.typeName.toList ∧ type.typeName.toList ≠ "sfn".toList ∧
      type.typeName.toList ≠ "slot".toList ∧ type.typeName.toList ≠ "handle".toList := by
  cases type <;> decide

/-- A conversion of a number that must fit 64 bits returns exactly those that do. -/
theorem conversion_eq_ok {α : Type} {n : Nat} {cast : Nat → α} {value : α} :
    (if 2 ^ 64 ≤ n then .error (.error "stoul") else .ok (cast n) : Checked α) = .ok value ↔
      n < 2 ^ 64 ∧ value = cast n := by
  split
  case isTrue hle =>
    constructor
    · intro h
      cases h
    · intro ⟨hlt, _⟩
      exact absurd hle (Nat.not_le.mpr hlt)
  case isFalse hlt =>
    rw [Except.ok.injEq]
    exact ⟨fun h => ⟨Nat.not_le.mp hlt, h.symm⟩, fun h => h.2.symm⟩

/-- The reader on a line with a known type and any numbers: it throws where the conversion does, and
else it returns the numbers, cut to the width of their fields. -/
theorem from_json_line_text {line : String} (type : FapiMsgType) {version sfn slot handle : Nat}
    {rest : List Char} (hrest : ∀ c ∈ rest.head?, c.isDigit = false ∧ c ≠ '-')
    (hline : line.toList = headText version type.typeName.toList ++ tailText sfn slot handle rest)
    (m : FapiMessage) :
    fapiFromJsonLine line = .ok m ↔
      (version < 2 ^ 64 ∧ sfn < 2 ^ 64 ∧ slot < 2 ^ 64 ∧ handle < 2 ^ 64) ∧
      m = {
        version := UInt16.ofNat version, type := type, sfn := UInt32.ofNat sfn
        slot := UInt32.ofNat slot, handle := UInt32.ofNat handle, jsonMeta := line } := by
  obtain ⟨hquote, hsfn, hslot, hhandle⟩ := type_name_chunk type
  have htype : parseType (jsonGet line "type") = some type := by
    rw [head_type hquote (fun c hc => by cases hc; rfl) hline, String.ofList_toList]
    exact parse_type_eq_some.mpr rfl
  have hv : HoldsNumber line.toList "version" version := hline ▸ head_holds_version _ _ _
  have hf : HoldsNumber line.toList "sfn" sfn := hline ▸ tail_holds_sfn _ _ _ _ ⟨hquote, hsfn⟩
  have hs : HoldsNumber line.toList "slot" slot := hline ▸ tail_holds_slot _ _ _ _ ⟨hquote, hslot⟩
  have hh : HoldsNumber line.toList "handle" handle :=
    hline ▸ tail_holds_handle _ _ _ _ ⟨hquote, hhandle⟩ hrest
  rw [from_json_line_eq_ok]
  simp only [htype, hv.read, hf.read, hs.read, hh.read, conversion_eq_ok, Option.some.injEq]
  constructor
  · rintro ⟨_, _, _, _, _, rfl, ⟨h₁, rfl⟩, ⟨h₂, rfl⟩, ⟨h₃, rfl⟩, ⟨h₄, rfl⟩, rfl⟩
    exact ⟨⟨h₁, h₂, h₃, h₄⟩, rfl⟩
  · rintro ⟨⟨h₁, h₂, h₃, h₄⟩, rfl⟩
    exact ⟨_, _, _, _, _, rfl, ⟨h₁, rfl⟩, ⟨h₂, rfl⟩, ⟨h₃, rfl⟩, ⟨h₄, rfl⟩, rfl⟩

/-- A line with the request fields, up to the end of the type name. -/
def headLine (version : Nat) (type : String) : String :=
  "\x7b\"version\":" ++ toString version ++ ",\"type\":\"" ++ type

/-- A line with the request fields, up to the handle. -/
def fieldsLine (version : Nat) (type : String) (sfn slot handle : Nat) : String :=
  headLine version type ++ "\",\"sfn\":" ++ toString sfn ++ ",\"slot\":" ++ toString slot ++
    ",\"handle\":" ++ toString handle

/-- What the writer puts after the handle. -/
def outcomeText (m : FapiMessage) : String :=
  ",\"crc_ok\":" ++ (if m.crcOk then "true" else "false") ++
    (if m.error = "" then "" else ",\"error\":\"" ++ m.error ++ "\"") ++ "\x7d"

/-- The chunks of a head. -/
theorem head_line_text (version : Nat) (type : String) :
    (headLine version type).toList = headText version type.toList := by
  have hversion : "\x7b\"version\":".toList =
      "\x7b".toList ++ quote :: ("version".toList ++ quote :: [':']) := by decide
  have htype : ",\"type\":\"".toList =
      ',' :: quote :: ("type".toList ++ quote :: ':' :: [quote]) := by decide
  unfold headLine headText
  simp only [String.toList_append, Nat.toString_eq_repr, Nat.toList_repr]
  simp only [hversion, htype]
  simp only [join_cons, join_nil, List.append_assoc, List.cons_append, List.nil_append]

/-- The chunks of a line up to the handle, with what follows. -/
theorem fields_line_text (version : Nat) (type : String) (sfn slot handle : Nat) (rest : String) :
    (fieldsLine version type sfn slot handle ++ rest).toList =
      headText version type.toList ++ tailText sfn slot handle rest.toList := by
  have hsfn : "\",\"sfn\":".toList =
      quote :: ',' :: quote :: ("sfn".toList ++ quote :: [':']) := by decide
  have hslot : ",\"slot\":".toList = ',' :: quote :: ("slot".toList ++ quote :: [':']) := by decide
  have hhandle : ",\"handle\":".toList =
      ',' :: quote :: ("handle".toList ++ quote :: [':']) := by decide
  unfold fieldsLine tailText
  simp only [String.toList_append, head_line_text, Nat.toString_eq_repr, Nat.toList_repr]
  simp only [hsfn, hslot, hhandle]
  simp only [join_cons, join_nil, List.append_assoc, List.cons_append, List.nil_append]

/-- A written line is one of these. -/
theorem to_json_line_fields (m : FapiMessage) : fapiToJsonLine m =
    fieldsLine m.version.toNat m.type.typeName m.sfn.toNat m.slot.toNat m.handle.toNat ++
      outcomeText m := by
  unfold fapiToJsonLine fieldsLine headLine outcomeText
  simp only [String.append_assoc]

/-- What follows the handle in a written line is no part of a number. -/
theorem outcome_text_head (m : FapiMessage) :
    ∀ c ∈ (outcomeText m).toList.head?, c.isDigit = false ∧ c ≠ '-' := by
  intro c hc
  have hhead : (outcomeText m).toList.head? = some ',' := by
    simp [outcomeText]
  rw [hhead] at hc
  cases hc
  decide

/-- The reader on a written line. -/
theorem from_written_line (m : FapiMessage) : fapiFromJsonLine (fapiToJsonLine m) = .ok {
    version := m.version, type := m.type, sfn := m.sfn, slot := m.slot, handle := m.handle
    jsonMeta := fapiToJsonLine m } := by
  have hversion := m.version.toNat_lt
  have hsfn := m.sfn.toNat_lt
  have hslot := m.slot.toNat_lt
  have hhandle := m.handle.toNat_lt
  have htext := fields_line_text m.version.toNat m.type.typeName m.sfn.toNat m.slot.toNat
    m.handle.toNat (outcomeText m)
  rw [← to_json_line_fields] at htext
  refine (from_json_line_text m.type (outcome_text_head m) htext _).mpr
    ⟨⟨by omega, by omega, by omega, by omega⟩, ?_⟩
  rw [UInt16.ofNat_toNat, UInt32.ofNat_toNat, UInt32.ofNat_toNat, UInt32.ofNat_toNat]

/-- Reading a written line returns a message with the version, type, frame number, slot and handle
of the one written, whatever its outcome and error text. -/
theorem from_json_line_to_json_line (m : FapiMessage) :
    ∃ read, fapiFromJsonLine (fapiToJsonLine m) = .ok read ∧ read.version = m.version ∧
      read.type = m.type ∧ read.sfn = m.sfn ∧ read.slot = m.slot ∧ read.handle = m.handle :=
  ⟨_, from_written_line m, rfl, rfl, rfl, rfl, rfl⟩

/-- The reader looks for neither the outcome nor the error text, so it recovers exactly the default
ones. -/
theorem outcome_recovered_iff (m : FapiMessage) :
    (∃ read, fapiFromJsonLine (fapiToJsonLine m) = .ok read ∧ read.crcOk = m.crcOk ∧
      read.error = m.error) ↔ m.crcOk = false ∧ m.error = "" := by
  rw [from_written_line]
  constructor
  · rintro ⟨_, hread, hcrc, herror⟩
    cases hread
    exact ⟨hcrc.symm, herror.symm⟩
  · intro ⟨hcrc, herror⟩
    exact ⟨_, rfl, hcrc.symm, herror.symm⟩

/-- An answer with a good CRC comes back without it. -/
theorem outcome_not_recovered : ¬∀ m : FapiMessage, quote ∉ m.error.toList →
    ∃ read, fapiFromJsonLine (fapiToJsonLine m) = .ok read ∧ read.crcOk = m.crcOk ∧
      read.error = m.error := by
  intro h
  obtain ⟨_, hread, hcrc, _⟩ := h { type := .crcInd, crcOk := true } (by decide)
  rw [from_written_line] at hread
  cases hread
  cases hcrc

/-! ## Wrapped numbers -/

/-- A line with the five request fields and nothing else. -/
def requestLine (version : Nat) (type : String) (sfn slot handle : Nat) : String :=
  fieldsLine version type sfn slot handle ++ "\x7d"

/-- The numbers of a request line survive: the reader throws or returns them, and a version other
than 0 and 1 gets no answer but an ERROR_IND. -/
def NumbersKept (version : Nat) (type : String) (sfn slot handle : Nat) : Prop :=
  ((∃ text, fapiFromJsonLine (requestLine version type sfn slot handle) = .error (.error text)) ∨
    ∃ m, fapiFromJsonLine (requestLine version type sfn slot handle) = .ok m ∧
      m.version.toNat = version ∧ m.sfn.toNat = sfn ∧ m.slot.toNat = slot ∧
      m.handle.toNat = handle) ∧
  (version ≠ 0 → version ≠ 1 →
    ∀ m, fapiFromJsonLine (requestLine version type sfn slot handle) = .ok m →
    ∀ session : FapiSession, (session.handle m).2.type = .errorInd)

/-- The reader on a request line with a known type. -/
theorem from_request_line (type : FapiMsgType) (version sfn slot handle : Nat) (m : FapiMessage) :
    fapiFromJsonLine (requestLine version type.typeName sfn slot handle) = .ok m ↔
      (version < 2 ^ 64 ∧ sfn < 2 ^ 64 ∧ slot < 2 ^ 64 ∧ handle < 2 ^ 64) ∧
      m = {
        version := UInt16.ofNat version, type := type, sfn := UInt32.ofNat sfn
        slot := UInt32.ofNat slot, handle := UInt32.ofNat handle
        jsonMeta := requestLine version type.typeName sfn slot handle } := by
  refine from_json_line_text type (fun c hc => ?_)
    (fields_line_text version type.typeName sfn slot handle "\x7d") m
  cases hc
  decide

/-- The reader on a request line with any other type. -/
theorem from_request_line_unknown {type : String} (hquote : quote ∉ type.toList)
    (htype : parseType type = none) (version sfn slot handle : Nat) :
    ∃ text, fapiFromJsonLine (requestLine version type sfn slot handle) = .error (.error text) := by
  refine (from_json_line_cases _).resolve_left fun ⟨m, hm⟩ => ?_
  obtain ⟨read, _, _, _, _, hread, _⟩ := from_json_line_eq_ok.mp hm
  have hget := head_type hquote (fun c hc => by cases hc; rfl)
    (fields_line_text version type sfn slot handle "\x7d")
  rw [String.ofList_toList] at hget
  have hsome : parseType type = some read := hget ▸ hread
  rw [htype] at hsome
  cases hsome

/-- A message with an unsupported version gets an ERROR_IND in every session. -/
theorem handle_of_version {m : FapiMessage} (hzero : m.version ≠ 0)
    (hother : m.version ≠ fapiMsgVersion) (session : FapiSession) :
    (session.handle m).2.type = .errorInd := by
  by_contra hne
  exact ((session.accepts_iff m).mpr hne).1.elim hzero hother

/-- The numbers of a request line survive exactly where the type is unknown, some number does not
fit the conversion, or every number fits its field. -/
theorem numbers_kept_iff {type : String} (hquote : quote ∉ type.toList)
    (version sfn slot handle : Nat) :
    NumbersKept version type sfn slot handle ↔
      parseType type = none ∨
      (2 ^ 64 ≤ version ∨ 2 ^ 64 ≤ sfn ∨ 2 ^ 64 ≤ slot ∨ 2 ^ 64 ≤ handle) ∨
      (version < 2 ^ 16 ∧ sfn < 2 ^ 32 ∧ slot < 2 ^ 32 ∧ handle < 2 ^ 32) := by
  unfold NumbersKept
  cases htype : parseType type with
  | none =>
      obtain ⟨text, hthrow⟩ := from_request_line_unknown hquote htype version sfn slot handle
      refine iff_of_true ⟨.inl ⟨text, hthrow⟩, fun _ _ m hm => ?_⟩ (.inl rfl)
      rw [hthrow] at hm
      cases hm
  | some known =>
      obtain rfl := parse_type_eq_some.mp htype
      have hread := from_request_line known version sfn slot handle
      by_cases hfit : version < 2 ^ 64 ∧ sfn < 2 ^ 64 ∧ slot < 2 ^ 64 ∧ handle < 2 ^ 64
      · -- the line is read, and every field holds its number modulo the width
        have hline := (hread _).mpr ⟨hfit, rfl⟩
        simp only [hline, Except.ok.injEq, forall_eq', exists_eq_left', false_or, exists_false,
          reduceCtorEq, UInt16.toNat_ofNat', UInt32.toNat_ofNat']
        constructor
        · intro ⟨⟨hversion, hsfn, hslot, hhandle⟩, _⟩
          exact .inr (by omega)
        · intro hcases
          have hsmall : version < 2 ^ 16 ∧ sfn < 2 ^ 32 ∧ slot < 2 ^ 32 ∧ handle < 2 ^ 32 :=
            hcases.resolve_left (by omega)
          refine ⟨by omega, fun hzero hone session => ?_⟩
          refine handle_of_version (fun h => hzero ?_) (fun h => hone ?_) session
          · have hvalue := congrArg UInt16.toNat h
            rw [UInt16.toNat_ofNat', Nat.mod_eq_of_lt hsmall.1] at hvalue
            exact hvalue
          · have hvalue := congrArg UInt16.toNat h
            rw [UInt16.toNat_ofNat', Nat.mod_eq_of_lt hsmall.1] at hvalue
            exact hvalue
      · -- some conversion throws
        have hfail (m : FapiMessage) : fapiFromJsonLine
            (requestLine version known.typeName sfn slot handle) ≠ .ok m :=
          fun hm => hfit ((hread m).mp hm).1
        have hthrow := (from_json_line_cases
          (requestLine version known.typeName sfn slot handle)).resolve_left
            fun ⟨m, hm⟩ => hfail m hm
        refine iff_of_true ⟨.inl hthrow, fun _ _ m hm => absurd hm (hfail m)⟩ (.inr (.inl ?_))
        omega

/-- The largest frame number and slot of a CONFIG_REQ are kept. -/
theorem numbers_kept_iff_config :
    NumbersKept 1 "CONFIG_REQ" 1023 19 9 :=
  (numbers_kept_iff (by decide) 1 1023 19 9).mpr (.inr (.inr (by decide)))

/-- Version 65537 is read as version 1, which a session accepts. -/
theorem numbers_not_kept : ¬NumbersKept 65537 "CONFIG_REQ" 0 0 0 := by
  have hline := (from_request_line .configReq 65537 0 0 0 _).mpr ⟨by decide, rfl⟩
  intro ⟨_, hanswer⟩
  have herror := hanswer (by decide) (by decide) _ hline {}
  revert herror
  decide

/-! ## Cut lines -/

/-- No type name begins with another one. -/
theorem type_name_prefix {type other : FapiMsgType}
    (h : other.typeName.toList <+: type.typeName.toList) : other = type := by
  revert h
  cases type <;> cases other <;> decide

/-- A line cut before the end of the type name has no type. -/
theorem cut_head_throws {line : String} {version n : Nat} {type : FapiMsgType}
    (hline : line.toList = (headText version type.typeName.toList).take n)
    (hn : n < (headText version type.typeName.toList).length) :
    ∃ text, fapiFromJsonLine line = .error (.error text) := by
  refine (from_json_line_cases line).resolve_left fun ⟨m, hm⟩ => ?_
  obtain ⟨read, _, _, _, _, hread, _⟩ := from_json_line_eq_ok.mp hm
  have hname := parse_type_eq_some.mp hread
  have hempty : read.typeName ≠ "" := by
    cases read <;> decide
  obtain ⟨first, chunks, hfirst, hchunks, hhead⟩ := head_before_type version
  have htext := hhead type.typeName.toList []
  rw [List.append_nil, List.append_nil] at htext
  have hkey : IsKey "type".toList := is_key_field (by simp)
  rcases json_get_take hkey hfirst hchunks htext hline with hget | ⟨k, hk, hget⟩
  · exact hempty (hname ▸ hget)
  · cases k with
    | zero => exact hempty (hname ▸ hget)
    | succ k =>
        -- what is left of the name would have to be a name itself
        have hquote : quote ∉ type.typeName.toList.take k :=
          fun h => (type_name_chunk type).1 (List.mem_of_mem_take h)
        have hvalue : jsonValue (quote :: (type.typeName.toList.take k ++ [])) =
            type.typeName.toList.take k := json_value_quoted hquote fun c hc => by cases hc
        rw [List.take_succ_cons, ← List.append_nil (List.take k _), hvalue] at hget
        have hcut : read.typeName.toList = type.typeName.toList.take k := by
          rw [← hname, hget, String.toList_ofList]
        have hsame : read = type := type_name_prefix (hcut ▸ List.take_prefix k _)
        have hlength := congrArg List.length hcut
        rw [hsame, List.length_take] at hlength
        rw [List.length_cons] at hk
        omega

/-- A line cut after the end of the type name is read, whatever is left of the numbers. -/
theorem cut_tail_read {line : String} {version sfn slot handle n : Nat} {type : FapiMsgType}
    {tail rest : List Char} (hversion : version < 2 ^ 64) (hsfn : sfn < 2 ^ 64)
    (hslot : slot < 2 ^ 64) (hhandle : handle < 2 ^ 64)
    (hrest : ∀ c ∈ rest.head?, c.isDigit = false ∧ c ≠ '-')
    (hline : line.toList = headText version type.typeName.toList ++ tail)
    (htail : ∀ c ∈ tail.head?, c = quote)
    (hcut : line.toList =
      (headText version type.typeName.toList ++ tailText sfn slot handle rest).take n) :
    ∃ read, fapiFromJsonLine line = .ok read ∧ read.version = UInt16.ofNat version ∧
      read.type = type := by
  obtain ⟨hquote, hnesfn, hneslot, hnehandle⟩ := type_name_chunk type
  have htype : parseType (jsonGet line "type") = some type := by
    rw [head_type hquote htail hline, String.ofList_toList]
    exact parse_type_eq_some.mpr rfl
  have hv : HoldsNumber line.toList "version" version := hline ▸ head_holds_version _ _ _
  have hreadVersion := hv.read UInt16.ofNat fapiMsgVersion
  rw [if_neg (Nat.not_le.mpr hversion)] at hreadVersion
  obtain ⟨f, hf⟩ := (tail_holds_sfn version sfn slot handle ⟨hquote, hnesfn⟩).read_take hsfn hcut
    UInt32.ofNat 0
  obtain ⟨s, hs⟩ := (tail_holds_slot version sfn slot handle ⟨hquote, hneslot⟩).read_take hslot hcut
    UInt32.ofNat 0
  obtain ⟨h, hh⟩ := (tail_holds_handle version sfn slot handle ⟨hquote, hnehandle⟩ hrest).read_take
    hhandle hcut UInt32.ofNat 0
  exact ⟨_, from_json_line_eq_ok.mpr ⟨type, _, f, s, h, htype, hreadVersion, hf, hs, hh, rfl⟩, rfl,
    rfl⟩

/-- A line that is cut before the end of the type name is not parsed. -/
theorem cut_line_throws {m : FapiMessage} {cut : String}
    (hcut : cut.toList <+: (fapiToJsonLine m).toList)
    (hshort : cut.length < (headLine m.version.toNat m.type.typeName).length) :
    ∃ text, fapiFromJsonLine cut = .error (.error text) := by
  have hline := fields_line_text m.version.toNat m.type.typeName m.sfn.toNat m.slot.toNat
    m.handle.toNat (outcomeText m)
  rw [← to_json_line_fields] at hline
  have htake := List.prefix_iff_eq_take.mp hcut
  rw [← String.length_toList, ← String.length_toList, head_line_text] at hshort
  rw [hline, List.take_append_of_le_length hshort.le] at htake
  exact cut_head_throws htake hshort

/-- A line that is cut after the type name is read with the version and the type of the message. -/
theorem cut_line_read {m : FapiMessage} {cut : String}
    (hcut : cut.toList <+: (fapiToJsonLine m).toList)
    (hlong : (headLine m.version.toNat m.type.typeName).length ≤ cut.length) :
    ∃ read, fapiFromJsonLine cut = .ok read ∧ read.version = m.version ∧ read.type = m.type := by
  have hline := fields_line_text m.version.toNat m.type.typeName m.sfn.toNat m.slot.toNat
    m.handle.toNat (outcomeText m)
  rw [← to_json_line_fields] at hline
  rw [hline] at hcut
  rw [← String.length_toList, ← String.length_toList, head_line_text] at hlong
  -- what is left after the type name starts with its closing quote
  have hhead := List.prefix_of_prefix_length_le (List.prefix_append _ _) hcut hlong
  obtain ⟨rest, hsplit⟩ := hhead
  have hrest : ∀ c ∈ rest.head?, c = quote := by
    rw [← hsplit, List.prefix_append_right_inj] at hcut
    intro c hc
    cases rest with
    | nil => cases hc
    | cons d rest =>
        cases hc
        exact (List.cons_prefix_cons.mp hcut).1
  have htake := List.prefix_iff_eq_take.mp hcut
  have hversion := m.version.toNat_lt
  have hsfn := m.sfn.toNat_lt
  have hslot := m.slot.toNat_lt
  have hhandle := m.handle.toNat_lt
  obtain ⟨read, hread, hreadVersion, htype⟩ := cut_tail_read (by omega) (by omega) (by omega)
    (by omega) (outcome_text_head m) hsplit.symm hrest htake
  rw [UInt16.ofNat_toNat] at hreadVersion
  exact ⟨read, hread, hreadVersion, htype⟩

/-- The beginning of a written line is rejected exactly where it ends before the end of the type
name. A longer one is read, with the version and the type of the message. -/
theorem written_line_cut {m : FapiMessage} {cut : String}
    (hcut : cut.toList <+: (fapiToJsonLine m).toList) :
    (cut.length < (headLine m.version.toNat m.type.typeName).length →
      ∃ text, fapiFromJsonLine cut = .error (.error text)) ∧
    ((headLine m.version.toNat m.type.typeName).length ≤ cut.length →
      ∃ read, fapiFromJsonLine cut = .ok read ∧ read.version = m.version ∧ read.type = m.type) :=
  ⟨cut_line_throws hcut, cut_line_read hcut⟩

/-- The default message, cut to nothing and cut behind its type name. -/
theorem written_line_cut_default :
    (∃ text, fapiFromJsonLine "" = .error (.error text)) ∧
    ∃ read, fapiFromJsonLine (headLine 1 "CONFIG_REQ") = .ok read ∧ read.version = 1 ∧
      read.type = .configReq := by
  have hempty : "".toList <+: (fapiToJsonLine {}).toList := List.nil_prefix
  have hhead : (headLine 1 "CONFIG_REQ").toList <+: (fapiToJsonLine {}).toList := by
    rw [to_json_line_fields, fields_line_text, head_line_text]
    exact List.prefix_append _ _
  exact ⟨(written_line_cut hempty).1 (by decide), (written_line_cut hhead).2 (Nat.le_refl _)⟩

/-- A line cut after the handle is read like a whole one. -/
theorem written_line_cut_accepted : ¬∀ (m : FapiMessage) (cut : String),
    cut.toList <+: (fapiToJsonLine m).toList → cut ≠ fapiToJsonLine m →
    ∃ text, fapiFromJsonLine cut = .error (.error text) := by
  intro h
  have hsplit := to_json_line_fields {}
  have hprefix : (fieldsLine 1 "CONFIG_REQ" 0 0 0).toList <+: (fapiToJsonLine {}).toList := by
    rw [hsplit, String.toList_append]
    exact List.prefix_append _ _
  have hne : fieldsLine 1 "CONFIG_REQ" 0 0 0 ≠ fapiToJsonLine {} := by
    intro heq
    have hlength := congrArg String.length (heq.trans hsplit)
    have hrest : 0 < (outcomeText {}).length := by decide
    rw [String.length_append] at hlength
    exact absurd hlength (Nat.ne_of_lt (Nat.lt_add_of_pos_right hrest))
  have hline := fields_line_text 1 "CONFIG_REQ" 0 0 0 ""
  rw [String.append_empty] at hline
  have hread := (from_json_line_text .configReq (fun c hc => by cases hc) hline _).mpr
    ⟨by decide, rfl⟩
  obtain ⟨text, hthrow⟩ := h {} _ hprefix hne
  rw [hread] at hthrow
  cases hthrow

end NrBaseband
