import Mathlib.Data.Nat.Digits.Defs
import Mathlib.Tactic.Common

/-!
# Streams of records

A record is a header of fixed width and a body whose length the header says. A stream of records has
no other structure, and it has one reading at most: `read_records_iff` says that the reader accepts
exactly the records that were written.
-/

namespace Foundation

/-- The number of a sequence of bytes, the least significant one first. -/
def littleEndian (bytes : List UInt8) : Nat := Nat.ofDigits 256 (bytes.map UInt8.toNat)

/-- Splitting a word of 32 bits into its bytes keeps its number. -/
theorem little_endian_word (word : UInt32) :
    littleEndian [(word &&& 0xff).toUInt8, ((word >>> 8) &&& 0xff).toUInt8,
      ((word >>> 16) &&& 0xff).toUInt8, ((word >>> 24) &&& 0xff).toUInt8] = word.toNat := by
  have hbyte (value : UInt32) : (value &&& 0xff).toUInt8.toNat = value.toNat % 256 := by
    rw [UInt32.toNat_toUInt8, UInt32.toNat_and]
    show (value.toNat &&& (2 ^ 8 - 1)) % 2 ^ 8 = value.toNat % 2 ^ 8
    rw [Nat.and_two_pow_sub_one_eq_mod, Nat.mod_mod]
  have hlt := word.toNat_lt
  simp only [littleEndian, List.map_cons, List.map_nil, hbyte, UInt32.toNat_shiftRight,
    Nat.ofDigits_cons, Nat.ofDigits_nil, Nat.shiftRight_eq_div_pow]
  show word.toNat % 256 + 256 * (word.toNat / 2 ^ 8 % 256 + 256 * (word.toNat / 2 ^ 16 % 256 +
    256 * (word.toNat / 2 ^ 24 % 256 + 256 * 0))) = word.toNat
  omega

/-- The format of a stream: the width of a header, and the length of the body that it announces. -/
structure RecordFormat (α : Type) where
  width : Nat
  width_pos : 0 < width
  announced : List α → Nat

/-- A record of a format. -/
structure Record {α : Type} (format : RecordFormat α) where
  header : List α
  body : List α
  header_length : header.length = format.width
  body_length : body.length = format.announced header

variable {α : Type} {format : RecordFormat α}

/-- The record as it stands in the stream. -/
def Record.symbols (record : Record format) : List α := record.header ++ record.body

/-- The record at the start of a stream and what follows it. -/
def readRecord (format : RecordFormat α) (stream : List α) :
    Option (Record format × List α) :=
  if h : format.width ≤ stream.length ∧
      format.announced (stream.take format.width) ≤ stream.length - format.width then
    some ({
      header := stream.take format.width
      body := (stream.drop format.width).take (format.announced (stream.take format.width))
      header_length := List.length_take_of_le h.1
      body_length := List.length_take_of_le (by rw [List.length_drop]; exact h.2) },
      (stream.drop format.width).drop (format.announced (stream.take format.width)))
  else none

/-- Reading finds a record exactly where it stands at the start. -/
theorem read_record_iff {stream rest : List α} {record : Record format} :
    readRecord format stream = some (record, rest) ↔ stream = record.symbols ++ rest := by
  unfold readRecord
  constructor
  · intro h
    split at h
    case isTrue =>
      obtain ⟨rfl, rfl⟩ := Prod.mk.inj (Option.some.inj h)
      rw [Record.symbols, List.append_assoc, List.take_append_drop, List.take_append_drop]
    case isFalse => cases h
  · rintro rfl
    obtain ⟨header, body, hheader, hbody⟩ := record
    have hstream : (Record.mk header body hheader hbody).symbols ++ rest =
        header ++ (body ++ rest) := List.append_assoc header body rest
    have htake : (header ++ (body ++ rest)).take format.width = header :=
      List.take_left' hheader
    have hdrop : (header ++ (body ++ rest)).drop format.width = body ++ rest :=
      List.drop_left' hheader
    have hfit : format.width ≤ (header ++ (body ++ rest)).length ∧
        format.announced header ≤ (header ++ (body ++ rest)).length - format.width := by
      rw [List.length_append, List.length_append]
      omega
    simp only [hstream, htake, hdrop, List.take_left' hbody, List.drop_left' hbody]
    exact dif_pos hfit

/-- What follows a record is shorter. -/
theorem read_record_shorter {stream rest : List α} {record : Record format}
    (h : readRecord format stream = some (record, rest)) : rest.length < stream.length := by
  rw [read_record_iff.mp h, Record.symbols, List.length_append, List.length_append,
    record.header_length]
  have hpos := format.width_pos
  omega

/-- Read records up to the end of the stream; there is no reading where the last one is cut off. -/
def readRecords (format : RecordFormat α) (stream : List α) : Option (List (Record format)) :=
  if stream.isEmpty then some []
  else match _h : readRecord format stream with
    | none => none
    | some (record, rest) => (readRecords format rest).map (record :: ·)
  termination_by stream.length
  decreasing_by exact read_record_shorter _h

/-- Nothing is left to read at the end. -/
theorem read_records_nil : readRecords format ([] : List α) = some [] := by
  rw [readRecords, if_pos List.isEmpty_nil]

/-- The first record is read, then the others. -/
theorem read_records_append (record : Record format) (rest : List α) :
    readRecords format (record.symbols ++ rest) =
      (readRecords format rest).map (record :: ·) := by
  have hread : readRecord format (record.symbols ++ rest) = some (record, rest) :=
    read_record_iff.mpr rfl
  have hnonempty : ¬(record.symbols ++ rest).isEmpty = true := by
    intro hempty
    have hlength := read_record_shorter hread
    rw [List.isEmpty_iff.mp hempty] at hlength
    exact Nat.not_lt_zero _ hlength
  rw [readRecords, if_neg hnonempty]
  split
  case h_1 hnone => cases hread.symm.trans hnone
  case h_2 record' rest' hsome =>
    cases hread.symm.trans hsome
    rfl

/-- The reader accepts exactly the streams of records, and reads these records. -/
theorem read_records_iff {stream : List α} {records : List (Record format)} :
    readRecords format stream = some records ↔ stream = records.flatMap Record.symbols := by
  constructor
  · intro h
    fun_induction readRecords format stream generalizing records with
    | case1 stream hempty =>
        cases h
        exact List.isEmpty_iff.mp hempty
    | case2 => cases h
    | case3 stream hnonempty record rest hread ih =>
        obtain ⟨later, hlater, rfl⟩ := Option.map_eq_some_iff.mp h
        rw [List.flatMap_cons, ← ih hlater, read_record_iff.mp hread]
  · rintro rfl
    induction records with
    | nil => exact read_records_nil
    | cons record records ih =>
        rw [List.flatMap_cons, read_records_append, ih]
        rfl

end Foundation
