import NrBaseband.Fapi.Session
import NrBaseband.Foundation.QuotedText
import NrBaseband.Foundation.MachineInt

/-!
# FAPI messages as lines of text

`fapi_to_json_line` and `fapi_from_json_line` of `fapi.cpp`, and the runner of fixture lines. The
reader searches the line for keys in quotes and takes what follows; a position of the source is
here the rest of the line from that position on. A character stands for a byte.
-/

namespace NrBaseband

open Foundation Foundation.MachineInt Foundation.QuotedText

/-- `type_name`. The `"UNKNOWN"` after the switch is not reached: every enumerator has its case. -/
def FapiMsgType.typeName : FapiMsgType → String
  | .configReq => "CONFIG_REQ"
  | .configResp => "CONFIG_RESP"
  | .startReq => "START_REQ"
  | .stopReq => "STOP_REQ"
  | .slotInd => "SLOT_IND"
  | .ulTtiReq => "UL_TTI_REQ"
  | .dlTtiReq => "DL_TTI_REQ"
  | .txDataReq => "TX_DATA_REQ"
  | .rxDataInd => "RX_DATA_IND"
  | .crcInd => "CRC_IND"
  | .errorInd => "ERROR_IND"

/-- `parse_type`. -/
def parseType (s : String) : Option FapiMsgType :=
  if s = "CONFIG_REQ" then some .configReq
  else if s = "CONFIG_RESP" then some .configResp
  else if s = "START_REQ" then some .startReq
  else if s = "STOP_REQ" then some .stopReq
  else if s = "SLOT_IND" then some .slotInd
  else if s = "UL_TTI_REQ" then some .ulTtiReq
  else if s = "DL_TTI_REQ" then some .dlTtiReq
  else if s = "TX_DATA_REQ" then some .txDataReq
  else if s = "RX_DATA_IND" then some .rxDataInd
  else if s = "CRC_IND" then some .crcInd
  else if s = "ERROR_IND" then some .errorInd
  else none

/-- The double quote. -/
def quote : Char := Char.ofNat 34

/-- `isspace`: the space and the five control characters from the tab on. -/
def isSpace (c : Char) : Bool := c.toNat = 32 || (9 ≤ c.toNat && c.toNat ≤ 13)

/-- `std::stoul` with a 64-bit result: leading space and a sign are allowed, what follows the
digits is ignored, and a minus sign negates modulo `2 ^ 64`. -/
def stoul (s : String) : Checked Nat :=
  let text := s.toList.dropWhile isSpace
  let negative := text.head? = some '-'
  let signed := negative || text.head? = some '+'
  let digits := (if signed then text.tail else text).takeWhile Char.isDigit
  let value := Nat.ofDigitChars 10 digits 0
  if digits = [] then .error (.error "stoul")
  else if 2 ^ 64 ≤ value then .error (.error "stoul")
  else .ok (if negative then (2 ^ 64 - value) % 2 ^ 64 else value)

/-- The lambda `get` from the position after the colon on: the text between quotes, or to the end
of the line where the second one is missing, or a run of digits and minus signs. -/
def jsonValue : List Char → List Char
  | [] => []
  | c :: rest =>
      if c = ' ' then jsonValue rest
      else if c = quote then rest.takeWhile fun c => c ≠ quote
      else (c :: rest).takeWhile fun c => c.isDigit || c = '-'

/-- The lambda `get`. -/
def jsonGet (line key : String) : String :=
  match find (quoted quote key.toList) line.toList with
  | none => ""
  | some atKey =>
      match find [':'] atKey with
      | none => ""
      | some atColon => String.ofList (jsonValue atColon.tail)

/-- A numeric field of the reader: the default stays where the value is missing or empty. -/
def jsonNumber {α : Type} (line key : String) (cast : Nat → α) (default : α) : Checked α :=
  let s := jsonGet line key
  if s = "" then .ok default
  else do
    let value ← stoul s
    return cast value

/-- `fapi_from_json_line`. -/
def fapiFromJsonLine (line : String) : Checked FapiMessage := do
  let m : FapiMessage := {}
  let type ← match parseType (jsonGet line "type") with
    | some type => .ok type
    | none => .error (.error "invalid FAPI type in JSON")
  let version ← jsonNumber line "version" UInt16.ofNat m.version
  let sfn ← jsonNumber line "sfn" UInt32.ofNat m.sfn
  let slot ← jsonNumber line "slot" UInt32.ofNat m.slot
  let handle ← jsonNumber line "handle" UInt32.ofNat m.handle
  return { m with type, version, sfn, slot, handle, jsonMeta := line }

/-- `fapi_to_json_line`. -/
def fapiToJsonLine (m : FapiMessage) : String :=
  "\x7b\"version\":" ++ toString m.version.toNat ++ ",\"type\":\"" ++ m.type.typeName ++
    "\",\"sfn\":" ++ toString m.sfn.toNat ++ ",\"slot\":" ++ toString m.slot.toNat ++
    ",\"handle\":" ++ toString m.handle.toNat ++
    ",\"crc_ok\":" ++ (if m.crcOk then "true" else "false") ++
    (if m.error = "" then "" else ",\"error\":\"" ++ m.error ++ "\"") ++ "\x7d"

/-- One line of the runner: the session takes the message, and an exception or an ERROR_IND counts
as an error. -/
def fixtureStep (state : FapiSession × Int) (line : String) : Checked (FapiSession × Int) :=
  match fapiFromJsonLine line with
  | .ok m => do
      let answered := state.1.handle m
      if answered.2.type = .errorInd then
        let errors ← int32 (state.2 + 1)
        return (answered.1, errors)
      else
        return (answered.1, state.2)
  | .error (.error _) => do
      let errors ← int32 (state.2 + 1)
      return (state.1, errors)
  | .error .undefined => .error .undefined

/-- `fapi_run_fixture_lines`: the session after the lines and the number of errors. -/
def fapiRunFixtureLines (lines : List String) (session : FapiSession) :
    Checked (FapiSession × Int) :=
  lines.foldlM fixtureStep (session, 0)

end NrBaseband
