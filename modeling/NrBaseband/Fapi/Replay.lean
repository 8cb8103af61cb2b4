import NrBaseband.Fapi.Fixtures
import NrBaseband.Fapi.JsonRoundTrip

/-!
# Replaying a log

A log holds written messages and lines that are not parsed, in any order. `log_replayed` says that
the runner takes a session through a log to the state that handling the messages themselves leads
to, and answers what is read back of them; `cut_line_replayed` says that a line which was cut off
while it was written acts as the whole line or as a line that is not parsed, depending on where it
ends. A session decides by the version and the type of a message alone, which is what both need.
-/

namespace NrBaseband

open Foundation Foundation.MachineInt

/-! ## What a session sees of a message -/

/-- What a written line keeps of a message. -/
structure FapiHeader where
  version : UInt16
  type : FapiMsgType
  sfn : UInt32
  slot : UInt32
  handle : UInt32
  deriving DecidableEq, Repr

/-- The header of a message. -/
def FapiMessage.header (m : FapiMessage) : FapiHeader :=
  { version := m.version, type := m.type, sfn := m.sfn, slot := m.slot, handle := m.handle }

/-- What is read back of a written message: its header. The payload, `crc_ok` and the error are
lost, and the line itself is the metadata. -/
def FapiMessage.asRead (m : FapiMessage) : FapiMessage :=
  { version := m.version, type := m.type, sfn := m.sfn, slot := m.slot, handle := m.handle
    jsonMeta := fapiToJsonLine m }

/-- The answers are of one type and version, and an ERROR_IND gives the same reason. What else they
carry is not compared. -/
def SameVerdict (out out' : FapiMessage) : Prop :=
  out.type = out'.type ∧ out.version = out'.version ∧
    (out.type = .errorInd → out.error = out'.error)

namespace FapiSession

/-- Messages of one version and type move the session alike and are answered alike. -/
theorem handle_of_type {m m' : FapiMessage} (hversion : m.version = m'.version)
    (htype : m.type = m'.type) (s : FapiSession) :
    (s.handle m).1 = (s.handle m').1 ∧ SameVerdict (s.handle m).2 (s.handle m').2 := by
  unfold handle SameVerdict
  rw [hversion, htype]
  by_cases hspeaks : m'.version ≠ 0 ∧ m'.version ≠ fapiMsgVersion
  · rw [if_pos hspeaks, if_pos hspeaks]
    exact ⟨rfl, rfl, rfl, fun _ => rfl⟩
  · rw [if_neg hspeaks, if_neg hspeaks]
    cases hkind : m'.type with
    | configReq => dsimp only; split <;> exact ⟨rfl, rfl, rfl, by simp [err]⟩
    | startReq => dsimp only; split <;> exact ⟨rfl, rfl, rfl, by simp [err]⟩
    | stopReq => dsimp only; split <;> exact ⟨rfl, rfl, rfl, by simp [err]⟩
    | ulTtiReq | dlTtiReq | txDataReq =>
        dsimp only
        split
        · exact ⟨rfl, rfl, rfl, by simp [err]⟩
        · simp [request, htype, hkind]
    | slotInd | rxDataInd | crcInd | configResp | errorInd =>
        exact ⟨rfl, rfl, rfl, fun _ => rfl⟩

/-- Messages with one header are answered with one header. -/
theorem header_handle {m m' : FapiMessage} (hheader : m.header = m'.header) (s : FapiSession) :
    (s.handle m).2.header = (s.handle m').2.header := by
  obtain ⟨version, type, sfn, slot, handle, payload, jsonMeta, crcOk, error⟩ := m
  obtain ⟨version', type', sfn', slot', handle', payload', jsonMeta', crcOk', error'⟩ := m'
  simp only [FapiMessage.header, FapiHeader.mk.injEq] at hheader
  obtain ⟨rfl, rfl, rfl, rfl, rfl⟩ := hheader
  unfold FapiSession.handle
  dsimp only
  split
  · rfl
  · cases type with
    | configReq | startReq | stopReq | ulTtiReq | dlTtiReq | txDataReq =>
        dsimp only
        split <;> rfl
    | slotInd | rxDataInd | crcInd | configResp | errorInd => rfl

end FapiSession

/-! ## Logs -/

/-- An entry of a log: a written message, or a line that is not parsed. -/
inductive LogEntry where
  | message (m : FapiMessage)
  | noise (line : String) (h : parses line = false)

namespace LogEntry

/-- The line that stands in the log. -/
def line : LogEntry → String
  | message m => fapiToJsonLine m
  | noise line _ => line

/-- The message that was written. -/
def message? : LogEntry → Option FapiMessage
  | message m => some m
  | noise _ _ => none

end LogEntry

/-- A session on messages. -/
def sessionMachine (session : FapiSession) : Machine FapiSession FapiMessage FapiMessage where
  start := session
  step s m := s.handle m

/-- The answers of a session to messages, newest first. -/
def answers (session : FapiSession) (messages : List FapiMessage) : List FapiMessage :=
  ((sessionMachine session).run messages).history.map (·.answer)

/-- The number of messages that are answered with an ERROR_IND. -/
def rejections (session : FapiSession) (messages : List FapiMessage) : Nat :=
  (answers session messages).countP fun out => out.type = .errorInd

/-- One more message is answered in the state that the others lead to. -/
theorem answers_concat (session : FapiSession) (messages : List FapiMessage) (m : FapiMessage) :
    answers session (messages ++ [m]) =
      (((sessionMachine session).run messages).state.handle m).2 :: answers session messages := by
  rw [answers, Machine.run_concat, Machine.advance_history, List.map_cons]
  rfl

/-- One more message is rejected or is not. -/
theorem rejections_concat (session : FapiSession) (messages : List FapiMessage) (m : FapiMessage) :
    rejections session (messages ++ [m]) = rejections session messages +
      if (((sessionMachine session).run messages).state.handle m).2.type = .errorInd
      then 1 else 0 := by
  rw [rejections, answers_concat, List.countP_cons]
  simp only [decide_eq_true_eq]
  rfl

/-- The answers that a log is given when it is replayed, newest first. -/
def replayed (session : FapiSession) (log : List LogEntry) : List FapiMessage :=
  ((fixtureMachine session).run (log.map LogEntry.line)).history.filterMap (·.answer)

/-- A written line is handled as what is read back of its message. -/
theorem written_line_step (session s : FapiSession) (m : FapiMessage) :
    (fixtureMachine session).step s (fapiToJsonLine m) =
      ((s.handle m.asRead).1, some (s.handle m.asRead).2) := by
  have hread : fapiFromJsonLine (fapiToJsonLine m) = .ok m.asRead := from_written_line m
  simp only [fixtureMachine, hread]

/-- The session on lines follows the session on what is read back of the messages, and the lines
that are not parsed fail besides. -/
theorem replay_run (session : FapiSession) (log : List LogEntry) :
    let read := (log.filterMap LogEntry.message?).map FapiMessage.asRead
    ((fixtureMachine session).run (log.map LogEntry.line)).state =
        ((sessionMachine session).run read).state ∧
      replayed session log = answers session read ∧
      failures session (log.map LogEntry.line) =
        rejections session read + log.countP fun entry => entry.message?.isNone := by
  induction log using List.reverseRecOn with
  | nil => exact ⟨rfl, rfl, rfl⟩
  | append_singleton log entry ih =>
      obtain ⟨hstate, hanswers, hfailures⟩ := ih
      dsimp only
      rw [replayed, List.map_append, List.filterMap_append, List.map_singleton, failures_concat,
        List.countP_append, Machine.run_concat, Machine.advance_state, Machine.advance_history,
        hfailures]
      cases entry with
      | message m =>
          have hsome : [LogEntry.message m].filterMap LogEntry.message? = [m] := rfl
          rw [hsome, List.map_append, List.map_singleton, Machine.run_concat, Machine.advance_state,
            answers_concat, rejections_concat, LogEntry.line, written_line_step, hstate]
          refine ⟨rfl, congrArg _ hanswers, ?_⟩
          generalize ((sessionMachine session).run
            ((log.filterMap LogEntry.message?).map FapiMessage.asRead)).state.handle m.asRead = next
          have hfails : lineFailed ⟨fapiToJsonLine m, some next.2⟩ =
              decide (next.2.type = .errorInd) := rfl
          have hcount : [LogEntry.message m].countP (fun entry => entry.message?.isNone) = 0 := rfl
          rw [hfails, hcount]
          simp only [decide_eq_true_eq]
          omega
      | noise line h =>
          have hnone : [LogEntry.noise line h].filterMap LogEntry.message? = [] := rfl
          have hfails : lineFailed ⟨line, none⟩ = true := rfl
          have hcount : [LogEntry.noise line h].countP (fun entry => entry.message?.isNone) = 1 :=
            rfl
          rw [hnone, List.append_nil, LogEntry.line, step_of_not_parses session _ h, hfails, hcount,
            if_pos rfl]
          exact ⟨hstate, hanswers, by omega⟩

/-- What is read back of the messages takes a session to the same state, and is answered with the
same headers and for the same reasons. -/
theorem as_read_run (session : FapiSession) (messages : List FapiMessage) :
    ((sessionMachine session).run (messages.map FapiMessage.asRead)).state =
        ((sessionMachine session).run messages).state ∧
      List.Forall₂ (fun out out' => out.header = out'.header ∧ SameVerdict out out')
        (answers session (messages.map FapiMessage.asRead)) (answers session messages) ∧
      rejections session (messages.map FapiMessage.asRead) = rejections session messages := by
  induction messages using List.reverseRecOn with
  | nil => exact ⟨rfl, .nil, rfl⟩
  | append_singleton messages m ih =>
      obtain ⟨hstate, hanswers, hrejections⟩ := ih
      have hheaders : m.asRead.header = m.header := rfl
      obtain ⟨hnext, hsame⟩ := FapiSession.handle_of_type (congrArg FapiHeader.version hheaders)
        (congrArg FapiHeader.type hheaders) ((sessionMachine session).run messages).state
      have hanswer := FapiSession.header_handle hheaders
        ((sessionMachine session).run messages).state
      rw [List.map_append, List.map_singleton, Machine.run_concat, Machine.run_concat,
        Machine.advance_state, Machine.advance_state, answers_concat, answers_concat,
        rejections_concat, rejections_concat, hstate, hrejections, hsame.1]
      exact ⟨hnext, .cons ⟨hanswer, hsame⟩ hanswers, rfl⟩

/-- Replaying a log takes the session through the messages that were written, whatever lines that
are not parsed stand between them: it ends in the same state, and the result counts the rejected
messages and those lines, as long as an `int` holds that number. The answers are those to what is
read back of the messages; the messages themselves are answered with the same headers and for the
same reasons. -/
theorem log_replayed (session : FapiSession) (log : List LogEntry) :
    let messages := log.filterMap LogEntry.message?
    let errors := rejections session messages + log.countP fun entry => entry.message?.isNone
    fapiRunFixtureLines (log.map LogEntry.line) session =
        (if errors < 2 ^ 31 then
          .ok (((sessionMachine session).run messages).state, (errors : Int))
        else .error .undefined) ∧
      replayed session log = answers session (messages.map FapiMessage.asRead) ∧
      List.Forall₂ (fun out out' => out.header = out'.header ∧ SameVerdict out out')
        (replayed session log) (answers session messages) := by
  obtain ⟨hstate, hanswers, hfailures⟩ := replay_run session log
  obtain ⟨hsame, halike, hrejections⟩ :=
    as_read_run session (log.filterMap LogEntry.message?)
  refine ⟨?_, hanswers, hanswers ▸ halike⟩
  rw [fixture_lines_spec, hstate, hfailures, hsame, hrejections]

/-! ## Lines cut off -/

/-- Where two lines move every session alike and are answered alike, one stands for the other. -/
theorem fixture_lines_congr {line line' : String}
    (h : ∀ state, fixtureStep state line = fixtureStep state line') (before after : List String)
    (session : FapiSession) : fapiRunFixtureLines (before ++ line :: after) session =
      fapiRunFixtureLines (before ++ line' :: after) session := by
  unfold fapiRunFixtureLines
  rw [List.foldlM_append, List.foldlM_append]
  refine congrArg _ (funext fun state => ?_)
  rw [List.foldlM_cons, List.foldlM_cons, h state]

/-- Lines that are not parsed are one to the runner. -/
theorem fixture_step_throws {line line' text text' : String}
    (h : fapiFromJsonLine line = .error (.error text))
    (h' : fapiFromJsonLine line' = .error (.error text')) (state : FapiSession × Int) :
    fixtureStep state line = fixtureStep state line' := by
  simp only [fixtureStep, h, h']

/-- Lines that are read as messages of one version and type are one to the runner. -/
theorem fixture_step_reads {line line' : String} {m m' : FapiMessage}
    (h : fapiFromJsonLine line = .ok m) (h' : fapiFromJsonLine line' = .ok m')
    (hversion : m.version = m'.version) (htype : m.type = m'.type)
    (state : FapiSession × Int) : fixtureStep state line = fixtureStep state line' := by
  obtain ⟨hnext, hsame⟩ := FapiSession.handle_of_type hversion htype state.1
  simp only [fixtureStep, h, h', hnext, hsame.1]

/-- A line of a log that was cut off while it was written, wherever it stands: cut before the end of
the type name it acts as an empty line, which is not parsed, and cut anywhere later it acts as the
whole line. -/
theorem cut_line_replayed {m : FapiMessage} {cut : String}
    (hcut : cut.toList <+: (fapiToJsonLine m).toList) (before after : List String)
    (session : FapiSession) : fapiRunFixtureLines (before ++ cut :: after) session =
      fapiRunFixtureLines (before ++
        (if cut.length < (headLine m.version.toNat m.type.typeName).length then ""
        else fapiToJsonLine m) :: after) session := by
  refine fixture_lines_congr (fun state => ?_) before after session
  split
  case isTrue hshort =>
    obtain ⟨text, hthrows⟩ := cut_line_throws hcut hshort
    have hempty : fapiFromJsonLine "" = .error (.error "invalid FAPI type in JSON") := rfl
    exact fixture_step_throws hthrows hempty state
  case isFalse hlong =>
    obtain ⟨read, hread, hversion, htype⟩ := cut_line_read hcut (not_lt.mp hlong)
    exact fixture_step_reads hread (from_written_line m) hversion htype state

/-- A log that ends in the middle of the line that starts the session. -/
theorem cut_line_replayed_start :
    fapiRunFixtureLines [fapiToJsonLine {}, headLine 1 "START_REQ"] {} =
      fapiRunFixtureLines [fapiToJsonLine {}, fapiToJsonLine { type := .startReq }] {} := by
  have hhead : (headLine 1 "START_REQ").toList <+:
      (fapiToJsonLine { type := .startReq }).toList := by
    rw [to_json_line_fields, fields_line_text]
    exact (head_line_text 1 "START_REQ").symm ▸ List.prefix_append _ _
  have hsame := cut_line_replayed hhead [fapiToJsonLine {}] [] {}
  have hlong : ¬(headLine 1 "START_REQ").length < (headLine 1 "START_REQ").length := lt_irrefl _
  exact hsame.trans (congrArg (fun line => fapiRunFixtureLines [fapiToJsonLine {}, line] {})
    (if_neg hlong))

end NrBaseband
