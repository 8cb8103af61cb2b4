import NrBaseband.Types
import NrBaseband.Foundation.Reactive

/-!
# The FAPI session

`FapiSession.handle` and `FapiSession.reset` of `fapi.cpp`, as functions from the session before to
the session after and the answer. `Accepts` says which messages a session accepts, `Handled` lists
everything one call can do, and `handle_spec` says that a call does one of these: what later modules
prove about the state of a session rests on it.
-/

namespace NrBaseband

open Foundation

/-- `FAPI_MSG_VERSION`. -/
def fapiMsgVersion : UInt16 := 1

/-- `FapiState`. -/
inductive FapiState where
  | idle
  | configured
  | running
  | error
  deriving DecidableEq, Repr

/-- `FapiMsgType`. -/
inductive FapiMsgType where
  | configReq
  | configResp
  | startReq
  | stopReq
  | slotInd
  | ulTtiReq
  | dlTtiReq
  | txDataReq
  | rxDataInd
  | crcInd
  | errorInd
  deriving DecidableEq, Repr

/-- `FapiMessage`. -/
structure FapiMessage where
  version : UInt16 := fapiMsgVersion
  type : FapiMsgType := .configReq
  sfn : UInt32 := 0
  slot : UInt32 := 0
  handle : UInt32 := 0
  payload : Bits := []
  jsonMeta : String := ""
  crcOk : Bool := false
  error : String := ""
  deriving DecidableEq, Repr

/-- The session's private fields; the defaults are a session just constructed. -/
structure FapiSession where
  state : FapiState := .idle
  slotCount : UInt32 := 0
  sfn : UInt32 := 0
  slot : UInt32 := 0
  deriving DecidableEq, Repr

namespace FapiSession

/-- `FapiSession::reset`. -/
def reset (_ : FapiSession) : FapiSession :=
  { state := .idle, slotCount := 0, sfn := 0, slot := 0 }

/-- The lambda `err` of `handle`: the answer so far becomes an ERROR_IND and the session fails. -/
def err (s : FapiSession) (out : FapiMessage) (e : String) : FapiSession × FapiMessage :=
  ({ s with state := .error },
   { out with type := .errorInd, error := e, version := fapiMsgVersion })

/-- The branch shared by UL_TTI_REQ, DL_TTI_REQ and TX_DATA_REQ in a running session: advance the
slot clock and answer with the new position. The answer starts as a copy of the message, so the
source's `out.payload = in.payload` for a CRC_IND changes nothing. -/
def request (s : FapiSession) (msg : FapiMessage) : FapiSession × FapiMessage :=
  let slot := (s.slot + 1) % 20
  let sfn := if slot = 0 then (s.sfn + 1) % 1024 else s.sfn
  let type := if msg.type = .txDataReq then FapiMsgType.crcInd else FapiMsgType.slotInd
  ({ s with slotCount := s.slotCount + 1, slot := slot, sfn := sfn },
   { msg with
     type := type
     version := fapiMsgVersion
     sfn := sfn
     slot := slot
     crcOk := true })

/-- `FapiSession::handle`. The `err("unknown message")` after the switch is not reached: every
enumerator has its case. -/
def handle (s : FapiSession) (msg : FapiMessage) : FapiSession × FapiMessage :=
  if msg.version ≠ 0 ∧ msg.version ≠ fapiMsgVersion then
    s.err msg "unsupported FAPI message version"
  else
    match msg.type with
    | .configReq =>
        if s.state ≠ .idle ∧ s.state ≠ .configured ∧ s.state ≠ .error then
          s.err msg "CONFIG_REQ invalid in current state"
        else
          ({ s with state := .configured },
           { msg with
             type := .configResp
             version := fapiMsgVersion
             jsonMeta := "\x7b\"status\":\"ok\",\"version\":1\x7d" })
    | .startReq =>
        if s.state ≠ .configured then s.err msg "START_REQ requires Configured"
        else
          ({ s with state := .running },
           { msg with
             type := .slotInd
             version := fapiMsgVersion
             sfn := s.sfn
             slot := s.slot })
    | .stopReq =>
        if s.state ≠ .running ∧ s.state ≠ .error then s.err msg "STOP_REQ invalid state"
        else
          ({ s with state := .configured },
           { msg with type := .configResp, version := fapiMsgVersion })
    | .ulTtiReq | .dlTtiReq | .txDataReq =>
        if s.state ≠ .running then s.err msg "data/tti requires Running"
        else s.request msg
    | .slotInd | .rxDataInd | .crcInd | .configResp | .errorInd =>
        s.err msg "unexpected message direction for session.handle"

end FapiSession

/-- The message types that advance the slot clock. -/
def FapiMsgType.IsRequest (type : FapiMsgType) : Prop :=
  type = .ulTtiReq ∨ type = .dlTtiReq ∨ type = .txDataReq

instance (type : FapiMsgType) : Decidable type.IsRequest :=
  inferInstanceAs (Decidable (_ ∨ _ ∨ _))

/-- The message has a version the session speaks. -/
def FapiMessage.VersionOk (msg : FapiMessage) : Prop :=
  msg.version = 0 ∨ msg.version = fapiMsgVersion

instance (msg : FapiMessage) : Decidable msg.VersionOk := inferInstanceAs (Decidable (_ ∨ _))

namespace FapiSession

/-- The states in which a session takes a message of this type. -/
def Takes (state : FapiState) : FapiMsgType → Prop
  | .configReq => state ≠ .running
  | .startReq => state = .configured
  | .stopReq => state = .running ∨ state = .error
  | .ulTtiReq | .dlTtiReq | .txDataReq => state = .running
  | .slotInd | .rxDataInd | .crcInd | .configResp | .errorInd => False

/-- The session accepts the message: it does not answer with an ERROR_IND. -/
def Accepts (s : FapiSession) (msg : FapiMessage) : Prop :=
  msg.VersionOk ∧ Takes s.state msg.type

/-- Everything one call of `handle` can do: reject the message, or accept it in one of four ways. -/
inductive Handled (s : FapiSession) (msg : FapiMessage) : FapiSession × FapiMessage → Prop where
  | rejected (reason : String) :
      ¬s.Accepts msg → Handled s msg (s.err msg reason)
  | config (out : FapiMessage) :
      s.Accepts msg → msg.type = .configReq → out.type = .configResp →
      out.version = fapiMsgVersion → Handled s msg ({ s with state := .configured }, out)
  | start (out : FapiMessage) :
      s.Accepts msg → msg.type = .startReq → out.type = .slotInd →
      out.version = fapiMsgVersion → Handled s msg ({ s with state := .running }, out)
  | stop (out : FapiMessage) :
      s.Accepts msg → msg.type = .stopReq → out.type = .configResp →
      out.version = fapiMsgVersion → Handled s msg ({ s with state := .configured }, out)
  | request :
      s.Accepts msg → msg.type.IsRequest → Handled s msg (s.request msg)

/-- The data and TTI requests share one branch of the switch. -/
theorem handled_request {s : FapiSession} {msg : FapiMessage} (htype : msg.type.IsRequest)
    (haccepts : s.Accepts msg ↔ s.state = .running) :
    Handled s msg (if s.state ≠ .running then s.err msg "data/tti requires Running"
      else s.request msg) := by
  by_cases hstate : s.state = .running
  · rw [if_neg (not_not.mpr hstate)]
    exact .request (haccepts.mpr hstate) htype
  · rw [if_pos hstate]
    exact .rejected _ fun h => hstate (haccepts.mp h)

/-- `handle` does one of the things `Handled` lists. -/
theorem handle_spec (s : FapiSession) (msg : FapiMessage) : Handled s msg (s.handle msg) := by
  by_cases hversion : msg.version ≠ 0 ∧ msg.version ≠ fapiMsgVersion
  · -- the version is checked before the state
    rw [handle, if_pos hversion]
    refine .rejected _ fun h => ?_
    exact h.1.elim hversion.1 hversion.2
  · have hok : msg.VersionOk := by
      unfold FapiMessage.VersionOk
      tauto
    have haccepts : s.Accepts msg ↔ Takes s.state msg.type := and_iff_right hok
    rw [handle, if_neg hversion]
    cases htype : msg.type with
    | configReq =>
        rw [htype] at haccepts
        by_cases hstate : s.state = .running
        · simp only [hstate]
          exact .rejected _ fun h => haccepts.mp h hstate
        · have hallowed : ¬(s.state ≠ .idle ∧ s.state ≠ .configured ∧ s.state ≠ .error) := by
            cases h : s.state <;> simp_all
          simp only [if_neg hallowed]
          exact .config _ (haccepts.mpr hstate) htype rfl rfl
    | startReq =>
        rw [htype] at haccepts
        by_cases hstate : s.state = .configured
        · simp only [if_neg (not_not.mpr hstate)]
          exact .start _ (haccepts.mpr hstate) htype rfl rfl
        · simp only [if_pos hstate]
          exact .rejected _ fun h => hstate (haccepts.mp h)
    | stopReq =>
        rw [htype] at haccepts
        by_cases hstate : s.state ≠ .running ∧ s.state ≠ .error
        · simp only [if_pos hstate]
          exact .rejected _ fun h => (haccepts.mp h).elim hstate.1 hstate.2
        · simp only [if_neg hstate]
          refine .stop _ (haccepts.mpr ?_) htype rfl rfl
          unfold Takes
          tauto
    | ulTtiReq =>
        exact handled_request (by simp [htype, FapiMsgType.IsRequest])
          (by rw [haccepts, htype]; rfl)
    | dlTtiReq =>
        exact handled_request (by simp [htype, FapiMsgType.IsRequest])
          (by rw [haccepts, htype]; rfl)
    | txDataReq =>
        exact handled_request (by simp [htype, FapiMsgType.IsRequest])
          (by rw [haccepts, htype]; rfl)
    | slotInd | rxDataInd | crcInd | configResp | errorInd =>
        rw [htype] at haccepts
        exact .rejected _ haccepts.mp

end FapiSession

end NrBaseband
