import NrBaseband.Fapi.Session
import Mathlib.Data.List.TakeWhile
import Mathlib.Algebra.Order.Ring.Nat

/-!
# Runs of a FAPI session

A session is a reactive machine whose inputs are calls of `handle` and `reset`. The history of a
run records every answer, and `sinceReset` is the part of it since the last reset (or the
construction). The results are about every order of messages: the error state tracks the last
answer (`error_state_tracks_last_answer`), the slot clock counts the accepted requests
(`slot_clock_counts_requests`), and a session runs only if it was configured, as long as no
STOP_REQ is taken in the error state of a session never configured
(`running_only_if_configured`).
-/

namespace NrBaseband

open Foundation

/-- A call on a session. -/
inductive FapiEvent where
  | handle (msg : FapiMessage)
  | reset
  deriving DecidableEq, Repr

/-- The answer to a call of `handle`; `reset` gives none. -/
abbrev FapiExchange : Type := Exchange FapiEvent (Option FapiMessage)

/-- A run of a session: its state and the exchanges so far, newest first. -/
abbrev FapiRun : Type := Run FapiSession FapiEvent (Option FapiMessage)

/-- The session as a machine, from its construction. -/
def fapiMachine : Machine FapiSession FapiEvent (Option FapiMessage) where
  start := {}
  step
    | s, .handle msg => ((s.handle msg).1, some (s.handle msg).2)
    | s, .reset => (s.reset, none)

namespace FapiExchange

/-- The exchange is a call of `reset`. -/
def isReset (e : FapiExchange) : Bool :=
  match e.input with
  | .handle _ => false
  | .reset => true

/-- A message was answered with an ERROR_IND. -/
def rejected (e : FapiExchange) : Bool :=
  match e.answer with
  | some out => out.type = .errorInd
  | none => false

/-- A CONFIG_REQ was answered with a CONFIG_RESP. -/
def configAccepted (e : FapiExchange) : Bool :=
  match e.input, e.answer with
  | .handle msg, some out => msg.type = .configReq ∧ out.type = .configResp
  | _, _ => false

/-- A UL_TTI_REQ, DL_TTI_REQ or TX_DATA_REQ was not answered with an ERROR_IND. -/
def requestAccepted (e : FapiExchange) : Bool :=
  match e.input, e.answer with
  | .handle msg, some out => msg.type.IsRequest ∧ out.type ≠ .errorInd
  | _, _ => false

/-- The slot position `20 * sfn + slot` that an answer carries. -/
def position (e : FapiExchange) : Nat :=
  match e.answer with
  | some out => out.sfn.toNat * 20 + out.slot.toNat
  | none => 0

end FapiExchange

/-- The exchanges since the last reset, newest first. -/
def sinceReset (history : List FapiExchange) : List FapiExchange :=
  Exchange.since FapiExchange.isReset history

/-- A call of `handle` is part of the history since the last reset. -/
@[simp] theorem since_reset_handle (msg : FapiMessage) (answer : Option FapiMessage)
    (history : List FapiExchange) :
    sinceReset (⟨.handle msg, answer⟩ :: history) = ⟨.handle msg, answer⟩ :: sinceReset history :=
  Exchange.since_cons_of_not_mark rfl history

/-- A reset starts the history over. -/
@[simp] theorem since_reset_reset (answer : Option FapiMessage) (history : List FapiExchange) :
    sinceReset (⟨.reset, answer⟩ :: history) = [] :=
  Exchange.since_cons_of_mark rfl history

/-! ## Acceptance -/

namespace FapiSession

/-- A session accepts exactly the messages it does not answer with an ERROR_IND. -/
theorem accepts_iff (s : FapiSession) (msg : FapiMessage) :
    s.Accepts msg ↔ (s.handle msg).2.type ≠ .errorInd := by
  have hspec := s.handle_spec msg
  generalize s.handle msg = result at hspec
  cases hspec with
  | rejected reason h => simp [err, h]
  | config out h _ hout | start out h _ hout | stop out h _ hout => simp [h, hout]
  | request h _ =>
      simp only [h, request, true_iff]
      split <;> decide

/-- Every answer carries the version the session speaks. -/
theorem handle_version (s : FapiSession) (msg : FapiMessage) :
    (s.handle msg).2.version = fapiMsgVersion := by
  have hspec := s.handle_spec msg
  generalize s.handle msg = result at hspec
  cases hspec with
  | rejected | request => rfl
  | config _ _ _ _ h | start _ _ _ _ h | stop _ _ _ _ h => exact h

/-- The session is in its error state after a call exactly when it rejected the message. -/
theorem handle_error_iff (s : FapiSession) (msg : FapiMessage) :
    (s.handle msg).1.state = .error ↔ ¬s.Accepts msg := by
  have hspec := s.handle_spec msg
  generalize s.handle msg = result at hspec
  cases hspec with
  | rejected reason h => simp [err, h]
  | config _ h | start _ h | stop _ h => simp [h]
  | request h htype =>
      have hstate : s.state = .running := by
        rcases htype with htype | htype | htype <;> simpa [Takes, htype] using h.2
      simp [request, h, hstate]

/-- A data or TTI request is accepted exactly in the running state, with version 0 or the current
one. -/
theorem accepts_request_iff {s : FapiSession} {msg : FapiMessage} (htype : msg.type.IsRequest) :
    s.Accepts msg ↔ s.state = .running ∧ (msg.version = 0 ∨ msg.version = fapiMsgVersion) := by
  rcases htype with htype | htype | htype <;>
    simp [Accepts, Takes, FapiMessage.VersionOk, htype, and_comm]

end FapiSession

/-! ## The error state -/

/-- The state is the error state exactly when the last message since the reset was rejected. -/
theorem error_iff_last_rejected (events : List FapiEvent) :
    (fapiMachine.run events).state.state = .error ↔
      ∃ last, (sinceReset (fapiMachine.run events).history).head? = some last ∧
        FapiExchange.rejected last = true := by
  refine fapiMachine.invariant (fun run => run.state.state = .error ↔
    ∃ last, (sinceReset run.history).head? = some last ∧ FapiExchange.rejected last = true)
    ?_ ?_ events
  · simp [Machine.begin, fapiMachine, sinceReset]
  · intro run event _
    cases event with
    | reset => simp [fapiMachine, FapiSession.reset]
    | handle msg =>
        have herror := run.state.handle_error_iff msg
        rw [run.state.accepts_iff msg, not_not] at herror
        simpa [fapiMachine, FapiExchange.rejected] using herror

/-- A session leaves its error state only by a reset or by an accepted CONFIG_REQ or STOP_REQ,
which configure it. -/
theorem leaves_error (s : FapiSession) (event : FapiEvent) (herror : s.state = .error)
    (hleft : (fapiMachine.step s event).1.state ≠ .error) :
    event = .reset ∨ ∃ msg, event = .handle msg ∧ (msg.type = .configReq ∨ msg.type = .stopReq) ∧
      (s.handle msg).2.type ≠ .errorInd ∧ (fapiMachine.step s event).1.state = .configured := by
  cases event with
  | reset => exact .inl rfl
  | handle msg =>
      have haccepts : s.Accepts msg := by
        by_contra h
        exact hleft ((s.handle_error_iff msg).mpr h)
      refine .inr ⟨msg, rfl, ?_⟩
      have hout := (s.accepts_iff msg).mp haccepts
      have hspec := s.handle_spec msg
      simp only [fapiMachine]
      generalize s.handle msg = result at hspec hout
      cases hspec with
      | rejected reason h => exact absurd haccepts h
      | config out _ htype => exact ⟨.inl htype, hout, rfl⟩
      | start out h htype =>
          have hstate := h.2
          simp [FapiSession.Takes, htype, herror] at hstate
      | stop out _ htype => exact ⟨.inr htype, hout, rfl⟩
      | request h htype =>
          have hstate := ((FapiSession.accepts_request_iff htype).mp h).1
          simp [herror] at hstate

/-- The error state tracks the last answer, is left only by a reset or an accepted CONFIG_REQ or
STOP_REQ, requests are accepted exactly in the running state, and every answer carries the
session's version. -/
theorem error_state_tracks_last_answer (events : List FapiEvent) :
    let run := fapiMachine.run events
    (run.state.state = .error ↔
      ∃ last, (sinceReset run.history).head? = some last ∧
        FapiExchange.rejected last = true) ∧
    (∀ event, run.state.state = .error → (fapiMachine.step run.state event).1.state ≠ .error →
      event = .reset ∨ ∃ msg, event = .handle msg ∧
        (msg.type = .configReq ∨ msg.type = .stopReq) ∧
        (run.state.handle msg).2.type ≠ .errorInd ∧
        (fapiMachine.step run.state event).1.state = .configured) ∧
    (∀ msg, msg.type.IsRequest → ((run.state.handle msg).2.type ≠ .errorInd ↔
      run.state.state = .running ∧ (msg.version = 0 ∨ msg.version = fapiMsgVersion))) ∧
    ∀ msg, (run.state.handle msg).2.version = fapiMsgVersion := by
  intro run
  refine ⟨error_iff_last_rejected events, fun event => leaves_error run.state event, ?_,
    fun msg => run.state.handle_version msg⟩
  intro msg htype
  rw [← run.state.accepts_iff msg]
  exact FapiSession.accepts_request_iff htype

/-! ## The slot clock -/

/-- The requests accepted since the last reset, newest first. -/
def acceptedRequests (history : List FapiExchange) : List FapiExchange :=
  (sinceReset history).filter FapiExchange.requestAccepted

/-- The session's slot position `20 * sfn + slot`. -/
def FapiSession.position (s : FapiSession) : Nat := s.sfn.toNat * 20 + s.slot.toNat

/-- Slot and frame are in range and, with the slot count, tell the number `n` of accepted
requests. -/
structure ClockShows (s : FapiSession) (n : Nat) : Prop where
  slot_lt : s.slot.toNat < 20
  sfn_lt : s.sfn.toNat < 1024
  position : s.position = n % 20480
  count : s.slotCount.toNat = n % 2 ^ 32

/-- An accepted request advances the clock by one slot. -/
theorem ClockShows.request {s : FapiSession} {n : Nat} (h : ClockShows s n) (msg : FapiMessage) :
    ClockShows (s.request msg).1 (n + 1) := by
  obtain ⟨hslot, hsfn, hposition, hcount⟩ := h
  have hslot' : ((s.slot + 1) % 20).toNat = (s.slot.toNat + 1) % 20 := by
    rw [UInt32.toNat_mod, UInt32.toNat_add]
    simp only [UInt32.reduceToNat]
    omega
  have hsfn' : ((s.sfn + 1) % 1024).toNat = (s.sfn.toNat + 1) % 1024 := by
    rw [UInt32.toNat_mod, UInt32.toNat_add]
    simp only [UInt32.reduceToNat]
    omega
  have hwrap : (s.slot + 1) % 20 = 0 ↔ (s.slot.toNat + 1) % 20 = 0 := by
    rw [← UInt32.toNat_inj, hslot']
    rfl
  have hcount' : (s.slotCount + 1).toNat = (n + 1) % 2 ^ 32 := by
    rw [UInt32.toNat_add, hcount]
    simp only [UInt32.reduceToNat]
    omega
  unfold FapiSession.position at hposition
  by_cases hlast : (s.slot.toNat + 1) % 20 = 0
  · have hzero := hwrap.mpr hlast
    refine ⟨?_, ?_, ?_, hcount'⟩ <;>
      simp only [FapiSession.request, FapiSession.position, if_pos hzero, hslot', hsfn'] <;> omega
  · have hnonzero := mt hwrap.mp hlast
    refine ⟨?_, ?_, ?_, hcount'⟩ <;>
      simp only [FapiSession.request, FapiSession.position, if_neg hnonzero, hslot'] <;> omega

/-- A message that is not an accepted request leaves the clock alone. -/
theorem handle_keeps_clock {s : FapiSession} {msg : FapiMessage}
    (h : ¬(msg.type.IsRequest ∧ (s.handle msg).2.type ≠ .errorInd)) :
    (s.handle msg).1.sfn = s.sfn ∧ (s.handle msg).1.slot = s.slot ∧
      (s.handle msg).1.slotCount = s.slotCount := by
  rw [← s.accepts_iff msg] at h
  have hspec := s.handle_spec msg
  generalize s.handle msg = result at hspec
  cases hspec with
  | rejected | config | start | stop => exact ⟨rfl, rfl, rfl⟩
  | request haccepts htype => exact absurd ⟨htype, haccepts⟩ h

/-- An accepted request is handled by the shared branch of the switch. -/
theorem handle_request {s : FapiSession} {msg : FapiMessage} (htype : msg.type.IsRequest)
    (haccepted : (s.handle msg).2.type ≠ .errorInd) : s.handle msg = s.request msg := by
  rw [← s.accepts_iff msg] at haccepted
  have hspec := s.handle_spec msg
  generalize s.handle msg = result at hspec
  cases hspec with
  | rejected reason h => exact absurd haccepted h
  | config _ _ h | start _ _ h | stop _ _ h => simp [FapiMsgType.IsRequest, h] at htype
  | request => rfl

/-- The exchange of a handled message. -/
def FapiSession.exchange (s : FapiSession) (msg : FapiMessage) : FapiExchange :=
  ⟨.handle msg, some (s.handle msg).2⟩

/-- After a reset no request has been accepted. -/
@[simp] theorem accepted_requests_reset (answer : Option FapiMessage)
    (history : List FapiExchange) : acceptedRequests (⟨.reset, answer⟩ :: history) = [] := by
  simp [acceptedRequests]

/-- An accepted request is counted. -/
theorem accepted_requests_of_request {s : FapiSession} {msg : FapiMessage}
    (h : msg.type.IsRequest ∧ (s.handle msg).2.type ≠ .errorInd) (history : List FapiExchange) :
    acceptedRequests (s.exchange msg :: history) =
      s.exchange msg :: acceptedRequests history := by
  have haccepted : FapiExchange.requestAccepted (s.exchange msg) = true := by
    simpa [FapiSession.exchange, FapiExchange.requestAccepted] using h
  rw [acceptedRequests, FapiSession.exchange, since_reset_handle]
  exact List.filter_cons_of_pos haccepted

/-- Any other message is not. -/
theorem accepted_requests_of_other {s : FapiSession} {msg : FapiMessage}
    (h : ¬(msg.type.IsRequest ∧ (s.handle msg).2.type ≠ .errorInd))
    (history : List FapiExchange) :
    acceptedRequests (s.exchange msg :: history) = acceptedRequests history := by
  have haccepted : ¬FapiExchange.requestAccepted (s.exchange msg) = true := by
    simpa [FapiSession.exchange, FapiExchange.requestAccepted] using h
  rw [acceptedRequests, FapiSession.exchange, since_reset_handle]
  exact List.filter_cons_of_neg haccepted

/-- What the clock invariant says of a run: the clock shows the number of accepted requests, and
their answers carried the positions one slot after the other. -/
def ClockInvariant (run : FapiRun) : Prop :=
  ClockShows run.state (acceptedRequests run.history).length ∧
  ((acceptedRequests run.history).map FapiExchange.position).reverse =
    (List.range (acceptedRequests run.history).length).map fun i => (i + 1) % 20480

/-- One call preserves the clock invariant. -/
theorem clock_invariant_step (run : FapiRun) (event : FapiEvent) (h : ClockInvariant run) :
    ClockInvariant (fapiMachine.advance run event) := by
  obtain ⟨hclock, hpositions⟩ := h
  cases event with
  | reset =>
      refine ⟨?_, by simp [fapiMachine]⟩
      constructor <;> simp [fapiMachine, FapiSession.reset, FapiSession.position]
  | handle msg =>
      have hhistory : (fapiMachine.advance run (.handle msg)).history =
          run.state.exchange msg :: run.history := rfl
      have hstate : (fapiMachine.advance run (.handle msg)).state = (run.state.handle msg).1 := rfl
      unfold ClockInvariant
      rw [hhistory, hstate]
      by_cases hrequest : msg.type.IsRequest ∧ (run.state.handle msg).2.type ≠ .errorInd
      · have hhandle := handle_request hrequest.1 hrequest.2
        have hnext := hclock.request msg
        have hanswer : FapiExchange.position (run.state.exchange msg) =
            (run.state.request msg).1.position := by
          simp [FapiExchange.position, FapiSession.exchange, hhandle, FapiSession.request,
            FapiSession.position]
        rw [accepted_requests_of_request hrequest, hhandle]
        refine ⟨hnext, ?_⟩
        rw [List.map_cons, List.reverse_cons, hpositions, hanswer, hnext.position,
          List.length_cons, List.range_succ, List.map_append, List.map_singleton]
      · obtain ⟨hsfn, hslot, hcount⟩ := handle_keeps_clock hrequest
        rw [accepted_requests_of_other hrequest]
        refine ⟨⟨?_, ?_, ?_, ?_⟩, hpositions⟩
        · exact hslot ▸ hclock.slot_lt
        · exact hsfn ▸ hclock.sfn_lt
        · rw [FapiSession.position, hsfn, hslot]
          exact hclock.position
        · exact hcount ▸ hclock.count

/-- The clock invariant holds after every run. -/
theorem clock_invariant (events : List FapiEvent) : ClockInvariant (fapiMachine.run events) := by
  refine fapiMachine.invariant ClockInvariant ?_ clock_invariant_step events
  refine ⟨?_, rfl⟩
  constructor <;> decide

/-- After every run the slot clock counts the requests accepted since the last reset, every
accepted request is answered with the advanced position, every other message leaves the clock
alone, and consecutive accepted requests are one slot apart. -/
theorem slot_clock_counts_requests (events : List FapiEvent) :
    let run := fapiMachine.run events
    let n := (acceptedRequests run.history).length
    (run.state.sfn.toNat * 20 + run.state.slot.toNat = n % 20480 ∧
      run.state.slot.toNat < 20 ∧ run.state.sfn.toNat < 1024 ∧
      run.state.slotCount.toNat = n % 2 ^ 32) ∧
    (∀ msg, msg.type.IsRequest → (run.state.handle msg).2.type ≠ .errorInd →
      let after := run.state.handle msg
      after.2.sfn = after.1.sfn ∧ after.2.slot = after.1.slot ∧
        after.1.sfn.toNat * 20 + after.1.slot.toNat = (n + 1) % 20480 ∧
        after.1.slotCount.toNat = (n + 1) % 2 ^ 32) ∧
    (∀ msg, ¬(msg.type.IsRequest ∧ (run.state.handle msg).2.type ≠ .errorInd) →
      let after := run.state.handle msg
      after.1.sfn = run.state.sfn ∧ after.1.slot = run.state.slot ∧
        after.1.slotCount = run.state.slotCount) ∧
    ((acceptedRequests run.history).map FapiExchange.position).reverse =
      (List.range n).map fun i => (i + 1) % 20480 := by
  intro run n
  obtain ⟨hclock, hpositions⟩ := clock_invariant events
  refine ⟨⟨hclock.position, hclock.slot_lt, hclock.sfn_lt, hclock.count⟩, ?_,
    fun msg h => handle_keeps_clock h, hpositions⟩
  intro msg htype haccepted
  have hnext := hclock.request msg
  rw [handle_request htype haccepted]
  exact ⟨rfl, rfl, hnext.position, hnext.count⟩

/-! ## Running only after a configuration -/

/-- A CONFIG_REQ was accepted since the last reset. -/
def ConfigAccepted (history : List FapiExchange) : Prop :=
  ∃ e ∈ sinceReset history, FapiExchange.configAccepted e = true

instance (history : List FapiExchange) : Decidable (ConfigAccepted history) :=
  inferInstanceAs (Decidable (∃ e ∈ sinceReset history, FapiExchange.configAccepted e = true))

/-- The step does not take a STOP_REQ in the error state of a session that was never configured
since the reset: there `handle` moves to the configured state all the same. -/
def StopsOnlyConfigured (run : FapiRun) (event : FapiEvent) : Prop :=
  ∀ msg, event = .handle msg → msg.type = .stopReq → msg.VersionOk →
    run.state.state = .error → ConfigAccepted run.history

/-- A rejected START_REQ followed by a STOP_REQ leaves the session configured, so that the next
START_REQ runs it without any CONFIG_REQ. -/
theorem runs_without_config :
    ¬∀ events, (fapiMachine.run events).state.state = .running →
      ConfigAccepted (fapiMachine.run events).history := by
  intro h
  have hbad := h [.handle { type := .startReq }, .handle { type := .stopReq },
    .handle { type := .startReq }]
  exact absurd (hbad (by decide)) (by decide)

/-- Handling a message keeps the configurations accepted so far. -/
theorem config_accepted_handle {s : FapiSession} {msg : FapiMessage}
    {history : List FapiExchange} (h : ConfigAccepted history) :
    ConfigAccepted (s.exchange msg :: history) := by
  obtain ⟨e, hmem, haccepted⟩ := h
  exact ⟨e, by simp [FapiSession.exchange, hmem], haccepted⟩

/-- One step that meets the guard keeps every configured or running session configured. -/
theorem configured_step (run : FapiRun) (event : FapiEvent)
    (hstops : StopsOnlyConfigured run event)
    (h : run.state.state = .configured ∨ run.state.state = .running →
      ConfigAccepted run.history)
    (hnext : (fapiMachine.advance run event).state.state = .configured ∨
      (fapiMachine.advance run event).state.state = .running) :
    ConfigAccepted (fapiMachine.advance run event).history := by
  cases event with
  | reset => simp [fapiMachine, FapiSession.reset] at hnext
  | handle msg =>
      change (run.state.handle msg).1.state = .configured ∨
        (run.state.handle msg).1.state = .running at hnext
      show ConfigAccepted (run.state.exchange msg :: run.history)
      have hspec := run.state.handle_spec msg
      generalize hresult : run.state.handle msg = result at hspec hnext
      cases hspec with
      | rejected reason _ => simp [FapiSession.err] at hnext
      | config out _ htype hout _ =>
          refine ⟨run.state.exchange msg, by simp [FapiSession.exchange], ?_⟩
          simp [FapiSession.exchange, FapiExchange.configAccepted, hresult, htype, hout]
      | start out haccepts htype =>
          have hstate : run.state.state = .configured := by
            simpa [FapiSession.Takes, htype] using haccepts.2
          exact config_accepted_handle (h (.inl hstate))
      | stop out haccepts htype =>
          have hstate : run.state.state = .running ∨ run.state.state = .error := by
            simpa [FapiSession.Takes, htype] using haccepts.2
          rcases hstate with hrunning | herror
          · exact config_accepted_handle (h (.inr hrunning))
          · exact config_accepted_handle (hstops msg rfl htype haccepts.1 herror)
      | request haccepts htype =>
          have hstate := ((FapiSession.accepts_request_iff htype).mp haccepts).1
          exact config_accepted_handle (h (.inr hstate))

/-- In a run that takes no STOP_REQ in the error state before a configuration, the session is
running only if a CONFIG_REQ was accepted since the last reset. -/
theorem running_only_if_configured (events : List FapiEvent)
    (hstops : fapiMachine.Within StopsOnlyConfigured events) :
    ∀ before, before <+: events → (fapiMachine.run before).state.state = .running →
      ConfigAccepted (fapiMachine.run before).history := by
  intro before hinitial hrunning
  have hconfigured := fapiMachine.invariant_within StopsOnlyConfigured
    (fun run => run.state.state = .configured ∨ run.state.state = .running →
      ConfigAccepted run.history)
    (by simp [Machine.begin, fapiMachine]) configured_step
    (hstops.of_prefix fapiMachine hinitial)
  exact hconfigured (.inr hrunning)

/-- The run CONFIG_REQ, START_REQ meets the guard and ends running and configured. -/
theorem running_only_if_configured_start :
    let events := [.handle { type := .configReq }, .handle { type := .startReq }]
    (fapiMachine.run events).state.state = .running ∧
      ConfigAccepted (fapiMachine.run events).history := by
  intro events
  have hrunning : (fapiMachine.run events).state.state = .running := by decide
  refine ⟨hrunning, running_only_if_configured events ?_ events (List.prefix_refl _) hrunning⟩
  intro before event hinitial msg hevent htype
  have hmem : event ∈ events := hinitial.subset (by simp)
  subst hevent
  simp only [events, List.mem_cons, FapiEvent.handle.injEq, List.not_mem_nil, or_false] at hmem
  rcases hmem with rfl | rfl <;> simp at htype

/-- Handling anything but a CONFIG_REQ adds no configuration. -/
theorem config_accepted_of_other (s : FapiSession) {msg : FapiMessage}
    {history : List FapiExchange} (htype : msg.type ≠ .configReq)
    (h : ConfigAccepted (s.exchange msg :: history)) : ConfigAccepted history := by
  obtain ⟨e, hmem, haccepted⟩ := h
  rw [FapiSession.exchange, since_reset_handle, List.mem_cons] at hmem
  rcases hmem with rfl | hmem
  · simp [FapiExchange.configAccepted, htype] at haccepted
  · exact ⟨e, hmem, haccepted⟩

/-- A START_REQ of the current version runs a configured session. -/
theorem handle_start {s : FapiSession} (h : s.state = .configured) :
    (s.handle { type := .startReq }).1.state = .running := by
  simp [FapiSession.handle, h]

/-- The guard cannot be weakened: where it fails, a START_REQ right after the STOP_REQ runs the
session without a configuration. -/
theorem running_after_unconfigured_stop (run : FapiRun) (msg : FapiMessage)
    (htype : msg.type = .stopReq) (hversion : msg.VersionOk) (herror : run.state.state = .error)
    (hnever : ¬ConfigAccepted run.history) :
    let next := fapiMachine.advance (fapiMachine.advance run (.handle msg))
      (.handle { type := .startReq })
    next.state.state = .running ∧ ¬ConfigAccepted next.history := by
  intro next
  have haccepts : run.state.Accepts msg := ⟨hversion, by simp [FapiSession.Takes, htype, herror]⟩
  have hstop : (run.state.handle msg).1.state = .configured := by
    have hspec := run.state.handle_spec msg
    generalize run.state.handle msg = result at hspec
    cases hspec with
    | rejected reason h => exact absurd haccepts h
    | config | stop => rfl
    | start _ _ h => simp [h] at htype
    | request _ h => simp [FapiMsgType.IsRequest, htype] at h
  constructor
  · exact handle_start hstop
  · intro h
    have hafter := config_accepted_of_other (run.state.handle msg).1
      (show FapiMsgType.startReq ≠ .configReq by decide) h
    exact hnever (config_accepted_of_other run.state (by simp [htype]) hafter)

end NrBaseband
