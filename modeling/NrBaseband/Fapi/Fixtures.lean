import NrBaseband.Fapi.JsonReader
import NrBaseband.Foundation.Reactive

/-!
# Running fixture lines

The runner is a reactive machine on lines: a line that the reader rejects leaves the session alone
and gets no answer. `fixture_lines_spec` says that the runner returns the machine's session and the
number of failed lines as long as an `int` holds that number. So the rejected lines could be removed
beforehand.
-/

namespace NrBaseband

open Foundation Foundation.MachineInt

/-- The reader accepts the line. -/
def parses (line : String) : Bool :=
  match fapiFromJsonLine line with
  | .ok _ => true
  | .error _ => false

/-- The session on lines of text. -/
def fixtureMachine (session : FapiSession) : Machine FapiSession String (Option FapiMessage) where
  start := session
  step s line :=
    match fapiFromJsonLine line with
    | .ok m => ((s.handle m).1, some (s.handle m).2)
    | .error _ => (s, none)

/-- The line was not parsed or was answered with an ERROR_IND. -/
def lineFailed (e : Exchange String (Option FapiMessage)) : Bool :=
  match e.answer with
  | some out => out.type = .errorInd
  | none => true

/-- The number of lines that were not parsed or were answered with an ERROR_IND. -/
def failures (session : FapiSession) (lines : List String) : Nat :=
  ((fixtureMachine session).run lines).history.countP lineFailed

/-- One more line fails or does not. -/
theorem failures_concat (session : FapiSession) (lines : List String) (line : String) :
    failures session (lines ++ [line]) = failures session lines +
      if lineFailed ⟨line,
        ((fixtureMachine session).step ((fixtureMachine session).run lines).state line).2⟩
      then 1 else 0 := by
  rw [failures, Machine.run_concat, Machine.advance_history, List.countP_cons]
  rfl

/-- The runner's step counts a failed line and moves the session like the machine. -/
theorem fixture_step_spec (session s : FapiSession) (errors : Int) (line : String) :
    fixtureStep (s, errors) line =
      if lineFailed ⟨line, ((fixtureMachine session).step s line).2⟩ then do
        let errors ← int32 (errors + 1)
        return (((fixtureMachine session).step s line).1, errors)
      else .ok (((fixtureMachine session).step s line).1, errors) := by
  unfold fixtureStep fixtureMachine lineFailed
  rcases from_json_line_cases line with ⟨m, hm⟩ | ⟨text, hthrow⟩
  · simp only [hm, decide_eq_true_eq]
    rfl
  · simp only [hthrow, if_true]

/-- The runner returns the session and the number of failed lines as long as it fits an `int`. -/
theorem fixture_lines_spec (session : FapiSession) (lines : List String) :
    fapiRunFixtureLines lines session =
      if failures session lines < 2 ^ 31 then
        .ok (((fixtureMachine session).run lines).state, (failures session lines : Int))
      else .error .undefined := by
  induction lines using List.reverseRecOn with
  | nil => rfl
  | append_singleton lines line ih =>
      rw [fapiRunFixtureLines] at ih
      rw [fapiRunFixtureLines, List.foldlM_append, ih, failures_concat]
      by_cases hfit : failures session lines < 2 ^ 31
      · rw [if_pos hfit, Checked.ok_bind, List.foldlM_cons, fixture_step_spec session]
        simp only [Machine.run_concat, Machine.advance_state]
        split
        · -- the count goes up, or there is no room for it
          by_cases hnext : failures session lines + 1 < 2 ^ 31
          · rw [int32_of_range (by omega) (by omega), if_pos hnext]
            rfl
          · have hover : int32 ((failures session lines : Int) + 1) = .error .undefined :=
              if_neg (by omega)
            rw [hover, if_neg hnext]
            rfl
        · rw [Nat.add_zero, if_pos hfit]
          rfl
      · rw [if_neg hfit, Checked.error_bind, if_neg (by omega)]

/-- A line that is not parsed leaves the session alone and fails. -/
theorem step_of_not_parses (session s : FapiSession) {line : String} (h : parses line = false) :
    (fixtureMachine session).step s line = (s, none) := by
  unfold parses at h
  unfold fixtureMachine
  cases hread : fapiFromJsonLine line with
  | ok m =>
      rw [hread] at h
      cases h
  | error fault => simp only [hread]

/-- Without the lines that are not parsed the session ends in the same state, and exactly they are
missing from the count. -/
theorem run_filter_parses (session : FapiSession) (lines : List String) :
    ((fixtureMachine session).run (lines.filter parses)).state =
      ((fixtureMachine session).run lines).state ∧
    failures session lines = failures session (lines.filter parses) +
      (lines.filter fun line => !parses line).length := by
  induction lines using List.reverseRecOn with
  | nil => exact ⟨rfl, rfl⟩
  | append_singleton lines line ih =>
      obtain ⟨hstate, hcount⟩ := ih
      rw [List.filter_append, List.filter_append, failures_concat]
      cases hparses : parses line with
      | true =>
          have hkept : [line].filter parses = [line] := List.filter_cons_of_pos hparses
          have hnone : [line].filter (fun line => !parses line) = [] :=
            List.filter_cons_of_neg (by rw [hparses]; decide)
          rw [hkept, hnone, List.append_nil, failures_concat, Machine.run_concat,
            Machine.run_concat, Machine.advance_state, Machine.advance_state, hstate]
          exact ⟨rfl, by omega⟩
      | false =>
          have hnone : [line].filter parses = [] :=
            List.filter_cons_of_neg (by rw [hparses]; decide)
          have hkept : [line].filter (fun line => !parses line) = [line] :=
            List.filter_cons_of_pos (by rw [hparses]; rfl)
          rw [hkept, hnone, List.append_nil, Machine.run_concat, Machine.advance_state,
            step_of_not_parses session _ hparses, List.length_append]
          refine ⟨hstate, ?_⟩
          show _ + 1 = _ + (_ + 1)
          omega

/-- The lines that are not parsed are invisible to the session: it ends as on the others, they only
add to the result, which counts the lines that were not parsed or were answered with an ERROR_IND,
and a result of 0 means that every line was parsed and accepted. -/
def MalformedInvisible (session : FapiSession) (lines : List String) : Prop :=
  ∃ final result reduced, fapiRunFixtureLines lines session = .ok (final, result) ∧
    fapiRunFixtureLines (lines.filter parses) session = .ok (final, reduced) ∧
    result = reduced + (lines.filter fun line => !parses line).length ∧
    result = failures session lines ∧
    (result = 0 → (∀ line ∈ lines, parses line = true) ∧
      ∀ e ∈ ((fixtureMachine session).run lines).history,
        ∃ out, e.answer = some out ∧ out.type ≠ .errorInd)

/-- Lines that are not parsed are invisible to the session exactly where the number of failed lines
fits an `int`. -/
theorem malformed_invisible_iff (session : FapiSession) (lines : List String) :
    MalformedInvisible session lines ↔ failures session lines < 2 ^ 31 := by
  obtain ⟨hstate, hcount⟩ := run_filter_parses session lines
  constructor
  · rintro ⟨final, result, _, hrun, _⟩
    by_contra hlarge
    rw [fixture_lines_spec, if_neg hlarge] at hrun
    cases hrun
  · intro hfit
    have hreduced : failures session (lines.filter parses) < 2 ^ 31 := by omega
    refine ⟨_, _, failures session (lines.filter parses),
      (fixture_lines_spec session lines).trans (if_pos hfit), ?_, ?_, rfl, ?_⟩
    · rw [fixture_lines_spec, if_pos hreduced, hstate]
    · omega
    · intro hzero
      have hnone : failures session lines = 0 := by omega
      have hremoved : (lines.filter fun line => !parses line).length = 0 := by omega
      constructor
      · intro line hline
        have hkept := List.filter_eq_nil_iff.mp (List.length_eq_zero_iff.mp hremoved) line hline
        simpa using hkept
      · intro e he
        have haccepted := List.countP_eq_zero.mp hnone e he
        unfold lineFailed at haccepted
        cases hanswer : e.answer with
        | none =>
            rw [hanswer] at haccepted
            exact absurd rfl haccepted
        | some out =>
            rw [hanswer] at haccepted
            exact ⟨out, rfl, fun h => haccepted (decide_eq_true h)⟩

/-- Equal lines that are not parsed all fail. -/
theorem failures_replicate (session : FapiSession) {line : String} (h : parses line = false)
    (n : Nat) : failures session (List.replicate n line) = n := by
  induction n with
  | zero => rfl
  | succ n ih =>
      rw [List.replicate_succ', failures_concat, ih, step_of_not_parses session _ h]
      rfl

/-- On `2 ^ 31` empty lines the count overflows. -/
theorem malformed_not_invisible : ¬MalformedInvisible {} (List.replicate (2 ^ 31) "") := by
  rintro ⟨final, result, _, hrun, _⟩
  have hempty : parses "" = false := by decide
  have hcount := failures_replicate {} hempty (2 ^ 31)
  rw [fixture_lines_spec, hcount, if_neg (Nat.lt_irrefl _)] at hrun
  cases hrun

end NrBaseband
