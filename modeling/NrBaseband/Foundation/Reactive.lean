import Mathlib.Data.List.Induction
import Mathlib.Tactic.Common

/-!
# Runs of a reactive machine

A reactive machine answers every input and moves to a next state. `Machine.run` executes a list of
inputs and keeps the history of exchanges, newest first, so that a property of a run may speak of
what happened so far. `Machine.invariant` proves such a property for every run from one step;
`Machine.invariant_within` does the same for the runs whose every step meets a guard.
-/

namespace Foundation

/-- A machine with its start state and the answer and next state for each input. -/
structure Machine (State Input Answer : Type) where
  start : State
  step : State → Input → State × Answer

/-- One input together with the answer it was given. -/
structure Exchange (Input Answer : Type) where
  input : Input
  answer : Answer

/-- The state reached by a run and everything exchanged on the way, newest first. -/
structure Run (State Input Answer : Type) where
  state : State
  history : List (Exchange Input Answer)

namespace Machine

variable {State Input Answer : Type} (machine : Machine State Input Answer)

/-- The run of no input. -/
def begin : Run State Input Answer := ⟨machine.start, []⟩

/-- Extend a run by one input. -/
def advance (run : Run State Input Answer) (input : Input) : Run State Input Answer :=
  let next := machine.step run.state input
  ⟨next.1, ⟨input, next.2⟩ :: run.history⟩

/-- Execute a list of inputs from the start state. -/
def run (inputs : List Input) : Run State Input Answer :=
  inputs.foldl machine.advance machine.begin

/-- Without inputs a machine is at its begin. -/
@[simp] theorem run_nil : machine.run [] = machine.begin := rfl

/-- One more input advances the run. -/
@[simp] theorem run_concat (inputs : List Input) (input : Input) :
    machine.run (inputs ++ [input]) = machine.advance (machine.run inputs) input := by
  simp [run]

/-- The state after one more input. -/
@[simp] theorem advance_state (run : Run State Input Answer) (input : Input) :
    (machine.advance run input).state = (machine.step run.state input).1 := rfl

/-- The history after one more input. -/
@[simp] theorem advance_history (run : Run State Input Answer) (input : Input) :
    (machine.advance run input).history =
      ⟨input, (machine.step run.state input).2⟩ :: run.history := rfl

/-- Every step of the run of `inputs` meets the guard, which sees the run before the step. -/
def Within (guard : Run State Input Answer → Input → Prop) (inputs : List Input) : Prop :=
  ∀ before input, before ++ [input] <+: inputs → guard (machine.run before) input

/-- The steps of the beginning of a run meet the guard when all its steps do. -/
theorem Within.of_prefix {guard : Run State Input Answer → Input → Prop}
    {before inputs : List Input} (h : machine.Within guard inputs) (hinitial : before <+: inputs) :
    machine.Within guard before :=
  fun earlier input hearlier => h earlier input (hearlier.trans hinitial)

/-- A property that holds at the start and is preserved by every step that meets the guard holds
after every run whose steps all meet it. -/
theorem invariant_within (guard : Run State Input Answer → Input → Prop)
    (property : Run State Input Answer → Prop) (hstart : property machine.begin)
    (hstep : ∀ run input, guard run input → property run → property (machine.advance run input))
    {inputs : List Input} (hguard : machine.Within guard inputs) :
    property (machine.run inputs) := by
  induction inputs using List.reverseRecOn with
  | nil => exact hstart
  | append_singleton inputs input ih =>
      have hlast := hguard inputs input (List.prefix_refl _)
      rw [run_concat]
      exact hstep _ _ hlast (ih (hguard.of_prefix machine (List.prefix_append _ _)))

/-- A property that holds at the start and is preserved by every step holds after every run. -/
theorem invariant (property : Run State Input Answer → Prop) (hstart : property machine.begin)
    (hstep : ∀ run input, property run → property (machine.advance run input))
    (inputs : List Input) : property (machine.run inputs) :=
  machine.invariant_within (fun _ _ => True) property hstart
    (fun run input _ h => hstep run input h) (fun _ _ _ => trivial)

end Machine

namespace Exchange

variable {Input Answer : Type}

/-- The part of a history that is newer than the last exchange satisfying `mark`. -/
def since (mark : Exchange Input Answer → Bool) (history : List (Exchange Input Answer)) :
    List (Exchange Input Answer) :=
  history.takeWhile fun exchange => !mark exchange

/-- Since any mark an empty history is empty. -/
@[simp] theorem since_nil (mark : Exchange Input Answer → Bool) : since mark [] = [] := rfl

/-- A marked exchange starts the history over. -/
theorem since_cons_of_mark {mark : Exchange Input Answer → Bool}
    {exchange : Exchange Input Answer} (h : mark exchange = true)
    (history : List (Exchange Input Answer)) : since mark (exchange :: history) = [] := by
  simp [since, h]

/-- Any other exchange extends the part since the last marked one. -/
theorem since_cons_of_not_mark {mark : Exchange Input Answer → Bool}
    {exchange : Exchange Input Answer} (h : mark exchange = false)
    (history : List (Exchange Input Answer)) :
    since mark (exchange :: history) = exchange :: since mark history := by
  simp [since, h]

end Exchange

end Foundation
