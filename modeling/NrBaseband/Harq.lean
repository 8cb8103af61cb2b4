import NrBaseband.Llr
import NrBaseband.Foundation.MachineInt
import Mathlib.Data.List.Induction
import Mathlib.Logic.Function.Basic

/-!
# The HARQ buffer

A table of processes, each with the soft values combined so far. `upsert_spec` lists the four ways
an upsert ends. `HarqBuffer.apply` is one call on the table; a call that is rejected leaves it as
it was, and one that overflows a counter leaves nothing. `apply_other` is the frame lemma: a call
changes no process but its own.

What decides how a call ends is tallied apart from the values (`HarqTallies`): the NDI and the
length stored for a process and how many vectors its sum has. The tallies count without a bound;
`apply_cases` says that the table follows them as long as the counts fit its counters.
-/

namespace NrBaseband

open Foundation Foundation.MachineInt

/-- `HarqProcess`. -/
structure HarqProcess (R : Type) where
  processId : UInt32 := 0
  ndi : Int := 0
  softBuffer : SoftVec R
  rv : Int := 0
  txCount : Int := 0

/-- A process with further values added to its own. -/
def HarqProcess.combine {R : Type} [Add R] (process : HarqProcess R) (llr : SoftVec R) (rv : Int) :
    HarqProcess R :=
  { process with
    softBuffer := List.zipWith (· + ·) process.softBuffer llr, rv, txCount := process.txCount + 1 }

/-- `HarqBuffer`: the process stored under each id. -/
structure HarqBuffer (R : Type) where
  procs : UInt32 → Option (HarqProcess R) := fun _ => none

namespace HarqBuffer

variable {R : Type} [Add R]

/-- The table with the process of one id replaced. -/
def set (buffer : HarqBuffer R) (pid : UInt32) (process : Option (HarqProcess R)) :
    HarqBuffer R :=
  { procs := Function.update buffer.procs pid process }

/-- `HarqBuffer::upsert`. The increment of the counter is undefined when it overflows. -/
def upsert (buffer : HarqBuffer R) (pid : UInt32) (ndi : Int) (llr : SoftVec R) (rv : Int) :
    Checked (HarqBuffer R) :=
  let fresh : HarqProcess R := { processId := pid, ndi, softBuffer := llr, rv, txCount := 1 }
  match buffer.procs pid with
  | none => .ok (buffer.set pid (some fresh))
  | some process =>
      if process.ndi ≠ ndi then .ok (buffer.set pid (some fresh))
      else do
        require (process.softBuffer.length = llr.length) "HARQ LLR size mismatch"
        let combined ← llrCombine process.softBuffer llr
        let txCount ← int32 (process.txCount + 1)
        return buffer.set pid (some { process with softBuffer := combined, rv, txCount })

/-- `HarqBuffer::get`. -/
def get (buffer : HarqBuffer R) (pid : UInt32) : Option (SoftVec R) :=
  (buffer.procs pid).map HarqProcess.softBuffer

/-- `HarqBuffer::clear`. -/
def clear (buffer : HarqBuffer R) (pid : UInt32) : HarqBuffer R := buffer.set pid none

end HarqBuffer

/-- A call on the table. -/
inductive HarqCall (R : Type) where
  | upsert (pid : UInt32) (ndi : Int) (llr : SoftVec R) (rv : Int)
  | clear (pid : UInt32)
  | get (pid : UInt32)

/-- The process that a call is about. -/
def HarqCall.pid {R : Type} : HarqCall R → UInt32
  | .upsert pid _ _ _ => pid
  | .clear pid => pid
  | .get pid => pid

namespace HarqBuffer

variable {R : Type} [Add R]

/-- The table after a call. A rejected upsert throws before it changes anything; there is no table
after one that is undefined. -/
def apply (buffer : HarqBuffer R) : HarqCall R → Checked (HarqBuffer R)
  | .upsert pid ndi llr rv =>
      match buffer.upsert pid ndi llr rv with
      | .ok updated => .ok updated
      | .error (.error _) => .ok buffer
      | .error .undefined => .error .undefined
  | .clear pid => .ok (buffer.clear pid)
  | .get _ => .ok buffer

omit [Add R] in
/-- The process that is set. -/
@[simp] theorem set_same (buffer : HarqBuffer R) (pid : UInt32)
    (process : Option (HarqProcess R)) : (buffer.set pid process).procs pid = process := by
  simp [set]

omit [Add R] in
/-- Setting a process leaves the others. -/
theorem set_other (buffer : HarqBuffer R) {pid other : UInt32}
    (process : Option (HarqProcess R)) (h : other ≠ pid) :
    (buffer.set other process).procs pid = buffer.procs pid := by
  simp [set, Function.update_of_ne h.symm]

/-- How an upsert ends: the values start a new sum, are added to the stored ones, are rejected, or
overflow the counter. -/
inductive UpsertSpec (buffer : HarqBuffer R) (pid : UInt32) (ndi : Int) (llr : SoftVec R)
    (rv : Int) : Checked (HarqBuffer R) → Prop where
  | fresh (h : ∀ process, buffer.procs pid = some process → process.ndi ≠ ndi) :
      UpsertSpec buffer pid ndi llr rv (.ok (buffer.set pid
        (some { processId := pid, ndi, softBuffer := llr, rv, txCount := 1 })))
  | combined (process : HarqProcess R) (h : buffer.procs pid = some process)
      (hndi : process.ndi = ndi) (hlength : process.softBuffer.length = llr.length)
      (hcount : int32 (process.txCount + 1) = .ok (process.txCount + 1)) :
      UpsertSpec buffer pid ndi llr rv
        (.ok (buffer.set pid (some (process.combine llr rv))))
  | rejected (process : HarqProcess R) (h : buffer.procs pid = some process)
      (hndi : process.ndi = ndi) (hlength : process.softBuffer.length ≠ llr.length) :
      UpsertSpec buffer pid ndi llr rv (.error (.error "HARQ LLR size mismatch"))
  | overflow (process : HarqProcess R) (h : buffer.procs pid = some process)
      (hndi : process.ndi = ndi) (hlength : process.softBuffer.length = llr.length)
      (hcount : int32 (process.txCount + 1) = .error .undefined) :
      UpsertSpec buffer pid ndi llr rv (.error .undefined)

/-- Every upsert ends in one of these ways. -/
theorem upsert_spec (buffer : HarqBuffer R) (pid : UInt32) (ndi : Int) (llr : SoftVec R)
    (rv : Int) : UpsertSpec buffer pid ndi llr rv (buffer.upsert pid ndi llr rv) := by
  unfold upsert
  cases hprocess : buffer.procs pid with
  | none => exact .fresh (by simp [hprocess])
  | some process =>
      dsimp only
      split
      case isTrue hndi =>
        refine .fresh fun stored hstored => ?_
        rw [hprocess, Option.some.injEq] at hstored
        rwa [← hstored]
      case isFalse hndi =>
        rw [ne_eq, not_not] at hndi
        by_cases hlength : process.softBuffer.length = llr.length
        · rw [require_of hlength, Checked.ok_bind, llrCombine, require_of hlength, Checked.ok_bind]
          rcases int32_cases (process.txCount + 1) with hcount | hcount
          · rw [hcount]
            exact .combined process hprocess hndi hlength hcount
          · rw [hcount]
            exact .overflow process hprocess hndi hlength hcount
        · rw [require_of_not hlength]
          exact .rejected process hprocess hndi hlength

/-- An accepted upsert replaces the process of its id and no other. -/
theorem upsert_eq_ok {buffer updated : HarqBuffer R} {pid : UInt32} {ndi : Int} {llr : SoftVec R}
    {rv : Int} (h : buffer.upsert pid ndi llr rv = .ok updated) :
    ∃ process, updated = buffer.set pid (some process) := by
  have hspec := buffer.upsert_spec pid ndi llr rv
  rw [h] at hspec
  cases hspec with
  | fresh _ => exact ⟨_, rfl⟩
  | combined process _ _ _ _ => exact ⟨_, rfl⟩

/-- An accepted upsert is applied. -/
theorem apply_upsert {buffer updated : HarqBuffer R} {pid : UInt32} {ndi : Int} {llr : SoftVec R}
    {rv : Int} (h : buffer.upsert pid ndi llr rv = .ok updated) :
    buffer.apply (.upsert pid ndi llr rv) = .ok updated := by
  rw [apply, h]

/-- A call leaves the processes of all other ids alone. -/
theorem apply_other {buffer updated : HarqBuffer R} {call : HarqCall R} {pid : UInt32}
    (h : call.pid ≠ pid) (happly : buffer.apply call = .ok updated) :
    updated.procs pid = buffer.procs pid := by
  cases call with
  | get other =>
      rw [apply, Except.ok.injEq] at happly
      rw [happly]
  | clear other =>
      rw [apply, Except.ok.injEq] at happly
      rw [← happly]
      exact buffer.set_other none h
  | upsert other ndi llr rv =>
      cases hupsert : buffer.upsert other ndi llr rv with
      | error fault =>
          cases fault with
          | error message =>
              rw [apply, hupsert, Except.ok.injEq] at happly
              rw [happly]
          | undefined =>
              rw [apply, hupsert] at happly
              cases happly
      | ok result =>
          rw [apply_upsert hupsert, Except.ok.injEq] at happly
          obtain ⟨process, rfl⟩ := upsert_eq_ok hupsert
          rw [← happly]
          exact buffer.set_other (some process) h

end HarqBuffer

/-! ## Tallies -/

/-- What decides how an upsert of a process ends: the NDI and the length stored for it, and how many
vectors were added up. -/
@[ext] structure HarqTally where
  ndi : Int
  size : Nat
  count : Int

/-- A call without the values it carries. -/
inductive HarqMark where
  | upsert (pid : UInt32) (ndi : Int) (size : Nat)
  | clear (pid : UInt32)
  | get

/-- The tallies of all processes. -/
abbrev HarqTallies : Type := UInt32 → Option HarqTally

/-- A call without its values. -/
def HarqCall.mark {R : Type} : HarqCall R → HarqMark
  | .upsert pid ndi llr _ => .upsert pid ndi llr.length
  | .clear pid => .clear pid
  | .get _ => .get

/-- The tally of a process after an upsert: a sum starts where nothing is stored or the NDI differs,
grows where the lengths agree, and is kept otherwise. -/
def HarqTally.upsert (tally : Option HarqTally) (ndi : Int) (size : Nat) : HarqTally :=
  match tally with
  | none => ⟨ndi, size, 1⟩
  | some stored =>
      if stored.ndi ≠ ndi then ⟨ndi, size, 1⟩
      else if stored.size = size then ⟨ndi, size, stored.count + 1⟩
      else stored

namespace HarqTallies

/-- The tallies after a call. -/
def next (tallies : HarqTallies) : HarqMark → HarqTallies
  | .upsert pid ndi size =>
      Function.update tallies pid (some (HarqTally.upsert (tallies pid) ndi size))
  | .clear pid => Function.update tallies pid none
  | .get => tallies

/-- The tallies after some calls, from an empty table. -/
def after (marks : List HarqMark) : HarqTallies := marks.foldl next fun _ => none

/-- No count is greater than an `int` can be. -/
def Fit (tallies : HarqTallies) : Prop :=
  ∀ pid tally, tallies pid = some tally → tally.count < 2 ^ 31

/-- Every count is positive. -/
def Positive (tallies : HarqTallies) : Prop :=
  ∀ pid tally, tallies pid = some tally → 0 < tally.count

end HarqTallies

/-- In no process are as many vectors added up in a row as an `int` has nonnegative values: at every
point of the run the counts fit. -/
def CountsFit (marks : List HarqMark) : Prop :=
  ∀ before, before <+: marks → (HarqTallies.after before).Fit

namespace HarqTallies

/-- One more call. -/
theorem after_concat (marks : List HarqMark) (mark : HarqMark) :
    after (marks ++ [mark]) = (after marks).next mark := by
  simp [after]

/-- A count starts at one and never falls. -/
theorem Positive.next {tallies : HarqTallies} (h : tallies.Positive) (mark : HarqMark) :
    (tallies.next mark).Positive := by
  intro pid tally htally
  cases mark with
  | get => exact h pid tally htally
  | clear other =>
      by_cases hother : pid = other
      · subst hother
        simp [HarqTallies.next] at htally
      · exact h pid tally (by rwa [HarqTallies.next, Function.update_of_ne hother] at htally)
  | upsert other ndi size =>
      by_cases hother : pid = other
      · subst hother
        rw [HarqTallies.next, Function.update_self, Option.some.injEq] at htally
        subst htally
        unfold HarqTally.upsert
        cases hstored : tallies pid with
        | none => exact one_pos
        | some stored =>
            have hcount := h pid stored hstored
            dsimp only
            split_ifs
            · exact one_pos
            · exact Int.lt_add_one_of_le hcount.le
            · exact hcount
      · exact h pid tally (by rwa [HarqTallies.next, Function.update_of_ne hother] at htally)

/-- An upsert of a process under the stored NDI and length is counted. -/
theorem next_upsert_same {tallies : HarqTallies} {pid : UInt32} {tally : HarqTally}
    (h : tallies pid = some tally) :
    tallies.next (.upsert pid tally.ndi tally.size) pid =
      some ⟨tally.ndi, tally.size, tally.count + 1⟩ := by
  simp [next, HarqTally.upsert, h]

/-- After upserts of one process under one NDI and length the count is their number. -/
theorem after_replicate (pid : UInt32) (ndi : Int) (size n : Nat) :
    after (List.replicate (n + 1) (.upsert pid ndi size)) pid = some ⟨ndi, size, n + 1⟩ := by
  induction n with
  | zero => simp [after, next, HarqTally.upsert]
  | succ n ih =>
      rw [List.replicate_succ', after_concat, next_upsert_same ih]
      norm_num

/-- A count is at most the number of calls. -/
theorem count_le_length (marks : List HarqMark) {pid : UInt32} {tally : HarqTally}
    (h : after marks pid = some tally) : tally.count ≤ marks.length := by
  induction marks using List.reverseRecOn generalizing tally with
  | nil => cases h
  | append_singleton marks mark ih =>
      have hlength : ((marks ++ [mark]).length : Int) = marks.length + 1 := by simp
      have hkept (htally : after marks pid = some tally) :
          tally.count ≤ (marks ++ [mark]).length := by
        have hcount := ih htally
        omega
      rw [after_concat] at h
      cases mark with
      | get => exact hkept h
      | clear other =>
          by_cases hother : pid = other
          · subst hother
            simp [next] at h
          · exact hkept (by rwa [next, Function.update_of_ne hother] at h)
      | upsert other ndi size =>
          by_cases hother : pid = other
          · subst hother
            rw [next, Function.update_self, Option.some.injEq] at h
            subst h
            rw [hlength]
            unfold HarqTally.upsert
            cases hstored : after marks pid with
            | none =>
                show (1 : Int) ≤ _
                omega
            | some stored =>
                have hcount := ih hstored
                dsimp only
                split_ifs
                · show (1 : Int) ≤ _
                  omega
                · show stored.count + 1 ≤ _
                  omega
                · omega
          · exact hkept (by rwa [next, Function.update_of_ne hother] at h)

end HarqTallies

namespace CountsFit

/-- The counts of a longer run fit when those of the run do and those it ends with. -/
theorem concat_iff {marks : List HarqMark} {mark : HarqMark} : CountsFit (marks ++ [mark]) ↔
    CountsFit marks ∧ ((HarqTallies.after marks).next mark).Fit := by
  rw [← HarqTallies.after_concat]
  constructor
  · exact fun h => ⟨fun before hbefore => h before (hbefore.trans (List.prefix_append _ _)),
      h _ (List.prefix_refl _)⟩
  · rintro ⟨hearlier, hlast⟩ before hbefore
    rcases List.prefix_concat_iff.mp hbefore with rfl | hprefix
    · exact hlast
    · exact hearlier before hprefix

/-- No run of fewer than `2 ^ 31` calls counts that far. -/
theorem of_length {marks : List HarqMark} (h : marks.length < 2 ^ 31) : CountsFit marks := by
  intro before hbefore pid tally htally
  have hcount := HarqTallies.count_le_length before htally
  have hlength := hbefore.length_le
  omega

/-- As many upserts of one process under one NDI and length as an `int` has nonnegative values are
too many. -/
theorem not_replicate (pid : UInt32) (ndi : Int) (size : Nat) :
    ¬CountsFit (List.replicate (2 ^ 31) (.upsert pid ndi size)) := by
  intro h
  have hcount := HarqTallies.after_replicate pid ndi size (2 ^ 31 - 1)
  have hfits := h _ (List.prefix_refl _) pid _ hcount
  norm_num at hfits

end CountsFit

/-! ## The table follows its tallies -/

/-- The tally of what is stored for a process. -/
def HarqProcess.tally {R : Type} (process : HarqProcess R) : HarqTally :=
  ⟨process.ndi, process.softBuffer.length, process.txCount⟩

namespace HarqBuffer

variable {R : Type}

/-- The tallies of what is stored. -/
def tallies (buffer : HarqBuffer R) : HarqTallies :=
  fun pid => (buffer.procs pid).map HarqProcess.tally

/-- The tallies of a table with one process replaced. -/
theorem tallies_set (buffer : HarqBuffer R) (pid : UInt32) (process : Option (HarqProcess R)) :
    (buffer.set pid process).tallies =
      Function.update buffer.tallies pid (process.map HarqProcess.tally) := by
  funext other
  by_cases hother : other = pid
  · subst hother
    rw [tallies, set_same, Function.update_self]
  · rw [tallies, set_other _ _ (Ne.symm hother), Function.update_of_ne hother, tallies]

variable [Add R]

/-- A call moves the table like the tallies as long as the counts fit; otherwise it is undefined. -/
theorem apply_cases {buffer : HarqBuffer R} (hfit : buffer.tallies.Fit)
    (hpositive : buffer.tallies.Positive) (call : HarqCall R) :
    ((buffer.tallies.next call.mark).Fit ∧ ∃ updated, buffer.apply call = .ok updated ∧
      updated.tallies = buffer.tallies.next call.mark) ∨
    (¬(buffer.tallies.next call.mark).Fit ∧ buffer.apply call = .error .undefined) := by
  -- replacing one tally by one that fits keeps all counts within bounds
  have hupdate (pid : UInt32) (tally : Option HarqTally)
      (h : ∀ stored, tally = some stored → stored.count < 2 ^ 31) :
      HarqTallies.Fit (Function.update buffer.tallies pid tally) := by
    intro other stored hstored
    by_cases hother : other = pid
    · subst hother
      exact h stored (by rwa [Function.update_self] at hstored)
    · exact hfit other stored (by rwa [Function.update_of_ne hother] at hstored)
  cases call with
  | get pid => exact .inl ⟨hfit, buffer, rfl, rfl⟩
  | clear pid =>
      exact .inl ⟨hupdate pid none nofun, buffer.clear pid, rfl, buffer.tallies_set pid none⟩
  | upsert pid ndi llr rv =>
      have hspec := buffer.upsert_spec pid ndi llr rv
      have hnext : buffer.tallies.next (HarqCall.upsert pid ndi llr rv).mark =
          Function.update buffer.tallies pid
            (some (HarqTally.upsert (buffer.tallies pid) ndi llr.length)) := rfl
      rw [hnext]
      generalize hresult : buffer.upsert pid ndi llr rv = result at hspec
      have hstored (process : HarqProcess R) (h : buffer.procs pid = some process) :
          buffer.tallies pid = some process.tally := by
        rw [tallies, h]
        rfl
      cases hspec with
      | fresh hfresh =>
          have htally : HarqTally.upsert (buffer.tallies pid) ndi llr.length =
              ⟨ndi, llr.length, 1⟩ := by
            cases hprocess : buffer.procs pid with
            | none => rw [tallies, hprocess, Option.map_none, HarqTally.upsert]
            | some process =>
                rw [hstored process hprocess, HarqTally.upsert]
                exact if_pos (hfresh process hprocess)
          rw [htally]
          refine .inl ⟨hupdate pid _ ?_, _, apply_upsert hresult, buffer.tallies_set pid _⟩
          rintro stored ⟨⟩
          norm_num
      | combined process hprocess hndi hlength hcount =>
          have htally : HarqTally.upsert (buffer.tallies pid) ndi llr.length =
              (process.combine llr rv).tally := by
            rw [hstored process hprocess, HarqTally.upsert]
            have hsum : (List.zipWith (· + ·) process.softBuffer llr).length = llr.length := by
              rw [List.length_zipWith, hlength, Nat.min_self]
            simp [HarqProcess.tally, HarqProcess.combine, hndi, hlength]
          rw [htally]
          refine .inl ⟨hupdate pid _ ?_, _, apply_upsert hresult, buffer.tallies_set pid _⟩
          rintro stored ⟨⟩
          exact (int32_eq_ok.mp hcount).2.2
      | rejected process hprocess hndi hlength =>
          have htally : HarqTally.upsert (buffer.tallies pid) ndi llr.length = process.tally := by
            rw [hstored process hprocess, HarqTally.upsert]
            simp [HarqProcess.tally, hndi, hlength]
          rw [htally, ← hstored process hprocess, Function.update_eq_self]
          exact .inl ⟨hfit, buffer, by rw [apply, hresult], rfl⟩
      | overflow process hprocess hndi hlength hcount =>
          have htally : HarqTally.upsert (buffer.tallies pid) ndi llr.length =
              ⟨ndi, llr.length, process.txCount + 1⟩ := by
            rw [hstored process hprocess, HarqTally.upsert]
            simp [HarqProcess.tally, hndi, hlength]
          rw [htally]
          refine .inr ⟨fun hfits => ?_, by rw [apply, hresult]⟩
          have hsmall := hfits pid _ (Function.update_self ..)
          have hlow := hpositive pid _ (hstored process hprocess)
          have hrange : int32 (process.txCount + 1) = .ok (process.txCount + 1) :=
            int32_of_range (by simp only [HarqProcess.tally] at hlow; omega) hsmall
          rw [hrange] at hcount
          cases hcount

/-- A run of steps each of which amounts to one call on the table. When the counts of the calls fit,
it returns a table, with any invariant that the calls keep; otherwise it is undefined. -/
theorem run_cases {Event : Type} (step : HarqBuffer R → Event → Checked (HarqBuffer R))
    (mark : Event → HarqMark) (Inv : List Event → HarqBuffer R → Prop) (hstart : Inv [] {})
    (events : List Event)
    (hstep : ∀ event ∈ events, ∀ before buffer, Inv before buffer → ∃ call : HarqCall R,
      call.mark = mark event ∧ step buffer event = buffer.apply call ∧
      ∀ updated, buffer.apply call = .ok updated → Inv (before ++ [event]) updated) :
    (CountsFit (events.map mark) ∧ ∃ buffer, events.foldlM step {} = .ok buffer ∧
      Inv events buffer) ∨
    (¬CountsFit (events.map mark) ∧ events.foldlM step {} = .error .undefined) := by
  suffices hrun : (CountsFit (events.map mark) ∧ ∃ buffer, events.foldlM step {} = .ok buffer ∧
      Inv events buffer ∧ buffer.tallies = HarqTallies.after (events.map mark) ∧
      buffer.tallies.Positive) ∨
      (¬CountsFit (events.map mark) ∧ events.foldlM step {} = .error .undefined) by
    rcases hrun with ⟨hfit, buffer, hbuffer, hinv, _⟩ | hundefined
    · exact .inl ⟨hfit, buffer, hbuffer, hinv⟩
    · exact .inr hundefined
  induction events using List.reverseRecOn with
  | nil =>
      refine .inl ⟨?_, {}, rfl, hstart, rfl, nofun⟩
      intro before hbefore pid tally htally
      rw [List.map_nil, List.prefix_nil] at hbefore
      rw [hbefore] at htally
      cases htally
  | append_singleton events event ih =>
      have hconcat : (events ++ [event]).foldlM step {} =
          events.foldlM step {} >>= fun buffer => step buffer event := by
        rw [List.foldlM_append]
        simp only [List.foldlM_cons, List.foldlM_nil, bind_pure]
      rw [List.map_append, List.map_singleton, CountsFit.concat_iff, hconcat]
      rcases ih fun earlier hmem => hstep earlier (List.mem_append_left _ hmem) with
        ⟨hfit, buffer, hbuffer, hinv, htallies, hpositive⟩ | ⟨hover, hundefined⟩
      · obtain ⟨call, hmark, happly, hkeeps⟩ := hstep event (by simp) events buffer hinv
        have hlast : buffer.tallies.Fit := by
          rw [htallies]
          exact hfit _ (List.prefix_refl _)
        rw [hbuffer, Checked.ok_bind, happly, ← hmark, ← htallies]
        rcases apply_cases hlast hpositive call with
          ⟨hnext, updated, hupdated, hmoved⟩ | ⟨hnext, hend⟩
        · refine .inl ⟨⟨hfit, hnext⟩, updated, hupdated, hkeeps updated hupdated, ?_, ?_⟩
          · rw [HarqTallies.after_concat, ← htallies, hmoved]
          · rw [hmoved]
            exact hpositive.next call.mark
        · exact .inr ⟨fun h => hnext h.2, hend⟩
      · exact .inr ⟨fun h => hover h.1, by rw [hundefined, Checked.error_bind]⟩

/-! ## Upserts that combine -/

/-- An upsert that the stored values have room for is not rejected. -/
theorem upsert_eq_apply {buffer : HarqBuffer R} {pid : UInt32} {ndi : Int} {llr : SoftVec R}
    (h : ∀ process, buffer.procs pid = some process → process.softBuffer.length = llr.length)
    (rv : Int) : buffer.upsert pid ndi llr rv = buffer.apply (.upsert pid ndi llr rv) := by
  have hspec := buffer.upsert_spec pid ndi llr rv
  rw [apply]
  generalize buffer.upsert pid ndi llr rv = result at hspec
  cases hspec with
  | fresh _ => rfl
  | combined process _ _ _ _ => rfl
  | rejected process hprocess _ hlength => exact absurd (h process hprocess) hlength
  | overflow process _ _ _ _ => rfl

/-- The first upsert of an absent process stores its values. -/
theorem upsert_absent {buffer updated : HarqBuffer R} {pid : UInt32}
    (h : buffer.procs pid = none) {ndi : Int} {llr : SoftVec R} {rv : Int}
    (happly : buffer.apply (.upsert pid ndi llr rv) = .ok updated) :
    ∃ process, updated.procs pid = some process ∧ process.ndi = ndi ∧
      process.softBuffer = llr := by
  have hupsert : buffer.upsert pid ndi llr rv = .ok (buffer.set pid
      (some { processId := pid, ndi, softBuffer := llr, rv, txCount := 1 })) := by
    rw [upsert, h]
  rw [apply_upsert hupsert, Except.ok.injEq] at happly
  exact ⟨_, by rw [← happly, set_same], rfl, rfl⟩

/-- An upsert with the stored NDI and length adds its values to the stored ones. -/
theorem upsert_combine {buffer updated : HarqBuffer R} {pid : UInt32} {process : HarqProcess R}
    (h : buffer.procs pid = some process) {llr : SoftVec R}
    (hlength : process.softBuffer.length = llr.length) {rv : Int}
    (happly : buffer.apply (.upsert pid process.ndi llr rv) = .ok updated) :
    ∃ combined, updated.procs pid = some combined ∧ combined.ndi = process.ndi ∧
      combined.softBuffer = List.zipWith (· + ·) process.softBuffer llr := by
  have hspec := buffer.upsert_spec pid process.ndi llr rv
  generalize hresult : buffer.upsert pid process.ndi llr rv = result at hspec
  have hsame {other : HarqProcess R} (hother : buffer.procs pid = some other) :
      other = process := by
    rw [h, Option.some.injEq] at hother
    exact hother.symm
  cases hspec with
  | fresh hfresh => exact absurd rfl (hfresh process h)
  | combined other hother _ _ _ =>
      rw [apply_upsert hresult, Except.ok.injEq] at happly
      obtain rfl := hsame hother
      exact ⟨other.combine llr rv, by rw [← happly, set_same], rfl, rfl⟩
  | rejected other hother _ hdiffer => exact absurd (hsame hother ▸ hlength) hdiffer
  | overflow other _ _ _ _ =>
      rw [apply, hresult] at happly
      cases happly

end HarqBuffer

end NrBaseband
