import NrBaseband.Harq
import NrBaseband.Foundation.Reactive

/-!
# Runs of the HARQ process table

The table is a reactive machine whose inputs are calls of `upsert`, `clear` and `get`. What a
process holds is a function of the history: `Transmission.stored` computes it from the upserts of
the process that were accepted since it was last cleared, and `FollowsHistory.of_run` says that
after every run that leaves a table it holds exactly that. A run leaves one as long as no counter
overflows (`run_cases`); `harq_table_follows_history_iff` puts the two together.
-/

namespace NrBaseband

open Foundation Foundation.MachineInt

/-- What the caller of the table learns. -/
inductive HarqAnswer (R : Type) where
  | accepted
  | rejected (fault : Fault)
  | cleared
  | found (soft : Option (SoftVec R))

namespace HarqBuffer

variable {R : Type} [Add R]

/-- The answer to a call. -/
def answer (buffer : HarqBuffer R) : HarqCall R → HarqAnswer R
  | .upsert pid ndi llr rv =>
      match buffer.upsert pid ndi llr rv with
      | .ok _ => .accepted
      | .error fault => .rejected fault
  | .clear _ => .cleared
  | .get pid => .found (buffer.get pid)

end HarqBuffer

/-- The table as a machine, from its construction. A call that is undefined leaves no table, and the
calls after it have nothing to answer from. -/
def harqMachine (R : Type) [Add R] :
    Machine (Checked (HarqBuffer R)) (HarqCall R) (HarqAnswer R) where
  start := .ok {}
  step
    | .ok buffer, call => (buffer.apply call, buffer.answer call)
    | .error fault, _ => (.error fault, .rejected fault)

/-- The arguments of an accepted upsert. -/
structure Transmission (R : Type) where
  ndi : Int
  llr : SoftVec R
  rv : Int

/-- A call on the table and its answer. -/
abbrev HarqExchange (R : Type) : Type := Exchange (HarqCall R) (HarqAnswer R)

namespace HarqExchange

variable {R : Type}

/-- The exchange is a clear of the process. -/
def clears (pid : UInt32) (e : HarqExchange R) : Bool :=
  match e.input with
  | .clear other => other == pid
  | _ => false

/-- The upsert of the process that was accepted in the exchange. -/
def transmission (pid : UInt32) (e : HarqExchange R) : Option (Transmission R) :=
  match e.input, e.answer with
  | .upsert other ndi llr rv, .accepted => if other = pid then some ⟨ndi, llr, rv⟩ else none
  | _, _ => none

end HarqExchange

/-- The accepted upserts of a process since it was last cleared, newest first. -/
def acceptedSinceClear {R : Type} (pid : UInt32) (history : List (HarqExchange R)) :
    List (Transmission R) :=
  (Exchange.since (HarqExchange.clears pid) history).filterMap (HarqExchange.transmission pid)

namespace Transmission

variable {R : Type} [Add R]

/-- The transmissions, newest first, back to the last one whose NDI differed from its
predecessor's. -/
def sinceToggle : List (Transmission R) → List (Transmission R)
  | [] => []
  | [first] => [first]
  | last :: previous :: earlier =>
      if last.ndi ≠ previous.ndi then [last] else last :: sinceToggle (previous :: earlier)

/-- The elementwise sum of soft values from left to right. -/
def softSum : List (SoftVec R) → SoftVec R
  | [] => []
  | first :: later => later.foldl (List.zipWith (· + ·)) first

/-- The process that combines some transmissions, newest first. -/
def combine (pid : UInt32) : List (Transmission R) → Option (HarqProcess R)
  | [] => none
  | last :: earlier => some {
      processId := pid
      ndi := last.ndi
      softBuffer := softSum ((last :: earlier).reverse.map Transmission.llr)
      rv := last.rv
      txCount := (last :: earlier).length }

/-- What the table holds for a process after its accepted upserts, newest first. -/
def stored (pid : UInt32) (accepted : List (Transmission R)) : Option (HarqProcess R) :=
  combine pid (sinceToggle accepted)

end Transmission

namespace Transmission

variable {R : Type} [Add R]

omit [Add R] in
/-- The newest transmission is always among those combined. -/
theorem since_toggle_cons (last : Transmission R) (earlier : List (Transmission R)) :
    ∃ rest, sinceToggle (last :: earlier) = last :: rest := by
  cases earlier with
  | nil => exact ⟨[], rfl⟩
  | cons previous earlier =>
      rw [sinceToggle]
      split
      · exact ⟨[], rfl⟩
      · exact ⟨_, rfl⟩

/-- A single transmission is stored as it is. -/
theorem combine_singleton (pid : UInt32) (tx : Transmission R) : combine pid [tx] =
    some { processId := pid, ndi := tx.ndi, softBuffer := tx.llr, rv := tx.rv, txCount := 1 } :=
  rfl

/-- The fields of a process that combines some transmissions. -/
theorem combine_fields {pid : UInt32} {last : Transmission R} {earlier : List (Transmission R)}
    {process : HarqProcess R} (h : combine pid (last :: earlier) = some process) :
    process.softBuffer = softSum ((last :: earlier).reverse.map Transmission.llr) ∧
      process.rv = last.rv ∧ process.txCount = (last :: earlier).length := by
  rw [combine, Option.some.injEq] at h
  subst h
  exact ⟨rfl, rfl, rfl⟩

/-- A further summand is added to the sum. -/
theorem soft_sum_concat {terms : List (SoftVec R)} (h : terms ≠ []) (term : SoftVec R) :
    softSum (terms ++ [term]) = List.zipWith (· + ·) (softSum terms) term := by
  cases terms with
  | nil => exact absurd rfl h
  | cons first later =>
      rw [List.cons_append, softSum, List.foldl_append, List.foldl_cons, List.foldl_nil]
      rfl

/-- What is stored has the NDI of the newest transmission. -/
theorem stored_cons_ndi {pid : UInt32} {last : Transmission R} {earlier : List (Transmission R)}
    {process : HarqProcess R} (h : stored pid (last :: earlier) = some process) :
    process.ndi = last.ndi := by
  obtain ⟨rest, hrest⟩ := since_toggle_cons last earlier
  rw [stored, hrest, combine, Option.some.injEq] at h
  rw [← h]

/-- A transmission starts a new sum when nothing is stored or its NDI differs. -/
theorem stored_fresh {pid : UInt32} {accepted : List (Transmission R)} (tx : Transmission R)
    (h : ∀ process, stored pid accepted = some process → process.ndi ≠ tx.ndi) :
    sinceToggle (tx :: accepted) = [tx] := by
  cases accepted with
  | nil => rfl
  | cons previous earlier =>
      obtain ⟨rest, hrest⟩ := since_toggle_cons previous earlier
      have hstored : stored pid (previous :: earlier) = combine pid (previous :: rest) := by
        rw [stored, hrest]
      rw [sinceToggle, if_pos (h _ hstored).symm]

/-- A transmission with the stored NDI is combined with those combined so far. -/
theorem stored_combined {pid : UInt32} {accepted : List (Transmission R)}
    {process : HarqProcess R} {tx : Transmission R} (h : stored pid accepted = some process)
    (hndi : process.ndi = tx.ndi) :
    sinceToggle (tx :: accepted) = tx :: sinceToggle accepted ∧
      stored pid (tx :: accepted) = some (process.combine tx.llr tx.rv) := by
  cases accepted with
  | nil => cases h
  | cons previous earlier =>
      have htoggle : sinceToggle (tx :: previous :: earlier) =
          tx :: sinceToggle (previous :: earlier) := by
        rw [sinceToggle, if_neg (not_not.mpr (hndi.symm.trans (stored_cons_ndi h)))]
      refine ⟨htoggle, ?_⟩
      obtain ⟨rest, hrest⟩ := since_toggle_cons previous earlier
      rw [stored, hrest, combine, Option.some.injEq] at h
      rw [stored, htoggle, hrest, combine, ← h, Option.some.injEq]
      have hsum : softSum ((tx :: previous :: rest).reverse.map Transmission.llr) =
          List.zipWith (· + ·)
            (softSum ((previous :: rest).reverse.map Transmission.llr)) tx.llr := by
        rw [List.reverse_cons, List.map_append]
        exact soft_sum_concat (by simp) tx.llr
      have hcount : ((tx :: previous :: rest).length : Int) =
          ((previous :: rest).length : Int) + 1 := by
        rw [List.length_cons, Nat.cast_succ]
      rw [hsum, hcount, ← hndi, ← h]
      rfl

end Transmission

/-! ## The history of a process -/

section History

variable {R : Type} {pid : UInt32}

/-- A clear of the process forgets its upserts. -/
theorem accepted_since_clear (answer : HarqAnswer R) (history : List (HarqExchange R)) :
    acceptedSinceClear pid (⟨.clear pid, answer⟩ :: history) = [] := by
  rw [acceptedSinceClear, Exchange.since_cons_of_mark (by simp [HarqExchange.clears])]
  rfl

/-- Any other exchange adds the upsert it accepts. -/
theorem accepted_since_cons {e : HarqExchange R} (h : e.clears pid = false)
    (history : List (HarqExchange R)) : acceptedSinceClear pid (e :: history) =
      (e.transmission pid).toList ++ acceptedSinceClear pid history := by
  rw [acceptedSinceClear, Exchange.since_cons_of_not_mark h, List.filterMap_cons]
  cases e.transmission pid with
  | none => rfl
  | some tx => rfl

/-- An exchange about another process changes nothing. -/
theorem accepted_since_other {call : HarqCall R} (h : call.pid ≠ pid) (answer : HarqAnswer R)
    (history : List (HarqExchange R)) :
    acceptedSinceClear pid (⟨call, answer⟩ :: history) = acceptedSinceClear pid history := by
  cases call with
  | get other => exact accepted_since_cons rfl history
  | clear other =>
      have hother : other ≠ pid := h
      exact accepted_since_cons (e := ⟨.clear other, answer⟩) (beq_false_of_ne hother) history
  | upsert other ndi llr rv =>
      rw [accepted_since_cons rfl]
      cases answer with
      | accepted =>
          have hother : other ≠ pid := h
          simp [HarqExchange.transmission, hother]
      | rejected | cleared | found => rfl

end History

/-! ## The invariant of a run -/

/-- The table holds for a process what its history says, and the values that are summed have the
length of the sum. -/
structure FollowsHistory {R : Type} [Add R] (pid : UInt32) (buffer : HarqBuffer R)
    (history : List (HarqExchange R)) : Prop where
  stored : buffer.procs pid = Transmission.stored pid (acceptedSinceClear pid history)
  lengths : ∀ process, buffer.procs pid = some process →
    ∀ tx ∈ Transmission.sinceToggle (acceptedSinceClear pid history),
      tx.llr.length = process.softBuffer.length

namespace FollowsHistory

variable {R : Type} [Add R] {pid : UInt32} {buffer updated : HarqBuffer R}
  {history next : List (HarqExchange R)}

/-- A call that neither changes the process nor adds to its history keeps the invariant. -/
theorem unchanged (h : FollowsHistory pid buffer history)
    (hstate : updated.procs pid = buffer.procs pid)
    (hhistory : acceptedSinceClear pid next = acceptedSinceClear pid history) :
    FollowsHistory pid updated next := by
  refine ⟨?_, ?_⟩
  · rw [hstate, hhistory, h.stored]
  · rw [hstate, hhistory]
    exact h.lengths

/-- The history after an upsert has it when it was accepted. -/
theorem accepted_since_upsert (pid : UInt32) (buffer : HarqBuffer R)
    (history : List (HarqExchange R)) (ndi : Int) (llr : SoftVec R) (rv : Int) :
    acceptedSinceClear pid
        (⟨.upsert pid ndi llr rv, buffer.answer (.upsert pid ndi llr rv)⟩ :: history) =
      match buffer.upsert pid ndi llr rv with
      | .ok _ => ⟨ndi, llr, rv⟩ :: acceptedSinceClear pid history
      | .error _ => acceptedSinceClear pid history := by
  rw [accepted_since_cons rfl, HarqBuffer.answer]
  cases buffer.upsert pid ndi llr rv with
  | ok updated => simp [HarqExchange.transmission]
  | error fault => rfl

/-- An upsert of the process keeps the invariant. -/
theorem upsert (h : FollowsHistory pid buffer history) {ndi : Int} {llr : SoftVec R} {rv : Int}
    (happly : buffer.apply (.upsert pid ndi llr rv) = .ok updated) :
    FollowsHistory pid updated
      (⟨.upsert pid ndi llr rv, buffer.answer (.upsert pid ndi llr rv)⟩ :: history) := by
  have hhistory := accepted_since_upsert pid buffer history ndi llr rv
  have hspec := buffer.upsert_spec pid ndi llr rv
  rw [HarqBuffer.apply] at happly
  generalize buffer.upsert pid ndi llr rv = result at hspec hhistory happly
  cases hspec with
  | fresh hfresh =>
      rw [Except.ok.injEq] at happly
      rw [h.stored] at hfresh
      have htoggle := Transmission.stored_fresh ⟨ndi, llr, rv⟩ hfresh
      refine ⟨?_, fun process hprocess tx htx => ?_⟩
      · rw [← happly, HarqBuffer.set_same, hhistory, Transmission.stored, htoggle,
          Transmission.combine_singleton]
      · rw [← happly, HarqBuffer.set_same, Option.some.injEq] at hprocess
        rw [hhistory, htoggle, List.mem_singleton] at htx
        rw [htx, ← hprocess]
  | combined process hprocess hndi hlength _ =>
      rw [Except.ok.injEq] at happly
      have hsame : process.ndi = (⟨ndi, llr, rv⟩ : Transmission R).ndi := hndi
      obtain ⟨htoggle, hcombined⟩ :=
        Transmission.stored_combined (h.stored.symm.trans hprocess) hsame
      refine ⟨?_, fun stored hstored tx htx => ?_⟩
      · rw [← happly, HarqBuffer.set_same, hhistory, hcombined]
      · rw [← happly, HarqBuffer.set_same, Option.some.injEq] at hstored
        rw [hhistory, htoggle, List.mem_cons] at htx
        have hsum : stored.softBuffer.length = process.softBuffer.length := by
          rw [← hstored, HarqProcess.combine, List.length_zipWith, hlength, Nat.min_self]
        rcases htx with rfl | hearlier
        · rw [hsum, hlength]
        · rw [hsum, h.lengths process hprocess tx hearlier]
  | rejected process hprocess hndi hlength =>
      rw [Except.ok.injEq] at happly
      exact h.unchanged (by rw [happly]) hhistory
  | overflow process _ _ _ _ => cases happly

/-- Every call that leaves a table keeps the invariant. -/
theorem step (h : FollowsHistory pid buffer history) {call : HarqCall R}
    (happly : buffer.apply call = .ok updated) :
    FollowsHistory pid updated (⟨call, buffer.answer call⟩ :: history) := by
  by_cases hcall : call.pid = pid
  · subst hcall
    cases call with
    | upsert pid ndi llr rv => exact h.upsert happly
    | get pid =>
        rw [HarqBuffer.apply, Except.ok.injEq] at happly
        exact h.unchanged (by rw [happly]) (accepted_since_cons rfl _)
    | clear pid =>
        rw [HarqBuffer.apply, Except.ok.injEq] at happly
        have hcleared : updated.procs pid = none := by
          rw [← happly]
          exact buffer.set_same pid none
        refine ⟨?_, fun process hprocess => ?_⟩
        · show updated.procs pid = Transmission.stored pid (acceptedSinceClear pid _)
          rw [hcleared, accepted_since_clear]
          rfl
        · cases hcleared.symm.trans hprocess
  · exact h.unchanged (HarqBuffer.apply_other hcall happly) (accepted_since_other hcall _ _)

/-- Every run that leaves a table keeps the invariant. -/
theorem of_run (calls : List (HarqCall R)) (pid : UInt32) {buffer : HarqBuffer R}
    (h : ((harqMachine R).run calls).state = .ok buffer) :
    FollowsHistory pid buffer ((harqMachine R).run calls).history := by
  refine (harqMachine R).invariant
    (fun run => ∀ buffer, run.state = .ok buffer → FollowsHistory pid buffer run.history)
    ?_ (fun run call hrun buffer hbuffer => ?_) calls buffer h
  · intro buffer hbuffer
    obtain rfl : ({} : HarqBuffer R) = buffer := Except.ok.inj hbuffer
    exact ⟨rfl, nofun⟩
  · rw [Machine.advance_state] at hbuffer
    rw [Machine.advance_history]
    cases hstate : run.state with
    | error fault =>
        rw [hstate] at hbuffer
        cases hbuffer
    | ok before =>
        rw [hstate] at hbuffer
        exact (hrun before hstate).step hbuffer

/-- What is stored for a process combines its transmissions. -/
theorem combine_eq (h : FollowsHistory pid buffer history) {process : HarqProcess R}
    (hprocess : buffer.procs pid = some process) : ∃ last earlier,
      Transmission.sinceToggle (acceptedSinceClear pid history) = last :: earlier ∧
      (acceptedSinceClear pid history).head? = some last ∧
      Transmission.combine pid (last :: earlier) = some process := by
  have hstored := h.stored.symm.trans hprocess
  cases haccepted : acceptedSinceClear pid history with
  | nil =>
      rw [haccepted] at hstored
      cases hstored
  | cons last previous =>
      obtain ⟨earlier, hearlier⟩ := Transmission.since_toggle_cons last previous
      rw [haccepted, Transmission.stored, hearlier] at hstored
      exact ⟨last, earlier, hearlier, rfl, hstored⟩

/-- Nothing is stored exactly when no upsert was accepted since the last clear. -/
theorem absent_iff (h : FollowsHistory pid buffer history) :
    buffer.get pid = none ↔ acceptedSinceClear pid history = [] := by
  rw [HarqBuffer.get, Option.map_eq_none_iff, h.stored]
  cases acceptedSinceClear pid history with
  | nil => exact iff_of_true rfl rfl
  | cons last previous =>
      obtain ⟨earlier, hearlier⟩ := Transmission.since_toggle_cons last previous
      rw [Transmission.stored, hearlier]
      exact iff_of_false (Option.some_ne_none _) (List.cons_ne_nil _ _)

end FollowsHistory

/-! ## Contents of the table -/

section Contents

variable {R : Type} [Add R]

/-- An upsert is rejected exactly when its NDI is the stored one and the lengths differ. -/
theorem HarqBuffer.upsert_rejected_iff (buffer : HarqBuffer R) (pid : UInt32) (ndi : Int)
    (llr : SoftVec R) (rv : Int) :
    (∃ message, buffer.upsert pid ndi llr rv = .error (.error message)) ↔
      ∃ process, buffer.procs pid = some process ∧ process.ndi = ndi ∧
        process.softBuffer.length ≠ llr.length := by
  have hspec := buffer.upsert_spec pid ndi llr rv
  generalize buffer.upsert pid ndi llr rv = result at hspec
  -- an upsert that finds room is not rejected
  have hroom {process : HarqProcess R} (hprocess : buffer.procs pid = some process)
      (hlength : process.softBuffer.length = llr.length) :
      ¬∃ process, buffer.procs pid = some process ∧ process.ndi = ndi ∧
        process.softBuffer.length ≠ llr.length := by
    rintro ⟨other, hother, _, hdiffer⟩
    rw [hprocess, Option.some.injEq] at hother
    exact hdiffer (hother ▸ hlength)
  cases hspec with
  | fresh hfresh =>
      refine iff_of_false nofun ?_
      rintro ⟨process, hprocess, hndi, _⟩
      exact hfresh process hprocess hndi
  | combined process hprocess _ hlength _ => exact iff_of_false nofun (hroom hprocess hlength)
  | rejected process hprocess hndi hlength =>
      exact iff_of_true ⟨_, rfl⟩ ⟨process, hprocess, hndi, hlength⟩
  | overflow process hprocess _ hlength _ => exact iff_of_false nofun (hroom hprocess hlength)

/-- Two tables that agree on a process still do after a call about it. -/
theorem apply_congr {buffer other updated : HarqBuffer R} {call : HarqCall R}
    (h : buffer.procs call.pid = other.procs call.pid)
    (happly : buffer.apply call = .ok updated) :
    ∃ moved, other.apply call = .ok moved ∧
      updated.procs call.pid = moved.procs call.pid := by
  cases call with
  | get pid =>
      rw [HarqBuffer.apply, Except.ok.injEq] at happly
      exact ⟨other, rfl, by rw [← happly, h]⟩
  | clear pid =>
      rw [HarqBuffer.apply, Except.ok.injEq] at happly
      refine ⟨other.clear pid, rfl, ?_⟩
      rw [← happly]
      exact (buffer.set_same pid none).trans (other.set_same pid none).symm
  | upsert pid ndi llr rv =>
      have hprocs : buffer.procs pid = other.procs pid := h
      have hset (process : Option (HarqProcess R)) :
          (buffer.set pid process).procs pid = (other.set pid process).procs pid :=
        (buffer.set_same pid process).trans (other.set_same pid process).symm
      show ∃ moved, other.apply (.upsert pid ndi llr rv) = .ok moved ∧
        updated.procs pid = moved.procs pid
      unfold HarqBuffer.apply HarqBuffer.upsert at happly ⊢
      dsimp only at happly ⊢
      rw [hprocs] at happly
      cases hprocess : other.procs pid with
      | none =>
          rw [hprocess, Except.ok.injEq] at happly
          exact ⟨_, rfl, by rw [← happly, hset]⟩
      | some process =>
          rw [hprocess] at happly
          dsimp only at happly ⊢
          by_cases hndi : process.ndi ≠ ndi
          · rw [if_pos hndi, Except.ok.injEq] at happly
            rw [if_pos hndi]
            exact ⟨_, rfl, by rw [← happly, hset]⟩
          · rw [if_neg hndi] at happly ⊢
            by_cases hlength : process.softBuffer.length = llr.length
            · rw [require_of hlength, Checked.ok_bind, llrCombine, require_of hlength,
                Checked.ok_bind] at happly ⊢
              rcases int32_cases (process.txCount + 1) with hcount | hcount
              · rw [hcount] at happly ⊢
                exact ⟨_, rfl, by rw [← Except.ok.inj happly, hset]⟩
              · rw [hcount] at happly
                cases happly
            · rw [require_of_not hlength] at happly ⊢
              exact ⟨other, rfl, by rw [← Except.ok.inj happly, hprocs]⟩

/-- A run that leaves a table after one more call left one before it. -/
theorem run_concat_ok {calls : List (HarqCall R)} {call : HarqCall R} {updated : HarqBuffer R}
    (h : ((harqMachine R).run (calls ++ [call])).state = .ok updated) :
    ∃ buffer, ((harqMachine R).run calls).state = .ok buffer ∧
      buffer.apply call = .ok updated := by
  rw [Machine.run_concat, Machine.advance_state] at h
  cases hstate : ((harqMachine R).run calls).state with
  | error fault =>
      rw [hstate] at h
      cases h
  | ok buffer =>
      rw [hstate] at h
      exact ⟨buffer, rfl, h⟩

/-- What is stored for a process depends on the calls about it only. -/
theorem run_own_calls {calls : List (HarqCall R)} {buffer : HarqBuffer R}
    (h : ((harqMachine R).run calls).state = .ok buffer) (pid : UInt32) :
    ∃ own, ((harqMachine R).run (calls.filter (·.pid = pid))).state = .ok own ∧
      buffer.procs pid = own.procs pid := by
  induction calls using List.reverseRecOn generalizing buffer with
  | nil => exact ⟨buffer, h, rfl⟩
  | append_singleton calls call ih =>
      obtain ⟨before, hbefore, happly⟩ := run_concat_ok h
      obtain ⟨own, hown, hprocs⟩ := ih hbefore
      rw [List.filter_append]
      by_cases hcall : call.pid = pid
      · subst hcall
        obtain ⟨moved, hmoved, hsame⟩ := apply_congr hprocs happly
        refine ⟨moved, ?_, hsame⟩
        rw [List.filter_singleton, decide_eq_true rfl, cond_true, Machine.run_concat,
          Machine.advance_state, hown]
        exact hmoved
      · refine ⟨own, ?_, (HarqBuffer.apply_other hcall happly).trans hprocs⟩
        rw [List.filter_singleton, decide_eq_false hcall, cond_false, List.append_nil, hown]

/-- The table after a run. -/
theorem run_state_eq (calls : List (HarqCall R)) :
    ((harqMachine R).run calls).state = calls.foldlM HarqBuffer.apply {} := by
  induction calls using List.reverseRecOn with
  | nil => rfl
  | append_singleton calls call ih =>
      rw [Machine.run_concat, Machine.advance_state, List.foldlM_append, ih]
      cases calls.foldlM HarqBuffer.apply ({} : HarqBuffer R) with
      | error fault => rfl
      | ok buffer =>
          rw [Checked.ok_bind, List.foldlM_cons]
          exact (bind_pure (buffer.apply call)).symm

/-- A run leaves a table as long as no counter overflows. -/
theorem run_cases (calls : List (HarqCall R)) :
    (CountsFit (calls.map HarqCall.mark) ∧
      ∃ buffer, ((harqMachine R).run calls).state = .ok buffer) ∨
    (¬CountsFit (calls.map HarqCall.mark) ∧
      ((harqMachine R).run calls).state = .error .undefined) := by
  rw [run_state_eq]
  rcases HarqBuffer.run_cases HarqBuffer.apply HarqCall.mark (fun _ _ => True) trivial calls
    fun call _ _ _ _ => ⟨call, rfl, rfl, fun _ _ => trivial⟩ with
    ⟨hfit, buffer, hbuffer, _⟩ | hundefined
  · exact .inl ⟨hfit, buffer, hbuffer⟩
  · exact .inr hundefined

/-- What the table holds for a process after a run. The process is absent exactly when no upsert of
it was accepted since it was last cleared. Otherwise it holds the sum of the accepted ones since
then and since the last one that toggled its NDI, their number, and the version of the last of them.
An upsert is rejected exactly when it has the stored NDI and another length, a rejected one changes
nothing, and no call changes another process. -/
structure HoldsHistory (calls : List (HarqCall R)) (buffer : HarqBuffer R) (pid : UInt32) :
    Prop where
  absent : buffer.get pid = none ↔
    acceptedSinceClear pid ((harqMachine R).run calls).history = []
  present : ∀ process, buffer.procs pid = some process →
    let accepted := acceptedSinceClear pid ((harqMachine R).run calls).history
    let combined := Transmission.sinceToggle accepted
    buffer.get pid = some process.softBuffer ∧
    process.softBuffer = Transmission.softSum (combined.reverse.map Transmission.llr) ∧
    (∀ tx ∈ combined, tx.llr.length = process.softBuffer.length) ∧
    accepted.head?.map Transmission.rv = some process.rv ∧
    process.txCount = combined.length
  rejected_iff : ∀ ndi llr rv,
    (∃ message, buffer.upsert pid ndi llr rv = .error (.error message)) ↔
      ∃ process, buffer.procs pid = some process ∧ process.ndi = ndi ∧
        process.softBuffer.length ≠ llr.length
  rejected_unchanged : ∀ ndi llr rv message,
    buffer.upsert pid ndi llr rv = .error (.error message) →
      ((harqMachine R).run (calls ++ [.upsert pid ndi llr rv])).state = .ok buffer
  own_calls : ∃ own, ((harqMachine R).run (calls.filter (·.pid = pid))).state = .ok own ∧
    buffer.procs pid = own.procs pid

/-- A run that leaves a table leaves the one that its history says. -/
theorem holds_history {calls : List (HarqCall R)} {buffer : HarqBuffer R}
    (h : ((harqMachine R).run calls).state = .ok buffer) (pid : UInt32) :
    HoldsHistory calls buffer pid := by
  have hfollows := FollowsHistory.of_run calls pid h
  refine ⟨hfollows.absent_iff, fun process hprocess => ?_, buffer.upsert_rejected_iff pid,
    fun ndi llr rv message hrejected => ?_, run_own_calls h pid⟩
  · intro accepted combined
    obtain ⟨last, earlier, htoggle, hlast, hcombine⟩ := hfollows.combine_eq hprocess
    have hcombined : combined = last :: earlier := htoggle
    obtain ⟨hsoft, hrv, hcount⟩ := Transmission.combine_fields hcombine
    refine ⟨?_, ?_, hfollows.lengths process hprocess, ?_, ?_⟩
    · rw [HarqBuffer.get, hprocess]
      rfl
    · rw [hcombined, hsoft]
    · rw [hlast, hrv]
      rfl
    · rw [hcombined, hcount]
  · rw [Machine.run_concat, Machine.advance_state, h]
    show buffer.apply (.upsert pid ndi llr rv) = .ok buffer
    rw [HarqBuffer.apply, hrejected]

/-- After any calls, rejected ones included, there is a table and it holds for every process what
the history says, exactly when the counts of the calls fit: in no process are as many accepted
upserts added up in a row as an `int` has nonnegative values. -/
theorem harq_table_follows_history_iff (calls : List (HarqCall R)) :
    (∃ buffer, ((harqMachine R).run calls).state = .ok buffer ∧
      ∀ pid, HoldsHistory calls buffer pid) ↔ CountsFit (calls.map HarqCall.mark) := by
  rcases run_cases calls with ⟨hfit, buffer, hbuffer⟩ | ⟨hover, hundefined⟩
  · exact iff_of_true ⟨buffer, hbuffer, holds_history hbuffer⟩ hfit
  · refine iff_of_false ?_ hover
    rintro ⟨buffer, hbuffer, _⟩
    rw [hundefined] at hbuffer
    cases hbuffer

/-- The last of as many upserts of no values under one NDI as an `int` has nonnegative values
overflows the counter, and no table is left. -/
theorem harq_count_overflows :
    let calls : List (HarqCall ℤ) := List.replicate (2 ^ 31) (.upsert 1 0 [] 0)
    ¬∃ buffer, ((harqMachine ℤ).run calls).state = .ok buffer ∧
      ∀ pid, HoldsHistory calls buffer pid := by
  intro calls
  rcases run_cases calls with ⟨hfit, _⟩ | ⟨_, hundefined⟩
  · rw [show calls.map HarqCall.mark = List.replicate (2 ^ 31) (.upsert 1 0 0) from
      List.map_replicate] at hfit
    exact absurd hfit (CountsFit.not_replicate 1 0 0)
  · rintro ⟨buffer, hbuffer, _⟩
    rw [hundefined] at hbuffer
    cases hbuffer

end Contents

end NrBaseband
