import NrBaseband.RateMatching
import NrBaseband.Harq
import Mathlib.Data.List.Induction

/-!
# Combining retransmissions

One coded word is sent several times in different redundancy versions: each time it is rate matched,
turned into soft values, recovered and put into the HARQ buffer, while the buffer also serves other
processes. `harq_accumulates_energy_iff` says that the process of the word then holds at every
position the soft value of the bit as often as the bit was sent, as long as no counter of the buffer
overflows.
-/

namespace NrBaseband

open Foundation Foundation.MachineInt

/-- A coded word, the configuration it is sent with, and the process that combines it. -/
structure HarqLink (R : Type) where
  word : Bits
  cfg : RateMatchConfig
  magnitude : R
  pid : UInt32
  ndi : Int

/-- Something that happens to the buffer: a transmission of the word, or a call for another
process. -/
inductive HarqEvent (R : Type) where
  | transmit (rv : Int) (eBits : Nat)
  | other (call : HarqCall R)

namespace HarqLink

variable {R : Type} [CommRing R]

omit [CommRing R] in
/-- The configuration of one transmission; the size of the circular buffer is derived. -/
def config (link : HarqLink R) (rv : Int) (eBits : Nat) : RateMatchConfig :=
  { link.cfg with rv, eBits, nCb := 0 }

/-- The recovered soft values of one transmission. -/
def softValues (link : HarqLink R) (rv : Int) (eBits : Nat) : Checked (SoftVec R) := do
  let sent ← rateMatch link.word (link.config rv eBits)
  let llr ← bitsToLlr sent link.magnitude
  rateDematch llr (link.config rv eBits) link.word.length

/-- The buffer after one event. -/
def step (link : HarqLink R) (buffer : HarqBuffer R) : HarqEvent R → Checked (HarqBuffer R)
  | .transmit rv eBits => do
      let soft ← link.softValues rv eBits
      buffer.upsert link.pid link.ndi soft rv
  | .other call => buffer.apply call

/-- The buffer after a list of events, from an empty one. -/
def run (link : HarqLink R) (events : List (HarqEvent R)) : Checked (HarqBuffer R) :=
  events.foldlM link.step {}

/-- The call that an event amounts to, without its values. -/
def mark {R : Type} (link : HarqLink R) : HarqEvent R → HarqMark
  | .transmit _ _ => .upsert link.pid link.ndi link.word.length
  | .other call => call.mark

end HarqLink

/-- How many outputs rate matching copies from position `j` of `n` coded positions: the number of
times it moves the position itself to the output. -/
def copies (n : Nat) (cfg : RateMatchConfig) (j : Nat) : Nat :=
  match rateMatch (List.range n) cfg with
  | .ok sources => sources.count j
  | .error _ => 0

namespace HarqLink

variable {R : Type} [CommRing R]

omit [CommRing R] in
/-- How many bits all transmissions copied from a position. -/
def copiesIn (link : HarqLink R) (events : List (HarqEvent R)) (j : Nat) : Nat :=
  (events.map fun
    | .transmit rv eBits => copies link.word.length (link.config rv eBits) j
    | .other _ => 0).sum

/-- The soft value of the bit at a position. -/
def energy (link : HarqLink R) (j : Nat) : R :=
  link.magnitude * (1 - 2 * ((link.word.getD j 0).toNat : R))

omit [CommRing R] in
/-- What an accepted transmission copies. -/
theorem copies_of_layout {link : HarqLink R} {rv : Int} {eBits punch nCb k0 : Nat}
    (hE : 0 < eBits)
    (hlayout : (link.config rv eBits).Layout link.word.length punch nCb k0) (j : Nat) :
    copies link.word.length (link.config rv eBits) j =
      ((Finset.range eBits).filter fun i =>
        sourceIndex link.word.length punch nCb k0 i = j).card := by
  have hsources : rateMatch (table link.word.length id) (link.config rv eBits) =
      .ok (table eBits fun i => sourceIndex link.word.length punch nCb k0 i) :=
    rate_match_eq_ok.mpr ⟨hE, punch, nCb, k0, hlayout, rfl⟩
  rw [copies, Table.range_eq_table, hsources]
  exact Table.count_table eBits _ j

omit [CommRing R] in
/-- The layout of an accepted transmission. -/
theorem layout_of_accepted {link : HarqLink R} {rv : Int} {eBits : Nat} {sent : Bits}
    (h : rateMatch link.word (link.config rv eBits) = .ok sent) : 0 < eBits ∧
      ∃ punch nCb k0, (link.config rv eBits).Layout link.word.length punch nCb k0 ∧
        nCb = link.word.length - punch ∧
        sent = table eBits fun i =>
          link.word.getD (sourceIndex link.word.length punch nCb k0 i) 0 := by
  rw [Table.eq_table link.word 0, rate_match_eq_ok] at h
  obtain ⟨hE, punch, nCb, k0, hlayout, rfl⟩ := h
  exact ⟨hE, punch, nCb, k0, hlayout, hlayout.n_cb_eq, rfl⟩

/-- Recovery of one accepted transmission gives every position the soft value of its bit as often
as the bit was copied. -/
theorem soft_values_ok {link : HarqLink R} (hbits : IsBits link.word) {rv : Int} {eBits : Nat}
    {sent : Bits} (h : rateMatch link.word (link.config rv eBits) = .ok sent) :
    link.softValues rv eBits = .ok (table link.word.length fun j =>
      link.energy j * copies link.word.length (link.config rv eBits) j) := by
  obtain ⟨hE, punch, nCb, k0, hlayout, hwhole, hsent⟩ := layout_of_accepted h
  have hbit (j : Nat) : IsBit (link.word.getD j 0) := hbits.getD j
  have hsentBits : IsBits sent := by
    rw [hsent]
    intro b hb
    obtain ⟨i, _, rfl⟩ := List.mem_map.mp hb
    exact hbit _
  rw [softValues, h, Checked.ok_bind, bits_to_llr_ok hsentBits, Checked.ok_bind, hsent,
    Table.map_table, rate_dematch_ok hlayout (reads_last_of_le (Nat.le_of_eq hwhole) _ _),
    Except.ok.injEq]
  refine Table.table_congr fun j _ => ?_
  -- every soft value added at `j` is that of bit `j`
  have hconst : ∀ i ∈ (Finset.range eBits).filter
      (fun i => sourceIndex link.word.length punch nCb k0 i = j),
      bitLlr link.magnitude
        (link.word.getD (sourceIndex link.word.length punch nCb k0 i) 0) = link.energy j := by
    intro i hi
    rw [(Finset.mem_filter.mp hi).2, bit_llr_eq (hbit j), energy]
  rw [Finset.sum_congr rfl hconst, Finset.sum_const, nsmul_eq_mul, mul_comm,
    copies_of_layout hE hlayout]

/-- What the process of the word holds after some events. -/
def Holds (link : HarqLink R) (events : List (HarqEvent R)) (buffer : HarqBuffer R) : Prop :=
  ((∀ rv eBits, .transmit rv eBits ∉ events) ∧ buffer.procs link.pid = none) ∨
  ((∃ rv eBits, .transmit rv eBits ∈ events) ∧ ∃ process, buffer.procs link.pid = some process ∧
    process.ndi = link.ndi ∧ process.softBuffer =
      table link.word.length fun j => link.energy j * link.copiesIn events j)

omit [CommRing R] in
/-- Without a transmission nothing is copied. -/
theorem copies_in_none {link : HarqLink R} {events : List (HarqEvent R)}
    (h : ∀ rv eBits, .transmit rv eBits ∉ events) (j : Nat) : link.copiesIn events j = 0 := by
  refine List.sum_eq_zero fun x hx => ?_
  obtain ⟨event, hevent, rfl⟩ := List.mem_map.mp hx
  cases event with
  | transmit rv eBits => exact absurd hevent (h rv eBits)
  | other call => rfl

/-- A call for another process keeps what the process of the word holds. -/
theorem holds_other {link : HarqLink R} {events : List (HarqEvent R)}
    {buffer updated : HarqBuffer R} (h : link.Holds events buffer) {call : HarqCall R}
    (hcall : call.pid ≠ link.pid) (happly : buffer.apply call = .ok updated) :
    link.Holds (events ++ [.other call]) updated := by
  have hcopies (j : Nat) :
      link.copiesIn (events ++ [.other call]) j = link.copiesIn events j := by
    simp [copiesIn]
  unfold Holds
  simp only [HarqBuffer.apply_other hcall happly, hcopies, List.mem_append, List.mem_singleton,
    reduceCtorEq, or_false]
  exact h

/-- The soft values of a transmission find room in the process of the word. -/
theorem holds_room {link : HarqLink R} {events : List (HarqEvent R)} {buffer : HarqBuffer R}
    (h : link.Holds events buffer) {process : HarqProcess R}
    (hprocess : buffer.procs link.pid = some process) :
    process.ndi = link.ndi ∧ process.softBuffer =
      table link.word.length fun j => link.energy j * link.copiesIn events j := by
  rcases h with ⟨_, habsent⟩ | ⟨_, stored, hstored, hndi, hsoft⟩
  · rw [habsent] at hprocess
    cases hprocess
  · rw [hstored, Option.some.injEq] at hprocess
    exact hprocess ▸ ⟨hndi, hsoft⟩

/-- A transmission adds its energy to what the process of the word holds. -/
theorem holds_transmit {link : HarqLink R} {events : List (HarqEvent R)}
    {buffer updated : HarqBuffer R} (h : link.Holds events buffer) {rv : Int} {eBits : Nat}
    (happly : buffer.apply (.upsert link.pid link.ndi (table link.word.length fun j =>
      link.energy j * copies link.word.length (link.config rv eBits) j) rv) = .ok updated) :
    link.Holds (events ++ [.transmit rv eBits]) updated := by
  have hcopies (j : Nat) : link.copiesIn (events ++ [.transmit rv eBits]) j =
      link.copiesIn events j + copies link.word.length (link.config rv eBits) j := by
    simp [copiesIn]
  refine .inr ⟨⟨rv, eBits, by simp⟩, ?_⟩
  rcases h with ⟨hnone, habsent⟩ | ⟨_, process, hprocess, hndi, hsoft⟩
  · -- the first transmission is stored
    obtain ⟨stored, hstored, hstoredNdi, hstoredSoft⟩ := HarqBuffer.upsert_absent habsent happly
    refine ⟨stored, hstored, hstoredNdi, ?_⟩
    rw [hstoredSoft]
    exact Table.table_congr fun j _ => by rw [hcopies, copies_in_none hnone, zero_add]
  · -- a later one is added to what is stored
    rw [← hndi] at happly
    obtain ⟨combined, hcombined, hcombinedNdi, hcombinedSoft⟩ :=
      HarqBuffer.upsert_combine hprocess (by simp [hsoft]) happly
    refine ⟨combined, hcombined, hcombinedNdi.trans hndi, ?_⟩
    rw [hcombinedSoft, hsoft, Table.zip_with_table]
    exact Table.table_congr fun j _ => by rw [hcopies, Nat.cast_add, mul_add]

/-- Whatever the order of transmissions and of calls for other processes, the process of the word
holds the energy of the transmissions when the counts fit; otherwise the run is undefined. -/
theorem run_cases {link : HarqLink R} (hbits : IsBits link.word) {events : List (HarqEvent R)}
    (hothers : ∀ call, .other call ∈ events → call.pid ≠ link.pid)
    (haccepted : ∀ rv eBits, .transmit rv eBits ∈ events →
      ∃ sent, rateMatch link.word (link.config rv eBits) = .ok sent) :
    (CountsFit (events.map link.mark) ∧ ∃ buffer, link.run events = .ok buffer ∧
      link.Holds events buffer) ∨
    (¬CountsFit (events.map link.mark) ∧ link.run events = .error .undefined) := by
  refine HarqBuffer.run_cases link.step link.mark link.Holds (.inl ⟨by simp, rfl⟩) events
    fun event hevent before buffer hholds => ?_
  cases event with
  | other call =>
      exact ⟨call, rfl, rfl, fun updated hupdated =>
        holds_other hholds (hothers call hevent) hupdated⟩
  | transmit rv eBits =>
      obtain ⟨sent, hsent⟩ := haccepted rv eBits hevent
      refine ⟨.upsert link.pid link.ndi (table link.word.length fun j =>
        link.energy j * copies link.word.length (link.config rv eBits) j) rv, ?_, ?_,
        fun updated hupdated => holds_transmit hholds hupdated⟩
      · rw [HarqCall.mark, Table.length_table, mark]
      · rw [step, soft_values_ok hbits hsent, Checked.ok_bind]
        refine HarqBuffer.upsert_eq_apply (fun process hprocess => ?_) rv
        rw [(holds_room hholds hprocess).2, Table.length_table, Table.length_table]

omit [CommRing R] in
/-- A word that is accepted once is accepted in every version and for every output length. -/
theorem accepted_any {link : HarqLink R} {rv : Int} {eBits : Nat} {sent : Bits}
    (h : rateMatch link.word (link.config rv eBits) = .ok sent) (rv' : Int) {eBits' : Nat}
    (hE : 0 < eBits') : ∃ sent', rateMatch link.word (link.config rv' eBits') = .ok sent' := by
  obtain ⟨_, punch, nCb, k0, hlayout, _⟩ := layout_of_accepted h
  obtain ⟨k0', hlayout'⟩ := hlayout.any_version rv' eBits'
  rw [Table.eq_table link.word 0]
  exact ⟨_, rate_match_eq_ok.mpr ⟨hE, punch, nCb, k0', hlayout', rfl⟩⟩

omit [CommRing R] in
/-- Punctured positions are never copied. -/
theorem copies_punctured {link : HarqLink R} {rv : Int} {eBits : Nat} {sent : Bits}
    (h : rateMatch link.word (link.config rv eBits) = .ok sent) (hpunctures : link.cfg.Punctures)
    {j : Nat} (hj : (j : Int) < 2 * link.cfg.zc) :
    copies link.word.length (link.config rv eBits) j = 0 := by
  obtain ⟨hE, punch, nCb, k0, hlayout, _⟩ := layout_of_accepted h
  have hpunch : (punch : Int) = 2 * link.cfg.zc := by
    rcases hlayout.punch_eq with ⟨⟨doubled, hdoubled, rfl⟩, _⟩ | ⟨_, hnot⟩
    · obtain ⟨rfl, _, hhigh⟩ := int32_eq_ok.mp hdoubled
      have hpos := hpunctures.2
      exact to_size_t_of_lt (by show 0 ≤ 2 * link.cfg.zc; omega)
        (by show 2 * link.cfg.zc < 2 ^ 64; change 2 * link.cfg.zc < 2 ^ 31 at hhigh; omega)
    · exact absurd hpunctures hnot
  rw [copies_of_layout hE hlayout, Finset.card_eq_zero, Finset.filter_eq_empty_iff]
  intro i _ hsource
  have hrange := source_index_range hlayout.punch_lt nCb k0 i
  omega

end HarqLink

/-- What the combined values of a word are: nothing before its first transmission, and then at
position `j` the soft value of bit `j` times the number of transmitted bits that were copied from
`j`; punctured positions hold zero. -/
def HarqLink.Accumulates {R : Type} [CommRing R] (link : HarqLink R) (events : List (HarqEvent R))
    (buffer : HarqBuffer R) : Prop :=
  ((∀ rv eBits, .transmit rv eBits ∉ events) → buffer.get link.pid = none) ∧
  ((∃ rv eBits, .transmit rv eBits ∈ events) → ∃ soft, buffer.get link.pid = some soft ∧
    soft.length = link.word.length ∧ ∀ j (hj : j < link.word.length),
      soft[j]? = some (link.magnitude * (1 - 2 * ((link.word.get ⟨j, hj⟩).toNat : R)) *
        link.copiesIn events j) ∧
      (link.cfg.Punctures → (j : Int) < 2 * link.cfg.zc → soft[j]? = some 0))

/-- The transmitted energy is what the process of the word holds. -/
theorem HarqLink.Holds.accumulates {R : Type} [CommRing R] {link : HarqLink R}
    {events : List (HarqEvent R)} {buffer : HarqBuffer R} (h : link.Holds events buffer)
    (haccepted : ∀ rv eBits, .transmit rv eBits ∈ events →
      ∃ sent, rateMatch link.word (link.config rv eBits) = .ok sent) :
    link.Accumulates events buffer := by
  refine ⟨fun hnone => ?_, fun hsome => ?_⟩
  · rcases h with ⟨_, habsent⟩ | ⟨⟨rv, eBits, hmem⟩, _⟩
    · rw [HarqBuffer.get, habsent]
      rfl
    · exact absurd hmem (hnone rv eBits)
  · rcases h with ⟨hnone, _⟩ | ⟨_, process, hprocess, _, hsoft⟩
    · obtain ⟨rv, eBits, hmem⟩ := hsome
      exact absurd hmem (hnone rv eBits)
    · refine ⟨process.softBuffer, by rw [HarqBuffer.get, hprocess]; rfl, by simp [hsoft], ?_⟩
      intro j hj
      have hvalue : process.softBuffer[j]? = some (link.energy j * link.copiesIn events j) := by
        rw [hsoft, Table.getElem?_table hj]
      refine ⟨by simpa [HarqLink.energy, hj] using hvalue, fun hpunctures hlow => ?_⟩
      have hzero : link.copiesIn events j = 0 := by
        refine List.sum_eq_zero fun x hx => ?_
        obtain ⟨event, hevent, rfl⟩ := List.mem_map.mp hx
        cases event with
        | other call => rfl
        | transmit rv eBits =>
            obtain ⟨sent, hsent⟩ := haccepted rv eBits hevent
            exact HarqLink.copies_punctured hsent hpunctures hlow
      rw [hvalue, hzero, Nat.cast_zero, mul_zero]

/-- Combining accumulates exactly the transmitted energy, whatever transmissions of a word are
combined under one process, and whatever happens to other processes in between, exactly when the
counts of the calls fit: in no process are as many vectors added up in a row as an `int` has
nonnegative values. -/
theorem harq_accumulates_energy_iff {R : Type} [CommRing R] (link : HarqLink R)
    (hbits : IsBits link.word) (events : List (HarqEvent R))
    (hothers : ∀ call, .other call ∈ events → call.pid ≠ link.pid)
    (haccepted : ∃ rv eBits sent, rateMatch link.word (link.config rv eBits) = .ok sent)
    (hlengths : ∀ rv eBits, .transmit rv eBits ∈ events → 0 < eBits) :
    (∃ buffer, link.run events = .ok buffer ∧ link.Accumulates events buffer) ↔
      CountsFit (events.map link.mark) := by
  obtain ⟨rv, eBits, sent, hsent⟩ := haccepted
  have hall (rv' : Int) (eBits' : Nat) (hmem : HarqEvent.transmit rv' eBits' ∈ events) :
      ∃ sent', rateMatch link.word (link.config rv' eBits') = .ok sent' :=
    HarqLink.accepted_any hsent rv' (hlengths rv' eBits' hmem)
  rcases HarqLink.run_cases hbits hothers hall with ⟨hfit, buffer, hrun, hholds⟩ | ⟨hover, hend⟩
  · exact iff_of_true ⟨buffer, hrun, hholds.accumulates hall⟩ hfit
  · refine iff_of_false ?_ hover
    rintro ⟨buffer, hrun, _⟩
    rw [hend] at hrun
    cases hrun

/-- Two versions of a four-bit word with a clear of another process in between. -/
theorem harq_accumulates_energy_two :
    let link : HarqLink ℤ :=
      { word := [0, 1, 1, 0], cfg := { punctureFirst2z := false }, magnitude := 3, pid := 1,
        ndi := 0 }
    let events := [.transmit 0 3, .other (.clear 2), .transmit 2 4]
    ∃ buffer soft, link.run events = .ok buffer ∧ buffer.get 1 = some soft ∧
      soft[1]? = some (-6) := by
  intro link events
  have hcopies : link.copiesIn events 1 = 2 := by decide +kernel
  obtain ⟨buffer, hrun, _, hsome⟩ := (harq_accumulates_energy_iff link (by simp [link]) events
    (by simp [events, link, HarqCall.pid]) ⟨0, 3, [0, 1, 1], by decide⟩
    fun rv eBits hmem => by
      simp [events] at hmem
      omega).mpr (CountsFit.of_length (by decide))
  obtain ⟨soft, hget, _, hvalues⟩ := hsome ⟨0, 3, by simp [events]⟩
  have hvalue := (hvalues 1 (by decide)).1
  rw [hcopies] at hvalue
  exact ⟨buffer, soft, hrun, hget, hvalue⟩

/-- The last of as many transmissions of a word as an `int` has nonnegative values overflows the
counter, and nothing is left to be combined. -/
theorem harq_transmissions_overflow :
    let link : HarqLink ℤ :=
      { word := [0, 1, 1, 0], cfg := { punctureFirst2z := false }, magnitude := 3, pid := 1,
        ndi := 0 }
    let events := List.replicate (2 ^ 31) (HarqEvent.transmit 0 3)
    (∃ sent, rateMatch link.word (link.config 0 3) = .ok sent) ∧
      ¬∃ buffer, link.run events = .ok buffer ∧ link.Accumulates events buffer := by
  intro link events
  have hsent : rateMatch link.word (link.config 0 3) = .ok [0, 1, 1] := by decide
  have hmarks : events.map link.mark = List.replicate (2 ^ 31) (.upsert 1 0 4) := List.map_replicate
  have hevent {event : HarqEvent ℤ} (h : event ∈ events) : event = .transmit 0 3 :=
    List.eq_of_mem_replicate h
  have hothers : ∀ call, .other call ∈ events → call.pid ≠ link.pid :=
    fun call h => nomatch hevent h
  have haccepted : ∀ rv eBits, .transmit rv eBits ∈ events →
      ∃ sent, rateMatch link.word (link.config rv eBits) = .ok sent := by
    intro rv eBits h
    obtain ⟨⟩ := hevent h
    exact ⟨_, hsent⟩
  have hbits : IsBits link.word := by simp [link]
  refine ⟨⟨_, hsent⟩, ?_⟩
  rcases HarqLink.run_cases hbits hothers haccepted with ⟨hfit, _⟩ | ⟨_, hend⟩
  · rw [hmarks] at hfit
    exact absurd hfit (CountsFit.not_replicate 1 0 4)
  · rintro ⟨buffer, hrun, _⟩
    rw [hend] at hrun
    cases hrun

end NrBaseband
