import NrBaseband.Types
import NrBaseband.Foundation.MachineInt
import NrBaseband.Foundation.OrderStatistics
import Mathlib.Data.Rat.Floor

/-!
# Slot deadlines

`evaluate_deadlines` compares the times of a run with the deadline of a slot: percentiles, the
maximum and the share of the misses, in exact arithmetic. `deadline_reports_iff` says when the
report is coherent: `deadline_misses` is an `int`, so it is where the misses fit one.
-/

namespace NrBaseband

open Foundation Foundation.MachineInt OrderStatistics

variable {R : Type} [Field R] [LinearOrder R]

/-- `NumerologyConfig`. -/
structure NumerologyConfig (R : Type) [Zero R] where
  mu : Int := 0
  slotDurationUs : R := 0

/-- `DeadlineReport`. -/
structure DeadlineReport (R : Type) [Field R] where
  mu : Int := 0
  slotDurationUs : R := ((1000 : Nat) : R)
  deadlineUs : R := ((1000 : Nat) : R)
  medianUs : R := 0
  p90Us : R := 0
  p95Us : R := 0
  p99Us : R := 0
  maxUs : R := 0
  samples : Int := 0
  deadlineMisses : Int := 0
  missRatio : R := 0
  timingSource : String := "cpu_synthetic"
  gpuClaim : String := "none — NEVER claim GPU timing closure from CPU synthetic"

/-- `slot_duration_us_for_mu`. -/
def slotDurationUsForMu (mu : Int) : Checked R := do
  require (mu ≥ 0 ∧ mu ≤ 4) "mu must be 0..4"
  return ((1000 : Nat) : R) / ((1 <<< mu.toNat : Nat) : R)

/-- The slot duration of `evaluate_deadlines`: the configured one, if positive. -/
def slotDuration (cfg : NumerologyConfig R) : Checked R :=
  if cfg.slotDurationUs > 0 then .ok cfg.slotDurationUs else slotDurationUsForMu cfg.mu

/-- `n / 100`. -/
def hundredths (n : Nat) : R := (n : R) / ((100 : Nat) : R)

/-- `pct` of `evaluate_deadlines`, on the sorted samples. -/
def pct [FloorSemiring R] (us : List R) (p : R) : Checked R :=
  let idx := p * ((us.length - 1 : Nat) : R)
  Checked.read us ⌊idx⌋₊

/-- The body of the loop of `evaluate_deadlines`. -/
def countMiss {α : Type} [LinearOrder α] (deadline : α) (misses : Int) (v : α) : Checked Int :=
  if v > deadline then int32 (misses + 1) else .ok misses

/-- `evaluate_deadlines`. -/
def evaluateDeadlines [FloorSemiring R] (sampleUs : List R)
    (cfg : NumerologyConfig R) (deadlineFraction : R) : Checked (DeadlineReport R) := do
  require (deadlineFraction > 0 ∧ deadlineFraction ≤ 1) "deadline_fraction"
  let slot ← slotDuration cfg
  let r : DeadlineReport R := {
    mu := cfg.mu
    slotDurationUs := slot
    deadlineUs := slot * deadlineFraction
    samples := toInt32 sampleUs.length }
  if sampleUs.isEmpty then return r
  let us := sampleUs.mergeSort (· ≤ ·)
  let median ← pct us (hundredths 50)
  let p90 ← pct us (hundredths 90)
  let p95 ← pct us (hundredths 95)
  let p99 ← pct us (hundredths 99)
  let max ← Checked.read us (us.length - 1)
  let misses ← us.foldlM (countMiss r.deadlineUs) 0
  return { r with
    medianUs := median
    p90Us := p90
    p95Us := p95
    p99Us := p99
    maxUs := max
    deadlineMisses := misses
    missRatio := (misses : R) / (us.length : R) }

/-! ## The report -/

section Misses

variable {α : Type} [LinearOrder α]

/-- The number of samples above a deadline. -/
def missesAbove (deadline : α) (samples : List α) : Nat := samples.countP (deadline < ·)

/-- The misses of a run that starts with a sample. -/
theorem misses_above_cons (deadline v : α) (us : List α) :
    missesAbove deadline (v :: us) = missesAbove deadline us + if deadline < v then 1 else 0 := by
  simp [missesAbove, List.countP_cons]

/-- The misses of a run that goes on with a sample. -/
theorem misses_above_concat (deadline v : α) (us : List α) :
    missesAbove deadline (us ++ [v]) = missesAbove deadline us + if deadline < v then 1 else 0 := by
  simp [missesAbove, List.countP_cons]

/-- The loop counts the misses, as long as they fit. -/
theorem count_miss_loop (deadline : α) (us : List α) {misses : Nat} (h : misses < 2 ^ 31) :
    us.foldlM (countMiss deadline) (misses : Int) =
      int32 ((misses + missesAbove deadline us : Nat) : Int) := by
  induction us generalizing misses with
  | nil =>
      show Except.ok (misses : Int) = int32 ((misses + 0 : Nat) : Int)
      rw [Nat.add_zero, int32_of_range (by omega) (by omega)]
  | cons v us ih =>
      rw [List.foldlM_cons, countMiss, misses_above_cons]
      by_cases hmiss : deadline < v
      · rw [if_pos hmiss, if_pos hmiss]
        by_cases hfits : misses + 1 < 2 ^ 31
        · rw [int32_of_range (by omega) (by omega), Checked.ok_bind]
          show us.foldlM (countMiss deadline) ((misses + 1 : Nat) : Int) = _
          rw [ih hfits, Nat.add_assoc, Nat.add_comm 1]
        · rw [int32, if_neg (by omega), Checked.error_bind, int32, if_neg (by omega)]
      · rw [if_neg hmiss, if_neg hmiss, Checked.ok_bind, ih h, Nat.add_zero]

end Misses

variable [IsStrictOrderedRing R]

/-- A larger number of hundredths is a larger fraction. -/
theorem hundredths_mono {m n : Nat} (h : m ≤ n) : (hundredths m : R) ≤ hundredths n :=
  div_le_div_of_nonneg_right (Nat.cast_le.mpr h) (Nat.cast_nonneg 100)

/-- Up to a hundred hundredths are at most one. -/
theorem hundredths_le_one {n : Nat} (h : n ≤ 100) : (hundredths n : R) ≤ 1 := by
  refine (hundredths_mono h).trans (le_of_eq ?_)
  exact div_self (Nat.cast_ne_zero.mpr (by decide))

/-- The ranked samples of a report. -/
structure Ranked (samples : List R) (median p90 p95 p99 max : R) : Prop where
  median_mem : median ∈ samples
  p90_mem : p90 ∈ samples
  p95_mem : p95 ∈ samples
  p99_mem : p99 ∈ samples
  max_mem : max ∈ samples
  median_le_p90 : median ≤ p90
  p90_le_p95 : p90 ≤ p95
  p95_le_p99 : p95 ≤ p99
  p99_le_max : p99 ≤ max
  le_max : ∀ v ∈ samples, v ≤ max

omit [IsStrictOrderedRing R] [Field R] in
/-- The order of the samples does not matter to their ranks. -/
theorem Ranked.perm {us samples : List R} (hperm : us.Perm samples) {median p90 p95 p99 max : R}
    (h : Ranked us median p90 p95 p99 max) : Ranked samples median p90 p95 p99 max := {
  median_mem := hperm.subset h.median_mem
  p90_mem := hperm.subset h.p90_mem
  p95_mem := hperm.subset h.p95_mem
  p99_mem := hperm.subset h.p99_mem
  max_mem := hperm.subset h.max_mem
  median_le_p90 := h.median_le_p90
  p90_le_p95 := h.p90_le_p95
  p95_le_p99 := h.p95_le_p99
  p99_le_max := h.p99_le_max
  le_max := fun v hv => h.le_max v (hperm.symm.subset hv) }

variable [FloorSemiring R]

/-- The percentiles and the maximum of sorted samples are read inside of them, in order. -/
theorem percentiles_ok {us : List R} (hsorted : us.SortedLE) (hne : 0 < us.length) :
    ∃ median p90 p95 p99 max, pct us (hundredths 50) = .ok median ∧
      pct us (hundredths 90) = .ok p90 ∧ pct us (hundredths 95) = .ok p95 ∧
      pct us (hundredths 99) = .ok p99 ∧ Checked.read us (us.length - 1) = .ok max ∧
      Ranked us median p90 p95 p99 max := by
  have hrank (n : Nat) (hn : n ≤ 100) : rank (hundredths n : R) us.length < us.length :=
    rank_lt (hundredths_le_one hn) hne
  have hlast : us.length - 1 < us.length := Nat.sub_one_lt_of_lt hne
  have h50 := hrank 50 (by decide)
  have h90 := hrank 90 (by decide)
  have h95 := hrank 95 (by decide)
  have h99 := hrank 99 (by decide)
  refine ⟨_, _, _, _, _, Checked.read_of_lt h50, Checked.read_of_lt h90, Checked.read_of_lt h95,
    Checked.read_of_lt h99, Checked.read_of_lt hlast, ?_⟩
  exact {
    median_mem := List.getElem_mem h50
    p90_mem := List.getElem_mem h90
    p95_mem := List.getElem_mem h95
    p99_mem := List.getElem_mem h99
    max_mem := List.getElem_mem hlast
    median_le_p90 := at_rank_le hsorted (hundredths_mono (by decide)) h50 h90
    p90_le_p95 := at_rank_le hsorted (hundredths_mono (by decide)) h90 h95
    p95_le_p99 := at_rank_le hsorted (hundredths_mono (by decide)) h95 h99
    p99_le_max := le_last hsorted hlast (List.getElem_mem h99)
    le_max := fun _ => le_last hsorted hlast }

/-- The report of a run with samples: they are ranked, and the rest depends on the misses. -/
theorem evaluate_deadlines_eq {samples : List R} (hne : samples ≠ []) {cfg : NumerologyConfig R}
    {slot f : R} (hslot : slotDuration cfg = .ok slot) (hf : 0 < f ∧ f ≤ 1) :
    ∃ median p90 p95 p99 max, Ranked samples median p90 p95 p99 max ∧
      evaluateDeadlines samples cfg f =
        int32 (missesAbove (slot * f) samples) >>= fun misses => .ok {
          mu := cfg.mu
          slotDurationUs := slot
          deadlineUs := slot * f
          samples := toInt32 samples.length
          medianUs := median
          p90Us := p90
          p95Us := p95
          p99Us := p99
          maxUs := max
          deadlineMisses := misses
          missRatio := (misses : R) / (samples.length : R) } := by
  have hperm := List.mergeSort_perm samples (· ≤ ·)
  have hempty : ¬samples.isEmpty = true := mt List.isEmpty_iff.mp hne
  have hpos : 0 < (samples.mergeSort (· ≤ ·)).length := by
    rw [List.length_mergeSort]
    exact List.length_pos_iff.mpr hne
  have hmisses : missesAbove (slot * f) (samples.mergeSort (· ≤ ·)) =
      missesAbove (slot * f) samples := hperm.countP_eq _
  have hloop := count_miss_loop (slot * f) (samples.mergeSort (· ≤ ·)) (Nat.two_pow_pos 31)
  obtain ⟨median, p90, p95, p99, max, h50, h90, h95, h99, hmax, hranked⟩ :=
    percentiles_ok List.sortedLE_mergeSort hpos
  refine ⟨median, p90, p95, p99, max, hranked.perm hperm, ?_⟩
  rw [Nat.zero_add, hmisses] at hloop
  rw [evaluateDeadlines, require_of hf, Checked.ok_bind, hslot, Checked.ok_bind]
  dsimp only
  rw [if_neg hempty, h50, h90, h95, h99, hmax]
  show (samples.mergeSort (· ≤ ·)).foldlM (countMiss (slot * f)) ((0 : Nat) : Int) >>= _ = _
  rw [hloop, List.length_mergeSort]
  rfl

/-! ## Coherence -/

/-- A report that is coherent: its percentiles are ranked and its misses counted. -/
structure Coherent (samples : List R) (r : DeadlineReport R) : Prop extends
    Ranked samples r.medianUs r.p90Us r.p95Us r.p99Us r.maxUs where
  misses : r.deadlineMisses = missesAbove r.deadlineUs samples
  no_miss_iff : r.deadlineMisses = 0 ↔ r.maxUs ≤ r.deadlineUs

omit [IsStrictOrderedRing R] in
/-- The order of the samples does not matter to the report. -/
theorem evaluate_deadlines_perm {samples other : List R} (h : other.Perm samples)
    (cfg : NumerologyConfig R) (f : R) :
    evaluateDeadlines other cfg f = evaluateDeadlines samples cfg f := by
  have hempty : other.isEmpty = samples.isEmpty := h.isEmpty_eq
  rw [evaluateDeadlines, evaluateDeadlines, sort_eq_of_perm h, h.length_eq, hempty]

variable {cfg : NumerologyConfig R} {slot f : R}

/-- The report is coherent exactly where its misses fit. -/
theorem coherent_iff {samples : List R} (hne : samples ≠ []) (hslot : slotDuration cfg = .ok slot)
    (hf : 0 < f ∧ f ≤ 1) :
    (∃ report, evaluateDeadlines samples cfg f = .ok report ∧ Coherent samples report) ↔
      missesAbove (slot * f) samples < 2 ^ 31 := by
  obtain ⟨median, p90, p95, p99, max, hranked, hreport⟩ := evaluate_deadlines_eq hne hslot hf
  rw [hreport]
  constructor
  · rintro ⟨report, hrun, -⟩
    obtain ⟨misses, hmisses, -⟩ := Checked.bind_eq_ok.mp hrun
    exact_mod_cast (int32_eq_ok.mp hmisses).2.2
  · intro hfits
    rw [int32_of_range (by omega) (by omega), Checked.ok_bind]
    refine ⟨_, rfl, { hranked with misses := rfl, no_miss_iff := ?_ }⟩
    rw [← OrderStatistics.count_above_eq_zero hranked.max_mem hranked.le_max]
    exact Int.natCast_eq_zero

/-- The miss ratio of a report and of that with one more sample. -/
theorem appended_iff {samples : List R} (hne : samples ≠ []) (hslot : slotDuration cfg = .ok slot)
    (hf : 0 < f ∧ f ≤ 1) (sample : R) :
    (∃ report appended, evaluateDeadlines samples cfg f = .ok report ∧
      evaluateDeadlines (samples ++ [sample]) cfg f = .ok appended ∧
      (sample ≤ report.deadlineUs → appended.missRatio ≤ report.missRatio) ∧
      (report.deadlineUs < sample → report.missRatio ≤ appended.missRatio)) ↔
      missesAbove (slot * f) (samples ++ [sample]) < 2 ^ 31 := by
  have hpos : 0 < samples.length := List.length_pos_iff.mpr hne
  have hlonger := misses_above_concat (slot * f) sample samples
  have hbound : missesAbove (slot * f) samples ≤ samples.length := List.countP_le_length
  obtain ⟨_, _, _, _, _, -, hreport⟩ := evaluate_deadlines_eq hne hslot hf
  have hlong : samples ++ [sample] ≠ [] := by simp
  obtain ⟨_, _, _, _, _, -, happended⟩ := evaluate_deadlines_eq hlong hslot hf
  rw [hreport, happended]
  constructor
  · rintro ⟨report, appended, -, hrun, -⟩
    obtain ⟨misses, hmisses, -⟩ := Checked.bind_eq_ok.mp hrun
    exact_mod_cast (int32_eq_ok.mp hmisses).2.2
  · intro hfits
    rw [int32_of_range (by omega) (by omega), int32_of_range (by omega) (by omega),
      Checked.ok_bind, Checked.ok_bind]
    refine ⟨_, _, rfl, rfl, fun hbelow => ?_, fun habove => ?_⟩
    · show ((missesAbove (slot * f) (samples ++ [sample]) : Int) : R) /
        ((samples ++ [sample]).length : R) ≤
          ((missesAbove (slot * f) samples : Int) : R) / (samples.length : R)
      rw [hlonger, if_neg (not_lt.mpr hbelow), Nat.add_zero, List.length_append, Int.cast_natCast]
      exact share_succ_le (missesAbove (slot * f) samples) hpos
    · show ((missesAbove (slot * f) samples : Int) : R) / (samples.length : R) ≤
        ((missesAbove (slot * f) (samples ++ [sample]) : Int) : R) /
          ((samples ++ [sample]).length : R)
      rw [hlonger, if_pos habove, List.length_append, Int.cast_natCast, Int.cast_natCast]
      exact le_share_succ hbound hpos

/-- For every accepted configuration the report does not depend on the order of the samples; it is
coherent exactly where its misses fit an `int`, and so is the effect of one more sample. -/
theorem deadline_reports_iff {samples : List R} (hne : samples ≠ [])
    (hslot : slotDuration cfg = .ok slot) (hf : 0 < f ∧ f ≤ 1) :
    (∀ other, other.Perm samples →
      evaluateDeadlines other cfg f = evaluateDeadlines samples cfg f) ∧
    ((∃ report, evaluateDeadlines samples cfg f = .ok report ∧ Coherent samples report) ↔
      missesAbove (slot * f) samples < 2 ^ 31) ∧
    ∀ sample, (∃ report appended, evaluateDeadlines samples cfg f = .ok report ∧
      evaluateDeadlines (samples ++ [sample]) cfg f = .ok appended ∧
      (sample ≤ report.deadlineUs → appended.missRatio ≤ report.missRatio) ∧
      (report.deadlineUs < sample → report.missRatio ≤ appended.missRatio)) ↔
      missesAbove (slot * f) (samples ++ [sample]) < 2 ^ 31 :=
  ⟨fun _ h => evaluate_deadlines_perm h cfg f, coherent_iff hne hslot hf,
    appended_iff hne hslot hf⟩

/-- The slot of the default configuration takes a millisecond. -/
theorem slot_duration_default : slotDuration ({ mu := 0 } : NumerologyConfig ℚ) = .ok 1000 := by
  rw [slotDuration, if_neg (by decide), slotDurationUsForMu, require_of (by decide)]
  norm_num

/-- Four samples, one of them late. -/
theorem deadline_reports_four :
    (∀ other, other.Perm [10, 20, 30, 2000] →
      evaluateDeadlines other { mu := 0 } (1 : ℚ) =
        evaluateDeadlines [10, 20, 30, 2000] { mu := 0 } 1) ∧
    (∃ report, evaluateDeadlines [10, 20, 30, 2000] { mu := 0 } (1 : ℚ) = .ok report ∧
      Coherent [10, 20, 30, 2000] report) ∧
    ∀ sample, ∃ report appended,
      evaluateDeadlines [10, 20, 30, 2000] { mu := 0 } (1 : ℚ) = .ok report ∧
      evaluateDeadlines ([10, 20, 30, 2000] ++ [sample]) { mu := 0 } 1 = .ok appended ∧
      (sample ≤ report.deadlineUs → appended.missRatio ≤ report.missRatio) ∧
      (report.deadlineUs < sample → report.missRatio ≤ appended.missRatio) := by
  have hfew (samples : List ℚ) (h : samples.length ≤ 5) :
      missesAbove ((1000 : ℚ) * 1) samples < 2 ^ 31 :=
    lt_of_le_of_lt List.countP_le_length (lt_of_le_of_lt h (by norm_num))
  have hsamples : ([10, 20, 30, 2000] : List ℚ) ≠ [] := by simp
  have hfraction : (0 : ℚ) < 1 ∧ (1 : ℚ) ≤ 1 := by norm_num
  obtain ⟨horder, hcoherent, happended⟩ :=
    deadline_reports_iff hsamples slot_duration_default hfraction
  exact ⟨horder, hcoherent.mpr (hfew _ (by simp)), fun sample =>
    (happended sample).mpr (hfew _ (by simp))⟩

/-- With `2 ^ 31` late samples the count of the misses overflows. -/
theorem deadline_misses_overflow :
    ¬∃ report, evaluateDeadlines (List.replicate (2 ^ 31) 2000) { mu := 0 } (1 : ℚ) =
      .ok report ∧ Coherent (List.replicate (2 ^ 31) 2000) report := by
  have hne : List.replicate (2 ^ 31) (2000 : ℚ) ≠ [] :=
    List.ne_nil_of_length_pos (by rw [List.length_replicate]; exact Nat.two_pow_pos 31)
  have hmisses : missesAbove ((1000 : ℚ) * 1) (List.replicate (2 ^ 31) 2000) = 2 ^ 31 := by
    rw [missesAbove, List.countP_replicate, if_pos (by norm_num)]
  rw [coherent_iff hne slot_duration_default (by norm_num), hmisses]
  exact Nat.lt_irrefl _

end NrBaseband
