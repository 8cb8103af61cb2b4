import NrBaseband.Scheduler
import NrBaseband.Foundation.Packing
import NrBaseband.Foundation.StableSort
import Mathlib.Tactic.NormNum

/-!
# How the carrier is packed

The packing loop is greedy packing of the carrier: `pack_prbs_eq_ok` connects them. It gives up only
where a share does not convert to an `int`. `schedule_spec` and `schedule_ok` say what a schedule
consists of, and `packing_partitions` that a packing partitions the carrier. All this holds for any
arithmetic; where it is exact, `shares_convert_iff` says which shares convert.
-/

namespace NrBaseband

open Foundation Foundation.MachineInt Foundation.Packing Foundation.StableSort

/-! ## Selection -/

section Selection

variable {R : Type} [LinearOrder R] [One R] [Add R] [Mul R] [Div R] [OfScientific R] [IntCast R]

namespace SchedulerConfig

variable (cfg : SchedulerConfig R) {ues : List (UeState R)} {selected : List (Candidate R)}

/-- A UE has a metric exactly when its spare HARQ processes are counted by an `int`. -/
theorem candidate_eq_ok {ue : UeState R} {candidate : Candidate R}
    (h : cfg.candidate ue = .ok candidate) : candidate.1 = ue ∧
      ue.harqProcessesMax - ue.harqProcessesActive < 2 ^ 31 := by
  obtain ⟨m, hm, hreturn⟩ := Checked.bind_eq_ok.mp h
  obtain ⟨spare, hspare, _⟩ := Checked.bind_eq_ok.mp hm
  exact ⟨by rw [← Except.ok.inj hreturn], (int32_eq_ok.mp hspare).2.2⟩

/-- A UE that passes has a metric when its spare HARQ processes are counted by an `int`. -/
theorem candidate_ok {ue : UeState R} (hpass : cfg.pass ue)
    (h : ue.harqProcessesMax - ue.harqProcessesActive < 2 ^ 31) :
    ∃ candidate, cfg.candidate ue = .ok candidate := by
  have hactive : ue.harqProcessesActive < ue.harqProcessesMax := by
    simp only [pass, Bool.and_eq_true, decide_eq_true_eq] at hpass
    exact hpass.2
  have hspare : int32 (ue.harqProcessesMax - ue.harqProcessesActive) =
      .ok (ue.harqProcessesMax - ue.harqProcessesActive) := int32_of_range (by omega) h
  unfold candidate UeState.compositeMetric
  dsimp only
  rw [hspare]
  exact ⟨_, rfl⟩

/-- There is a selection exactly when all eligible UEs have metrics. -/
theorem selection_ok_iff : (∃ selected, cfg.selection ues = .ok selected) ↔
    ∀ ue ∈ cfg.eligible ues, ue.harqProcessesMax - ue.harqProcessesActive < 2 ^ 31 := by
  have hcandidates : (∃ candidates, (cfg.eligible ues).mapM cfg.candidate = .ok candidates) ↔
      ∀ ue ∈ cfg.eligible ues, ue.harqProcessesMax - ue.harqProcessesActive < 2 ^ 31 := by
    rw [Checked.map_returns_iff]
    refine forall₂_congr fun ue hue => ⟨fun ⟨candidate, hcandidate⟩ => ?_, fun h => ?_⟩
    · exact (cfg.candidate_eq_ok hcandidate).2
    · exact cfg.candidate_ok (List.mem_filter.mp hue).2 h
  rw [← hcandidates]
  constructor
  · intro ⟨selected, hselected⟩
    obtain ⟨candidates, hmap, _⟩ := Checked.bind_eq_ok.mp hselected
    exact ⟨candidates, hmap⟩
  · intro ⟨candidates, hmap⟩
    exact ⟨_, Checked.bind_eq_ok.mpr ⟨candidates, hmap, rfl⟩⟩

/-- The number of selected UEs. -/
theorem selection_length (h : cfg.selection ues = .ok selected) :
    selected.length = (cfg.nSel ues).toNat := by
  obtain ⟨candidates, hcandidates, hreturn⟩ := Checked.bind_eq_ok.mp h
  have hcount := Checked.map_length hcandidates
  have hle : cfg.nSel ues ≤ (cfg.eligible ues).length :=
    (min_le_right _ _).trans (to_int32_le (Int.natCast_nonneg _))
  rw [← Except.ok.inj hreturn, List.length_take, List.length_mergeSort, hcount]
  omega

/-- The selected UEs come in descending order of their metrics. -/
theorem selection_sorted (h : cfg.selection ues = .ok selected) :
    selected.Pairwise fun a b => a.2 ≥ b.2 := by
  obtain ⟨candidates, _, hreturn⟩ := Checked.bind_eq_ok.mp h
  rw [← Except.ok.inj hreturn]
  exact (descending_sorted Prod.snd candidates).sublist (List.take_sublist _ _)

/-- Candidates that are in order are selected from the front. -/
theorem selection_of_sorted {candidates : List (Candidate R)}
    (h : (cfg.eligible ues).mapM cfg.candidate = .ok candidates)
    (hsorted : candidates.Pairwise fun a b => a.2 ≥ b.2) :
    cfg.selection ues = .ok (candidates.take (cfg.nSel ues).toNat) := by
  have horder : candidates.Pairwise fun a b => decide (a.2 ≥ b.2) = true :=
    hsorted.imp fun hab => decide_eq_true hab
  rw [selection, h, Checked.ok_bind, List.mergeSort_of_pairwise horder]
  rfl

end SchedulerConfig

end Selection

/-! ## Packing -/

section Packing

variable {R : Type} [One R] [Mul R] [Div R] [OfScientific R] [IntCast R] [FloorToInt R]
  (cfg : SchedulerConfig R)

namespace SchedulerConfig

/-- What a UE that is not the last one demands: its share, or a block where it has none. -/
def demand (sumM m : R) : Int :=
  match cfg.share sumM m with
  | .ok n => n
  | .error _ => 1

/-- The shares of the selected UEs before the last one convert to an `int`. -/
def SharesConvert (sumM : R) (selected : List (Candidate R)) : Prop :=
  ∀ candidate ∈ selected.dropLast,
    ∃ n, floorToInt ((cfg.nPrb : R) * (candidate.2 / sumM)) = .ok n

omit [OfScientific R] in
/-- A share is computed exactly when it converts to an `int`. -/
theorem share_ok_iff {sumM m : R} {n : Int} : cfg.share sumM m = .ok n ↔
    n = cfg.demand sumM m ∧ ∃ whole, floorToInt ((cfg.nPrb : R) * (m / sumM)) = .ok whole := by
  unfold demand share
  cases floorToInt ((cfg.nPrb : R) * (m / sumM)) with
  | error fault => simp
  | ok whole =>
      rw [Checked.ok_bind]
      show Except.ok (max 1 whole) = .ok n ↔ n = max 1 whole ∧ _
      rw [Except.ok.injEq, eq_comm]
      exact (and_iff_left ⟨whole, rfl⟩).symm

omit [OfScientific R] in
/-- Every demand asks for a block. -/
theorem demand_pos (sumM m : R) : 0 < cfg.demand sumM m := by
  unfold demand share
  cases floorToInt ((cfg.nPrb : R) * (m / sumM)) with
  | error fault => exact Int.zero_lt_one
  | ok whole => exact lt_of_lt_of_le Int.zero_lt_one (le_max_left 1 whole)

end SchedulerConfig

/-- The allocation of a range, given by its start and length, to a UE. -/
def allocation (candidate : Candidate R) (range : Int × Int) : PrbAllocation R where
  ueId := candidate.1.ueId
  prbStart := range.1
  prbCount := range.2
  mcs := candidate.1.mcs
  layers := candidate.1.preferredLayers
  metric := candidate.2

/-- The ranges of the selected UEs: greedy packing, laid out from the first block on. -/
def SchedulerConfig.ranges (sumM : R) (cursor remaining : Int) (selected : List (Candidate R)) :
    List (Int × Int) :=
  layOut cursor (greedy remaining (selected.map fun candidate => cfg.demand sumM candidate.2))

/-- The first UE is given its demand, or what is left. -/
theorem ranges_cons (sumM : R) (cursor remaining : Int) (candidate next : Candidate R)
    (later : List (Candidate R)) :
    cfg.ranges sumM cursor remaining (candidate :: next :: later) =
      (cursor, min (cfg.demand sumM candidate.2) remaining) ::
        cfg.ranges sumM (cursor + min (cfg.demand sumM candidate.2) remaining)
          (remaining - min (cfg.demand sumM candidate.2) remaining) (next :: later) := rfl

/-- One step of the packing loop, for a UE that is not the last one. -/
theorem pack_prbs_step {sumM : R} {candidate next : Candidate R} {later : List (Candidate R)}
    {cursor remaining taken : Int} (hcursor : 0 ≤ cursor) (hremaining : 0 ≤ remaining)
    (htotal : cursor + remaining = cfg.nPrb)
    (htaken : taken = min (cfg.demand sumM candidate.2) remaining)
    {allocations : List (PrbAllocation R)} :
    cfg.packPrbs sumM cursor remaining (candidate :: next :: later) = .ok allocations ↔
      (∃ n, floorToInt ((cfg.nPrb : R) * (candidate.2 / sumM)) = .ok n) ∧
      ∃ rest, cfg.packPrbs sumM (cursor + taken) (remaining - taken) (next :: later) = .ok rest ∧
        allocation candidate (cursor, taken) :: rest = allocations := by
  have hrange := cfg.n_prb_lt
  have hdemand := cfg.demand_pos sumM candidate.2
  have hclip : (if cfg.demand sumM candidate.2 > remaining then remaining
      else cfg.demand sumM candidate.2) = taken := by
    split <;> omega
  have hnext : int32 (cursor + taken) = .ok (cursor + taken) :=
    int32_of_range (by omega) (by omega)
  have hleft : int32 (remaining - taken) = .ok (remaining - taken) :=
    int32_of_range (by omega) (by omega)
  rw [SchedulerConfig.packPrbs, if_neg (by simp), Checked.bind_eq_ok]
  constructor
  · intro ⟨n, hn, hloop⟩
    obtain ⟨rfl, hconverts⟩ := cfg.share_ok_iff.mp hn
    dsimp only at hloop
    rw [hclip, hnext, Checked.ok_bind, hleft, Checked.ok_bind, Checked.bind_eq_ok] at hloop
    obtain ⟨rest, hpacked, hreturn⟩ := hloop
    exact ⟨hconverts, rest, hpacked, Except.ok.inj hreturn⟩
  · intro ⟨hconverts, rest, hpacked, hallocations⟩
    refine ⟨_, cfg.share_ok_iff.mpr ⟨rfl, hconverts⟩, ?_⟩
    dsimp only
    rw [hclip, hnext, Checked.ok_bind, hleft, Checked.ok_bind, hpacked, ← hallocations]
    rfl

/-- The packing loop is greedy packing. It gives up where a share does not convert to an `int`. -/
theorem pack_prbs_eq_ok {sumM : R} {selected : List (Candidate R)} {cursor remaining : Int}
    (hcursor : 0 ≤ cursor) (hremaining : 0 ≤ remaining) (htotal : cursor + remaining = cfg.nPrb)
    {allocations : List (PrbAllocation R)} :
    cfg.packPrbs sumM cursor remaining selected = .ok allocations ↔
      cfg.SharesConvert sumM selected ∧ allocations = List.zipWith allocation selected
        (cfg.ranges sumM cursor remaining selected) := by
  have hrange := cfg.n_prb_lt
  unfold SchedulerConfig.SharesConvert
  induction selected generalizing cursor remaining allocations with
  | nil =>
      rw [SchedulerConfig.packPrbs, Checked.pure_eq_ok, Except.ok.injEq]
      exact ⟨fun h => ⟨fun c hc => absurd hc List.not_mem_nil, h.symm⟩, fun h => h.2.symm⟩
  | cons candidate later ih =>
      cases later with
      | nil =>
          have hnext : int32 (cursor + remaining) = .ok (cursor + remaining) :=
            int32_of_range (by omega) (by omega)
          have hleft : int32 (remaining - remaining) = .ok (remaining - remaining) :=
            int32_of_range (by omega) (by omega)
          simp only [SchedulerConfig.packPrbs, List.isEmpty_nil, if_true, Checked.ok_bind,
            gt_iff_lt, lt_irrefl, if_false, hnext, hleft, Checked.pure_eq_ok, Except.ok.injEq]
          rw [List.dropLast_singleton]
          exact ⟨fun h => ⟨fun c hc => absurd hc List.not_mem_nil, h.symm⟩, fun h => h.2.symm⟩
      | cons next later =>
          have hdemand := cfg.demand_pos sumM candidate.2
          rw [ranges_cons, List.zipWith_cons_cons, List.dropLast_cons_cons, List.forall_mem_cons]
          -- what the UE takes
          obtain ⟨taken, htaken⟩ :
              ∃ taken, taken = min (cfg.demand sumM candidate.2) remaining := ⟨_, rfl⟩
          have hrest : ∀ {rest : List (PrbAllocation R)},
              cfg.packPrbs sumM (cursor + taken) (remaining - taken) (next :: later) = .ok rest ↔
                _ := ih (by omega) (by omega) (by omega)
          rw [pack_prbs_step cfg hcursor hremaining htotal htaken, ← htaken]
          constructor
          · intro ⟨hconverts, rest, hpacked, hallocations⟩
            obtain ⟨hlater, hrestranges⟩ := hrest.mp hpacked
            exact ⟨⟨hconverts, hlater⟩, by rw [← hallocations, hrestranges]⟩
          · intro ⟨⟨hconverts, hlater⟩, hallocations⟩
            exact ⟨hconverts, _, hrest.mpr ⟨hlater, rfl⟩, hallocations.symm⟩

end Packing

/-! ## Schedules -/

section Schedules

variable {R : Type} [LinearOrder R] [Zero R] [One R] [Add R] [Mul R] [Div R] [OfScientific R]
  [IntCast R] [FloorToInt R] (cfg : SchedulerConfig R) {ues : List (UeState R)}
  {selected : List (Candidate R)}

namespace SchedulerConfig

/-- The allocations of the selected UEs. -/
def packing (selected : List (Candidate R)) : List (PrbAllocation R) :=
  List.zipWith allocation selected (cfg.ranges (sumMetrics selected) 0 cfg.nPrb selected)

/-- What a schedule consists of. -/
theorem schedule_spec {result : ScheduleResult R} (h : cfg.schedule ues = .ok result) :
    ∃ selected, cfg.selection ues = .ok selected ∧
      cfg.SharesConvert (sumMetrics selected) selected ∧
      result.allocations = cfg.packing selected ∧
      result.selectedUes = selected.map fun candidate => candidate.1.ueId := by
  rw [schedule, require_bind_eq_ok, require_bind_eq_ok] at h
  obtain ⟨hprb, _, hselect⟩ := h
  obtain ⟨selected, hselected, hreturn⟩ := Checked.bind_eq_ok.mp hselect
  have hlength := cfg.selection_length hselected
  split at hreturn
  case isTrue hzero =>
    have hnil : selected = [] := List.eq_nil_of_length_eq_zero (by omega)
    subst hnil
    rw [← Except.ok.inj hreturn]
    exact ⟨[], hselected, fun c hc => absurd hc List.not_mem_nil, rfl, rfl⟩
  case isFalse =>
    obtain ⟨allocations, hpacked, hdone⟩ := Checked.bind_eq_ok.mp hreturn
    obtain ⟨hconvert, rfl⟩ := (pack_prbs_eq_ok cfg (le_refl 0) hprb.le (zero_add _)).mp hpacked
    rw [← Except.ok.inj hdone]
    exact ⟨selected, hselected, hconvert, rfl, rfl⟩

/-- What the schedule of a selection consists of. -/
theorem schedule_of_selection {result : ScheduleResult R} (h : cfg.schedule ues = .ok result)
    (hselected : cfg.selection ues = .ok selected) :
    cfg.SharesConvert (sumMetrics selected) selected ∧
      result.allocations = cfg.packing selected ∧
      result.selectedUes = selected.map fun candidate => candidate.1.ueId := by
  obtain ⟨other, hother, hparts⟩ := cfg.schedule_spec h
  rw [hselected, Except.ok.injEq] at hother
  rwa [hother]

/-- A selection whose shares convert is scheduled: it is packed, and its UEs are selected. -/
theorem schedule_ok (hprb : 0 < cfg.nPrb) (hues : 0 < cfg.maxUes)
    (hselected : cfg.selection ues = .ok selected)
    (hconvert : cfg.SharesConvert (sumMetrics selected) selected) :
    ∃ result, cfg.schedule ues = .ok result ∧ result.allocations = cfg.packing selected ∧
      result.selectedUes = selected.map fun candidate => candidate.1.ueId := by
  have hpacked := (pack_prbs_eq_ok cfg (le_refl 0) hprb.le (zero_add _)).mpr ⟨hconvert, rfl⟩
  have hschedules : ∃ result, cfg.schedule ues = .ok result := by
    unfold schedule
    rw [require_of hprb, Checked.ok_bind, require_of hues, Checked.ok_bind, hselected,
      Checked.ok_bind]
    split
    · exact ⟨_, rfl⟩
    · rw [hpacked]
      exact ⟨_, rfl⟩
  obtain ⟨result, hresult⟩ := hschedules
  exact ⟨result, hresult, (cfg.schedule_of_selection hresult hselected).2⟩

omit [LinearOrder R] [Zero R] [Add R] [Mul R] [Div R] [IntCast R] [FloorToInt R] in
/-- Allocations have the ranges, the UEs and the metrics they are made from. -/
theorem map_allocation {ranges : List (Int × Int)} (h : selected.length = ranges.length) :
    (List.zipWith allocation selected ranges).map (fun a => (a.prbStart, a.prbCount)) = ranges ∧
      (List.zipWith allocation selected ranges).map PrbAllocation.ueId =
        selected.map (fun candidate => candidate.1.ueId) ∧
      (List.zipWith allocation selected ranges).map PrbAllocation.metric =
        selected.map Prod.snd := by
  induction selected generalizing ranges with
  | nil => exact ⟨(List.eq_nil_of_length_eq_zero h.symm).symm, rfl, rfl⟩
  | cons candidate later ih =>
      cases ranges with
      | nil => cases h
      | cons range rest =>
          obtain ⟨hranges, hids, hmetrics⟩ := ih (Nat.succ.inj h)
          simp only [List.zipWith_cons_cons, List.map_cons, hranges, hids, hmetrics]
          exact ⟨rfl, rfl, rfl⟩

/-- The ranges, the UEs and the metrics of a packing. -/
theorem map_packing (selected : List (Candidate R)) :
    (cfg.packing selected).map (fun a => (a.prbStart, a.prbCount)) =
        cfg.ranges (sumMetrics selected) 0 cfg.nPrb selected ∧
      (cfg.packing selected).map PrbAllocation.ueId =
        selected.map (fun candidate => candidate.1.ueId) ∧
      (cfg.packing selected).map PrbAllocation.metric = selected.map Prod.snd := by
  have hlength := congrArg List.length (lay_out_amounts 0 (greedy cfg.nPrb
    (selected.map fun candidate => cfg.demand (sumMetrics selected) candidate.2)))
  rw [List.length_map, greedy_length, List.length_map] at hlength
  exact map_allocation hlength.symm

/-- The selected UEs are those of the allocations. -/
theorem schedule_ids {result : ScheduleResult R} (h : cfg.schedule ues = .ok result) :
    result.allocations.map PrbAllocation.ueId = result.selectedUes := by
  obtain ⟨selected, _, _, hallocations, hids⟩ := cfg.schedule_spec h
  rw [hallocations, (cfg.map_packing selected).2.1, hids]

/-- The lengths of a packing. -/
theorem packing_counts (selected : List (Candidate R)) :
    (cfg.packing selected).map PrbAllocation.prbCount =
      greedy cfg.nPrb
        (selected.map fun candidate => cfg.demand (sumMetrics selected) candidate.2) := by
  have hcounts := congrArg (List.map Prod.snd) (cfg.map_packing selected).1
  rwa [List.map_map, ranges, lay_out_amounts] at hcounts

end SchedulerConfig

/-- When the number of eligible UEs converts to no positive `int`, nothing is allocated. -/
theorem nothing_allocated (hprb : 0 < cfg.nPrb) (hues : 0 < cfg.maxUes)
    (hspare : ∀ ue ∈ cfg.eligible ues, ue.harqProcessesMax - ue.harqProcessesActive < 2 ^ 31)
    (hnumber : toInt32 (cfg.eligible ues).length ≤ 0) :
    ∃ result, cfg.schedule ues = .ok result ∧ result.allocations = [] := by
  obtain ⟨selected, hselected⟩ := cfg.selection_ok_iff.mpr hspare
  have hlength := cfg.selection_length hselected
  have hnone : cfg.nSel ues ≤ 0 := (min_le_right _ _).trans hnumber
  rw [Int.toNat_of_nonpos hnone] at hlength
  have hnil := List.eq_nil_of_length_eq_zero hlength
  subst hnil
  obtain ⟨result, hresult, hallocations, _⟩ := cfg.schedule_ok hprb hues hselected
    fun c hc => absurd hc List.not_mem_nil
  exact ⟨result, hresult, hallocations⟩

/-- The allocations are consecutive ranges that cover the carrier of `nPrb` blocks. -/
structure PartitionsCarrier (nPrb : Int) (allocations : List (PrbAllocation R)) : Prop where
  start : ∀ i a, allocations[i]? = some a →
    a.prbStart = ((allocations.take i).map PrbAllocation.prbCount).sum
  count : ∀ a ∈ allocations, 0 ≤ a.prbCount
  total : (allocations.map PrbAllocation.prbCount).sum = nPrb

/-- Whatever the metrics, a packing for at least one UE partitions the carrier. -/
theorem packing_partitions (hprb : 0 < cfg.nPrb) (h : selected ≠ []) :
    PartitionsCarrier cfg.nPrb (cfg.packing selected) := by
  have hcounts := cfg.packing_counts selected
  have hdemands : ∀ d ∈ selected.map fun candidate =>
      cfg.demand (sumMetrics selected) candidate.2, 0 ≤ d := by
    intro d hd
    obtain ⟨candidate, _, rfl⟩ := List.mem_map.mp hd
    exact (cfg.demand_pos _ _).le
  refine ⟨fun i a ha => ?_, fun a ha => ?_, ?_⟩
  · have hrange : (cfg.ranges (sumMetrics selected) 0 cfg.nPrb selected)[i]? =
        some (a.prbStart, a.prbCount) := by
      rw [← (cfg.map_packing selected).1, List.getElem?_map, ha]
      rfl
    have hstart := lay_out_start _ _ hrange
    rwa [zero_add, ← hcounts, ← List.map_take] at hstart
  · have hmem : a.prbCount ∈ (cfg.packing selected).map PrbAllocation.prbCount :=
      List.mem_map_of_mem ha
    rw [hcounts] at hmem
    exact greedy_nonneg hdemands hprb.le a.prbCount hmem
  · rw [hcounts]
    exact greedy_sum (by simpa using h) cfg.nPrb

end Schedules

/-! ## Exact shares -/

section Exact

variable {R : Type} [Field R] [LinearOrder R]

/-- In exact arithmetic the order of a sum does not matter. -/
theorem sum_metrics_eq_sum (selected : List (Candidate R)) :
    sumMetrics selected = (selected.map fun candidate => max 1e-9 candidate.2).sum := by
  rw [sumMetrics, List.sum_eq_foldl, List.foldl_map]

variable [IsStrictOrderedRing R]

/-- The floor of a metric in the sum is positive. -/
theorem least_metric_pos : (0 : R) < 1e-9 := by norm_num

/-- No metric exceeds the sum, which is positive. -/
theorem metric_le_sum {selected : List (Candidate R)} {candidate : Candidate R}
    (h : candidate ∈ selected) :
    candidate.2 ≤ sumMetrics selected ∧ 0 < sumMetrics selected := by
  have hterms : ∀ term ∈ selected.map fun c : Candidate R => max 1e-9 c.2, 0 ≤ term := by
    intro term hterm
    obtain ⟨c, _, rfl⟩ := List.mem_map.mp hterm
    exact least_metric_pos.le.trans (le_max_left _ _)
  have hle : max 1e-9 candidate.2 ≤ sumMetrics selected := by
    rw [sum_metrics_eq_sum]
    exact List.single_le_sum hterms _ (List.mem_map_of_mem h)
  exact ⟨(le_max_right _ _).trans hle,
    least_metric_pos.trans_le ((le_max_left _ _).trans hle)⟩

variable [FloorRing R] (cfg : SchedulerConfig R) {selected : List (Candidate R)}

/-- An exact share converts to an `int` exactly when it is not below every `int`. -/
theorem share_converts_iff (hprb : 0 < cfg.nPrb) {sumM m : R} (hle : m ≤ sumM) (hsum : 0 < sumM) :
    (∃ n, floorToInt ((cfg.nPrb : R) * (m / sumM)) = .ok n) ↔
      ((-2 ^ 31 : Int) : R) ≤ cfg.nPrb * (m / sumM) := by
  -- no share exceeds the carrier
  have hupper : ⌊cfg.nPrb * (m / sumM)⌋ < 2 ^ 31 := by
    have hpart : m / sumM ≤ 1 := (div_le_one hsum).mpr hle
    have hcarrier : cfg.nPrb * (m / sumM) ≤ (cfg.nPrb : R) :=
      mul_le_of_le_one_right (Int.cast_nonneg hprb.le) hpart
    have hfloor := (Int.floor_mono hcarrier).trans_eq (Int.floor_intCast cfg.nPrb)
    exact lt_of_le_of_lt hfloor cfg.n_prb_lt
  rw [← Int.le_floor]
  constructor
  · intro ⟨n, hn⟩
    exact (int32_eq_ok.mp hn).2.1
  · intro hlower
    exact ⟨_, int32_of_range hlower hupper⟩

namespace SchedulerConfig

/-- No share of the selected UEs is below every `int`; the last UE has none. -/
def Fits (selected : List (Candidate R)) : Prop :=
  ∀ candidate ∈ selected.dropLast,
    ((-2 ^ 31 : Int) : R) ≤ cfg.nPrb * (candidate.2 / sumMetrics selected)

/-- In exact arithmetic the shares convert exactly when they fit. -/
theorem shares_convert_iff (hprb : 0 < cfg.nPrb) :
    cfg.SharesConvert (sumMetrics selected) selected ↔ cfg.Fits selected := by
  refine forall₂_congr fun candidate hcandidate => ?_
  obtain ⟨hle, hsum⟩ := metric_le_sum (List.dropLast_subset _ hcandidate)
  exact share_converts_iff cfg hprb hle hsum

/-- The share of a metric that is not negative is not below every `int`. -/
theorem least_le_share (hprb : 0 ≤ cfg.nPrb) {candidate : Candidate R} (hmem : candidate ∈ selected)
    (hnonneg : 0 ≤ candidate.2) :
    ((-2 ^ 31 : Int) : R) ≤ cfg.nPrb * (candidate.2 / sumMetrics selected) := by
  have hshare : (0 : R) ≤ cfg.nPrb * (candidate.2 / sumMetrics selected) :=
    mul_nonneg (Int.cast_nonneg hprb) (div_nonneg hnonneg (metric_le_sum hmem).2.le)
  have hleast : ((-2 ^ 31 : Int) : R) ≤ 0 := by norm_num
  exact hleast.trans hshare

/-- With metrics that are not negative every share fits. -/
theorem fits_of_nonneg (hprb : 0 ≤ cfg.nPrb) (h : ∀ candidate ∈ selected, 0 ≤ candidate.2) :
    cfg.Fits selected := by
  intro candidate hcandidate
  have hmem := List.dropLast_subset _ hcandidate
  exact cfg.least_le_share hprb hmem (h candidate hmem)

/-- With metrics that are not negative every share converts. -/
theorem convert_of_nonneg (hprb : 0 < cfg.nPrb) (h : ∀ candidate ∈ selected, 0 ≤ candidate.2) :
    cfg.SharesConvert (sumMetrics selected) selected :=
  (cfg.shares_convert_iff hprb).mpr (cfg.fits_of_nonneg hprb.le h)

/-- Metrics that are not negative demand the whole part of their share, or a block. -/
theorem demand_eq_floor (hprb : 0 < cfg.nPrb) {candidate : Candidate R}
    (hmem : candidate ∈ selected) (hnonneg : 0 ≤ candidate.2) :
    cfg.demand (sumMetrics selected) candidate.2 =
      max 1 ⌊cfg.nPrb * (candidate.2 / sumMetrics selected)⌋ := by
  obtain ⟨hle, hsum⟩ := metric_le_sum hmem
  obtain ⟨n, hn⟩ := (share_converts_iff cfg hprb hle hsum).mpr
    (cfg.least_le_share hprb.le hmem hnonneg)
  rw [demand, share, hn, ← (int32_eq_ok.mp hn).1]
  rfl

end SchedulerConfig

end Exact

end NrBaseband
