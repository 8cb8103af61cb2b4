import NrBaseband.SchedulerGuarantees
import NrBaseband.Foundation.Refinement

/-!
# What the QoS weights change

Without QoS the extra factor of the weight is left out of the metric, which still has the weight of
proportional fairness. So a metric is its weight times what the rest of the UE gives
(`composite_metric_scale`), and a common factor of all weights changes no allocation
(`schedule_scale_weights`), while the relative weights do (`relative_weights_matter`).
-/

namespace NrBaseband

open Foundation Foundation.MachineInt

variable {R : Type} [Field R] [LinearOrder R]

/-- A UE with its weight multiplied by a factor. -/
def UeState.scaleWeight (c : R) (ue : UeState R) : UeState R :=
  { ue with qosWeight := c * ue.qosWeight }

/-- A candidate whose weight, and with it the metric, is multiplied by a factor. -/
def rescale (c : R) (candidate : Candidate R) : Candidate R :=
  (candidate.1.scaleWeight c, c * candidate.2)

/-- Two UEs that differ in their positive weights only. -/
def SameButWeight (ue ue' : UeState R) : Prop :=
  0 < ue.qosWeight ∧ 0 < ue'.qosWeight ∧ ue' = { ue with qosWeight := ue'.qosWeight }

/-- An allocation without its metric. -/
def PrbAllocation.withoutMetric (a : PrbAllocation R) : PrbAllocation Unit :=
  ⟨a.ueId, a.prbStart, a.prbCount, a.mcs, a.layers, ()⟩

/-- A schedule without the metrics of its allocations. -/
def ScheduleResult.withoutMetrics (result : ScheduleResult R) : ScheduleResult Unit :=
  ⟨result.allocations.map PrbAllocation.withoutMetric, result.selectedUes, result.filteredUes,
    result.replayHash⟩

/-- Without QoS the metric is proportional to the weight. -/
theorem composite_metric_scale (c : R) (ue : UeState R) :
    (ue.scaleWeight c).compositeMetric false = (ue.compositeMetric false).map (c * ·) := by
  unfold UeState.compositeMetric UeState.pfMetric UeState.scaleWeight
  dsimp only
  cases int32 (ue.harqProcessesMax - ue.harqProcessesActive) with
  | error fault => rfl
  | ok spare =>
      show Except.ok _ = Except.ok _
      simp only [Bool.false_eq_true, if_false, mul_assoc]

namespace SchedulerConfig

variable (cfg : SchedulerConfig R)

/-- Two UEs that differ in their positive weights only, by a factor when they are eligible. -/
def Reweighted (c : R) (ue ue' : UeState R) : Prop :=
  SameButWeight ue ue' ∧ (cfg.pass ue = true → ue'.qosWeight = c * ue.qosWeight)

/-- UEs that differ in their weights pass alike. -/
theorem pass_same_but_weight {ue ue' : UeState R} (h : SameButWeight ue ue') :
    cfg.pass ue' = cfg.pass ue := by
  rw [h.2.2]
  rfl

/-- Without QoS a candidate is rescaled with its weight. -/
theorem candidate_scale (hqos : cfg.enableQos = false) (c : R) (ue : UeState R) :
    cfg.candidate (ue.scaleWeight c) = (cfg.candidate ue).map (rescale c) := by
  rw [candidate, candidate, hqos, composite_metric_scale]
  cases ue.compositeMetric false with
  | error fault => rfl
  | ok m => rfl

variable {cfg} {c : R} {ues ues' : List (UeState R)}

/-- The eligible UEs have the factor on their weights. -/
theorem eligible_reweighted (h : List.Forall₂ (cfg.Reweighted c) ues ues') :
    cfg.eligible ues' = (cfg.eligible ues).map (UeState.scaleWeight c) := by
  induction h with
  | nil => rfl
  | @cons ue ue' ues ues' hfirst _ ih =>
      have hpass := cfg.pass_same_but_weight hfirst.1
      unfold eligible at ih ⊢
      by_cases hok : cfg.pass ue = true
      · rw [List.filter_cons_of_pos hok, List.filter_cons_of_pos (by rwa [hpass]), ih,
          List.map_cons, hfirst.1.2.2, hfirst.2 hok]
        rfl
      · rw [List.filter_cons_of_neg hok, List.filter_cons_of_neg (by rwa [hpass]), ih]

/-- The same UEs are filtered out. -/
theorem filtered_reweighted (h : List.Forall₂ (cfg.Reweighted c) ues ues') :
    (ues'.filter fun ue => !cfg.pass ue).map UeState.ueId =
      (ues.filter fun ue => !cfg.pass ue).map UeState.ueId := by
  induction h with
  | nil => rfl
  | @cons ue ue' ues ues' hfirst _ ih =>
      have hpass := cfg.pass_same_but_weight hfirst.1
      have hid : ue'.ueId = ue.ueId := by rw [hfirst.1.2.2]
      rw [List.filter_cons, List.filter_cons, hpass]
      split
      · rw [List.map_cons, List.map_cons, ih, hid]
      · exact ih

/-- As many UEs are selected. -/
theorem n_sel_reweighted (h : List.Forall₂ (cfg.Reweighted c) ues ues') :
    cfg.nSel ues' = cfg.nSel ues := by
  rw [nSel, nSel, eligible_reweighted h, List.length_map]

variable [IsStrictOrderedRing R]

/-- The same UEs are selected, rescaled: a positive factor keeps the order of the metrics. -/
theorem selection_reweighted (hqos : cfg.enableQos = false) (hc : 0 < c)
    (h : List.Forall₂ (cfg.Reweighted c) ues ues') :
    cfg.selection ues' = (cfg.selection ues).map (List.map (rescale c)) := by
  have hcandidates : (cfg.eligible ues').mapM cfg.candidate =
      ((cfg.eligible ues).mapM cfg.candidate).map (List.map (rescale c)) := by
    rw [eligible_reweighted h, List.mapM_map, ← Checked.map_results]
    congr 1
    funext ue
    exact cfg.candidate_scale hqos c ue
  rw [selection, selection, hcandidates, n_sel_reweighted h]
  cases (cfg.eligible ues).mapM cfg.candidate with
  | error fault => rfl
  | ok candidates =>
      have hsort : (candidates.map (rescale c)).mergeSort (fun a b => a.2 ≥ b.2) =
          (candidates.mergeSort fun a b => a.2 ≥ b.2).map (rescale c) := by
        refine (List.map_mergeSort fun a _ b _ => ?_).symm
        exact decide_eq_decide.mpr (mul_le_mul_iff_right₀ hc).symm
      show Except.ok _ = Except.ok _
      rw [hsort, List.map_take]

omit [IsStrictOrderedRing R] in
/-- The factor passes through the sum of metrics above the floor. -/
theorem sum_metrics_rescale {selected : List (Candidate R)}
    (h : ∀ candidate ∈ selected, 1e-9 ≤ candidate.2 ∧ 1e-9 ≤ c * candidate.2) :
    sumMetrics (selected.map (rescale c)) = c * sumMetrics selected := by
  have hterms : (selected.map (rescale c)).map (fun candidate => max 1e-9 candidate.2) =
      selected.map fun candidate => c * max 1e-9 candidate.2 := by
    rw [List.map_map]
    refine List.map_congr_left fun candidate hmem => ?_
    obtain ⟨hlarge, hscaled⟩ := h candidate hmem
    show max 1e-9 (c * candidate.2) = c * max 1e-9 candidate.2
    rw [max_eq_right hscaled, max_eq_right hlarge]
  rw [sum_metrics_eq_sum, sum_metrics_eq_sum, hterms, List.sum_map_mul_left]

variable [FloorRing R]

/-- Allocations with their metrics multiplied by a factor. -/
def rescaleMetrics (c : R) (allocations : List (PrbAllocation R)) : List (PrbAllocation R) :=
  allocations.map fun a => { a with metric := c * a.metric }

omit [IsStrictOrderedRing R] in
/-- Rescaled UEs are packed alike: only the metrics of the allocations differ. -/
theorem pack_prbs_rescale (hc : c ≠ 0) (sumM : R) (cursor remaining : Int)
    (selected : List (Candidate R)) :
    Refines (fun scaled allocations => scaled = rescaleMetrics c allocations)
      (cfg.packPrbs (c * sumM) cursor remaining (selected.map (rescale c)))
      (cfg.packPrbs sumM cursor remaining selected) := by
  induction selected generalizing cursor remaining with
  | nil => exact .ok rfl
  | cons candidate later ih =>
      have hshare : cfg.share (c * sumM) (c * candidate.2) = cfg.share sumM candidate.2 := by
        rw [share, share, mul_div_mul_left _ _ hc]
      rw [List.map_cons, rescale, packPrbs, packPrbs, List.isEmpty_map, hshare]
      split
      all_goals
        refine Refines.bind_same fun n => Refines.bind_same fun next => ?_
        refine Refines.bind_same fun left => ?_
        refine (ih next left).bind fun scaled allocations hscaled => ?_
        subst hscaled
        exact .ok rfl

omit [LinearOrder R] [IsStrictOrderedRing R] [FloorRing R] in
/-- Rescaled allocations have the same hash. -/
theorem hash_rescale (seed : UInt64) (allocations : List (PrbAllocation R)) :
    (rescaleMetrics c allocations).foldl hashAllocation seed =
      allocations.foldl hashAllocation seed := by
  rw [rescaleMetrics, List.foldl_map]
  rfl

/-- Without QoS every metric is proportional to the weight, and UEs whose weights differ by a
common factor are scheduled alike, when no metric of a selected UE is below the floor of the
sum. -/
theorem schedule_scale_weights (cfg : SchedulerConfig R) (hqos : cfg.enableQos = false) :
    (∀ (w : R) (ue : UeState R), ({ ue with qosWeight := w }).compositeMetric cfg.enableQos =
      (({ ue with qosWeight := 1 }).compositeMetric cfg.enableQos).map (w * ·)) ∧
    ∀ (c : R), 0 < c → ∀ ues ues' : List (UeState R), List.Forall₂ (cfg.Reweighted c) ues ues' →
      (∀ selected, cfg.selection ues = .ok selected ∨ cfg.selection ues' = .ok selected →
        ∀ candidate ∈ selected, 1e-9 ≤ candidate.2) →
      (cfg.schedule ues').map ScheduleResult.withoutMetrics =
        (cfg.schedule ues).map ScheduleResult.withoutMetrics := by
  constructor
  · intro w ue
    have hweight : ({ ue with qosWeight := w } : UeState R) =
        ({ ue with qosWeight := 1 } : UeState R).scaleWeight w := by
      rw [UeState.scaleWeight, mul_one]
    rw [hqos, hweight, composite_metric_scale]
  · intro c hc ues ues' h hlarge
    refine Refines.map_eq ?_
    unfold schedule
    rw [filtered_reweighted h, n_sel_reweighted h]
    refine Refines.bind_same fun _ => Refines.bind_same fun _ => ?_
    have hselection := selection_reweighted hqos hc h
    cases hselected : cfg.selection ues with
    | error fault =>
        rw [hselection, hselected]
        exact .error fault
    | ok selected =>
        rw [hselected] at hselection
        have hscaled : cfg.selection ues' = .ok (selected.map (rescale c)) := hselection
        have hfloor : ∀ candidate ∈ selected, 1e-9 ≤ candidate.2 ∧ 1e-9 ≤ c * candidate.2 :=
          fun candidate hmem => ⟨hlarge selected (.inl hselected) candidate hmem,
            hlarge _ (.inr hscaled) _ (List.mem_map_of_mem (f := rescale c) hmem)⟩
        rw [hscaled, Checked.ok_bind, Checked.ok_bind, sum_metrics_rescale hfloor]
        split
        · exact .ok rfl
        · refine (pack_prbs_rescale hc.ne' _ _ _ _).bind fun scaled allocations hsame => ?_
          subst hsame
          refine .ok ?_
          show ScheduleResult.mk _ _ _ _ = ScheduleResult.mk _ _ _ _
          rw [hash_rescale, rescaleMetrics, List.map_map, List.map_map]
          rfl

end SchedulerConfig

/-! ## Two weighted UEs -/

/-- A scheduler without QoS. -/
def withoutQos : SchedulerConfig ℚ := { enableQos := false }

/-- Two UEs that differ in their weights. -/
def weighted (w v : ℚ) : List (UeState ℚ) :=
  [{ ueId := 1, qosWeight := w }, { ueId := 2, qosWeight := v }]

/-- The UEs with their metrics. -/
def weightedCandidates (w v : ℚ) : List (Candidate ℚ) :=
  [({ ueId := 1, qosWeight := w }, w * (1990989 / 625000)),
    ({ ueId := 2, qosWeight := v }, v * (1990989 / 625000))]

/-- The metric of a UE with its weight. -/
theorem weighted_candidate (id : UInt32) (w : ℚ) :
    withoutQos.candidate { ueId := id, qosWeight := w } =
      .ok ({ ueId := id, qosWeight := w }, w * (1990989 / 625000)) := by
  have hunit : ({} : UeState ℚ).compositeMetric false = .ok (1990989 / 625000) := by
    decide +kernel
  have hsame : ({ ueId := id, qosWeight := 1 } : UeState ℚ).compositeMetric false =
      ({} : UeState ℚ).compositeMetric false := rfl
  have hscale := composite_metric_scale w ({ ueId := id, qosWeight := 1 } : UeState ℚ)
  rw [hsame, hunit, UeState.scaleWeight, mul_one] at hscale
  show (UeState.compositeMetric { ueId := id, qosWeight := w } false >>= _) = _
  rw [hscale]
  rfl

/-- Both UEs are selected, the one of greater weight first. -/
theorem weighted_selection {w v : ℚ} (hle : v ≤ w) :
    withoutQos.selection (weighted w v) = .ok (weightedCandidates w v) := by
  have hpass : withoutQos.pass {} = true := by decide +kernel
  have heligible : withoutQos.eligible (weighted w v) = weighted w v := by
    refine List.filter_eq_self.mpr fun ue hue => ?_
    rcases List.mem_pair.mp hue with rfl | rfl
    -- the filter does not look at the weight
    all_goals exact hpass
  have hcandidates : (withoutQos.eligible (weighted w v)).mapM withoutQos.candidate =
      .ok (weightedCandidates w v) := by
    rw [heligible, weighted, List.mapM_cons, weighted_candidate, List.mapM_cons,
      weighted_candidate]
    rfl
  have hsorted : (weightedCandidates w v).Pairwise fun a b => a.2 ≥ b.2 :=
    List.pairwise_pair.mpr (mul_le_mul_of_nonneg_right hle (by norm_num))
  have hboth : withoutQos.nSel (weighted w v) = 2 := by
    rw [SchedulerConfig.nSel, heligible]
    show min 4 (toInt32 (2 : Nat)) = 2
    decide
  rw [SchedulerConfig.selection_of_sorted _ hcandidates hsorted, hboth]
  rfl

/-- The blocks of two UEs whose weights are not negative. -/
theorem weighted_counts {w v : ℚ} (hv : 0 ≤ v) (hle : v ≤ w) :
    ∃ result, withoutQos.schedule (weighted w v) = .ok result ∧
      result.allocations.map PrbAllocation.prbCount =
        Packing.greedy 50 ((weightedCandidates w v).map fun candidate =>
          withoutQos.demand (sumMetrics (weightedCandidates w v)) candidate.2) := by
  have hselected := weighted_selection hle
  have hnonneg : ∀ candidate ∈ weightedCandidates w v, 0 ≤ candidate.2 := by
    intro candidate hmem
    rcases List.mem_pair.mp hmem with rfl | rfl
    · exact mul_nonneg (hv.trans hle) (by norm_num)
    · exact mul_nonneg hv (by norm_num)
  have hconvert := SchedulerConfig.convert_of_nonneg withoutQos (by decide) hnonneg
  obtain ⟨result, hresult, hallocations, _⟩ :=
    withoutQos.schedule_ok (by decide) (by decide) hselected hconvert
  refine ⟨result, hresult, ?_⟩
  rw [hallocations, SchedulerConfig.packing_counts]
  rfl

/-- Schedules with different numbers of blocks differ. -/
theorem without_metrics_ne {ues ues' : List (UeState ℚ)} {result result' : ScheduleResult ℚ}
    (h : withoutQos.schedule ues = .ok result) (h' : withoutQos.schedule ues' = .ok result')
    (hne : result.allocations.map PrbAllocation.prbCount ≠
      result'.allocations.map PrbAllocation.prbCount) :
    (withoutQos.schedule ues).map ScheduleResult.withoutMetrics ≠
      (withoutQos.schedule ues').map ScheduleResult.withoutMetrics := by
  rw [h, h']
  intro heq
  have hallocations := congrArg ScheduleResult.allocations (Except.ok.inj heq)
  have hcounts := congrArg (List.map PrbAllocation.prbCount) hallocations
  simp only [ScheduleResult.withoutMetrics, List.map_map] at hcounts
  exact hne hcounts

/-- Without QoS two UEs share the carrier equally, unless one of them has a greater weight, or the
common weight is so small that the metrics are below the floor of the sum. -/
theorem relative_weights_matter :
    List.Forall₂ SameButWeight (weighted 1 1) (weighted 4 1) ∧
    (withoutQos.schedule (weighted 1 1)).map ScheduleResult.withoutMetrics ≠
      (withoutQos.schedule (weighted 4 1)).map ScheduleResult.withoutMetrics ∧
    List.Forall₂ SameButWeight (weighted 1 1) (weighted 1e-10 1e-10) ∧
    (withoutQos.schedule (weighted 1 1)).map ScheduleResult.withoutMetrics ≠
      (withoutQos.schedule (weighted 1e-10 1e-10)).map ScheduleResult.withoutMetrics := by
  have hsame (w v : ℚ) (hw : 0 < w) (hv : 0 < v) :
      List.Forall₂ SameButWeight (weighted 1 1) (weighted w v) :=
    .cons ⟨one_pos, hw, rfl⟩ (.cons ⟨one_pos, hv, rfl⟩ .nil)
  obtain ⟨equal, hequal, hcounts⟩ := weighted_counts (w := 1) (v := 1) one_pos.le le_rfl
  obtain ⟨unequal, hunequal, hcounts'⟩ :=
    weighted_counts (w := 4) (v := 1) one_pos.le (by norm_num)
  obtain ⟨small, hsmall, hcounts''⟩ :=
    weighted_counts (w := 1e-10) (v := 1e-10) (by norm_num) le_rfl
  refine ⟨hsame 4 1 (by norm_num) one_pos, without_metrics_ne hequal hunequal ?_,
    hsame _ _ (by norm_num) (by norm_num), without_metrics_ne hequal hsmall ?_⟩
  · rw [hcounts, hcounts']
    decide +kernel
  · rw [hcounts, hcounts'']
    decide +kernel

/-- Doubled weights. -/
theorem schedule_scale_weights_two :
    (withoutQos.schedule (weighted 4 2)).map ScheduleResult.withoutMetrics =
      (withoutQos.schedule (weighted 2 1)).map ScheduleResult.withoutMetrics := by
  have hlarge (w v : ℚ) (hw : 1 ≤ w) (hv : 1 ≤ v) :
      ∀ candidate ∈ weightedCandidates w v, (1e-9 : ℚ) ≤ candidate.2 := by
    intro candidate hmem
    rcases List.mem_pair.mp hmem with rfl | rfl
    · show (1e-9 : ℚ) ≤ w * (1990989 / 625000)
      linarith
    · show (1e-9 : ℚ) ≤ v * (1990989 / 625000)
      linarith
  refine (SchedulerConfig.schedule_scale_weights withoutQos rfl).2 2 two_pos (weighted 2 1)
    (weighted 4 2) (.cons ⟨⟨two_pos, by norm_num, rfl⟩, fun _ => by norm_num⟩
      (.cons ⟨⟨one_pos, two_pos, rfl⟩, fun _ => by norm_num⟩ .nil)) ?_
  rintro selected (h | h)
  · rw [weighted_selection (by norm_num), Except.ok.injEq] at h
    exact h ▸ hlarge 2 1 (by norm_num) le_rfl
  · rw [weighted_selection (by norm_num), Except.ok.injEq] at h
    exact h ▸ hlarge 4 2 (by norm_num) (by norm_num)

end NrBaseband
