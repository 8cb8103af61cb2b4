import NrBaseband.SchedulerPacking
import Mathlib.Algebra.Order.Ring.Rat
import Mathlib.Data.Rat.Floor

/-!
# What a schedule guarantees

When the allocations of a schedule partition the carrier (`prb_partition_iff`) and when every
selected UE gets a block (`no_starvation_iff`), with inputs on which they do not; how far the blocks
of a UE are from its share of the carrier (`proportional_share`).
-/

namespace NrBaseband

open Foundation Foundation.MachineInt Foundation.Packing

/-! ## Default UEs -/

/-- Default UEs are all eligible. -/
theorem eligible_default (n : Nat) : ({} : SchedulerConfig ℚ).eligible (List.replicate n {}) =
    List.replicate n {} :=
  List.filter_replicate_of_pos (by decide +kernel)

/-- Default UEs are not served when their number converts to no positive `int`. -/
theorem default_not_served {n : Nat} (hnumber : toInt32 n ≤ 0) :
    ∃ result, ({} : SchedulerConfig ℚ).schedule (List.replicate n {}) = .ok result ∧
      result.allocations = [] := by
  refine nothing_allocated _ (by decide) (by decide) ?_ ?_
  · rw [eligible_default]
    intro ue hue
    rw [List.eq_of_mem_replicate hue]
    decide
  · rw [eligible_default, List.length_replicate]
    exact hnumber

/-- Two default UEs are selected, with one metric. -/
theorem selection_two : ({} : SchedulerConfig ℚ).selection [{}, {}] =
    .ok [({}, 1990989 / 625000), ({}, 1990989 / 625000)] := by
  have hmetric : ({} : UeState ℚ).compositeMetric true = .ok (1990989 / 625000) := by
    decide +kernel
  have heligible : ({} : SchedulerConfig ℚ).eligible [{}, {}] = [{}, {}] := eligible_default 2
  have hcandidates : (({} : SchedulerConfig ℚ).eligible [{}, {}]).mapM
      ({} : SchedulerConfig ℚ).candidate =
        .ok [({}, 1990989 / 625000), ({}, 1990989 / 625000)] := by
    rw [heligible]
    simp [SchedulerConfig.candidate, hmetric]
  have hboth : toInt32 2 = 2 := by decide
  rw [SchedulerConfig.selection_of_sorted _ hcandidates (by simp), SchedulerConfig.nSel,
    heligible]
  simp [hboth]

/-- Their metrics are positive. -/
theorem metrics_two : ∀ candidate ∈ ([({}, 1990989 / 625000), ({}, 1990989 / 625000)] :
    List (Candidate ℚ)), 0 < candidate.2 := by norm_num

/-- Both are allocated. -/
theorem allocations_two {result : ScheduleResult ℚ}
    (h : ({} : SchedulerConfig ℚ).schedule [{}, {}] = .ok result) :
    result.allocations.length = 2 := by
  obtain ⟨_, hallocations, _⟩ := SchedulerConfig.schedule_of_selection _ h selection_two
  have hids := congrArg List.length (SchedulerConfig.map_packing ({} : SchedulerConfig ℚ)
    [({}, 1990989 / 625000), ({}, 1990989 / 625000)]).2.1
  rwa [← hallocations, List.length_map] at hids

/-- Two UEs of negative weight have a share below every `int`, which leaves no schedule. -/
theorem negative_not_scheduled (result : ScheduleResult ℚ) :
    ({} : SchedulerConfig ℚ).schedule [{ qosWeight := -1 }, { qosWeight := -1 }] ≠ .ok result := by
  intro hresult
  have hmetric : ({ qosWeight := -1 } : UeState ℚ).compositeMetric true =
      .ok (-1990989 / 6250000) := by decide +kernel
  have hpass : ({} : SchedulerConfig ℚ).pass { qosWeight := -1 } = true := by decide +kernel
  have hcandidates : (({} : SchedulerConfig ℚ).eligible
      [{ qosWeight := -1 }, { qosWeight := -1 }]).mapM ({} : SchedulerConfig ℚ).candidate =
      .ok [({ qosWeight := -1 }, -1990989 / 6250000),
        ({ qosWeight := -1 }, -1990989 / 6250000)] := by
    simp [SchedulerConfig.eligible, hpass, SchedulerConfig.candidate, hmetric]
  obtain ⟨hconvert, _⟩ := SchedulerConfig.schedule_of_selection _ hresult
    (SchedulerConfig.selection_of_sorted _ hcandidates (by simp))
  have hboth : toInt32 2 = 2 := by decide
  have hfits := (SchedulerConfig.shares_convert_iff _ (by decide)).mp hconvert
  have hfirst := hfits ({ qosWeight := -1 }, -1990989 / 6250000)
    (by simp [SchedulerConfig.nSel, SchedulerConfig.eligible, hpass, hboth])
  revert hfirst
  decide +kernel

/-! ## The carrier is partitioned -/

section Partition

variable {R : Type} [Field R] [LinearOrder R] [IsStrictOrderedRing R] [FloorRing R]
  (cfg : SchedulerConfig R)

/-- The condition under which a carrier is packed for eligible UEs: each has a metric, their number
converts to a positive `int`, and no share is below every `int`. -/
structure SchedulerConfig.Packable (ues : List (UeState R)) : Prop where
  spare : ∀ ue ∈ cfg.eligible ues, ue.harqProcessesMax - ue.harqProcessesActive < 2 ^ 31
  number : 0 < toInt32 (cfg.eligible ues).length
  shares : ∀ selected, cfg.selection ues = .ok selected → cfg.Fits selected

variable {cfg} in
/-- A packable carrier is packed and partitioned. -/
theorem SchedulerConfig.Packable.schedule_partitions {ues : List (UeState R)}
    (h : cfg.Packable ues) (hprb : 0 < cfg.nPrb) (hues : 0 < cfg.maxUes) :
    ∃ result, cfg.schedule ues = .ok result ∧
      PartitionsCarrier cfg.nPrb result.allocations := by
  obtain ⟨selected, hselected⟩ := cfg.selection_ok_iff.mpr h.spare
  obtain ⟨result, hresult, hallocations, _⟩ := cfg.schedule_ok hprb hues hselected
    ((cfg.shares_convert_iff hprb).mpr (h.shares selected hselected))
  refine ⟨result, hresult, ?_⟩
  rw [hallocations]
  refine packing_partitions cfg hprb fun hnil => ?_
  have hlength := cfg.selection_length hselected
  have hpositive : 0 < cfg.nSel ues := lt_min hues h.number
  rw [hnil, List.length_nil] at hlength
  omega

/-- The allocations partition the carrier in the order of selection, or there are none because no
UE is eligible, exactly when no UE is eligible or the carrier is packable. -/
theorem prb_partition_iff (ues : List (UeState R)) (hprb : 0 < cfg.nPrb) (hues : 0 < cfg.maxUes) :
    (∃ result, cfg.schedule ues = .ok result ∧
      result.allocations.map PrbAllocation.ueId = result.selectedUes ∧
      (cfg.eligible ues ≠ [] → PartitionsCarrier cfg.nPrb result.allocations) ∧
      (cfg.eligible ues = [] → result.allocations = [])) ↔
    cfg.eligible ues = [] ∨ cfg.Packable ues := by
  constructor
  · intro ⟨result, hresult, _, hpartition, _⟩
    obtain ⟨selected, hselected, hconvert, hallocations, _⟩ := cfg.schedule_spec hresult
    by_cases hnone : cfg.eligible ues = []
    · exact .inl hnone
    · refine .inr ⟨cfg.selection_ok_iff.mp ⟨selected, hselected⟩, ?_, fun other hother => ?_⟩
      · -- with no UE selected nothing of the carrier is allocated
        by_contra hnumber
        have htotal := (hpartition hnone).total
        have hlength := cfg.selection_length hselected
        have hzero : (cfg.nSel ues).toNat = 0 :=
          Int.toNat_of_nonpos ((min_le_right _ _).trans (not_lt.mp hnumber))
        rw [hzero] at hlength
        rw [hallocations, List.eq_nil_of_length_eq_zero hlength] at htotal
        exact absurd htotal hprb.ne
      · rw [hselected, Except.ok.injEq] at hother
        exact hother ▸ (cfg.shares_convert_iff hprb).mp hconvert
  · have hempty (hnone : cfg.eligible ues = []) : toInt32 (cfg.eligible ues).length ≤ 0 := by
      rw [hnone]
      exact to_int32_le (Int.natCast_nonneg 0)
    rintro (hnone | hpackable)
    · obtain ⟨result, hresult, hnothing⟩ := nothing_allocated cfg hprb hues
        (by rw [hnone]; exact fun ue hue => absurd hue List.not_mem_nil) (hempty hnone)
      exact ⟨result, hresult, cfg.schedule_ids hresult, fun hsome => absurd hnone hsome,
        fun _ => hnothing⟩
    · obtain ⟨result, hresult, hpartition⟩ := hpackable.schedule_partitions hprb hues
      exact ⟨result, hresult, cfg.schedule_ids hresult, fun _ => hpartition,
        fun hnone => absurd hpackable.number (hempty hnone).not_gt⟩

end Partition

/-- Two default UEs share the default carrier. -/
theorem prb_partition_iff_two : ∃ result,
    ({} : SchedulerConfig ℚ).schedule [{}, {}] = .ok result ∧
      PartitionsCarrier 50 result.allocations := by
  have heligible : ({} : SchedulerConfig ℚ).eligible [{}, {}] = [{}, {}] := eligible_default 2
  have hpackable : ({} : SchedulerConfig ℚ).Packable [{}, {}] := by
    refine ⟨?_, ?_, fun selected hselected => ?_⟩
    · rw [heligible]
      decide
    · rw [heligible]
      decide
    · rw [selection_two, Except.ok.injEq] at hselected
      rw [← hselected]
      exact SchedulerConfig.fits_of_nonneg _ (by decide) fun c hc => (metrics_two c hc).le
  obtain ⟨result, hresult, _, hpartition, _⟩ :=
    (prb_partition_iff ({} : SchedulerConfig ℚ) [{}, {}] (by decide) (by decide)).mpr
      (.inr hpackable)
  refine ⟨result, hresult, hpartition ?_⟩
  rw [heligible]
  exact List.cons_ne_nil _ _

/-- Two UEs of negative weight, whose share of the carrier is below every `int`, are not scheduled,
and with as many default UEs as an `int` has nonnegative values nothing is allocated. -/
theorem prb_partition_fails :
    (({} : SchedulerConfig ℚ).eligible [{ qosWeight := -1 }, { qosWeight := -1 }] ≠ [] ∧
      ∀ result, ({} : SchedulerConfig ℚ).schedule [{ qosWeight := -1 }, { qosWeight := -1 }] ≠
        .ok result) ∧
    (({} : SchedulerConfig ℚ).eligible (List.replicate (2 ^ 31) {}) ≠ [] ∧
      ∃ result, ({} : SchedulerConfig ℚ).schedule (List.replicate (2 ^ 31) {}) = .ok result ∧
        result.allocations = []) := by
  refine ⟨⟨by decide +kernel, negative_not_scheduled⟩, ?_, default_not_served (by decide +kernel)⟩
  rw [eligible_default, ne_eq, List.replicate_eq_nil_iff]
  decide

/-! ## No selected UE is starved -/

section Starvation

variable {R : Type} [Field R] [LinearOrder R] [IsStrictOrderedRing R] [FloorRing R]
  (cfg : SchedulerConfig R) {selected : List (Candidate R)}

/-- With positive metrics and a block for every selected UE, each gets one exactly when the
rounded shares before the last, of at least one block each, leave a block for the last. -/
theorem no_starvation_iff (ues : List (UeState R)) (hues : 0 < cfg.maxUes)
    (hselected : cfg.selection ues = .ok selected)
    (hmetrics : ∀ candidate ∈ selected, 0 < candidate.2) (hroom : selected.length ≤ cfg.nPrb) :
    (∀ result, cfg.schedule ues = .ok result → ∀ a ∈ result.allocations, 1 ≤ a.prbCount) ↔
      selected = [] ∨ (selected.dropLast.map fun candidate =>
        max 1 ⌊cfg.nPrb * (candidate.2 / sumMetrics selected)⌋).sum < cfg.nPrb := by
  have hallocations {result : ScheduleResult R} (h : cfg.schedule ues = .ok result) :
      result.allocations = cfg.packing selected :=
    (cfg.schedule_of_selection h hselected).2.1
  cases hnil : selected with
  | nil =>
      refine iff_of_true (fun result hresult a ha => ?_) (.inl rfl)
      rw [hallocations hresult, hnil] at ha
      exact absurd ha List.not_mem_nil
  | cons candidate later =>
      rw [← hnil, or_iff_right (hnil ▸ List.cons_ne_nil candidate later)]
      have hprb : 0 < cfg.nPrb := by
        rw [hnil, List.length_cons] at hroom
        omega
      have hconvert := cfg.convert_of_nonneg hprb fun c hc => (hmetrics c hc).le
      obtain ⟨result, hresult, _⟩ := cfg.schedule_ok hprb hues hselected hconvert
      have hfloors : (selected.dropLast.map fun c => cfg.demand (sumMetrics selected) c.2) =
          selected.dropLast.map fun c =>
            max 1 ⌊cfg.nPrb * (c.2 / sumMetrics selected)⌋ := by
        refine List.map_congr_left fun c hc => ?_
        have hmem := List.dropLast_subset _ hc
        exact cfg.demand_eq_floor hprb hmem (hmetrics c hmem).le
      have hdemands : ∀ d ∈ (selected.map fun c =>
          cfg.demand (sumMetrics selected) c.2).dropLast, 0 < d := by
        intro d hd
        obtain ⟨c, _, rfl⟩ := List.mem_map.mp (List.dropLast_subset _ hd)
        exact cfg.demand_pos _ _
      have hgreedy := greedy_pos_iff hdemands (by simp [hnil]) cfg.nPrb
      rw [← cfg.packing_counts, ← List.map_dropLast, List.forall_mem_map, hfloors] at hgreedy
      refine Iff.trans ⟨fun h a ha => ?_, fun h other hother a ha => ?_⟩ hgreedy
      · exact h result hresult a (hallocations hresult ▸ ha)
      · exact h a (hallocations hother ▸ ha)

end Starvation

/-- Two default UEs both get blocks of the default carrier. -/
theorem no_starvation_iff_two : ∃ result,
    ({} : SchedulerConfig ℚ).schedule [{}, {}] = .ok result ∧ result.allocations.length = 2 ∧
      ∀ a ∈ result.allocations, 1 ≤ a.prbCount := by
  have hconvert := SchedulerConfig.convert_of_nonneg ({} : SchedulerConfig ℚ) (by decide)
    fun c hc => (metrics_two c hc).le
  obtain ⟨result, hresult, _⟩ :=
    SchedulerConfig.schedule_ok _ (by decide) (by decide) selection_two hconvert
  have hserved := (no_starvation_iff ({} : SchedulerConfig ℚ) [{}, {}] (by decide) selection_two
    metrics_two (by decide)).mpr (.inr (by decide +kernel))
  exact ⟨result, hresult, allocations_two hresult, hserved result hresult⟩

/-- Three UEs, the first a hundred times as good as the others, share three blocks: the last UE
gets none. -/
theorem starvation_three :
    let cfg : SchedulerConfig ℚ := { nPrb := 3 }
    let ues : List (UeState ℚ) := [{ instantRate := 100 }, {}, {}]
    ∃ selected result, cfg.selection ues = .ok selected ∧ selected.length = 3 ∧
      (∀ candidate ∈ selected, 0 < candidate.2) ∧ cfg.schedule ues = .ok result ∧
      ∃ a ∈ result.allocations, a.prbCount = 0 := by
  intro cfg ues
  have hgood : ({ instantRate := 100 } : UeState ℚ).compositeMetric true =
      .ok (1990989 / 6250) := by decide +kernel
  have hpoor : ({} : UeState ℚ).compositeMetric true = .ok (1990989 / 625000) := by
    decide +kernel
  have hpass : ∀ ue ∈ ues, cfg.pass ue = true := by decide +kernel
  have heligible : cfg.eligible ues = ues := List.filter_eq_self.mpr hpass
  have hcandidates : (cfg.eligible ues).mapM cfg.candidate =
      .ok [({ instantRate := 100 }, 1990989 / 6250), ({}, 1990989 / 625000),
        ({}, 1990989 / 625000)] := by
    rw [heligible]
    simp [ues, cfg, SchedulerConfig.candidate, hgood, hpoor]
  have hthree : toInt32 3 = 3 := by decide
  have hselection : cfg.selection ues = .ok [({ instantRate := 100 }, 1990989 / 6250),
      ({}, 1990989 / 625000), ({}, 1990989 / 625000)] := by
    rw [cfg.selection_of_sorted hcandidates (by norm_num), SchedulerConfig.nSel, heligible]
    simp [ues, cfg, hthree]
  have hmetrics : ∀ candidate ∈ ([({ instantRate := 100 }, 1990989 / 6250),
      ({}, 1990989 / 625000), ({}, 1990989 / 625000)] : List (Candidate ℚ)),
      0 < candidate.2 := by norm_num
  obtain ⟨result, hresult, hallocations, _⟩ := cfg.schedule_ok (by decide) (by decide) hselection
    (cfg.convert_of_nonneg (by decide) fun c hc => (hmetrics c hc).le)
  refine ⟨_, result, hselection, rfl, hmetrics, hresult, ?_⟩
  rw [hallocations]
  decide +kernel

/-! ## Shares are proportional -/

section Proportional

variable {R : Type} [Field R] [LinearOrder R] [IsStrictOrderedRing R] [FloorRing R]
  (cfg : SchedulerConfig R) {selected : List (Candidate R)}

omit [IsStrictOrderedRing R] [FloorRing R] in
/-- Metrics that are large enough for the sum are summed as they are. -/
theorem sum_metrics_eq (h : ∀ candidate ∈ selected, 1e-9 ≤ candidate.2) :
    sumMetrics selected = (selected.map Prod.snd).sum := by
  rw [sum_metrics_eq_sum]
  refine congrArg List.sum (List.map_congr_left fun candidate hcandidate => ?_)
  exact max_eq_right (h candidate hcandidate)

/-- Every selected UE gets at least the whole part of its share of the carrier, and its blocks
differ from the share by less than the number of selected UEs, or two. -/
theorem proportional_share (ues : List (UeState R)) (hprb : 0 < cfg.nPrb) (hues : 0 < cfg.maxUes)
    (hselected : cfg.selection ues = .ok selected)
    (hmetrics : ∀ candidate ∈ selected, 1e-9 ≤ candidate.2) :
    ∃ result, cfg.schedule ues = .ok result ∧
      result.allocations.map PrbAllocation.ueId =
        selected.map (fun candidate => candidate.1.ueId) ∧
      result.allocations.map PrbAllocation.metric = selected.map Prod.snd ∧
      ∀ a ∈ result.allocations,
        ⌊cfg.nPrb * a.metric / (selected.map Prod.snd).sum⌋ ≤ a.prbCount ∧
        |a.prbCount - cfg.nPrb * a.metric / (selected.map Prod.snd).sum| <
          (max selected.length 2 : Nat) := by
  have hpositive : ∀ candidate ∈ selected, 0 < candidate.2 :=
    fun c hc => least_metric_pos.trans_le (hmetrics c hc)
  have hconvert := cfg.convert_of_nonneg hprb fun c hc => (hpositive c hc).le
  obtain ⟨result, hresult, hallocations, _⟩ := cfg.schedule_ok hprb hues hselected hconvert
  obtain ⟨_, hids, hsame⟩ := cfg.map_packing selected
  rw [← hallocations] at hids hsame
  refine ⟨result, hresult, hids, hsame, ?_⟩
  have hshares := greedy_proportional (List.pairwise_map.mpr (cfg.selection_sorted hselected))
    (List.forall_mem_map.mpr hpositive) hprb.le
  have hcounts := cfg.packing_counts selected
  have hdemands : selected.map (fun c => cfg.demand (sumMetrics selected) c.2) =
      (selected.map Prod.snd).map fun m =>
        max 1 ⌊cfg.nPrb * (m / (selected.map Prod.snd).sum)⌋ := by
    rw [← sum_metrics_eq hmetrics, List.map_map]
    exact List.map_congr_left fun c hc => cfg.demand_eq_floor hprb hc (hpositive c hc).le
  -- the greedy amounts are the counts of the allocations, and the weights their metrics
  rw [← hdemands, ← hcounts, ← hallocations, List.length_map, List.forall₂_map_right_iff] at hshares
  generalize (selected.map Prod.snd).sum = total at hshares ⊢
  rw [← hsame, List.forall₂_map_left_iff, List.forall₂_same] at hshares
  intro a ha
  obtain ⟨hwhole, hwithin⟩ := hshares a ha
  rw [mul_div_assoc]
  exact ⟨hwhole, hwithin.trans_le (Nat.cast_le.mpr (le_max_left _ _))⟩

end Proportional

/-- Two default UEs get at least their halves of the default carrier. -/
theorem proportional_share_two : ∃ result,
    ({} : SchedulerConfig ℚ).schedule [{}, {}] = .ok result ∧ result.allocations.length = 2 ∧
      ∀ a ∈ result.allocations, 25 ≤ a.prbCount := by
  obtain ⟨result, hresult, _, hsame, hshares⟩ :=
    proportional_share ({} : SchedulerConfig ℚ) [{}, {}] (by decide) (by decide) selection_two
      (by norm_num)
  refine ⟨result, hresult, allocations_two hresult, fun a ha => ?_⟩
  have hmetric : a.metric = 1990989 / 625000 := by
    have hmem := List.mem_map_of_mem (f := PrbAllocation.metric) ha
    rw [hsame] at hmem
    simpa using hmem
  have hwhole := (hshares a ha).1
  rw [hmetric] at hwhole
  exact le_trans (by decide +kernel) hwhole

end NrBaseband
