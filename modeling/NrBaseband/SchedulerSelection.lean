import NrBaseband.SchedulerGuarantees
import NrBaseband.Foundation.Refinement
import Mathlib.Data.List.FinRange

/-!
# Which UEs are selected

A selection seen as a choice among the positions of the input. `priority_selection_iff` says when
the schedule selects by priority: the greatest metrics first, ties in input order, and nobody before
a UE of greater priority. `decision_of_eligible` says that the decision depends on the eligible UEs
only, and on their order only where metrics tie. Both hold for any arithmetic: metrics may be
rounded or infinite.
-/

namespace NrBaseband

open Foundation Foundation.MachineInt Foundation.Packing Foundation.StableSort

variable {R : Type} [LinearOrder R] [One R] [Add R] [Mul R] [Div R] [OfScientific R] [IntCast R]

namespace SchedulerConfig

variable (cfg : SchedulerConfig R) {ues : List (UeState R)} {selected : List (Candidate R)}

/-! ## The order of priority -/

/-- The metric of a UE that has one. -/
def metric (ue : UeState R) : R :=
  match ue.compositeMetric cfg.enableQos with
  | .ok m => m
  | .error _ => 1

/-- A UE has its metric. -/
theorem metric_of_ok {ue : UeState R} {m : R} (h : ue.compositeMetric cfg.enableQos = .ok m) :
    cfg.metric ue = m := by
  rw [metric, h]

/-- The positions of the eligible UEs. -/
def eligiblePositions (ues : List (UeState R)) : List (Fin ues.length) :=
  (List.finRange ues.length).filter fun i => cfg.pass (ues.get i)

omit [Add R] [Mul R] [Div R] [IntCast R] in
/-- The UEs at these positions are the eligible ones. -/
theorem map_positions : (cfg.eligiblePositions ues).map ues.get = cfg.eligible ues := by
  have hall : (List.finRange ues.length).map ues.get = ues := by
    rw [← List.ofFn_eq_map, List.ofFn_get]
  have hfilter := List.filter_map (f := ues.get) (p := cfg.pass) (l := List.finRange ues.length)
  rw [hall] at hfilter
  exact hfilter.symm

/-- A position goes before another one: the UE there has the greater metric, or the same metric and
comes first. -/
def Before (ues : List (UeState R)) (i j : Fin ues.length) : Prop :=
  ∃ x y, (ues.get i).compositeMetric cfg.enableQos = .ok x ∧
    (ues.get j).compositeMetric cfg.enableQos = .ok y ∧ (y < x ∨ x = y ∧ i < j)

/-- `order` selects as many of the eligible UEs as it may, those that go before all others, in
their order. -/
structure SelectsByPriority (ues : List (UeState R)) (order : List (Fin ues.length)) : Prop where
  count : (order.length : Int) = min cfg.maxUes (cfg.eligible ues).length
  eligible : ∀ i ∈ order, cfg.pass (ues.get i)
  sorted : order.Pairwise (cfg.Before ues)
  rest : ∀ j, cfg.pass (ues.get j) → j ∉ order → ∀ i ∈ order, cfg.Before ues i j

/-- The positions of the eligible UEs in the order of their priority. -/
def ranking (ues : List (UeState R)) : List (Fin ues.length) :=
  (cfg.eligiblePositions ues).mergeSort fun i j => cfg.metric (ues.get i) ≥ cfg.metric (ues.get j)

/-- The eligible positions are ranked. -/
theorem mem_ranking {i : Fin ues.length} : i ∈ cfg.ranking ues ↔ cfg.pass (ues.get i) = true := by
  rw [ranking, List.mem_mergeSort, eligiblePositions, List.mem_filter]
  exact and_iff_right (List.mem_finRange i)

/-- As many positions are ranked as UEs are eligible. -/
theorem ranking_length : (cfg.ranking ues).length = (cfg.eligible ues).length := by
  rw [ranking, List.length_mergeSort, ← cfg.map_positions, List.length_map]

/-! ## When the schedule selects by priority -/

omit [Add R] [Mul R] [Div R] [IntCast R] in
/-- As many UEs are selected as may be exactly when their number is an `int`, or converts to one
that is large enough. -/
theorem n_sel_eq_iff (hues : 0 < cfg.maxUes) :
    ((cfg.nSel ues).toNat : Int) = min cfg.maxUes (cfg.eligible ues).length ↔
      toInt32 (cfg.eligible ues).length = (cfg.eligible ues).length ∨
        cfg.maxUes ≤ toInt32 (cfg.eligible ues).length := by
  have hle : toInt32 (cfg.eligible ues).length ≤ (cfg.eligible ues).length :=
    to_int32_le (Int.natCast_nonneg _)
  have hzero (h : (cfg.eligible ues).length = 0) : toInt32 (cfg.eligible ues).length = 0 := by
    rw [h]
    rfl
  unfold nSel
  generalize toInt32 (cfg.eligible ues).length = number at hle hzero ⊢
  omega

/-- The greatest metrics, as many as UEs may be selected. -/
def topMetrics (metrics : List R) : List R :=
  (metrics.mergeSort fun a b => a ≥ b).take (min cfg.maxUes metrics.length).toNat

section Spare

-- the spare HARQ processes of every eligible UE are counted by an `int`
variable (hspare : ∀ ue ∈ cfg.eligible ues,
  ue.harqProcessesMax - ue.harqProcessesActive < 2 ^ 31)

include hspare

/-- All eligible UEs have their metrics. -/
theorem composite_metric_ok :
    ∀ ue ∈ cfg.eligible ues, ue.compositeMetric cfg.enableQos = .ok (cfg.metric ue) := by
  intro ue hue
  obtain ⟨candidate, hcandidate⟩ := cfg.candidate_ok (List.mem_filter.mp hue).2 (hspare ue hue)
  obtain ⟨m, hm, _⟩ := Checked.bind_eq_ok.mp hcandidate
  rw [cfg.metric_of_ok hm, hm]

/-- What is selected: the first of the eligible UEs, sorted by their metrics. -/
theorem selection_eq :
    cfg.selection ues = .ok ((((cfg.eligible ues).mergeSort fun a b =>
      cfg.metric a ≥ cfg.metric b).take (cfg.nSel ues).toNat).map fun ue =>
        (ue, cfg.metric ue)) := by
  have hcandidates : (cfg.eligible ues).mapM cfg.candidate =
      .ok ((cfg.eligible ues).map fun ue => (ue, cfg.metric ue)) := by
    refine Checked.map_ok fun ue hue => ?_
    rw [candidate, cfg.composite_metric_ok hspare ue hue]
    rfl
  have hsort := map_sort Prod.snd (fun ue => (ue, cfg.metric ue)) (cfg.eligible ues)
  rw [selection, hcandidates, Checked.ok_bind, ← hsort, ← List.map_take]
  rfl

/-- The positions of the selected UEs are the first of the ranking. -/
theorem selection_ranking :
    cfg.selection ues = .ok (((cfg.ranking ues).take (cfg.nSel ues).toNat).map fun i =>
      (ues.get i, cfg.metric (ues.get i))) := by
  have hsort : ((cfg.eligible ues).mergeSort fun a b => cfg.metric a ≥ cfg.metric b) =
      (cfg.ranking ues).map ues.get := by
    rw [← cfg.map_positions, ranking, ← map_sort]
  rw [cfg.selection_eq hspare, hsort, ← List.map_take, List.map_map]
  rfl

/-- The ranking is in the order of priority. -/
theorem ranking_sorted : (cfg.ranking ues).Pairwise (cfg.Before ues) := by
  have hpositions : (cfg.eligiblePositions ues).Pairwise (· < ·) :=
    (List.pairwise_lt_finRange _).filter _
  have hmetric (i : Fin ues.length) (hi : i ∈ cfg.ranking ues) :
      (ues.get i).compositeMetric cfg.enableQos = .ok (cfg.metric (ues.get i)) := by
    rw [ranking, List.mem_mergeSort] at hi
    exact cfg.composite_metric_ok hspare _ (cfg.map_positions ▸ List.mem_map_of_mem hi)
  have hstable := stable_sorted (fun i => cfg.metric (ues.get i)) _ hpositions
  refine hstable.imp_of_mem fun {i j} hi hj hbefore => ?_
  exact ⟨_, _, hmetric i hi, hmetric j hj, hbefore⟩

/-- The first of the ranking select by priority when they are as many as may be selected. -/
theorem ranking_selects {k : Nat} (hk : (k : Int) = min cfg.maxUes (cfg.eligible ues).length) :
    cfg.SelectsByPriority ues ((cfg.ranking ues).take k) := by
  have hsorted := cfg.ranking_sorted hspare
  refine ⟨?_, fun i hi => ?_, ?_, fun j hj hnot i hi => ?_⟩
  · rw [List.length_take, cfg.ranking_length]
    omega
  · exact cfg.mem_ranking.mp (List.mem_of_mem_take hi)
  · exact hsorted.sublist (List.take_sublist _ _)
  · rw [← List.take_append_drop k (cfg.ranking ues), List.pairwise_append] at hsorted
    have hranked := cfg.mem_ranking.mpr hj
    rw [← List.take_append_drop k (cfg.ranking ues), List.mem_append] at hranked
    exact hsorted.2.2 i hi j (hranked.resolve_left hnot)

/-- The greatest metrics are those of the selected UEs. -/
theorem top_metrics_eq
    (hcount : ((cfg.nSel ues).toNat : Int) = min cfg.maxUes (cfg.eligible ues).length)
    (h : cfg.selection ues = .ok selected) :
    cfg.topMetrics ((cfg.eligible ues).map cfg.metric) = selected.map Prod.snd := by
  rw [cfg.selection_eq hspare, Except.ok.injEq] at h
  have hsort : (((cfg.eligible ues).map cfg.metric).mergeSort fun a b => a ≥ b) = _ :=
    (map_sort id cfg.metric (cfg.eligible ues)).symm
  rw [topMetrics, List.length_map, ← hcount, Int.toNat_natCast, hsort, ← h, List.map_map,
    ← List.map_take]
  rfl

end Spare

variable [Zero R]

/-- The sum of the metrics, none of them taken below the floor. -/
def floorSum (metrics : List R) : R := metrics.foldl (fun sum m => sum + max 1e-9 m) 0

omit [Mul R] [Div R] [IntCast R] in
/-- It is the sum that the shares of candidates are computed from. -/
theorem floor_sum_map (selected : List (Candidate R)) :
    floorSum (selected.map Prod.snd) = sumMetrics selected :=
  List.foldl_map

variable [FloorToInt R]

/-- The condition under which UEs are selected by priority: each eligible one has a metric, their
number is an `int` or converts to one that is large enough, and the shares of the greatest metrics
but the last are numbers that convert to an `int`. -/
structure Servable (ues : List (UeState R)) : Prop where
  spare : ∀ ue ∈ cfg.eligible ues, ue.harqProcessesMax - ue.harqProcessesActive < 2 ^ 31
  number : toInt32 (cfg.eligible ues).length = (cfg.eligible ues).length ∨
    cfg.maxUes ≤ toInt32 (cfg.eligible ues).length
  shares : ∀ metrics,
    (cfg.eligible ues).mapM (fun ue => ue.compositeMetric cfg.enableQos) = .ok metrics →
    ∀ m ∈ (cfg.topMetrics metrics).dropLast,
      ∃ n, floorToInt ((cfg.nPrb : R) * (m / floorSum (cfg.topMetrics metrics))) = .ok n

/-- The shares of the greatest metrics are those of the selected UEs. -/
theorem shares_iff
    (hspare : ∀ ue ∈ cfg.eligible ues, ue.harqProcessesMax - ue.harqProcessesActive < 2 ^ 31)
    (hcount : ((cfg.nSel ues).toNat : Int) = min cfg.maxUes (cfg.eligible ues).length)
    (h : cfg.selection ues = .ok selected) :
    (∀ metrics,
      (cfg.eligible ues).mapM (fun ue => ue.compositeMetric cfg.enableQos) = .ok metrics →
      ∀ m ∈ (cfg.topMetrics metrics).dropLast,
        ∃ n, floorToInt ((cfg.nPrb : R) * (m / floorSum (cfg.topMetrics metrics))) = .ok n) ↔
      cfg.SharesConvert (sumMetrics selected) selected := by
  have hmetrics := Checked.map_ok (cfg.composite_metric_ok hspare)
  rw [hmetrics]
  constructor
  · intro hall candidate hcandidate
    have hshares := hall _ rfl
    rw [cfg.top_metrics_eq hspare hcount h, floor_sum_map, ← List.map_dropLast] at hshares
    exact hshares _ (List.mem_map_of_mem hcandidate)
  · intro hconvert metrics hsame
    rw [← Except.ok.inj hsame, cfg.top_metrics_eq hspare hcount h, floor_sum_map,
      ← List.map_dropLast]
    exact List.forall_mem_map.mpr hconvert

/-- The UEs that are filtered out. -/
theorem schedule_filtered {result : ScheduleResult R} (h : cfg.schedule ues = .ok result) :
    result.filteredUes = (ues.filter fun ue => !cfg.pass ue).map UeState.ueId := by
  rw [schedule, require_bind_eq_ok, require_bind_eq_ok] at h
  obtain ⟨selected, _, hreturn⟩ := Checked.bind_eq_ok.mp h.2.2
  split at hreturn
  · rw [← Except.ok.inj hreturn]
  · obtain ⟨allocations, _, hdone⟩ := Checked.bind_eq_ok.mp hreturn
    rw [← Except.ok.inj hdone]

/-- A schedule lists the UEs that do not pass, in order, and selects by priority, with one
allocation for each selected UE, exactly when the UEs are servable. -/
theorem priority_selection_iff (ues : List (UeState R))
    (hprb : 0 < cfg.nPrb) (hues : 0 < cfg.maxUes) :
    (∃ result order, cfg.schedule ues = .ok result ∧
      result.filteredUes = (ues.filter fun ue => !cfg.pass ue).map UeState.ueId ∧
      cfg.SelectsByPriority ues order ∧
      result.selectedUes = order.map (fun i => (ues.get i).ueId) ∧
      result.allocations.map PrbAllocation.ueId = result.selectedUes) ↔ cfg.Servable ues := by
  constructor
  · intro ⟨result, order, hresult, _, hpriority, hids, _⟩
    obtain ⟨selected, hselected, hconvert, _, hselectedIds⟩ := cfg.schedule_spec hresult
    have hspare := cfg.selection_ok_iff.mp ⟨selected, hselected⟩
    have hlength : order.length = (cfg.nSel ues).toNat := by
      rw [← cfg.selection_length hselected]
      simpa [hids] using congrArg List.length hselectedIds
    have hcount := hpriority.count
    rw [hlength] at hcount
    exact ⟨hspare, (cfg.n_sel_eq_iff hues).mp hcount,
      (cfg.shares_iff hspare hcount hselected).mpr hconvert⟩
  · intro ⟨hspare, hnumber, hshares⟩
    have hcount := (cfg.n_sel_eq_iff hues).mpr hnumber
    have hselected := cfg.selection_ranking hspare
    have hconvert := (cfg.shares_iff hspare hcount hselected).mp hshares
    obtain ⟨result, hresult, _, hids⟩ := cfg.schedule_ok hprb hues hselected hconvert
    refine ⟨result, _, hresult, cfg.schedule_filtered hresult, cfg.ranking_selects hspare hcount,
      ?_, cfg.schedule_ids hresult⟩
    rw [hids, List.map_map]
    rfl

end SchedulerConfig

/-- Two default UEs are selected by priority. -/
theorem priority_selection_iff_two : ∃ result order,
    ({} : SchedulerConfig ℚ).schedule [{}, {}] = .ok result ∧
      ({} : SchedulerConfig ℚ).SelectsByPriority [{}, {}] order ∧
      result.selectedUes = order.map fun i => (([{}, {}] : List (UeState ℚ)).get i).ueId := by
  have heligible : ({} : SchedulerConfig ℚ).eligible [{}, {}] = [{}, {}] := eligible_default 2
  have hspare : ∀ ue ∈ ({} : SchedulerConfig ℚ).eligible [{}, {}],
      ue.harqProcessesMax - ue.harqProcessesActive < 2 ^ 31 := by
    rw [heligible]
    decide
  have hnumber : toInt32 (({} : SchedulerConfig ℚ).eligible [{}, {}]).length =
      (({} : SchedulerConfig ℚ).eligible [{}, {}]).length := by
    rw [heligible]
    decide
  have hcount := (SchedulerConfig.n_sel_eq_iff _ (by decide)).mpr (.inl hnumber)
  have hconvert := SchedulerConfig.convert_of_nonneg ({} : SchedulerConfig ℚ) (by decide)
    fun c hc => (metrics_two c hc).le
  obtain ⟨result, order, hresult, _, hpriority, hids, _⟩ :=
    (SchedulerConfig.priority_selection_iff ({} : SchedulerConfig ℚ) [{}, {}] (by decide)
      (by decide)).mpr ⟨hspare, .inl hnumber,
        (SchedulerConfig.shares_iff _ hspare hcount selection_two).mpr hconvert⟩
  exact ⟨result, order, hresult, hpriority, hids⟩

/-- Two UEs of negative weight are eligible and not scheduled, and of as many default UEs as an
`int` has nonnegative values none is selected, though four may be. -/
theorem priority_selection_fails :
    (({} : SchedulerConfig ℚ).eligible [{ qosWeight := -1 }, { qosWeight := -1 }] ≠ [] ∧
      ∀ result, ({} : SchedulerConfig ℚ).schedule [{ qosWeight := -1 }, { qosWeight := -1 }] ≠
        .ok result) ∧
    ∃ result, ({} : SchedulerConfig ℚ).schedule (List.replicate (2 ^ 31) {}) = .ok result ∧
      (result.selectedUes.length : Int) ≠ min ({} : SchedulerConfig ℚ).maxUes
        (({} : SchedulerConfig ℚ).eligible (List.replicate (2 ^ 31) {})).length := by
  refine ⟨⟨by decide +kernel, negative_not_scheduled⟩, ?_⟩
  obtain ⟨result, hresult, hnone⟩ := default_not_served (n := 2 ^ 31) (by decide +kernel)
  refine ⟨result, hresult, ?_⟩
  rw [← SchedulerConfig.schedule_ids _ hresult, hnone, eligible_default, List.length_replicate]
  decide

/-! ## What a schedule depends on -/

section Dependence

variable (cfg : SchedulerConfig R) {ues ues' : List (UeState R)}

namespace SchedulerConfig

/-- A UE has a metric or computing it is undefined. -/
theorem candidate_cases (ue : UeState R) :
    (∃ candidate, cfg.candidate ue = .ok candidate) ∨
      cfg.candidate ue = .error .undefined := by
  unfold candidate UeState.compositeMetric
  dsimp only
  rcases int32_cases (ue.harqProcessesMax - ue.harqProcessesActive) with hspare | hspare
  · rw [hspare]
    exact .inl ⟨_, rfl⟩
  · rw [hspare]
    exact .inr rfl

/-- Without all metrics the selection is undefined. -/
theorem selection_undefined
    (h : ¬∀ ue ∈ cfg.eligible ues, ue.harqProcessesMax - ue.harqProcessesActive < 2 ^ 31) :
    cfg.selection ues = .error .undefined := by
  rcases Checked.map_cases fun ue _ => cfg.candidate_cases ue with ⟨candidates, hok⟩ | hfault
  · exact absurd (cfg.selection_ok_iff.mp ⟨_, Checked.bind_eq_ok.mpr ⟨candidates, hok, rfl⟩⟩) h
  · rw [selection, hfault]
    rfl

/-- Eligible UEs of distinct metrics are selected alike in whatever order they come. -/
theorem selection_perm (h : (cfg.eligible ues).Perm (cfg.eligible ues'))
    (hdistinct : (cfg.eligible ues).Pairwise fun a b => ∀ m,
      a.compositeMetric cfg.enableQos = .ok m → b.compositeMetric cfg.enableQos ≠ .ok m) :
    cfg.selection ues = cfg.selection ues' := by
  have hnumber : cfg.nSel ues = cfg.nSel ues' := by
    rw [nSel, nSel, h.length_eq]
  by_cases hspare : ∀ ue ∈ cfg.eligible ues, ue.harqProcessesMax - ue.harqProcessesActive < 2 ^ 31
  · have hother : ∀ ue ∈ cfg.eligible ues',
        ue.harqProcessesMax - ue.harqProcessesActive < 2 ^ 31 :=
      fun ue hue => hspare ue (h.mem_iff.mpr hue)
    have hmetric := cfg.composite_metric_ok hspare
    have hnodup : ((cfg.eligible ues).map cfg.metric).Nodup := by
      refine List.pairwise_map.mpr (hdistinct.imp_of_mem fun {a b} ha hb hab heq => ?_)
      exact hab _ (hmetric a ha) (heq ▸ hmetric b hb)
    have hinjective : ∀ a ∈ cfg.eligible ues, ∀ b ∈ cfg.eligible ues,
        cfg.metric a = cfg.metric b → a = b :=
      fun a ha b hb heq => List.inj_on_of_nodup_map hnodup ha hb heq
    rw [cfg.selection_eq hspare, cfg.selection_eq hother, sort_unique cfg.metric h hinjective,
      hnumber]
  · have hother : ¬∀ ue ∈ cfg.eligible ues',
        ue.harqProcessesMax - ue.harqProcessesActive < 2 ^ 31 :=
      fun hall => hspare fun ue hue => hall ue (h.mem_iff.mp hue)
    rw [cfg.selection_undefined hspare, cfg.selection_undefined hother]

/-- `ues'` is `ues` with an ineligible UE inserted somewhere. -/
def InsertsIneligible (ues ues' : List (UeState R)) : Prop :=
  ∃ front ue back, cfg.pass ue = false ∧ ues = front ++ back ∧ ues' = front ++ ue :: back

omit [Add R] [Mul R] [Div R] [IntCast R] in
/-- Inserting and removing ineligible UEs keeps the eligible ones. -/
theorem eligible_eq (h : Relation.EqvGen cfg.InsertsIneligible ues ues') :
    cfg.eligible ues = cfg.eligible ues' := by
  induction h with
  | rel ues ues' hinserts =>
      obtain ⟨front, ue, back, hfails, rfl, rfl⟩ := hinserts
      rw [eligible, eligible, List.filter_append, List.filter_append,
        List.filter_cons_of_neg (by simp [hfails])]
  | refl ues => rfl
  | symm ues ues' _ ih => exact ih.symm
  | trans first second third _ _ ih ih' => exact ih.trans ih'

end SchedulerConfig

/-- What a schedule decides for the selected UEs: the allocations, the selected UEs and the hash. -/
def ScheduleResult.decision (result : ScheduleResult R) :
    List (PrbAllocation R) × List UInt32 × UInt64 :=
  (result.allocations, result.selectedUes, result.replayHash)

namespace SchedulerConfig

variable [Zero R] [FloorToInt R]

/-- The decision depends on the selection and the number of selected UEs only. -/
theorem decision_congr (hselection : cfg.selection ues = cfg.selection ues')
    (hnumber : cfg.nSel ues = cfg.nSel ues') :
    (cfg.schedule ues).map ScheduleResult.decision =
      (cfg.schedule ues').map ScheduleResult.decision := by
  refine Refines.map_eq ?_
  unfold schedule
  rw [hselection, hnumber]
  -- the runs are the same step by step, up to the UEs that are filtered out
  refine Refines.bind_same fun _ => Refines.bind_same fun _ => Refines.bind_same fun selected => ?_
  split
  · exact .ok rfl
  · exact Refines.bind_same fun allocations => .ok rfl

/-- Inserting and removing ineligible UEs leaves the decision unchanged, and so does every
permutation of the UEs when no two eligible ones have the same metric. -/
theorem decision_of_eligible :
    (∀ ues ues', Relation.EqvGen cfg.InsertsIneligible ues ues' →
      (cfg.schedule ues).map ScheduleResult.decision =
        (cfg.schedule ues').map ScheduleResult.decision) ∧
    ∀ ues ues' : List (UeState R), ues.Perm ues' →
      (cfg.eligible ues).Pairwise (fun a b => ∀ m,
        a.compositeMetric cfg.enableQos = .ok m → b.compositeMetric cfg.enableQos ≠ .ok m) →
      (cfg.schedule ues).map ScheduleResult.decision =
        (cfg.schedule ues').map ScheduleResult.decision := by
  constructor
  · intro ues ues' hequivalent
    have heligible := cfg.eligible_eq hequivalent
    refine cfg.decision_congr ?_ ?_
    · rw [selection, selection, nSel, nSel, heligible]
    · rw [nSel, nSel, heligible]
  · intro ues ues' hperm hdistinct
    have heligible : (cfg.eligible ues).Perm (cfg.eligible ues') := hperm.filter cfg.pass
    refine cfg.decision_congr (cfg.selection_perm heligible hdistinct) ?_
    rw [nSel, nSel, heligible.length_eq]

end SchedulerConfig

end Dependence

/-- A UE that is not connected can be left out, and two UEs of different rates can be exchanged. -/
theorem decision_of_eligible_two :
    (({} : SchedulerConfig ℚ).schedule [{ instantRate := 2 }, { rrcConnected := false }, {}]).map
        ScheduleResult.decision =
      (({} : SchedulerConfig ℚ).schedule [{ instantRate := 2 }, {}]).map
        ScheduleResult.decision ∧
    (({} : SchedulerConfig ℚ).schedule [{ instantRate := 2 }, {}]).map ScheduleResult.decision =
      (({} : SchedulerConfig ℚ).schedule [{}, { instantRate := 2 }]).map
        ScheduleResult.decision := by
  obtain ⟨hinserted, hpermuted⟩ :=
    SchedulerConfig.decision_of_eligible ({} : SchedulerConfig ℚ)
  constructor
  · refine hinserted _ _ (.symm _ _ (.rel _ _ ⟨[{ instantRate := 2 }], { rrcConnected := false },
      [{}], by decide +kernel, rfl, rfl⟩))
  · refine hpermuted _ _ (List.Perm.swap _ _ _) ?_
    have hpass : ({} : SchedulerConfig ℚ).eligible [{ instantRate := 2 }, {}] =
        [{ instantRate := 2 }, {}] := List.filter_eq_self.mpr (by decide +kernel)
    have hfast : ({ instantRate := 2 } : UeState ℚ).compositeMetric true =
        .ok (1990989 / 312500) := by decide +kernel
    have hslow : ({} : UeState ℚ).compositeMetric true = .ok (1990989 / 625000) := by
      decide +kernel
    rw [hpass, List.pairwise_pair, hfast, hslow]
    intro m hm
    rw [← Except.ok.inj hm, ne_eq, Except.ok.injEq]
    norm_num

end NrBaseband
