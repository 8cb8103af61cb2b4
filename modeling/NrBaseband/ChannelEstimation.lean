import NrBaseband.Types
import NrBaseband.Foundation.Bisection
import NrBaseband.Foundation.MachineInt
import NrBaseband.Foundation.Table
import NrBaseband.Foundation.RowMajor
import Mathlib.Data.List.GetD
import Mathlib.LinearAlgebra.AffineSpace.AffineMap
import Mathlib.Algebra.Order.Field.Basic
import Mathlib.Algebra.Order.Ring.Rat
import Mathlib.Tactic.NormNum.Ineq

/-!
# Interpolation between pilots

`interpolate_frequency` sets every subcarrier to the value of the first pilot, of the last one, or
of the line between its neighbours, which a binary search finds. `neighbours_eq` relates the search
to `bisect`, and `interpolate_linear_iff` says when the result is the piecewise linear function
through the pilots. Complex numbers are any vector space over the reals.
-/

namespace NrBaseband

open Foundation Foundation.MachineInt

/-- Half of the sum of two distant integers is between them. -/
theorem tdiv_two_between {lo hi : Int} (h : hi - lo > 1) :
    lo < (lo + hi).tdiv 2 ∧ (lo + hi).tdiv 2 < hi := by
  have hsign : Int.sign 2 = 1 := rfl
  rw [Int.tdiv_eq_ediv, hsign]
  split <;> omega

/-- The loop of `interpolate_frequency` on the variables `lo` and `hi`. -/
def neighbours (pilotIdx : List Int) (sc lo hi : Int) : Checked (Int × Int) :=
  if hi - lo > 1 then do
    let _ ← int32 (lo + hi)
    let p ← Checked.read pilotIdx (toSizeT ((lo + hi).tdiv 2))
    if p ≤ sc then neighbours pilotIdx sc ((lo + hi).tdiv 2) hi
    else neighbours pilotIdx sc lo ((lo + hi).tdiv 2)
  else .ok (lo, hi)
  termination_by (hi - lo).toNat
  decreasing_by
    all_goals
      have hmid := tdiv_two_between ‹_›
      omega

section

variable (R : Type) {V : Type} [Field R] [LinearOrder R] [AddCommGroup V] [Module R V]

/-- The end of the body of the loop of `interpolate_frequency`: a value between two pilots. -/
def valueBetween (hPilots : List V) (pilotIdx : List Int) (sc lo hi : Int) : Checked V := do
  let x0 ← Checked.read pilotIdx (toSizeT lo)
  let x1 ← Checked.read pilotIdx (toSizeT hi)
  let t := ((sc : R) - x0) / max (1 / ((10 ^ 12 : Nat) : R)) ((x1 : R) - x0)
  let a ← Checked.read hPilots (toSizeT lo)
  let b ← Checked.read hPilots (toSizeT hi)
  return (1 - t) • a + t • b

/-- The body of the loop of `interpolate_frequency` over the subcarriers. -/
def interpolateAt (hPilots : List V) (pilotIdx : List Int) (sc : Int) : Checked V := do
  let last ← int32 (toInt32 pilotIdx.length - 1)
  let front ← Checked.read pilotIdx 0
  let back ← Checked.read pilotIdx (pilotIdx.length - 1)
  if sc ≤ front then Checked.read hPilots 0
  else if sc ≥ back then Checked.read hPilots (hPilots.length - 1)
  else
    let (lo, hi) ← neighbours pilotIdx sc 0 last
    valueBetween R hPilots pilotIdx sc lo hi

/-- `interpolate_frequency`. -/
def interpolateFrequency (hPilots : List V) (pilotIdx : List Int) (nSc : Int) :
    Checked (List V) := do
  require (hPilots.length = pilotIdx.length) "pilot size mismatch"
  require (pilotIdx ≠ []) "no pilots"
  require (nSc > 0) "n_sc"
  (List.range nSc.toNat).mapM fun sc : Nat => interpolateAt R hPilots pilotIdx sc

end

/-! ## The search -/

/-- The loop is a bisection of the pilots up to a subcarrier. -/
theorem neighbours_eq {pilotIdx : List Int} (sc : Int) {lo hi : Nat} (hlt : lo < hi)
    (hhi : hi < pilotIdx.length) (hfits : hi < 2 ^ 31) :
    neighbours pilotIdx sc lo hi =
      (bisect (2 ^ 31) (fun j => pilotIdx.getD j 0 ≤ sc) lo hi).map fun i : Nat =>
        ((i : Int), (i : Int) + 1) := by
  induction hwidth : hi - lo using Nat.strong_induction_on generalizing lo hi with
  | h width ih =>
      rw [neighbours, bisect]
      by_cases hnarrow : hi ≤ lo + 1
      · rw [if_neg (by omega), if_pos hnarrow]
        have hnext : (hi : Int) = (lo : Int) + 1 := by omega
        rw [hnext]
        rfl
      rw [if_pos (by omega), if_neg hnarrow]
      by_cases hsum : 2 ^ 31 ≤ lo + hi
      · have hoverflow : int32 ((lo : Int) + hi) = .error .undefined := if_neg (by omega)
        rw [hoverflow, if_pos hsum]
        rfl
      have hmid : ((lo : Int) + hi).tdiv 2 = ((lo + hi) / 2 : Nat) := Int.ofNat_tdiv (lo + hi) 2
      have hindex : toSizeT (((lo + hi) / 2 : Nat) : Int) = (lo + hi) / 2 :=
        to_size_t_natCast (by omega)
      rw [int32_of_range (by omega) (by omega), Checked.ok_bind, if_neg hsum, hmid, hindex,
        RowMajor.read_getD (by omega : (lo + hi) / 2 < pilotIdx.length) 0, Checked.ok_bind]
      by_cases htest : pilotIdx.getD ((lo + hi) / 2) 0 ≤ sc
      · rw [if_pos htest, if_pos (decide_eq_true htest)]
        exact ih _ (by omega) (by omega) hhi hfits rfl
      · rw [if_neg htest, if_neg (by simpa using htest)]
        exact ih _ (by omega) (by omega) (by omega) (by omega) rfl

/-- Pilots at increasing subcarriers. -/
structure Increasing (pilotIdx : List Int) : Prop where
  sorted : pilotIdx.Pairwise (· < ·)
  range : ∀ p ∈ pilotIdx, -2 ^ 31 ≤ p ∧ p < 2 ^ 31

namespace Increasing

variable {pilotIdx : List Int}

/-- A later pilot is at a greater subcarrier. -/
theorem getD_lt (h : Increasing pilotIdx) {i j : Nat} (hij : i < j) (hj : j < pilotIdx.length) :
    pilotIdx.getD i 0 < pilotIdx.getD j 0 := by
  have hi : i < pilotIdx.length := by omega
  rw [List.getD_eq_getElem _ _ hi, List.getD_eq_getElem _ _ hj]
  exact List.pairwise_iff_getElem.mp h.sorted i j hi hj hij

/-- Pilots are as many subcarriers apart as indices, at least. -/
theorem add_le_getD (h : Increasing pilotIdx) {i : Nat} (hi : i < pilotIdx.length) :
    pilotIdx.getD 0 0 + i ≤ pilotIdx.getD i 0 := by
  induction i with
  | zero => omega
  | succ i ih =>
      have hbefore := ih (by omega)
      have hnext := h.getD_lt (Nat.lt_add_one i) hi
      omega

/-- There are no more pilots than machine integers. -/
theorem length_le (h : Increasing pilotIdx) : pilotIdx.length ≤ 2 ^ 32 := by
  by_contra hmany
  have hfirst : pilotIdx.getD 0 0 ∈ pilotIdx := by
    rw [List.getD_eq_getElem _ _ (by omega : 0 < pilotIdx.length)]
    exact List.getElem_mem _
  have hlast : pilotIdx.getD (2 ^ 32) 0 ∈ pilotIdx := by
    rw [List.getD_eq_getElem _ _ (by omega : 2 ^ 32 < pilotIdx.length)]
    exact List.getElem_mem _
  have hspan := h.add_le_getD (by omega : 2 ^ 32 < pilotIdx.length)
  have hlow := h.range _ hfirst
  have hhigh := h.range _ hlast
  omega

/-- A subcarrier between the pilots has a last pilot before it. -/
theorem exists_bracket (h : Increasing pilotIdx) {sc : Int} (hfirst : pilotIdx.getD 0 0 < sc)
    (hlast : sc < pilotIdx.getD (pilotIdx.length - 1) 0) :
    ∃ i < pilotIdx.length - 1, ∀ j ≤ pilotIdx.length - 1, pilotIdx.getD j 0 ≤ sc ↔ j ≤ i := by
  refine exists_last_below (le_of_lt hfirst) (not_le_of_gt hlast) fun j k hjk hk hbelow => ?_
  rcases Nat.lt_or_eq_of_le hjk with hlt | rfl
  · have hstep := h.getD_lt hlt (by omega)
    omega
  · exact hbelow

/-- Pilots at the first subcarriers. -/
theorem of_table {n : Nat} (hn : n ≤ 2 ^ 31) : Increasing (table n fun i => (i : Int)) where
  sorted := List.Pairwise.map _ (fun _ _ hlt => Int.ofNat_lt.mpr hlt) List.pairwise_lt_range
  range := by
    intro p hp
    obtain ⟨i, hi, rfl⟩ := List.mem_map.mp hp
    have hlt := List.mem_range.mp hi
    omega

end Increasing

/-! ## The result -/

/-- The index of the last pilot as an `int`. -/
theorem last_index_eq {n : Nat} (hn : n ≤ 2 ^ 32) : int32 (toInt32 n - 1) =
    if n = 2 ^ 31 then .error .undefined else .ok (toInt32 n - 1) := by
  by_cases hhalf : n = 2 ^ 31
  · rw [if_pos hhalf, hhalf]
    rfl
  · have hlow : -2 ^ 31 ≤ toInt32 n - 1 := by
      simp only [toInt32, Int.bmod]
      omega
    have hhigh := (to_int32_range n).2
    rw [if_neg hhalf, int32_of_range hlow (by omega)]

/-- A value on the line through two pilots. -/
def lineAt (R : Type) {V : Type} [Field R] [AddCommGroup V] [Module R V] (hPilots : List V)
    (pilotIdx : List Int) (i : Nat) (sc : Int) : V :=
  AffineMap.lineMap (hPilots.getD i 0) (hPilots.getD (i + 1) 0)
    (((sc - pilotIdx.getD i 0 : Int) : R) / ((pilotIdx.getD (i + 1) 0 - pilotIdx.getD i 0 : Int)))

section

variable {R V : Type} [Field R] [LinearOrder R] [AddCommGroup V] [Module R V] {hPilots : List V}
  {pilotIdx : List Int}

/-- The body of the loop after its first reads. -/
theorem interpolate_at_eq (h : Increasing pilotIdx) (hlength : hPilots.length = pilotIdx.length)
    (hne : pilotIdx ≠ []) (hsize : pilotIdx.length ≠ 2 ^ 31) (sc : Int) :
    interpolateAt R hPilots pilotIdx sc =
      if sc ≤ pilotIdx.getD 0 0 then .ok (hPilots.getD 0 0)
      else if pilotIdx.getD (pilotIdx.length - 1) 0 ≤ sc then
        .ok (hPilots.getD (pilotIdx.length - 1) 0)
      else neighbours pilotIdx sc 0 (toInt32 pilotIdx.length - 1) >>= fun ends =>
        valueBetween R hPilots pilotIdx sc ends.1 ends.2 := by
  have hpos : 0 < pilotIdx.length := List.length_pos_iff.mpr hne
  rw [interpolateAt, last_index_eq h.length_le, if_neg hsize, Checked.ok_bind,
    RowMajor.read_getD hpos 0, Checked.ok_bind,
    RowMajor.read_getD (Nat.sub_one_lt_of_lt hpos) 0, Checked.ok_bind,
    RowMajor.read_getD (by omega : 0 < hPilots.length) 0, hlength,
    RowMajor.read_getD (by omega : pilotIdx.length - 1 < hPilots.length) 0]

/-- The value of a subcarrier up to the first pilot. -/
theorem interpolate_at_before (h : Increasing pilotIdx) (hlength : hPilots.length = pilotIdx.length)
    (hne : pilotIdx ≠ []) (hsize : pilotIdx.length ≠ 2 ^ 31) {sc : Int}
    (hsc : sc ≤ pilotIdx.getD 0 0) :
    interpolateAt R hPilots pilotIdx sc = .ok (hPilots.getD 0 0) := by
  rw [interpolate_at_eq h hlength hne hsize, if_pos hsc]

/-- The value of a subcarrier from the last pilot on. -/
theorem interpolate_at_after (h : Increasing pilotIdx) (hlength : hPilots.length = pilotIdx.length)
    (hne : pilotIdx ≠ []) (hsize : pilotIdx.length ≠ 2 ^ 31) {sc : Int}
    (hsc : pilotIdx.getD (pilotIdx.length - 1) 0 ≤ sc) :
    interpolateAt R hPilots pilotIdx sc = .ok (hPilots.getD (pilotIdx.length - 1) 0) := by
  have hpos : 0 < pilotIdx.length := List.length_pos_iff.mpr hne
  rw [interpolate_at_eq h hlength hne hsize]
  by_cases hbefore : sc ≤ pilotIdx.getD 0 0
  · -- both pilots are the same one
    have hspan := h.add_le_getD (Nat.sub_one_lt_of_lt hpos)
    have hone : pilotIdx.length - 1 = 0 := by omega
    rw [if_pos hbefore, hone]
  · rw [if_neg hbefore, if_pos hsc]

variable [IsStrictOrderedRing R]

/-- The value between a pilot and the next one is on the line through them. -/
theorem value_between_ok (h : Increasing pilotIdx) (hlength : hPilots.length = pilotIdx.length)
    {i : Nat} (hi : i + 1 < pilotIdx.length) (sc : Int) :
    valueBetween R hPilots pilotIdx sc i ((i : Int) + 1) =
      .ok (lineAt R hPilots pilotIdx i sc) := by
  have hmax := h.length_le
  have hlo : toSizeT (i : Int) = i := to_size_t_natCast (by omega)
  have hhi : toSizeT ((i : Int) + 1) = i + 1 := to_size_t_natCast (n := i + 1) (by omega)
  have hstep := h.getD_lt (Nat.lt_add_one i) hi
  have hspacing : max (1 / ((10 ^ 12 : Nat) : R))
      ((pilotIdx.getD (i + 1) 0 : R) - (pilotIdx.getD i 0 : R)) =
        ((pilotIdx.getD (i + 1) 0 - pilotIdx.getD i 0 : Int) : R) := by
    have hsmall : 1 / ((10 ^ 12 : Nat) : R) ≤ 1 :=
      div_le_one_of_le₀ (Nat.one_le_cast.mpr (Nat.pow_pos (by omega))) (Nat.cast_nonneg _)
    have hone : (1 : R) ≤ ((pilotIdx.getD (i + 1) 0 - pilotIdx.getD i 0 : Int) : R) := by
      exact_mod_cast (by omega : 1 ≤ pilotIdx.getD (i + 1) 0 - pilotIdx.getD i 0)
    rw [← Int.cast_sub, max_eq_right (le_trans hsmall hone)]
  rw [valueBetween, hlo, hhi, RowMajor.read_getD (by omega : i < pilotIdx.length) 0,
    Checked.ok_bind, RowMajor.read_getD hi 0, Checked.ok_bind,
    RowMajor.read_getD (by omega : i < hPilots.length) 0, Checked.ok_bind,
    RowMajor.read_getD (by omega : i + 1 < hPilots.length) 0, Checked.ok_bind,
    Checked.pure_eq_ok, hspacing, lineAt, AffineMap.lineMap_apply_module, Int.cast_sub sc]

/-- The value of a subcarrier between two pilots: the search ends, if its sums fit. -/
theorem interpolate_at_between (h : Increasing pilotIdx)
    (hlength : hPilots.length = pilotIdx.length) (hsize : pilotIdx.length ≠ 2 ^ 31) {sc : Int}
    (hfirst : pilotIdx.getD 0 0 < sc) (hlast : sc < pilotIdx.getD (pilotIdx.length - 1) 0) {i : Nat}
    (hi : i < pilotIdx.length - 1)
    (hbelow : ∀ j ≤ pilotIdx.length - 1, pilotIdx.getD j 0 ≤ sc ↔ j ≤ i) :
    interpolateAt R hPilots pilotIdx sc =
      if pilotIdx.length < 2 ^ 31 ∧ i < safeBelow (2 ^ 31) 0 (pilotIdx.length - 1) then
        .ok (lineAt R hPilots pilotIdx i sc)
      else .error .undefined := by
  have hne : pilotIdx ≠ [] := by
    rintro rfl
    exact absurd hi (Nat.not_lt_zero i)
  have hmax := h.length_le
  rw [interpolate_at_eq h hlength hne hsize, if_neg (not_le_of_gt hfirst),
    if_neg (not_le_of_gt hlast)]
  by_cases hfits : pilotIdx.length < 2 ^ 31
  · have hcast : toInt32 pilotIdx.length - 1 = ((pilotIdx.length - 1 : Nat) : Int) := by
      rw [to_int32_of_range (by omega) (by omega)]
      omega
    have hsearch : neighbours pilotIdx sc (0 : Nat) (pilotIdx.length - 1 : Nat) = _ :=
      neighbours_eq sc (by omega) (by omega) (by omega)
    rw [bisect_eq (Nat.zero_le i) hi fun j hj => by simpa using hbelow j hj] at hsearch
    rw [hcast, ← Int.natCast_zero, hsearch]
    by_cases hsafe : i < safeBelow (2 ^ 31) 0 (pilotIdx.length - 1)
    · rw [if_pos hsafe, if_pos ⟨hfits, hsafe⟩]
      exact value_between_ok h hlength (by omega) sc
    · rw [if_neg hsafe, if_neg fun hboth => hsafe hboth.2]
      rfl
  · -- the last index is negative, and no index of a pilot as a size
    have hnegative : toInt32 pilotIdx.length - 1 < 0 := by
      simp only [toInt32, Int.bmod]
      omega
    have hread : Checked.read pilotIdx (toSizeT (toInt32 pilotIdx.length - 1)) =
        .error .undefined := by
      have hlow := (to_int32_range pilotIdx.length).1
      refine Checked.read_of_le ?_
      unfold toSizeT
      omega
    have hfirst : toSizeT 0 = 0 := rfl
    have hpos : 0 < pilotIdx.length := List.length_pos_iff.mpr hne
    rw [neighbours, if_neg (by omega), if_neg fun hboth => hfits hboth.1]
    show valueBetween R hPilots pilotIdx sc 0 (toInt32 pilotIdx.length - 1) = _
    rw [valueBetween, hfirst, RowMajor.read_getD hpos 0, Checked.ok_bind, hread,
      Checked.error_bind]

/-- The condition under which no search overflows: a number of pilots whose last index is an `int`
and, for every subcarrier between the pilots, a search that ends before its sums do not fit. -/
def SearchFits (pilotIdx : List Int) (nSc : Int) : Prop :=
  pilotIdx.length ≠ 2 ^ 31 ∧ ∀ sc : Nat, (sc : Int) < nSc → pilotIdx.getD 0 0 < sc →
    sc < pilotIdx.getD (pilotIdx.length - 1) 0 → pilotIdx.length < 2 ^ 31 ∧
      sc < pilotIdx.getD (safeBelow (2 ^ 31) 0 (pilotIdx.length - 1)) 0

/-- Up to `2 ^ 30 + 1` pilots are searched at every subcarrier. -/
theorem search_fits_of_length_le (h : pilotIdx.length ≤ 2 ^ 30 + 1) (nSc : Int) :
    SearchFits pilotIdx nSc := by
  refine ⟨by omega, fun sc _ _ hlast => ⟨by omega, ?_⟩⟩
  rw [safe_below_of_le (by omega)]
  exact hlast

/-- The values are those of the piecewise linear function through the pilots. -/
structure PiecewiseLinear (R : Type) {V : Type} [Field R] [AddCommGroup V] [Module R V]
    (hPilots : List V) (pilotIdx : List Int) (nSc : Int) (H : List V) : Prop where
  length : (H.length : Int) = nSc
  before : ∀ sc < H.length, (sc : Int) ≤ pilotIdx.getD 0 0 → H.getD sc 0 = hPilots.getD 0 0
  after : ∀ sc < H.length, pilotIdx.getD (pilotIdx.length - 1) 0 ≤ sc →
    H.getD sc 0 = hPilots.getD (pilotIdx.length - 1) 0
  between : ∀ sc < H.length, pilotIdx.getD 0 0 < sc →
    sc < pilotIdx.getD (pilotIdx.length - 1) 0 →
      (∃! i, i + 1 < pilotIdx.length ∧ pilotIdx.getD i 0 ≤ sc ∧ sc < pilotIdx.getD (i + 1) 0) ∧
      ∀ i, i + 1 < pilotIdx.length → pilotIdx.getD i 0 ≤ sc → sc < pilotIdx.getD (i + 1) 0 →
        H.getD sc 0 = lineAt R hPilots pilotIdx i sc
  at_pilots : ∀ i < pilotIdx.length, ∀ sc < H.length, (sc : Int) = pilotIdx.getD i 0 →
    H.getD sc 0 = hPilots.getD i 0
  affine : ∀ channel : R →ᵃ[R] V,
    (∀ i < pilotIdx.length, hPilots.getD i 0 = channel (pilotIdx.getD i 0 : R)) →
      ∀ sc < H.length, pilotIdx.getD 0 0 ≤ sc → sc ≤ pilotIdx.getD (pilotIdx.length - 1) 0 →
        H.getD sc 0 = channel (sc : R)

/-- A search fits exactly where it ends, at the last pilot up to the subcarrier. -/
theorem search_ends_iff {sc : Int} {i : Nat}
    (hbelow : ∀ j ≤ pilotIdx.length - 1, pilotIdx.getD j 0 ≤ sc ↔ j ≤ i) :
    sc < pilotIdx.getD (safeBelow (2 ^ 31) 0 (pilotIdx.length - 1)) 0 ↔
      i < safeBelow (2 ^ 31) 0 (pilotIdx.length - 1) := by
  rw [← not_le, hbelow _ (safe_below_le _ (Nat.zero_le _)), not_le]

omit [IsStrictOrderedRing R] in
/-- The interpolation past its requirements. -/
theorem interpolate_frequency_eq (hlength : hPilots.length = pilotIdx.length) (hne : pilotIdx ≠ [])
    {nSc : Int} (hn : 0 < nSc) : interpolateFrequency R hPilots pilotIdx nSc =
      (List.range nSc.toNat).mapM fun sc : Nat => interpolateAt R hPilots pilotIdx sc := by
  rw [interpolateFrequency, require_of hlength, Checked.ok_bind, require_of hne, Checked.ok_bind,
    require_of hn, Checked.ok_bind]

/-- The interpolation returns exactly where no search overflows. -/
theorem interpolate_returns_iff (h : Increasing pilotIdx)
    (hlength : hPilots.length = pilotIdx.length) (hne : pilotIdx ≠ []) {nSc : Int} (hn : 0 < nSc) :
    (∃ H, interpolateFrequency R hPilots pilotIdx nSc = .ok H) ↔ SearchFits pilotIdx nSc := by
  rw [interpolate_frequency_eq hlength hne hn, Checked.map_returns_iff]
  simp only [List.mem_range]
  constructor
  · intro hall
    have hsize : pilotIdx.length ≠ 2 ^ 31 := by
      intro hhalf
      obtain ⟨v, hv⟩ := hall 0 (by omega)
      rw [interpolateAt, last_index_eq h.length_le, if_pos hhalf] at hv
      cases hv
    refine ⟨hsize, fun sc hsc hfirst hlast => ?_⟩
    obtain ⟨i, hi, hbelow⟩ := h.exists_bracket hfirst hlast
    obtain ⟨v, hv⟩ := hall sc (by omega)
    rw [interpolate_at_between h hlength hsize hfirst hlast hi hbelow] at hv
    rw [search_ends_iff hbelow]
    by_contra hnot
    rw [if_neg hnot] at hv
    cases hv
  · rintro ⟨hsize, hfits⟩ sc hsc
    by_cases hfirst : (sc : Int) ≤ pilotIdx.getD 0 0
    · exact ⟨_, interpolate_at_before h hlength hne hsize hfirst⟩
    by_cases hlast : pilotIdx.getD (pilotIdx.length - 1) 0 ≤ sc
    · exact ⟨_, interpolate_at_after h hlength hne hsize hlast⟩
    rw [not_le] at hfirst hlast
    obtain ⟨i, hi, hbelow⟩ := h.exists_bracket hfirst hlast
    have hends := hfits sc (by omega) hfirst hlast
    rw [search_ends_iff hbelow] at hends
    exact ⟨_, by rw [interpolate_at_between h hlength hsize hfirst hlast hi hbelow, if_pos hends]⟩

omit [LinearOrder R] [IsStrictOrderedRing R] in
/-- The line through two pilots starts at the first one. -/
theorem line_at_pilot (i : Nat) :
    lineAt R hPilots pilotIdx i (pilotIdx.getD i 0) = hPilots.getD i 0 := by
  rw [lineAt, sub_self, Int.cast_zero, zero_div, AffineMap.lineMap_apply_zero]

/-- The line through two pilots of an affine channel is the channel. -/
theorem line_at_affine (h : Increasing pilotIdx) {channel : R →ᵃ[R] V}
    (hchannel : ∀ i < pilotIdx.length, hPilots.getD i 0 = channel (pilotIdx.getD i 0 : R)) {i : Nat}
    (hi : i + 1 < pilotIdx.length) (sc : Int) :
    lineAt R hPilots pilotIdx i sc = channel (sc : R) := by
  have hstep := h.getD_lt (Nat.lt_add_one i) hi
  have hspacing : ((pilotIdx.getD (i + 1) 0 - pilotIdx.getD i 0 : Int) : R) ≠ 0 :=
    Int.cast_ne_zero.mpr (by omega)
  rw [lineAt, hchannel i (by omega), hchannel (i + 1) hi, ← AffineMap.apply_lineMap,
    AffineMap.lineMap_apply_ring', ← Int.cast_sub, div_mul_cancel₀ _ hspacing, ← Int.cast_add,
    sub_add_cancel]

/-- What the interpolation returns is the piecewise linear function through the pilots. -/
theorem interpolate_linear (h : Increasing pilotIdx) (hlength : hPilots.length = pilotIdx.length)
    (hne : pilotIdx ≠ []) {nSc : Int} (hn : 0 < nSc) {H : List V}
    (hH : interpolateFrequency R hPilots pilotIdx nSc = .ok H) :
    PiecewiseLinear R hPilots pilotIdx nSc H := by
  obtain ⟨hsize, -⟩ := (interpolate_returns_iff h hlength hne hn).mp ⟨H, hH⟩
  rw [interpolate_frequency_eq hlength hne hn, Table.range_map_eq_ok] at hH
  obtain ⟨hcount, hvalues⟩ := hH
  have hvalue (sc : Nat) (hsc : sc < H.length) :
      interpolateAt R hPilots pilotIdx sc = .ok (H.getD sc 0) := by
    rw [hvalues sc hsc, List.getD_eq_getElem _ _ hsc]
  have hbefore (sc : Nat) (hsc : sc < H.length) (hfirst : (sc : Int) ≤ pilotIdx.getD 0 0) :
      H.getD sc 0 = hPilots.getD 0 0 :=
    Except.ok.inj ((hvalue sc hsc).symm.trans (interpolate_at_before h hlength hne hsize hfirst))
  have hafter (sc : Nat) (hsc : sc < H.length)
      (hlast : pilotIdx.getD (pilotIdx.length - 1) 0 ≤ sc) :
      H.getD sc 0 = hPilots.getD (pilotIdx.length - 1) 0 :=
    Except.ok.inj ((hvalue sc hsc).symm.trans (interpolate_at_after h hlength hne hsize hlast))
  have hbetween (sc : Nat) (hsc : sc < H.length) (hfirst : pilotIdx.getD 0 0 < sc)
      (hlast : sc < pilotIdx.getD (pilotIdx.length - 1) 0) : ∃ i, i + 1 < pilotIdx.length ∧
        (∀ j ≤ pilotIdx.length - 1, pilotIdx.getD j 0 ≤ sc ↔ j ≤ i) ∧
        H.getD sc 0 = lineAt R hPilots pilotIdx i sc := by
    obtain ⟨i, hi, hbelow⟩ := h.exists_bracket hfirst hlast
    have hrun := hvalue sc hsc
    rw [interpolate_at_between h hlength hsize hfirst hlast hi hbelow] at hrun
    split at hrun
    case isTrue => exact ⟨i, by omega, hbelow, (Except.ok.inj hrun).symm⟩
    case isFalse => cases hrun
  -- a pilot up to the subcarrier with a pilot after it is the last one up to the subcarrier
  have hunique {sc i j : Nat} (hbelow : ∀ j ≤ pilotIdx.length - 1, pilotIdx.getD j 0 ≤ sc ↔ j ≤ i)
      (hj : j + 1 < pilotIdx.length) (hlow : pilotIdx.getD j 0 ≤ sc)
      (hhigh : sc < pilotIdx.getD (j + 1) 0) : j = i := by
    have hle := (hbelow j (by omega)).mp hlow
    have hnot := mt (hbelow (j + 1) (by omega)).mpr (not_le_of_gt hhigh)
    omega
  refine ⟨by omega, hbefore, hafter, ?_, ?_, ?_⟩
  · intro sc hsc hfirst hlast
    obtain ⟨i, hi, hbelow, hline⟩ := hbetween sc hsc hfirst hlast
    have hlow := (hbelow i (by omega)).mpr (le_refl i)
    have hhigh := not_le.mp (mt (hbelow (i + 1) (by omega)).mp (by omega))
    refine ⟨⟨i, ⟨hi, hlow, hhigh⟩, fun j ⟨hj, hjlow, hjhigh⟩ => hunique hbelow hj hjlow hjhigh⟩, ?_⟩
    intro j hj hjlow hjhigh
    rw [hunique hbelow hj hjlow hjhigh, hline]
  · intro i hi sc hsc hpilot
    rcases Nat.eq_zero_or_pos i with rfl | hpos
    · exact hbefore sc hsc (le_of_eq hpilot)
    rcases Nat.lt_or_eq_of_le (Nat.le_sub_one_of_lt hi) with hinner | rfl
    · have hfirst := h.getD_lt hpos hi
      have hlast := h.getD_lt hinner (by omega)
      obtain ⟨j, hj, hbelow, hline⟩ := hbetween sc hsc (by omega) (by omega)
      have hnext := h.getD_lt (Nat.lt_add_one i) (by omega)
      rw [hline, ← hunique hbelow (by omega) (ge_of_eq hpilot) (by omega), hpilot, line_at_pilot]
    · exact hafter sc hsc (ge_of_eq hpilot)
  · intro channel hchannel sc hsc hfirst hlast
    have hpos : 0 < pilotIdx.length := List.length_pos_iff.mpr hne
    rcases eq_or_lt_of_le hfirst with heq | hinner
    · rw [hbefore sc hsc (ge_of_eq heq), hchannel 0 hpos, heq, Int.cast_natCast]
    rcases eq_or_lt_of_le hlast with heq | hinner'
    · rw [hafter sc hsc (ge_of_eq heq), hchannel _ (Nat.sub_one_lt_of_lt hpos), ← heq,
        Int.cast_natCast]
    · obtain ⟨i, hi, -, hline⟩ := hbetween sc hsc hinner hinner'
      rw [hline, line_at_affine h hchannel hi, Int.cast_natCast]

/-- The result is the piecewise linear function through the pilots exactly where no search
overflows. -/
theorem interpolate_linear_iff (h : Increasing pilotIdx)
    (hlength : hPilots.length = pilotIdx.length) (hne : pilotIdx ≠ []) {nSc : Int} (hn : 0 < nSc) :
    (∃ H, interpolateFrequency R hPilots pilotIdx nSc = .ok H ∧
      PiecewiseLinear R hPilots pilotIdx nSc H) ↔ SearchFits pilotIdx nSc := by
  rw [← interpolate_returns_iff (R := R) h hlength hne hn]
  constructor
  · rintro ⟨H, hH, -⟩
    exact ⟨H, hH⟩
  · rintro ⟨H, hH⟩
    exact ⟨H, hH, interpolate_linear h hlength hne hn hH⟩

end

/-- Two pilots, two subcarriers apart. -/
theorem interpolate_linear_two : ∃ H, interpolateFrequency ℚ [(1 : ℚ), 3] [0, 2] 3 = .ok H ∧
    PiecewiseLinear ℚ [(1 : ℚ), 3] [0, 2] 3 H := by
  have hincreasing : Increasing [0, 2] := ⟨by simp, by simp⟩
  have hlength : [(1 : ℚ), 3].length = [(0 : Int), 2].length := rfl
  exact (interpolate_linear_iff hincreasing hlength (List.cons_ne_nil _ _) (by decide)).mpr
    (search_fits_of_length_le (by decide) 3)

/-- Pilots at the first `2 ^ 30 + 2` subcarriers, for which the search between the last two
overflows. -/
theorem interpolate_overflows :
    Increasing (table (2 ^ 30 + 2) fun i => (i : Int)) ∧
      ¬∃ H, interpolateFrequency ℚ (table (2 ^ 30 + 2) fun _ => (0 : ℚ))
        (table (2 ^ 30 + 2) fun i => (i : Int)) (2 ^ 30 + 2) = .ok H := by
  have hincreasing := Increasing.of_table (by norm_num : 2 ^ 30 + 2 ≤ 2 ^ 31)
  refine ⟨hincreasing, fun hreturns => ?_⟩
  have hlength : (table (2 ^ 30 + 2) fun _ => (0 : ℚ)).length =
      (table (2 ^ 30 + 2) fun i => (i : Int)).length := by
    rw [Table.length_table, Table.length_table]
  have hne : (table (2 ^ 30 + 2) fun i => (i : Int)) ≠ [] := Table.table_ne_nil (by norm_num)
  obtain ⟨-, hfits⟩ :=
    (interpolate_returns_iff hincreasing hlength hne (by norm_num)).mp hreturns
  have hsafe := safe_below_add_two_le (by norm_num : 0 + 2 ≤ 2 ^ 30 + 2 - 1)
    (by norm_num : 2 ^ 31 + 2 ≤ 2 * (2 ^ 30 + 2 - 1))
  have hlast := hfits (2 ^ 30)
  rw [Table.length_table, Table.getD_table (by norm_num), Table.getD_table (by norm_num),
    Table.getD_table (by omega)] at hlast
  have hend := (hlast (by norm_num) (by norm_num) (by norm_num)).2
  omega

end NrBaseband
