import NrBaseband.Types
import NrBaseband.Ldpc.Tables
import NrBaseband.Foundation.MachineInt
import Mathlib.Data.List.Induction

/-!
# Lifting sizes

The table of lifting sizes and the two searches over it: `iLsForZc` finds the set of a size and
`selectLifting` the smallest size that fits a block. `select_lifting_spec` and
`select_lifting_succeeds` say what the second search returns and when it fails.
-/

namespace NrBaseband

open Foundation

/-- `BaseGraph`. -/
inductive BaseGraph where
  | bg1
  | bg2
  deriving DecidableEq, Repr

/-- `kLiftingSets`; a row is padded with -1. -/
def kLiftingSets : List (List Int) := [
  [2, 4, 8, 16, 32, 64, 128, 256],
  [3, 6, 12, 24, 48, 96, 192, 384],
  [5, 10, 20, 40, 80, 160, 320, -1],
  [7, 14, 28, 56, 112, 224, -1, -1],
  [9, 18, 36, 72, 144, 288, -1, -1],
  [11, 22, 44, 88, 176, 352, -1, -1],
  [13, 26, 52, 104, 208, -1, -1, -1],
  [15, 30, 60, 120, 240, -1, -1, -1]]

/-- The entries of the table with their row, in the order of the loops over `i` and `j`. -/
def liftingEntries : List (Nat × Int) :=
  kLiftingSets.zipIdx.flatMap fun row => row.1.map fun z => (row.2, z)

/-- `i_ls_for_zc`. -/
def iLsForZc (zc : Int) : Option Nat :=
  (liftingEntries.find? fun entry => entry.2 = zc).map Prod.fst

/-- `is_valid_lifting_size`. -/
def isValidLiftingSize (zc : Int) : Bool := (iLsForZc zc).isSome

/-- `LiftingChoice`; a choice that is returned has a positive size. -/
structure LiftingChoice where
  zc : Nat
  iLs : Nat
  kb : Nat
  zc_pos : 0 < zc
  deriving DecidableEq, Repr

/-- The number of information columns a base graph has. -/
def BaseGraph.kb : BaseGraph → Nat
  | .bg1 => bg1Kb
  | .bg2 => bg2Kb

/-- `kb_sel`, the number of columns that `select_lifting` counts on. -/
def kbSel (kBits : Int) : BaseGraph → Int
  | .bg1 => 22
  | .bg2 => if kBits > 640 then 10 else if kBits > 560 then 9 else if kBits > 192 then 8 else 6

/-- The variables `best_z`, `best_ils` and `best_val` of `select_lifting`. -/
structure LiftingSearch where
  z : Int := 0
  ils : Nat := 0
  val : Int := 1000000

/-- The body of the double loop of `select_lifting`. -/
def LiftingSearch.visit (kb kBits : Int) (best : LiftingSearch) (entry : Nat × Int) :
    LiftingSearch :=
  if entry.2 < 0 then best
  else
    let x := kb * entry.2
    if x ≥ kBits ∧ x < best.val then { z := entry.2, ils := entry.1, val := x } else best

/-- `select_lifting`. -/
def selectLifting (kBits : Int) (bg : BaseGraph) : Checked LiftingChoice := do
  let best := liftingEntries.foldl (LiftingSearch.visit (kbSel kBits bg) kBits) {}
  let ⟨hfound⟩ ← ensure (best.z > 0) "no valid lifting size for K"
  return { zc := best.z.toNat, iLs := best.ils, kb := bg.kb, zc_pos := by omega }

/-- What the search knows after visiting some entries: either no entry fits yet, or the best one is
among them and none that fits is smaller. -/
def LiftingSearch.Explores (kb kBits : Int) (entries : List (Nat × Int)) (best : LiftingSearch) :
    Prop :=
  (best.z = 0 ∧ best.val = 1000000 ∧
    ∀ e ∈ entries, 0 ≤ e.2 → ¬(kBits ≤ kb * e.2 ∧ kb * e.2 < 1000000)) ∨
  ((∃ e ∈ entries, best.ils = e.1 ∧ best.z = e.2) ∧ 0 ≤ best.z ∧ best.val = kb * best.z ∧
    kBits ≤ best.val ∧ best.val < 1000000 ∧
    ∀ e ∈ entries, 0 ≤ e.2 → kBits ≤ kb * e.2 → best.val ≤ kb * e.2)

/-- Visiting one more entry keeps the best one best. -/
theorem explores_visit {kb kBits : Int} {entries : List (Nat × Int)} {best : LiftingSearch}
    (entry : Nat × Int) (h : best.Explores kb kBits entries) :
    (best.visit kb kBits entry).Explores kb kBits (entries ++ [entry]) := by
  unfold LiftingSearch.Explores
  simp only [List.forall_mem_append, List.forall_mem_singleton]
  by_cases htaken : ¬entry.2 < 0 ∧ kBits ≤ kb * entry.2 ∧ kb * entry.2 < best.val
  · -- the entry becomes the best one; the old best value bounds the others
    obtain ⟨hpos, hfits, hless⟩ := htaken
    have hvisit : best.visit kb kBits entry =
        { z := entry.2, ils := entry.1, val := kb * entry.2 } := by
      rw [LiftingSearch.visit, if_neg hpos]
      exact if_pos ⟨hfits, hless⟩
    rw [hvisit]
    dsimp only
    have hbound : best.val ≤ 1000000 := by
      rcases h with ⟨_, hval, _⟩ | ⟨_, _, _, _, hlt, _⟩ <;> omega
    refine .inr ⟨⟨entry, by simp, rfl, rfl⟩, by omega, rfl, hfits, by omega, ?_,
      fun _ _ => Int.le_refl _⟩
    intro e he hepos hefits
    rcases h with ⟨_, _, hnone⟩ | ⟨_, _, _, _, _, hmin⟩
    · have := hnone e he hepos
      omega
    · have := hmin e he hepos hefits
      omega
  · have hvisit : best.visit kb kBits entry = best := by
      unfold LiftingSearch.visit
      by_cases hneg : entry.2 < 0
      · exact if_pos hneg
      · rw [if_neg hneg]
        exact if_neg fun h => htaken ⟨hneg, h⟩
    rw [hvisit]
    rcases h with ⟨hz, hval, hnone⟩ | ⟨⟨e, he, hbest⟩, hz, hval, hfits, hlt, hmin⟩
    · exact .inl ⟨hz, hval, hnone, fun hpos h => htaken ⟨by omega, by omega⟩⟩
    · refine .inr ⟨⟨e, List.mem_append_left _ he, hbest⟩, hz, hval, hfits, hlt, hmin, ?_⟩
      intro hpos hefits
      by_contra hless
      exact htaken ⟨by omega, hefits, by omega⟩

/-- The search over the whole table. -/
theorem explores_entries (kb kBits : Int) :
    (liftingEntries.foldl (LiftingSearch.visit kb kBits) {}).Explores kb kBits liftingEntries := by
  have hfold (entries : List (Nat × Int)) :
      (entries.foldl (LiftingSearch.visit kb kBits) {}).Explores kb kBits entries := by
    induction entries using List.reverseRecOn with
    | nil => exact .inl ⟨rfl, rfl, by simp⟩
    | append_singleton entries entry ih =>
        rw [List.foldl_append]
        exact explores_visit entry ih
  exact hfold liftingEntries

/-- Every entry that is not padding is a size from 2 to 384, stands in the row its set is found
by, and 384 is among them. -/
theorem lifting_entries_spec :
    (∀ e ∈ liftingEntries, 0 ≤ e.2 →
      2 ≤ e.2 ∧ e.2 ≤ 384 ∧ iLsForZc e.2 = some e.1 ∧ e.1 ≤ 7) ∧
    ∃ e ∈ liftingEntries, e.2 = 384 := by
  decide

/-- A set that is found has the size as an entry. -/
theorem mem_of_i_ls_for_zc {zc : Int} {ils : Nat} (h : iLsForZc zc = some ils) :
    (ils, zc) ∈ liftingEntries := by
  rw [iLsForZc, Option.map_eq_some_iff] at h
  obtain ⟨e, hfind, rfl⟩ := h
  have hzc : e.2 = zc := by simpa using List.find?_some hfind
  rw [← hzc]
  exact List.mem_of_find?_eq_some hfind

/-- The sets of lifting sizes hold positive sizes that stand in the table. -/
theorem i_ls_for_zc_spec {zc : Int} {ils : Nat} (hpos : 0 < zc) (h : iLsForZc zc = some ils) :
    2 ≤ zc ∧ zc ≤ 384 ∧ ils ≤ 7 := by
  have hspec := lifting_entries_spec.1 (ils, zc) (mem_of_i_ls_for_zc h) (Int.le_of_lt hpos)
  omega

/-- The selected number of columns is between 6 and 22. -/
theorem kb_sel_pos (kBits : Int) (bg : BaseGraph) : 6 ≤ kbSel kBits bg ∧ kbSel kBits bg ≤ 22 := by
  unfold kbSel
  split
  · omega
  · split_ifs <;> omega

/-- The columns counted on are among those the base graph has. -/
theorem kb_sel_le (kBits : Int) (bg : BaseGraph) : kbSel kBits bg ≤ bg.kb := by
  unfold kbSel
  cases bg with
  | bg1 => simp [BaseGraph.kb, bg1Kb]
  | bg2 =>
      simp only [BaseGraph.kb, bg2Kb]
      split_ifs <;> omega

/-- `selectLifting` returns the smallest size of the table that fits the block, with its set. -/
theorem select_lifting_spec {kBits : Int} {bg : BaseGraph} {out : LiftingChoice}
    (h : selectLifting kBits bg = .ok out) :
    2 ≤ out.zc ∧ out.zc ≤ 384 ∧ kBits ≤ kbSel kBits bg * out.zc ∧ out.kb = bg.kb ∧
      iLsForZc out.zc = some out.iLs ∧ out.iLs ≤ 7 ∧
      ∀ e ∈ liftingEntries, 0 ≤ e.2 → kBits ≤ kbSel kBits bg * e.2 → out.zc ≤ e.2 := by
  have hsel := kb_sel_pos kBits bg
  simp only [selectLifting, ensure_bind_eq_ok, Checked.pure_eq_ok, Except.ok.injEq] at h
  obtain ⟨hpos, rfl⟩ := h
  dsimp only
  rw [Int.toNat_of_nonneg (Int.le_of_lt hpos)]
  rcases explores_entries (kbSel kBits bg) kBits with
    ⟨hz, _, _⟩ | ⟨⟨e, he, hils, hz⟩, _, hval, hfits, _, hmin⟩
  · omega
  · obtain ⟨hlow, hhigh, hset, hrow⟩ := lifting_entries_spec.1 e he (by omega)
    rw [← hz] at hlow hhigh hset
    rw [← hils] at hset hrow
    refine ⟨by omega, by omega, hval ▸ hfits, rfl, hset, hrow, ?_⟩
    intro other hother hotherPos hotherFits
    have hle := hmin other hother hotherPos hotherFits
    rw [hval] at hle
    exact Int.le_of_mul_le_mul_left hle (by omega)

/-- `selectLifting` fails exactly for blocks that do not fit the largest size. -/
theorem select_lifting_succeeds {kBits : Int} {bg : BaseGraph} :
    (∃ out, selectLifting kBits bg = .ok out) ↔ kBits ≤ kbSel kBits bg * 384 := by
  have hsel := kb_sel_pos kBits bg
  constructor
  · intro ⟨out, h⟩
    obtain ⟨_, hhigh, hfits, _⟩ := select_lifting_spec h
    have hle : kbSel kBits bg * out.zc ≤ kbSel kBits bg * 384 :=
      Int.mul_le_mul_of_nonneg_left (by omega) (by omega)
    omega
  · intro hfits
    obtain ⟨e, he, hlargest⟩ := lifting_entries_spec.2
    have hpos : (liftingEntries.foldl (LiftingSearch.visit (kbSel kBits bg) kBits) {}).z > 0 := by
      rcases explores_entries (kbSel kBits bg) kBits with
        ⟨_, _, hnone⟩ | ⟨⟨found, hfound, _, hz⟩, hnonneg, _⟩
      · exact absurd ⟨by rw [hlargest]; exact hfits, by rw [hlargest]; omega⟩
          (hnone e he (by omega))
      · have hlow := (lifting_entries_spec.1 found hfound (by omega)).1
        omega
    rw [selectLifting, ensure_of hpos]
    exact ⟨_, rfl⟩

/-- The entries are the elements of the rows, each with the index of its row. -/
theorem mem_lifting_entries {ils : Nat} {z : Int} :
    (ils, z) ∈ liftingEntries ↔ ∃ row, kLiftingSets[ils]? = some row ∧ z ∈ row := by
  rw [liftingEntries, List.mem_flatMap]
  constructor
  · rintro ⟨⟨row, index⟩, hrow, hentry⟩
    obtain ⟨z', hz, heq⟩ := List.mem_map.mp hentry
    obtain ⟨rfl, rfl⟩ := Prod.mk.inj heq
    exact ⟨row, List.mem_zipIdx_iff_getElem?.mp hrow, hz⟩
  · rintro ⟨row, hrow, hz⟩
    exact ⟨(row, ils), List.mem_zipIdx_iff_getElem?.mpr hrow, List.mem_map.mpr ⟨z, hz, rfl⟩⟩

/-- A choice is the smallest size of the table for a block, with its row and with all columns of the
base graph. The padding of the table is no size. -/
structure LiftingChoice.IsMinimal (out : LiftingChoice) (kBits : Int) (bg : BaseGraph) : Prop where
  listed : ∃ row, kLiftingSets[out.iLs]? = some row ∧ (out.zc : Int) ∈ row
  set_eq : iLsForZc out.zc = some out.iLs
  fits : kBits ≤ kbSel kBits bg * out.zc
  minimal : ∀ row ∈ kLiftingSets, ∀ z ∈ row, z ≠ -1 → kBits ≤ kbSel kBits bg * z → out.zc ≤ z
  kb_eq : out.kb = match bg with
    | .bg1 => 22
    | .bg2 => 10
  filler_nonneg : 0 ≤ (out.kb * out.zc : Int) - kBits

/-- Every entry is a size or the padding. -/
theorem padding_of_neg : ∀ e ∈ liftingEntries, e.2 ≠ -1 → 0 ≤ e.2 := by
  decide

/-- What `selectLifting` returns is minimal. -/
theorem is_minimal_of_select {kBits : Int} {bg : BaseGraph} {out : LiftingChoice}
    (h : selectLifting kBits bg = .ok out) : out.IsMinimal kBits bg := by
  obtain ⟨hlow, _, hfits, hkb, hset, _, hminimal⟩ := select_lifting_spec h
  have hlisted := mem_of_i_ls_for_zc hset
  have hcolumns : kbSel kBits bg * out.zc ≤ bg.kb * out.zc :=
    Int.mul_le_mul_of_nonneg_right (kb_sel_le kBits bg) (by omega)
  refine {
    listed := mem_lifting_entries.mp hlisted, set_eq := hset, fits := hfits
    minimal := fun row hrow z hz hpadding hz_fits => ?_, kb_eq := ?_, filler_nonneg := ?_ }
  · obtain ⟨ils, hils⟩ := List.mem_iff_getElem?.mp hrow
    have hentry := mem_lifting_entries.mpr ⟨row, hils, hz⟩
    exact hminimal _ hentry (padding_of_neg _ hentry hpadding) hz_fits
  · rw [hkb]
    cases bg <;> rfl
  · rw [hkb]
    omega

/-- `selectLifting` throws for exactly the blocks that do not fit the largest size, and returns a
minimal choice for all others. -/
theorem select_lifting_minimal (kBits : Int) (bg : BaseGraph) :
    384 * kbSel kBits bg < kBits ∧
        selectLifting kBits bg = .error (.error "no valid lifting size for K") ∨
      kBits ≤ 384 * kbSel kBits bg ∧
        ∃ out, selectLifting kBits bg = .ok out ∧ out.IsMinimal kBits bg := by
  rw [Int.mul_comm]
  by_cases hfits : kBits ≤ kbSel kBits bg * 384
  · obtain ⟨out, hout⟩ := select_lifting_succeeds.mpr hfits
    exact .inr ⟨hfits, out, hout, is_minimal_of_select hout⟩
  · refine .inl ⟨Int.not_le.mp hfits, ?_⟩
    unfold selectLifting
    dsimp only
    by_cases hfound : (liftingEntries.foldl (LiftingSearch.visit (kbSel kBits bg) kBits) {}).z > 0
    · have hreturns : ∃ out, selectLifting kBits bg = .ok out := by
        rw [selectLifting, ensure_of hfound]
        exact ⟨_, rfl⟩
      exact absurd (select_lifting_succeeds.mp hreturns) hfits
    · rw [ensure, dif_neg hfound]
      rfl

/-! ## Families -/

/-- The factors of the sets. -/
def liftingFactors : List Int := [2, 3, 5, 7, 9, 11, 13, 15]

/-- The sizes of a set: its factor times a power of two, up to 384. -/
def InLiftingSet (ils : Nat) (zc : Int) : Prop :=
  ∃ a j, liftingFactors[ils]? = some a ∧ zc = a * 2 ^ j ∧ zc ≤ 384

/-- The factors are positive. -/
theorem lifting_factors_ge : ∀ a ∈ liftingFactors, 2 ≤ a := by
  decide

/-- The entries that are not padding are factors times powers of two. -/
theorem lifting_entries_powers : ∀ e ∈ liftingEntries, e.2 ≠ -1 →
    ∃ j ∈ List.range 8, liftingFactors[e.1]?.map (· * 2 ^ j) = some e.2 := by
  decide

/-- No size is missing. -/
theorem lifting_entries_complete : ∀ entry ∈ liftingFactors.zipIdx, ∀ j ∈ List.range 8,
    entry.1 * 2 ^ j ≤ 384 → (entry.2, entry.1 * 2 ^ j) ∈ liftingEntries := by
  decide

/-- The entries of the table that are not padding are the sizes of the sets. -/
theorem mem_lifting_set {ils : Nat} {zc : Int} (hzc : zc ≠ -1) :
    (ils, zc) ∈ liftingEntries ↔ InLiftingSet ils zc := by
  constructor
  · intro h
    obtain ⟨j, -, hj⟩ := lifting_entries_powers _ h hzc
    obtain ⟨a, ha, hpower⟩ := Option.map_eq_some_iff.mp hj
    exact ⟨a, j, ha, hpower.symm, (lifting_entries_spec.1 _ h (padding_of_neg _ h hzc)).2.1⟩
  · rintro ⟨a, j, ha, rfl, hle⟩
    have hfactor := lifting_factors_ge a (List.mem_of_getElem? ha)
    have hj : j < 8 := by
      by_contra hlarge
      have hpow : (2 : Int) ^ 8 ≤ 2 ^ j := by
        exact_mod_cast Nat.pow_le_pow_right Nat.two_pos (Nat.not_lt.mp hlarge)
      have hproduct : 2 * 2 ^ 8 ≤ a * 2 ^ j :=
        Int.mul_le_mul hfactor hpow (by decide) (by omega)
      omega
    exact lifting_entries_complete (a, ils) (List.mem_zipIdx_iff_getElem?.mpr ha) j
      (List.mem_range.mpr hj) hle

/-- Apart from the padding, the set of a size is the one whose factor it has. -/
theorem i_ls_for_zc_iff {zc : Int} (hzc : zc ≠ -1) (ils : Nat) :
    iLsForZc zc = some ils ↔ InLiftingSet ils zc := by
  rw [← mem_lifting_set hzc]
  constructor
  · exact mem_of_i_ls_for_zc
  · intro h
    exact (lifting_entries_spec.1 _ h (padding_of_neg _ h hzc)).2.2.1

/-- The padding is no size. -/
theorem not_in_lifting_set (ils : Nat) : ¬InLiftingSet ils (-1) := by
  rintro ⟨a, j, ha, hpower, -⟩
  have hfactor := lifting_factors_ge a (List.mem_of_getElem? ha)
  have hpos : 0 < a * 2 ^ j := Int.mul_pos (by omega) (Int.pow_pos (by decide))
  omega

/-- The valid sizes are exactly those of the sets, and every other integer has no set. -/
def LiftingSizeExact (zc : Int) : Prop :=
  (isValidLiftingSize zc = true ↔ ∃ ils, InLiftingSet ils zc) ∧
    (∀ ils, InLiftingSet ils zc → iLsForZc zc = some ils) ∧
    ((¬∃ ils, InLiftingSet ils zc) → iLsForZc zc = none)

/-- Validity is exact for every integer but the padding. -/
theorem lifting_size_exact_iff (zc : Int) : LiftingSizeExact zc ↔ zc ≠ -1 := by
  constructor
  · rintro ⟨-, -, hnone⟩ rfl
    have hfound : iLsForZc (-1) = some 2 := by decide
    rw [hnone fun ⟨ils, h⟩ => not_in_lifting_set ils h] at hfound
    cases hfound
  · intro hzc
    refine ⟨?_, fun ils => (i_ls_for_zc_iff hzc ils).mpr, fun hno => ?_⟩
    · simp only [isValidLiftingSize, Option.isSome_iff_exists, i_ls_for_zc_iff hzc]
    · rw [Option.eq_none_iff_forall_ne_some]
      exact fun ils h => hno ⟨ils, (i_ls_for_zc_iff hzc ils).mp h⟩

/-- The padding is taken for a size of the third set. -/
theorem padding_is_valid : ¬LiftingSizeExact (-1) := by
  rintro ⟨hvalid, -, -⟩
  obtain ⟨ils, h⟩ := hvalid.mp (by decide)
  exact not_in_lifting_set ils h

end NrBaseband
