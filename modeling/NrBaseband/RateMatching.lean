import NrBaseband.Ldpc.Lifting
import NrBaseband.Foundation.Table
import Mathlib.Data.Nat.ModEq
import Mathlib.Tactic.Ring

/-!
# Rate matching and recovery

`rateMatch` reads a circular buffer of coded bits from a start offset that depends on the
redundancy version, and `rateDematch` adds soft values back at the places they came from.
`Layout` is what both compute from a configuration and a coded length; `rate_match_eq_ok` and
`rate_dematch_ok` describe the two loops by one index map, `sourceIndex`.
-/

namespace NrBaseband

open Foundation Foundation.MachineInt

/-- `RateMatchConfig`, with the defaults of the struct. -/
structure RateMatchConfig where
  eBits : Nat := 0
  rv : Int := 0
  nCb : Nat := 0
  zc : Int := 0
  bg : BaseGraph := .bg2
  punctureFirst2z : Bool := true
  deriving DecidableEq, Repr

/-- The coefficients of the start positions, one for each redundancy version. -/
def rvCoeffs : BaseGraph → List Int
  | .bg1 => [0, 17, 33, 56]
  | .bg2 => [0, 13, 25, 43]

/-- The number of columns of the circular buffer. -/
def rvCols : BaseGraph → Int
  | .bg1 => 66
  | .bg2 => 50

/-- `rv_k0_positions`. -/
def rvK0Positions (nCb : Nat) (zc : Int) (bg : BaseGraph) : Checked (List Nat) := do
  require (zc > 0) "zc required for RV k0"
  require (nCb > 0) "n_cb required"
  (rvCoeffs bg).mapM fun coeff => do
    let product ← int32 (coeff * toInt32 nCb)
    let columns ← int32 (rvCols bg * zc)
    let k0 ← int32 (product.tdiv columns * zc)
    return toSizeT k0

/-- `start_offset`. -/
def startOffset (cfg : RateMatchConfig) (nCb : Nat) : Checked Nat :=
  let r := ((cfg.rv.tmod 4 + 4).tmod 4).toNat
  if cfg.zc > 0 then do
    let k0s ← rvK0Positions nCb cfg.zc cfg.bg
    let k0 ← Checked.read k0s r
    return k0 % nCb
  else .ok (toSizeT (nCb * r) / 4)

/-- The first `2 * zc` positions are left out of the buffer. -/
def RateMatchConfig.Punctures (cfg : RateMatchConfig) : Prop :=
  cfg.punctureFirst2z = true ∧ cfg.zc > 0

instance (cfg : RateMatchConfig) : Decidable cfg.Punctures := inferInstanceAs (Decidable (_ ∧ _))

/-- The number of positions left out, checked against the coded length. -/
def punchOf (cfg : RateMatchConfig) (n : Nat) (msg : String) : Checked Nat :=
  if cfg.Punctures then do
    let punch ← int32 (2 * cfg.zc)
    require (n > toSizeT punch) msg
    return toSizeT punch
  else .ok 0

/-- `rate_match`. It only moves elements, so it is stated for elements of any type. -/
def rateMatch {α : Type} (coded : List α) (cfg : RateMatchConfig) : Checked (List α) := do
  require (coded.length > 0) "rate_match empty input"
  require (cfg.eBits > 0) "E must be > 0"
  let punch ← punchOf cfg coded.length "coded too short to puncture 2Z"
  let systematic := coded.drop punch
  let nCb := if cfg.nCb = 0 then systematic.length else cfg.nCb
  require (nCb > 0) "n_cb must be > 0"
  let buf ← (List.range nCb).mapM fun i => Checked.read systematic (i % systematic.length)
  let k0 ← startOffset cfg nCb
  (List.range cfg.eBits).mapM fun i => Checked.read buf ((k0 + i) % nCb)

/-- `rate_dematch`. -/
def rateDematch {R : Type} [AddCommMonoid R] (llrE : SoftVec R) (cfg : RateMatchConfig)
    (nCoded : Nat) : Checked (SoftVec R) := do
  require (nCoded > 0) "n_coded must be > 0"
  let full := List.replicate nCoded 0
  let punch ← punchOf cfg nCoded "n_coded too short for 2Z puncture"
  let nCb := if cfg.nCb = 0 then nCoded - punch else cfg.nCb
  let buf := List.replicate nCb 0
  let k0 ← startOffset cfg nCb
  let buf ← (List.range llrE.length).foldlM (fun buf i => do
    let x ← Checked.read llrE i
    Checked.modify buf ((k0 + i) % nCb) (· + x)) buf
  (List.range nCb).foldlM (fun full i => do
    let x ← Checked.read buf i
    Checked.write full (punch + i % (nCoded - punch)) x) full

/-- What rate matching and recovery of `n` coded positions compute first: the number of punctured
positions, the size of the circular buffer and the start offset. -/
structure RateMatchConfig.Layout (cfg : RateMatchConfig) (n punch nCb k0 : Nat) : Prop where
  punch_lt : punch < n
  punch_eq : (∃ doubled, int32 (2 * cfg.zc) = .ok doubled ∧ punch = toSizeT doubled) ∧
    cfg.Punctures ∨ punch = 0 ∧ ¬cfg.Punctures
  n_cb_eq : nCb = if cfg.nCb = 0 then n - punch else cfg.nCb
  n_cb_pos : 0 < nCb
  start : startOffset cfg nCb = .ok k0

/-- The coefficients and columns of the start positions. -/
theorem rv_coeffs_range (bg : BaseGraph) :
    (∀ coeff ∈ rvCoeffs bg, 0 ≤ coeff ∧ coeff ≤ 56) ∧ (rvCoeffs bg).length = 4 ∧
      1 ≤ rvCols bg ∧ rvCols bg ≤ 66 := by
  cases bg <;> decide

/-- The start positions of a buffer whose products with the coefficients are an `int`. -/
theorem rv_k0_ok {nCb : Nat} {zc : Int} (bg : BaseGraph) (hzc : 0 < zc) (hnCb : 0 < nCb)
    (hproducts : 56 * nCb < 2 ^ 31) (hcolumns : 66 * zc < 2 ^ 31) :
    rvK0Positions nCb zc bg = .ok ((rvCoeffs bg).map fun coeff =>
      toSizeT ((coeff * nCb / (rvCols bg * zc)) * zc)) := by
  obtain ⟨hcoeffs, _, hone, hcols⟩ := rv_coeffs_range bg
  have hcast : toInt32 nCb = nCb := to_int32_of_range (by omega) (by omega)
  have hwidth : 0 < rvCols bg * zc ∧ rvCols bg * zc ≤ 66 * zc :=
    ⟨Int.mul_pos (by omega) hzc, Int.mul_le_mul_of_nonneg_right hcols (by omega)⟩
  rw [rvK0Positions, require_of hzc, Checked.ok_bind, require_of hnCb, Checked.ok_bind]
  refine Checked.map_ok fun coeff hmem => ?_
  obtain ⟨hnonneg, hle⟩ := hcoeffs coeff hmem
  have hproduct : 0 ≤ coeff * (nCb : Int) ∧ coeff * (nCb : Int) ≤ 56 * nCb :=
    ⟨Int.mul_nonneg hnonneg (by omega), Int.mul_le_mul_of_nonneg_right hle (by omega)⟩
  have hquotient : 0 ≤ coeff * nCb / (rvCols bg * zc) :=
    Int.ediv_nonneg hproduct.1 (Int.le_of_lt hwidth.1)
  -- rounding down to a multiple of `zc` does not exceed the product
  have hposition : coeff * nCb / (rvCols bg * zc) * zc ≤ coeff * nCb :=
    calc coeff * nCb / (rvCols bg * zc) * zc
        ≤ coeff * nCb / (rvCols bg * zc) * (rvCols bg * zc) := by
          refine Int.mul_le_mul_of_nonneg_left ?_ hquotient
          have hgrows := Int.mul_le_mul_of_nonneg_right hone (Int.le_of_lt hzc)
          omega
      _ ≤ coeff * nCb := Int.ediv_mul_le _ (by omega)
  have hlow : 0 ≤ coeff * nCb / (rvCols bg * zc) * zc :=
    Int.mul_nonneg hquotient (Int.le_of_lt hzc)
  rw [hcast, int32_of_range (by omega) (by omega), Checked.ok_bind,
    int32_of_range (by omega) (by omega), Checked.ok_bind,
    Int.tdiv_eq_ediv_of_nonneg hproduct.1, int32_of_range (by omega) (by omega)]
  rfl

/-- The position of the last block that starts at or before `coeff` columns of the buffer. -/
def blockAt (bg : BaseGraph) (nCb : Nat) (zc coeff : Int) : Int :=
  coeff * nCb / (rvCols bg * zc) * zc

/-- Coefficients that are a fifth of the columns apart have different blocks in a buffer of five
blocks or more. -/
theorem block_at_lt {bg : BaseGraph} {nCb : Nat} {zc : Int} (hzc : 0 < zc)
    (hlength : 5 * zc ≤ nCb) {coeff next : Int} (hgap : rvCols bg ≤ 5 * (next - coeff)) :
    blockAt bg nCb zc coeff < blockAt bg nCb zc next := by
  have hcols := (rv_coeffs_range bg).2.2.1
  have hwidth : 0 < rvCols bg * zc := Int.mul_pos (by omega) hzc
  have hstep : coeff * nCb + rvCols bg * zc ≤ next * nCb :=
    calc coeff * nCb + rvCols bg * zc
        ≤ coeff * nCb + 5 * (next - coeff) * zc :=
          Int.add_le_add_left (Int.mul_le_mul_of_nonneg_right hgap (Int.le_of_lt hzc)) _
      _ = coeff * nCb + (next - coeff) * (5 * zc) := by ring
      _ ≤ coeff * nCb + (next - coeff) * nCb :=
          Int.add_le_add_left (Int.mul_le_mul_of_nonneg_left hlength (by omega)) _
      _ = next * nCb := by ring
  have hquotient : coeff * nCb / (rvCols bg * zc) + 1 ≤ next * nCb / (rvCols bg * zc) :=
    calc coeff * nCb / (rvCols bg * zc) + 1
        = (coeff * nCb + rvCols bg * zc) / (rvCols bg * zc) := by
          rw [Int.add_ediv_of_dvd_right (Int.dvd_refl _), Int.ediv_self (by omega)]
      _ ≤ next * nCb / (rvCols bg * zc) := Int.ediv_le_ediv hwidth hstep
  exact Int.mul_lt_mul_of_pos_right (by omega) hzc

/-- A coefficient below the number of columns has its block inside the buffer. -/
theorem block_at_lt_length {bg : BaseGraph} {nCb : Nat} (hnCb : 0 < nCb) {zc : Int} (hzc : 0 < zc)
    {coeff : Int} (hcoeff : coeff < rvCols bg) : blockAt bg nCb zc coeff < nCb := by
  have hcols := (rv_coeffs_range bg).2.2.1
  have hbuffer : 0 < (nCb : Int) := by omega
  refine Int.lt_of_mul_lt_mul_left ?_ (by omega : 0 ≤ rvCols bg)
  calc rvCols bg * blockAt bg nCb zc coeff
      = coeff * nCb / (rvCols bg * zc) * (rvCols bg * zc) := by
        unfold blockAt
        ring
    _ ≤ coeff * nCb := Int.ediv_mul_le _ (Int.mul_pos (by omega) hzc).ne'
    _ < rvCols bg * nCb := Int.mul_lt_mul_of_pos_right hcoeff hbuffer

/-- The coefficients start at zero, are a fifth of the columns apart and stay below the columns. -/
theorem rv_coeffs_apart (bg : BaseGraph) : ∃ c1 c2 c3, rvCoeffs bg = [0, c1, c2, c3] ∧
    rvCols bg ≤ 5 * (c1 - 0) ∧ rvCols bg ≤ 5 * (c2 - c1) ∧ rvCols bg ≤ 5 * (c3 - c2) ∧
      c3 < rvCols bg := by
  cases bg with
  | bg1 => exact ⟨17, 33, 56, rfl, by decide⟩
  | bg2 => exact ⟨13, 25, 43, rfl, by decide⟩

/-- In a buffer of at least five blocks the redundancy versions start at four different blocks. -/
theorem rv_k0_increasing (bg : BaseGraph) {nCb : Nat} {zc : Int} (hzc : 0 < zc)
    (hlength : 5 * zc ≤ nCb) (hproducts : 56 * nCb < 2 ^ 31) :
    ∃ k1 k2 k3 : Nat, rvK0Positions nCb zc bg = .ok [0, k1, k2, k3] ∧
      0 < k1 ∧ k1 < k2 ∧ k2 < k3 ∧ k3 < nCb ∧ ∀ k ∈ [k1, k2, k3], zc ∣ (k : Int) := by
  obtain ⟨c1, c2, c3, hcoeffs, h1, h2, h3, hlast⟩ := rv_coeffs_apart bg
  have hnCb : 0 < nCb := by omega
  have hlt1 := block_at_lt hzc hlength h1
  have hlt2 := block_at_lt hzc hlength h2
  have hlt3 := block_at_lt hzc hlength h3
  have hinside := block_at_lt_length hnCb hzc hlast
  have hzero : blockAt bg nCb zc 0 = 0 := by
    rw [blockAt, Int.zero_mul, Int.zero_ediv, Int.zero_mul]
  rw [hzero] at hlt1
  have hcast {coeff : Int} (hlow : 0 < blockAt bg nCb zc coeff)
      (hhigh : blockAt bg nCb zc coeff < nCb) :
      (toSizeT (blockAt bg nCb zc coeff) : Int) = blockAt bg nCb zc coeff :=
    to_size_t_of_lt (by omega) (by omega)
  have hcast1 := hcast hlt1 (by omega)
  have hcast2 := hcast (hlt1.trans hlt2) (by omega)
  have hcast3 := hcast (hlt1.trans (hlt2.trans hlt3)) hinside
  have hrun : rvK0Positions nCb zc bg = .ok ((rvCoeffs bg).map fun coeff =>
    toSizeT (blockAt bg nCb zc coeff)) := rv_k0_ok bg hzc hnCb hproducts (by omega)
  refine ⟨toSizeT (blockAt bg nCb zc c1), toSizeT (blockAt bg nCb zc c2),
    toSizeT (blockAt bg nCb zc c3), ?_, by omega, by omega, by omega, by omega, ?_⟩
  · rw [hrun, hcoeffs, List.map_cons, hzero]
    rfl
  · have hdvd (coeff : Int) : zc ∣ blockAt bg nCb zc coeff := Int.dvd_mul_left _ _
    intro k hk
    simp only [List.mem_cons, List.not_mem_nil, or_false] at hk
    rcases hk with rfl | rfl | rfl
    · rw [hcast1]
      exact hdvd c1
    · rw [hcast2]
      exact hdvd c2
    · rw [hcast3]
      exact hdvd c3

/-- A buffer of ten blocks and a part. -/
theorem rv_k0_increasing_104 : ∃ k1 k2 k3 : Nat, rvK0Positions 104 10 .bg2 = .ok [0, k1, k2, k3] ∧
    0 < k1 ∧ k1 < k2 ∧ k2 < k3 ∧ k3 < 104 ∧ ∀ k ∈ [k1, k2, k3], (10 : Int) ∣ (k : Int) :=
  rv_k0_increasing .bg2 (by decide) (by decide) (by decide)

/-- The redundancy version, reduced to its four values. -/
theorem version_lt (rv : Int) : ((rv.tmod 4 + 4).tmod 4).toNat < 4 := by
  have hlow := Int.lt_tmod_of_pos rv (by decide : (0 : Int) < 4)
  have hhigh := Int.tmod_lt_of_pos (rv.tmod 4 + 4) (by decide : (0 : Int) < 4)
  omega

/-- Where one redundancy version has a start offset, every one has. -/
theorem start_offset_any {cfg : RateMatchConfig} {nCb k0 : Nat}
    (h : startOffset cfg nCb = .ok k0) (rv : Int) (eBits : Nat) :
    ∃ k0', startOffset { cfg with rv, eBits } nCb = .ok k0' := by
  unfold startOffset at h ⊢
  dsimp only at h ⊢
  by_cases hzc : cfg.zc > 0
  · rw [if_pos hzc, Checked.bind_eq_ok] at h
    obtain ⟨k0s, hk0s, _⟩ := h
    have hversion : ((rv.tmod 4 + 4).tmod 4).toNat < k0s.length := by
      have hmap := hk0s
      rw [rvK0Positions, require_bind_eq_ok, require_bind_eq_ok] at hmap
      rw [Checked.map_length hmap.2.2, (rv_coeffs_range cfg.bg).2.1]
      exact version_lt rv
    rw [if_pos hzc, hk0s, Checked.ok_bind, Checked.read_of_lt hversion, Checked.ok_bind]
    exact ⟨_, rfl⟩
  · rw [if_neg hzc]
    exact ⟨_, rfl⟩

/-- A layout does not depend on the redundancy version and the output length, its start offset
aside. -/
theorem RateMatchConfig.Layout.any_version {cfg : RateMatchConfig} {n punch nCb k0 : Nat}
    (h : cfg.Layout n punch nCb k0) (rv : Int) (eBits : Nat) :
    ∃ k0', { cfg with rv, eBits }.Layout n punch nCb k0' := by
  obtain ⟨k0', hk0'⟩ := start_offset_any h.start rv eBits
  exact ⟨k0', h.punch_lt, h.punch_eq, h.n_cb_eq, h.n_cb_pos, hk0'⟩

/-- The coded position that output `i` is read from. -/
def sourceIndex (n punch nCb k0 i : Nat) : Nat := punch + (k0 + i) % nCb % (n - punch)

/-- A source is a coded position behind the punctured ones. -/
theorem source_index_range {n punch : Nat} (h : punch < n) (nCb k0 i : Nat) :
    punch ≤ sourceIndex n punch nCb k0 i ∧ sourceIndex n punch nCb k0 i < n := by
  have hmod := Nat.mod_lt ((k0 + i) % nCb) (by omega : 0 < n - punch)
  unfold sourceIndex
  omega

/-- A whole buffer that is read round at least once is read everywhere. -/
theorem source_index_surjective (k0 : Nat) {n E j : Nat} (hE : n ≤ E) (hj : j < n) :
    ∃ i < E, sourceIndex n 0 n k0 i = j := by
  have hstart := Nat.div_add_mod k0 n
  have hmod := Nat.mod_lt k0 (by omega : 0 < n)
  unfold sourceIndex
  simp only [Nat.zero_add, Nat.sub_zero, Nat.mod_mod]
  by_cases hbefore : k0 % n ≤ j
  · refine ⟨j - k0 % n, by omega, ?_⟩
    have hposition : k0 + (j - k0 % n) = n * (k0 / n) + j := by omega
    rw [hposition, Nat.mul_add_mod, Nat.mod_eq_of_lt hj]
  · -- the position is reached after the end of the buffer
    refine ⟨j + n - k0 % n, by omega, ?_⟩
    have hposition : k0 + (j + n - k0 % n) = n * (k0 / n) + (n + j) := by omega
    rw [hposition, Nat.mul_add_mod, Nat.add_mod_left, Nat.mod_eq_of_lt hj]

/-- The positions left out. -/
theorem punch_of_eq_ok {cfg : RateMatchConfig} {n punch : Nat} {msg : String} (hn : 0 < n) :
    punchOf cfg n msg = .ok punch ↔ punch < n ∧
      ((∃ doubled, int32 (2 * cfg.zc) = .ok doubled ∧ punch = toSizeT doubled) ∧ cfg.Punctures ∨
        punch = 0 ∧ ¬cfg.Punctures) := by
  unfold punchOf
  by_cases hpunctures : cfg.Punctures
  · rw [if_pos hpunctures, Checked.bind_eq_ok]
    simp only [require_bind_eq_ok, Checked.pure_eq_ok, Except.ok.injEq, hpunctures, and_true,
      not_true_eq_false, and_false, or_false]
    constructor
    · rintro ⟨doubled, hdoubled, hlt, rfl⟩
      exact ⟨hlt, doubled, hdoubled, rfl⟩
    · rintro ⟨hlt, doubled, hdoubled, rfl⟩
      exact ⟨doubled, hdoubled, hlt, rfl⟩
  · rw [if_neg hpunctures, Except.ok.injEq]
    simp only [hpunctures, and_false, not_false_eq_true, and_true, false_or]
    omega

/-- Rate matching accepts the configurations that have a layout and reads every output from its
source. -/
theorem rate_match_eq_ok {α : Type} {n : Nat} {value : Nat → α} {cfg : RateMatchConfig}
    {out : List α} : rateMatch (table n value) cfg = .ok out ↔ 0 < cfg.eBits ∧
      ∃ punch nCb k0, cfg.Layout n punch nCb k0 ∧
        out = table cfg.eBits fun i => value (sourceIndex n punch nCb k0 i) := by
  -- the loop that fills the buffer and the loop that reads it round
  have hloops (punch k0 : Nat) (hpunch : punch < n) {nCb : Nat} (hnCb : 0 < nCb) :
      ((List.range nCb).mapM fun i => Checked.read ((table n value).drop punch)
        (i % ((table n value).drop punch).length)) =
        .ok (table nCb fun i => value (punch + i % (n - punch))) ∧
      ((List.range cfg.eBits).mapM fun i => Checked.read
        (table nCb fun i => value (punch + i % (n - punch))) ((k0 + i) % nCb)) =
        .ok (table cfg.eBits fun i => value (sourceIndex n punch nCb k0 i)) := by
    constructor
    · refine Table.gather fun i _ => ?_
      rw [Table.drop_table, Table.length_table, Table.read_table (Nat.mod_lt _ (by omega))]
    · exact Table.gather fun i _ => Table.read_table (Nat.mod_lt _ hnCb)
  rw [rateMatch, require_bind_eq_ok, require_bind_eq_ok, Checked.bind_eq_ok]
  constructor
  · intro ⟨hn, hE, punch, hpunch, hrest⟩
    rw [Table.length_table] at hn hpunch
    obtain ⟨hlt, hcases⟩ := (punch_of_eq_ok hn).mp hpunch
    rw [require_bind_eq_ok] at hrest
    obtain ⟨hnCb, hrest⟩ := hrest
    rw [(hloops punch 0 hlt hnCb).1, Checked.ok_bind, Checked.bind_eq_ok] at hrest
    obtain ⟨k0, hk0, hout⟩ := hrest
    rw [(hloops punch k0 hlt hnCb).2, Except.ok.injEq] at hout
    refine ⟨hE, punch, _, k0, ⟨hlt, hcases, ?_, hnCb, hk0⟩, hout.symm⟩
    rw [List.length_drop, Table.length_table]
  · rintro ⟨hE, punch, nCb, k0, hlayout, rfl⟩
    have hlt := hlayout.punch_lt
    have hnCb : (if cfg.nCb = 0 then ((table n value).drop punch).length else cfg.nCb) = nCb := by
      rw [hlayout.n_cb_eq, List.length_drop, Table.length_table]
    have hpunch : punchOf cfg (table n value).length "coded too short to puncture 2Z" =
        .ok punch := by
      rw [Table.length_table]
      exact (punch_of_eq_ok (by omega)).mpr ⟨hlt, hlayout.punch_eq⟩
    refine ⟨by rw [Table.length_table]; omega, hE, punch, hpunch, ?_⟩
    dsimp only
    rw [hnCb, require_bind_eq_ok, (hloops punch 0 hlt hlayout.n_cb_pos).1, Checked.ok_bind,
      hlayout.start, Checked.ok_bind, (hloops punch k0 hlt hlayout.n_cb_pos).2]
    exact ⟨hlayout.n_cb_pos, rfl⟩

/-- What the first loop of recovery adds up in a cell of the buffer. -/
def bufferSum {R : Type} [AddCommMonoid R] (nCb k0 E : Nat) (x : Nat → R) (cell : Nat) : R :=
  ∑ i ∈ (Finset.range E).filter (fun i => (k0 + i) % nCb = cell), x i

/-- Recovery adds up the soft values by buffer cell and then writes the cells, in order, at the
positions they are copies of. -/
theorem rate_dematch_eq {R : Type} [AddCommMonoid R] {cfg : RateMatchConfig}
    {n punch nCb k0 : Nat} (hlayout : cfg.Layout n punch nCb k0) (E : Nat) (x : Nat → R) :
    rateDematch (table E x) cfg n = .ok (table n (Table.written
      (fun i => punch + i % (n - punch)) (fun _ => 0) (bufferSum nCb k0 E x) nCb)) := by
  have hlt := hlayout.punch_lt
  have hpos := hlayout.n_cb_pos
  have hpunch : punchOf cfg n "n_coded too short for 2Z puncture" = .ok punch :=
    (punch_of_eq_ok (by omega)).mpr ⟨hlt, hlayout.punch_eq⟩
  have hadd : (List.range (table E x).length).foldlM (fun buf i => do
      let y ← Checked.read (table E x) i
      Checked.modify buf ((k0 + i) % nCb) (· + y)) (List.replicate nCb 0) =
      .ok (table nCb (bufferSum nCb k0 E x)) := by
    rw [Table.length_table, Table.replicate_eq_table, Table.scatter_add (fun buf i hi => ?_)
      fun i _ => Nat.mod_lt _ hpos]
    · exact congrArg Except.ok (Table.table_congr fun j _ => zero_add _)
    · rw [Table.read_table hi, Checked.ok_bind]
  have hwrite : (List.range nCb).foldlM (fun full i => do
      let y ← Checked.read (table nCb (bufferSum nCb k0 E x)) i
      Checked.write full (punch + i % (n - punch)) y) (List.replicate n 0) =
      .ok (table n (Table.written (fun i => punch + i % (n - punch)) (fun _ => 0)
        (bufferSum nCb k0 E x) nCb)) := by
    rw [Table.replicate_eq_table]
    refine Table.scatter_write (fun full i hi => ?_) fun i _ => ?_
    · rw [Table.read_table hi, Checked.ok_bind]
    · have := Nat.mod_lt i (by omega : 0 < n - punch)
      omega
  rw [rateDematch, require_of (by omega), Checked.ok_bind, hpunch, Checked.ok_bind]
  dsimp only
  rw [← hlayout.n_cb_eq, hlayout.start, Checked.ok_bind, hadd, Checked.ok_bind, hwrite]

/-- Of the cells that hold copies of one position, one is the last. -/
theorem exists_last_copy {m nCb r : Nat} (hr : r < m) (hcell : r < nCb) :
    ∃ last < nCb, last % m = r ∧ nCb ≤ last + m := by
  have hle := Nat.mul_div_le (nCb - 1 - r) m
  have hlt := Nat.lt_mul_div_succ (nCb - 1 - r) (by omega : 0 < m)
  rw [Nat.mul_add, Nat.mul_one] at hlt
  refine ⟨r + m * ((nCb - 1 - r) / m), by omega, ?_, by omega⟩
  rw [Nat.add_mul_mod_self_left, Nat.mod_eq_of_lt hr]

/-- A position is left with the sum of its last copy. -/
theorem written_last_copy {R : Type} [AddCommMonoid R] {n punch nCb k0 E last : Nat}
    (x : Nat → R) (hcell : last < nCb) (hlast : nCb ≤ last + (n - punch)) :
    Table.written (fun i => punch + i % (n - punch)) (fun _ => 0) (bufferSum nCb k0 E x) nCb
      (punch + last % (n - punch)) = bufferSum nCb k0 E x last := by
  refine Table.written_last (fun i => punch + i % (n - punch)) _ _ hcell
    fun later hafter hlater hsame => ?_
  -- two copies of one position are at least a whole round apart
  have hmod : last ≡ later [MOD n - punch] := (Nat.add_left_cancel hsame).symm
  have hround := hmod.add_le_of_lt hafter
  omega

/-- No output is read from a buffer cell of whose position the buffer holds a later copy. -/
def ReadsLastCopies (n punch nCb k0 E : Nat) : Prop :=
  ∀ i < E, nCb ≤ (k0 + i) % nCb + (n - punch)

instance (n punch nCb k0 E : Nat) : Decidable (ReadsLastCopies n punch nCb k0 E) :=
  inferInstanceAs (Decidable (∀ i < E, _))

/-- A buffer without second copies is read nowhere else. -/
theorem reads_last_of_le {n punch nCb : Nat} (h : nCb ≤ n - punch) (k0 E : Nat) :
    ReadsLastCopies n punch nCb k0 E := by
  intro i _
  omega

/-- Where only last copies are read, recovery adds each soft value to the position it was read
from. -/
theorem rate_dematch_ok {R : Type} [AddCommMonoid R] {cfg : RateMatchConfig}
    {n punch nCb k0 E : Nat} (hlayout : cfg.Layout n punch nCb k0)
    (hlast : ReadsLastCopies n punch nCb k0 E) (x : Nat → R) :
    rateDematch (table E x) cfg n = .ok (table n fun j =>
      ∑ i ∈ (Finset.range E).filter (fun i => sourceIndex n punch nCb k0 i = j), x i) := by
  have hlt := hlayout.punch_lt
  have hcell (i : Nat) : (k0 + i) % nCb < nCb := Nat.mod_lt _ hlayout.n_cb_pos
  rw [rate_dematch_eq hlayout, Except.ok.injEq]
  refine Table.table_congr fun j hj => ?_
  by_cases hcopied : punch ≤ j ∧ j - punch < nCb
  · obtain ⟨last, hlastCell, hmod, hround⟩ :=
      exists_last_copy (by omega : j - punch < n - punch) hcopied.2
    have hj' : j = punch + last % (n - punch) := by omega
    rw [hj', written_last_copy x hlastCell hround, bufferSum]
    refine Finset.sum_congr (Finset.filter_congr fun i hi => ?_) fun _ _ => rfl
    have hread := hlast i (Finset.mem_range.mp hi)
    unfold sourceIndex
    constructor
    · intro hsame
      rw [hsame]
    · -- within the last round the position determines the cell
      intro hsame
      have hmod' : (k0 + i) % nCb ≡ last [MOD n - punch] := Nat.add_left_cancel hsame
      have := hcell i
      rcases Nat.lt_trichotomy ((k0 + i) % nCb) last with hbefore | heq | hafter
      · have := hmod'.add_le_of_lt hbefore
        omega
      · exact heq
      · have := hmod'.symm.add_le_of_lt hafter
        omega
  · have hunread (i : Nat) (hi : i < nCb) : punch + i % (n - punch) ≠ j := by
      have := Nat.mod_le i (n - punch)
      omega
    rw [Table.written_none _ _ _ hunread]
    refine (Finset.sum_eq_zero fun i hi => ?_).symm
    exact absurd (Finset.mem_filter.mp hi).2 (hunread _ (hcell i))

/-- Where a cell that is not the last copy is read, a soft value gets lost. -/
theorem dematch_loses {R : Type} [AddCommMonoid R] {cfg : RateMatchConfig}
    {n punch nCb k0 E i : Nat} (hlayout : cfg.Layout n punch nCb k0)
    (hcopied : (k0 + i) % nCb + (n - punch) < nCb) (a : R) :
    ∃ values, rateDematch (table E (Function.update (fun _ => 0) i a)) cfg n =
        .ok (table n values) ∧ values (sourceIndex n punch nCb k0 i) = 0 := by
  have hlt := hlayout.punch_lt
  have hmod := Nat.mod_lt ((k0 + i) % nCb) (by omega : 0 < n - punch)
  refine ⟨_, rate_dematch_eq hlayout E _, ?_⟩
  obtain ⟨last, hlast, hsame, hround⟩ :=
    exists_last_copy hmod (by omega : (k0 + i) % nCb % (n - punch) < nCb)
  rw [sourceIndex, ← hsame, written_last_copy _ hlast hround]
  refine Finset.sum_eq_zero fun t ht => Function.update_of_ne ?_ _ _
  -- the cell of output `i` is overwritten by its last copy, which nothing was added to
  rintro rfl
  have := (Finset.mem_filter.mp ht).2
  omega

/-- The coded word only passes through rate matching: every output is the element at its source. -/
theorem rate_match_sources {α : Type} (default : α) {coded : List α} {cfg : RateMatchConfig}
    {out : List α} : rateMatch coded cfg = .ok out ↔
      ∃ sources, rateMatch (List.range coded.length) cfg = .ok sources ∧
        out = sources.map (coded.getD · default) := by
  have hcoded : rateMatch coded cfg =
      rateMatch (table coded.length fun i => coded.getD i default) cfg := by
    rw [← Table.eq_table]
  rw [hcoded, rate_match_eq_ok, Table.range_eq_table]
  constructor
  · rintro ⟨hE, punch, nCb, k0, hlayout, rfl⟩
    exact ⟨_, rate_match_eq_ok.mpr ⟨hE, punch, nCb, k0, hlayout, rfl⟩, by rw [Table.map_table]; rfl⟩
  · rintro ⟨sources, hsources, rfl⟩
    obtain ⟨hE, punch, nCb, k0, hlayout, rfl⟩ := rate_match_eq_ok.mp hsources
    exact ⟨hE, punch, nCb, k0, hlayout, by rw [Table.map_table]; rfl⟩

namespace RateMatchConfig

/-- Recovery of `n` positions is the adjoint of rate matching: whatever soft values arrive,
position `j` gets the sum of those whose bits rate matching copies from `j`. -/
def IsAdjoint (R : Type) [AddCommMonoid R] (cfg : RateMatchConfig) (n : Nat) : Prop :=
  ∃ sources, rateMatch (List.range n) cfg = .ok sources ∧
    ∀ llr : SoftVec R, llr.length = cfg.eBits →
      ∃ soft, rateDematch llr cfg n = .ok soft ∧ soft.length = n ∧ ∀ j < n, soft[j]? = some
        (∑ i ∈ (Finset.range cfg.eBits).filter (fun i => sources[i]? = some j), llr.getD i 0)

/-- No output of the configuration is read from a buffer cell of whose position the buffer holds a
later copy. -/
def ReadsLast (cfg : RateMatchConfig) (n : Nat) : Prop :=
  ∀ punch nCb k0, cfg.Layout n punch nCb k0 → ReadsLastCopies n punch nCb k0 cfg.eBits

end RateMatchConfig

/-- The outputs that a table of sources sends to a position are those with this source. -/
theorem sum_sources {R : Type} [AddCommMonoid R] (E : Nat) (source : Nat → Nat) (j : Nat)
    (llr : SoftVec R) :
    (∑ i ∈ (Finset.range E).filter (fun i => (table E source)[i]? = some j), llr.getD i 0) =
      ∑ i ∈ (Finset.range E).filter (fun i => source i = j), llr.getD i 0 := by
  refine Finset.sum_congr (Finset.filter_congr fun i hi => ?_) fun _ _ => rfl
  rw [Table.getElem?_table (Finset.mem_range.mp hi), Option.some.injEq]

/-- Where recovery is the adjoint, no output is read from a cell that is overwritten: its soft value
would arrive nowhere. -/
theorem RateMatchConfig.IsAdjoint.reads_last {R : Type} [AddCommMonoid R] [Nontrivial R]
    {cfg : RateMatchConfig} {n : Nat} (h : cfg.IsAdjoint R n) : cfg.ReadsLast n := by
  obtain ⟨sources, hsources, hadjoint⟩ := h
  intro punch nCb k0 hlayout i hi
  by_contra hcopied
  obtain ⟨a, ha⟩ := exists_ne (0 : R)
  obtain ⟨values, hvalues, hlost⟩ := dematch_loses (E := cfg.eBits) (i := i) hlayout (by omega) a
  obtain ⟨soft, hsoft, _, hsums⟩ :=
    hadjoint (table cfg.eBits (Function.update (fun _ => 0) i a)) (Table.length_table _ _)
  have hrange := (source_index_range hlayout.punch_lt nCb k0 i).2
  have hposition := hsums _ hrange
  rw [hvalues, Except.ok.injEq] at hsoft
  rw [Table.range_eq_table, rate_match_eq_ok.mpr
    ⟨by omega, punch, nCb, k0, hlayout, rfl⟩, Except.ok.injEq] at hsources
  subst hsources
  have hsingle : ∀ t ∈ (Finset.range cfg.eBits).filter fun t =>
      sourceIndex n punch nCb k0 t = sourceIndex n punch nCb k0 i,
      t ≠ i → (table cfg.eBits (Function.update (fun _ => 0) i a)).getD t 0 = 0 := by
    intro t ht hne
    have hlt := Finset.mem_range.mp (Finset.mem_filter.mp ht).1
    rw [List.getD_eq_getElem?_getD, Table.getElem?_table hlt, Function.update_of_ne hne]
    rfl
  rw [← hsoft, Table.getElem?_table hrange, hlost, Option.some.injEq,
    show table cfg.eBits (fun i => id (sourceIndex n punch nCb k0 i)) =
      table cfg.eBits (sourceIndex n punch nCb k0) from rfl, sum_sources,
    Finset.sum_eq_single_of_mem i (by simp [hi]) hsingle, List.getD_eq_getElem?_getD,
    Table.getElem?_table hi, Function.update_self] at hposition
  exact ha hposition.symm

/-- Recovery is the adjoint of rate matching exactly when rate matching reads no cell that a later
copy of the same position overwrites in recovery. -/
theorem dematch_adjoint_iff (R : Type) [AddCommMonoid R] [Nontrivial R] {cfg : RateMatchConfig}
    {coded sent : Bits} (hsent : rateMatch coded cfg = .ok sent) :
    cfg.IsAdjoint R coded.length ↔ cfg.ReadsLast coded.length := by
  refine ⟨fun hadjoint => hadjoint.reads_last, fun hreads => ?_⟩
  obtain ⟨sources, hsources, _⟩ := (rate_match_sources 0).mp hsent
  refine ⟨sources, hsources, fun llr hlength => ?_⟩
  rw [Table.range_eq_table, rate_match_eq_ok] at hsources
  obtain ⟨_, punch, nCb, k0, hlayout, rfl⟩ := hsources
  have hllr : llr = table cfg.eBits fun i => llr.getD i 0 := by
    rw [← hlength]
    exact Table.eq_table llr 0
  rw [hllr, rate_dematch_ok hlayout (hreads punch nCb k0 hlayout)]
  refine ⟨_, rfl, Table.length_table _ _, fun j hj => ?_⟩
  rw [Table.getElem?_table hj, ← hllr]
  exact congrArg some (sum_sources _ _ j llr).symm

/-- A buffer of three cells over two coded bits, read from its second cell on. -/
theorem dematch_adjoint_iff_two :
    RateMatchConfig.IsAdjoint ℤ { eBits := 2, rv := 2, nCb := 3, punctureFirst2z := false } 2 := by
  have hsent : rateMatch ([1, 0] : Bits)
      { eBits := 2, rv := 2, nCb := 3, punctureFirst2z := false } = .ok [0, 1] := by decide
  refine (dematch_adjoint_iff ℤ hsent).mpr ?_
  rintro punch nCb k0 ⟨_, hpunch, rfl, _, hstart⟩
  rcases hpunch with ⟨_, hpunctures⟩ | ⟨rfl, _⟩
  · exact absurd hpunctures (by decide)
  · cases hstart
    decide

/-- A buffer of four cells over two coded bits: the value of the first output is overwritten by the
empty third cell. -/
theorem dematch_overwrites :
    (∃ sent, rateMatch [1, 0] { eBits := 1, nCb := 4, punctureFirst2z := false } = .ok sent) ∧
    ¬RateMatchConfig.IsAdjoint ℤ { eBits := 1, nCb := 4, punctureFirst2z := false } 2 := by
  refine ⟨⟨[1], by decide⟩, ?_⟩
  intro ⟨sources, hsources, hadjoint⟩
  have hfirst : sources = [0] := by
    have : rateMatch (List.range 2) { eBits := 1, nCb := 4, punctureFirst2z := false } =
        .ok [0] := by decide
    rwa [this, Except.ok.injEq, eq_comm] at hsources
  have hlost : rateDematch [(5 : ℤ)] { eBits := 1, nCb := 4, punctureFirst2z := false } 2 =
      .ok [0, 0] := by decide
  obtain ⟨soft, hsoft, _, hsums⟩ := hadjoint [5] rfl
  have hposition := hsums 0 (by decide)
  rw [hlost, Except.ok.injEq] at hsoft
  subst hsoft hfirst
  exact absurd hposition (by decide)

end NrBaseband
