import NrBaseband.Foundation.TannerGraph
import NrBaseband.Foundation.RowMajor
import Mathlib.Tactic.LinearCombination

/-!
# Quasi-cyclic codes with a dual-diagonal parity part

A quasi-cyclic code is described by circulant blocks: block `(row, col, shift)` joins check `z` of
its row to variable `(z + shift) % zc` of its column. `lift` expands the blocks to a Tanner graph.
`DualDiagonal` is the parity structure used for fast encoding: four core rows whose sum leaves one
circulant, and extension rows that each own one column. `DualDiagonal.eq_zero` is the main result:
a word that satisfies every check and is zero on the information part is zero, so the parity bits
of a code word are determined by its information bits, for every lifting size.
-/

namespace Foundation

open Finset

/-- A circulant block of checks `row` and variables `col`. -/
structure Circulant where
  row : Nat
  col : Nat
  shift : Nat
  deriving DecidableEq, Repr

namespace QuasiCyclic

/-- The variable that check `z` of a block's row is joined to. -/
def liftedVar (zc : Nat) (b : Circulant) (z : Nat) : Nat := b.col * zc + (z + b.shift) % zc

/-- The edges of the blocks, each block's one after the other. -/
def lift (zc : Nat) (blocks : List Circulant) : List TannerEdge :=
  blocks.flatMap fun b => (List.range zc).map fun z => ⟨b.row * zc + z, liftedVar zc b z⟩

/-- The sum of the word's values along the blocks of row `i` at check `z`. -/
def blockSum (zc : Nat) (blocks : List Circulant) (word : Nat → ZMod 2) (i z : Nat) : ZMod 2 :=
  (blocks.map fun b => if b.row = i then word (liftedVar zc b z) else 0).sum

/-- Without blocks the sum is zero. -/
@[simp] theorem block_sum_nil (zc : Nat) (word : Nat → ZMod 2) (i z : Nat) :
    blockSum zc [] word i z = 0 := rfl

/-- A block adds its variable to the sums of its row. -/
@[simp] theorem block_sum_cons (zc : Nat) (b : Circulant) (blocks : List Circulant)
    (word : Nat → ZMod 2) (i z : Nat) : blockSum zc (b :: blocks) word i z =
      (if b.row = i then word (liftedVar zc b z) else 0) + blockSum zc blocks word i z := rfl

/-- In a range only one index contributes to a sum that is supported there. -/
theorem sum_range_single {n z : Nat} (hz : z < n) (value : Nat → ZMod 2) :
    ((List.range n).map fun y => if y = z then value y else 0).sum = value z := by
  induction n with
  | zero => omega
  | succ n ih =>
      rw [List.range_succ, List.map_append, List.sum_append]
      by_cases hlt : z < n
      · have hne : n ≠ z := by omega
        simp [ih hlt, hne]
      · have heq : z = n := by omega
        subst heq
        have hzero : ((List.range z).map fun y => if y = z then value y else 0).sum = 0 := by
          refine List.sum_eq_zero fun x hx => ?_
          obtain ⟨y, hy, rfl⟩ := List.mem_map.mp hx
          simp [(List.mem_range.mp hy).ne]
        simp [hzero]

/-- The checks of the lifted graph are the block sums. -/
theorem check_sum_lift {zc : Nat} (blocks : List Circulant) (word : Nat → ZMod 2) {i z : Nat}
    (hz : z < zc) :
    TannerGraph.checkSum (lift zc blocks) word (i * zc + z) = blockSum zc blocks word i z := by
  induction blocks with
  | nil => rfl
  | cons b blocks ih =>
      have hhead : TannerGraph.checkSum
          ((List.range zc).map fun y => ⟨b.row * zc + y, liftedVar zc b y⟩) word (i * zc + z) =
          if b.row = i then word (liftedVar zc b z) else 0 := by
        by_cases hrow : b.row = i
        · rw [if_pos hrow, ← sum_range_single hz fun y => word (liftedVar zc b y)]
          simp only [TannerGraph.checkSum, List.map_map]
          congr 1
          exact List.map_congr_left fun y _ => by simp [hrow]
        · rw [if_neg hrow]
          refine List.sum_eq_zero fun x hx => ?_
          obtain ⟨e, he, rfl⟩ := List.mem_map.mp hx
          obtain ⟨y, hy, rfl⟩ := List.mem_map.mp he
          have hiff : b.row * zc + y = i * zc + z ↔ b.row = i ∧ y = z :=
            RowMajor.index_inj (List.mem_range.mp hy) hz
          simp [hiff, hrow]
      rw [block_sum_cons, ← ih, ← hhead]
      simp [lift]

/-- The word satisfies every check of the first `mb` rows. -/
def Satisfies (zc mb : Nat) (blocks : List Circulant) (word : Nat → ZMod 2) : Prop :=
  ∀ i < mb, ∀ z < zc, blockSum zc blocks word i z = 0

/-- Block sums are additive in the word. -/
theorem block_sum_add (zc : Nat) (blocks : List Circulant) (word other : Nat → ZMod 2)
    (i z : Nat) : blockSum zc blocks (fun p => word p + other p) i z =
      blockSum zc blocks word i z + blockSum zc blocks other i z := by
  induction blocks with
  | nil => simp
  | cons b blocks ih =>
      simp only [block_sum_cons, ih]
      split <;> simp [add_add_add_comm]

/-- The sum of two words that satisfy the checks satisfies them. -/
theorem Satisfies.add {zc mb : Nat} {blocks : List Circulant} {word other : Nat → ZMod 2}
    (hword : Satisfies zc mb blocks word) (hother : Satisfies zc mb blocks other) :
    Satisfies zc mb blocks fun p => word p + other p := by
  intro i hi z hz
  rw [block_sum_add, hword i hi z hz, hother i hi z hz, add_zero]

/-- The position that a rotation by `t` within blocks of length `zc` moves to position `p`. -/
def rotated (zc t p : Nat) : Nat := p / zc * zc + (p % zc + t) % zc

/-- Rotating the word within its blocks moves a check along its row. -/
theorem block_sum_rotated {zc : Nat} (hzc : 0 < zc) (blocks : List Circulant)
    (word : Nat → ZMod 2) (t i z : Nat) :
    blockSum zc blocks (fun p => word (rotated zc t p)) i z =
      blockSum zc blocks word i ((z + t) % zc) := by
  induction blocks with
  | nil => rfl
  | cons b blocks ih =>
      have hlt := Nat.mod_lt (z + b.shift) hzc
      have hcolumn : (b.col * zc + (z + b.shift) % zc) / zc = b.col := by
        rw [Nat.mul_comm, Nat.mul_add_div hzc, Nat.div_eq_of_lt hlt, Nat.add_zero]
      have hoffset : (b.col * zc + (z + b.shift) % zc) % zc = (z + b.shift) % zc := by
        rw [Nat.mul_comm, Nat.mul_add_mod, Nat.mod_mod]
      have hvar : rotated zc t (liftedVar zc b z) = liftedVar zc b ((z + t) % zc) := by
        rw [rotated, liftedVar, hcolumn, hoffset, liftedVar, Nat.mod_add_mod, Nat.mod_add_mod,
          Nat.add_right_comm]
      rw [block_sum_cons, block_sum_cons, ih, hvar]

/-- A word rotated within its blocks satisfies the checks that the word satisfies. -/
theorem Satisfies.rotated {zc mb : Nat} {blocks : List Circulant} {word : Nat → ZMod 2}
    (h : Satisfies zc mb blocks word) (hzc : 0 < zc) (t : Nat) :
    Satisfies zc mb blocks fun p => word (QuasiCyclic.rotated zc t p) := by
  intro i hi z _
  rw [block_sum_rotated hzc]
  exact h i hi _ (Nat.mod_lt _ hzc)

/-- A rotation stays within the first `n` blocks. -/
theorem rotated_lt {zc n p : Nat} (hzc : 0 < zc) (h : p < n * zc) (t : Nat) :
    rotated zc t p < n * zc := by
  have hblock : p / zc < n := Nat.div_lt_of_lt_mul (by rwa [Nat.mul_comm])
  have hoffset := Nat.mod_lt (p % zc + t) hzc
  have hle : (p / zc + 1) * zc ≤ n * zc := Nat.mul_le_mul_right _ hblock
  rw [Nat.add_mul, Nat.one_mul] at hle
  unfold rotated
  omega

/-- The parity columns of row `i`, numbered from the first of them, with their shifts. -/
def parityPart (kb : Nat) (blocks : List Circulant) (i : Nat) : List (Nat × Nat) :=
  (blocks.filter fun b => b.row = i ∧ kb ≤ b.col).map fun b => (b.col - kb, b.shift)

/-- Element `z` of parity block `j`. -/
def parityBit (zc kb : Nat) (word : Nat → ZMod 2) (j z : Nat) : ZMod 2 :=
  word ((kb + j) * zc + z)

/-- A word that is zero on the information part is checked on its parity blocks only. -/
theorem block_sum_eq_parity {zc kb : Nat} (hzc : 0 < zc) {word : Nat → ZMod 2}
    (hinfo : ∀ p < kb * zc, word p = 0) (blocks : List Circulant) (i z : Nat) :
    blockSum zc blocks word i z =
      ((parityPart kb blocks i).map fun c => parityBit zc kb word c.1 ((z + c.2) % zc)).sum := by
  induction blocks with
  | nil => rfl
  | cons b blocks ih =>
      rw [block_sum_cons, ih]
      by_cases hrow : b.row = i
      · by_cases hcol : kb ≤ b.col
        · have hblock : kb + (b.col - kb) = b.col := by omega
          simp [parityPart, hrow, hcol, parityBit, liftedVar, hblock]
        · have hzero : word (liftedVar zc b z) = 0 := by
            apply hinfo
            have hmod := Nat.mod_lt (z + b.shift) hzc
            have hle : (b.col + 1) * zc ≤ kb * zc := Nat.mul_le_mul_right zc (by omega)
            rw [Nat.succ_mul] at hle
            unfold liftedVar
            omega
          simp [parityPart, hrow, hcol, hzero]
      · simp [parityPart, hrow]

/-- The parity part of `mb` rows is dual-diagonal. In the core rows 0 to 3 the first parity column
carries the shift `a` in rows 0 and 3 and the shift `b` in row 1 or in row 2, and the other three
columns form a double diagonal; every later row owns its column and else only uses the core. -/
structure DualDiagonal (kb mb : Nat) (blocks : List Circulant) : Prop where
  four_le : 4 ≤ mb
  core : ∃ a b,
    parityPart kb blocks 0 = [(0, a), (1, 0)] ∧
    (parityPart kb blocks 1 = [(0, b), (1, 0), (2, 0)] ∧
        parityPart kb blocks 2 = [(2, 0), (3, 0)] ∨
      parityPart kb blocks 1 = [(1, 0), (2, 0)] ∧
        parityPart kb blocks 2 = [(0, b), (2, 0), (3, 0)]) ∧
    parityPart kb blocks 3 = [(0, a), (3, 0)]
  extension : ∀ i < mb, 4 ≤ i →
    (parityPart kb blocks i).filter (fun c => 4 ≤ c.1) = [(i, 0)]

/-- A shift by `s` reaches every offset of a block. -/
theorem exists_shift {zc s z : Nat} (hz : z < zc) : ∃ y < zc, (y + s) % zc = z := by
  refine ⟨(z + (zc - s % zc)) % zc, Nat.mod_lt _ (by omega), ?_⟩
  have hs := Nat.mod_lt s (by omega : 0 < zc)
  have hsum : z + (zc - s % zc) + s % zc = z + zc := by omega
  rw [Nat.mod_add_mod, ← Nat.add_mod_mod, hsum, Nat.add_mod_right, Nat.mod_eq_of_lt hz]

/-- In a dual-diagonal code the core parity blocks of a word that satisfies the core checks and
is zero on the information part are zero. -/
theorem DualDiagonal.core_eq_zero {zc kb mb : Nat} {blocks : List Circulant}
    (h : DualDiagonal kb mb blocks) {word : Nat → ZMod 2}
    (hword : Satisfies zc mb blocks word) (hinfo : ∀ p < kb * zc, word p = 0) :
    ∀ j < 4, ∀ z < zc, parityBit zc kb word j z = 0 := by
  obtain ⟨a, b, hrow0, hrows, hrow3⟩ := h.core
  have hmb := h.four_le
  have htwo : (2 : ZMod 2) = 0 := rfl
  have hcheck (i z : Nat) (hi : i < 4) (hz : z < zc) : ((parityPart kb blocks i).map fun c =>
      parityBit zc kb word c.1 ((z + c.2) % zc)).sum = 0 := by
    rw [← block_sum_eq_parity (by omega) hinfo]
    exact hword i (by omega) z hz
  have hfirst (z : Nat) (hz : z < zc) :
      parityBit zc kb word 0 ((z + a) % zc) + parityBit zc kb word 1 z = 0 := by
    simpa [hrow0, Nat.mod_eq_of_lt hz] using hcheck 0 z (by omega) hz
  have hlast (z : Nat) (hz : z < zc) :
      parityBit zc kb word 0 ((z + a) % zc) + parityBit zc kb word 3 z = 0 := by
    simpa [hrow3, Nat.mod_eq_of_lt hz] using hcheck 3 z (by omega) hz
  -- wherever the shift `b` stands, rows 1 and 2 add up to one equation and give block 2
  have hmiddle (z : Nat) (hz : z < zc) : parityBit zc kb word 0 ((z + b) % zc) +
      (parityBit zc kb word 1 z + parityBit zc kb word 3 z) = 0 ∧
      (parityBit zc kb word 1 z = 0 → parityBit zc kb word 3 z = 0 →
        parityBit zc kb word 2 z = 0) := by
    have hone := hcheck 1 z (by omega) hz
    have hother := hcheck 2 z (by omega) hz
    rcases hrows with ⟨hrow1, hrow2⟩ | ⟨hrow1, hrow2⟩
    · simp only [hrow1, hrow2, List.map_cons, List.map_nil, List.sum_cons, List.sum_nil, add_zero,
        Nat.mod_eq_of_lt hz] at hone hother
      refine ⟨by linear_combination hone + hother - parityBit zc kb word 2 z * htwo, ?_⟩
      intro _ h3
      simpa [h3] using hother
    · simp only [hrow1, hrow2, List.map_cons, List.map_nil, List.sum_cons, List.sum_nil, add_zero,
        Nat.mod_eq_of_lt hz] at hone hother
      refine ⟨by linear_combination hone + hother - parityBit zc kb word 2 z * htwo, ?_⟩
      intro h1 _
      simpa [h1] using hone
  -- the sum of all four core rows leaves the circulant of shift `b`
  have hzero (z : Nat) (hz : z < zc) : parityBit zc kb word 0 z = 0 := by
    obtain ⟨y, hy, rfl⟩ := exists_shift (s := b) hz
    linear_combination hfirst y hy + (hmiddle y hy).1 + hlast y hy -
      (parityBit zc kb word 0 ((y + a) % zc) + parityBit zc kb word 1 y +
        parityBit zc kb word 3 y) * htwo
  intro j hj z hz
  have hshifted : parityBit zc kb word 0 ((z + a) % zc) = 0 := hzero _ (Nat.mod_lt _ (by omega))
  have hone : parityBit zc kb word 1 z = 0 := by simpa [hshifted] using hfirst z hz
  have hthree : parityBit zc kb word 3 z = 0 := by simpa [hshifted] using hlast z hz
  have hsecond := (hmiddle z hz).2 hone hthree
  rcases (by omega : j = 0 ∨ j = 1 ∨ j = 2 ∨ j = 3) with rfl | rfl | rfl | rfl
  · exact hzero z hz
  · exact hone
  · exact hsecond
  · exact hthree

/-- A list of columns whose part from 4 on is `[(i, 0)]` sums to block `i` when the core blocks
vanish. -/
theorem sum_extension {i : Nat} (value : Nat → Nat → ZMod 2) (hcore : ∀ j < 4, ∀ s, value j s = 0) :
    ∀ columns : List (Nat × Nat), columns.filter (fun c => 4 ≤ c.1) = [(i, 0)] →
      (columns.map fun c => value c.1 c.2).sum = value i 0 := by
  intro columns
  have hfilter : (columns.map fun c => value c.1 c.2).sum =
      ((columns.filter fun c => 4 ≤ c.1).map fun c => value c.1 c.2).sum := by
    induction columns with
    | nil => rfl
    | cons c columns ih =>
        by_cases hc : 4 ≤ c.1
        · simp [hc, ih]
        · simp [hc, ih, hcore c.1 (by omega)]
  intro h
  simp [hfilter, h]

/-- A word that satisfies every check of a dual-diagonal code and is zero on the information part
is zero on the parity part. -/
theorem DualDiagonal.eq_zero {zc kb mb : Nat} {blocks : List Circulant}
    (h : DualDiagonal kb mb blocks) {word : Nat → ZMod 2}
    (hword : Satisfies zc mb blocks word) (hinfo : ∀ p < kb * zc, word p = 0) :
    ∀ p < (kb + mb) * zc, word p = 0 := by
  have hcore := h.core_eq_zero hword hinfo
  have hparity (j : Nat) (hj : j < mb) (z : Nat) (hz : z < zc) :
      parityBit zc kb word j z = 0 := by
    by_cases hlt : j < 4
    · exact hcore j hlt z hz
    · have hrow := hword j hj z hz
      rw [block_sum_eq_parity (by omega) hinfo, sum_extension
        (fun c s => parityBit zc kb word c ((z + s) % zc))
        (fun c hc s => hcore c hc _ (Nat.mod_lt _ (by omega)))
        _ (h.extension j hj (by omega))] at hrow
      simpa [Nat.mod_eq_of_lt hz] using hrow
  intro p hp
  by_cases hlt : p < kb * zc
  · exact hinfo p hlt
  · have hzc : 0 < zc := by
      rcases Nat.eq_zero_or_pos zc with rfl | hpos
      · simp at hp
      · exact hpos
    have hblock : (p - kb * zc) / zc < mb := by
      rw [Nat.div_lt_iff_lt_mul hzc]
      rw [Nat.add_mul] at hp
      omega
    have hbit := hparity _ hblock _ (Nat.mod_lt (p - kb * zc) hzc)
    have hposition : (kb + (p - kb * zc) / zc) * zc + (p - kb * zc) % zc = p := by
      have hdiv := Nat.div_add_mod' (p - kb * zc) zc
      rw [Nat.add_mul]
      omega
    rwa [parityBit, hposition] at hbit

/-- Two code words of a dual-diagonal code with the same information part are equal. -/
theorem DualDiagonal.unique {zc kb mb : Nat} {blocks : List Circulant}
    (h : DualDiagonal kb mb blocks) {word other : Nat → ZMod 2}
    (hword : Satisfies zc mb blocks word) (hother : Satisfies zc mb blocks other)
    (hinfo : ∀ p < kb * zc, word p = other p) : ∀ p < (kb + mb) * zc, word p = other p := by
  have hzero := h.eq_zero (hword.add hother) fun p hp => by
    rw [hinfo p hp]
    exact CharTwo.add_self_eq_zero _
  exact fun p hp => CharTwo.add_eq_zero.mp (hzero p hp)

/-- Dropping blocks that are not parity blocks of row `i` does not change its parity columns. -/
theorem parity_part_filter {keep : Circulant → Bool} {kb i : Nat} {blocks : List Circulant}
    (h : ∀ b ∈ blocks, b.row = i → kb ≤ b.col → keep b = true) :
    parityPart kb (blocks.filter keep) i = parityPart kb blocks i := by
  unfold parityPart
  rw [List.filter_filter]
  congr 1
  refine List.filter_congr fun b hb => ?_
  by_cases hparity : b.row = i ∧ kb ≤ b.col
  · simp [hparity, h b hb hparity.1 hparity.2]
  · simp [hparity]

/-- Where the blocks from column `kb + 4` on are the identities on the rows from 4 on, in order,
every such row owns its column. -/
theorem extension_of_filter {kb mb : Nat} {blocks : List Circulant}
    (h : blocks.filter (fun b => kb + 4 ≤ b.col) =
      (List.range' 4 (mb - 4)).map fun i => ⟨i, kb + i, 0⟩) :
    ∀ i < mb, 4 ≤ i → (parityPart kb blocks i).filter (fun c => 4 ≤ c.1) = [(i, 0)] := by
  intro i hi hfour
  have hsplit : (parityPart kb blocks i).filter (fun c => 4 ≤ c.1) =
      ((blocks.filter fun b => kb + 4 ≤ b.col).filter fun b => b.row = i).map
        fun b => (b.col - kb, b.shift) := by
    unfold parityPart
    rw [List.filter_map, List.filter_filter, List.filter_filter]
    congr 1
    refine List.filter_congr fun b _ => ?_
    rw [← Bool.decide_and, Bool.eq_iff_iff]
    simp only [Function.comp, Bool.and_eq_true, decide_eq_true_eq]
    omega
  have hsingle : (List.range' 4 (mb - 4)).filter (fun row => row = i) = [i] := by
    have hmem : i ∈ List.range' 4 (mb - 4) := by
      rw [List.mem_range'_1]
      omega
    rw [List.filter_eq, List.count_eq_one_of_mem List.nodup_range' hmem]
    rfl
  rw [hsplit, h, List.filter_map]
  show (((List.range' 4 (mb - 4)).filter fun row => row = i).map _).map _ = _
  simp [hsingle]

/-! ## Reduced shifts -/

/-- The circulant with its shift reduced to its size. -/
def reduce (zc : Nat) (b : Circulant) : Circulant := { b with shift := b.shift % zc }

/-- The parity columns of reduced circulants. -/
theorem parity_part_reduce (zc kb : Nat) (blocks : List Circulant) (i : Nat) :
    parityPart kb (blocks.map (reduce zc)) i =
      (parityPart kb blocks i).map fun c => (c.1, c.2 % zc) := by
  unfold parityPart
  rw [List.filter_map, List.map_map, List.map_map]
  rfl

/-- Reducing the shifts keeps a dual-diagonal code dual-diagonal. -/
theorem DualDiagonal.reduce {kb mb : Nat} {blocks : List Circulant}
    (h : DualDiagonal kb mb blocks) (zc : Nat) :
    DualDiagonal kb mb (blocks.map (reduce zc)) := by
  obtain ⟨a, b, hrow0, hrows, hrow3⟩ := h.core
  refine ⟨h.four_le, ⟨a % zc, b % zc, ?_⟩, fun i hi hfour => ?_⟩
  · simp only [parity_part_reduce, hrow0, hrow3]
    rcases hrows with ⟨hrow1, hrow2⟩ | ⟨hrow1, hrow2⟩
    · simp [hrow1, hrow2]
    · simp [hrow1, hrow2]
  · have hfilter (columns : List (Nat × Nat)) :
        (columns.map fun c => (c.1, c.2 % zc)).filter (fun c => 4 ≤ c.1) =
          (columns.filter fun c => 4 ≤ c.1).map fun c => (c.1, c.2 % zc) := by
      rw [List.filter_map]
      rfl
    rw [parity_part_reduce, hfilter, h.extension i hi hfour]
    simp

/-! ## Truncation -/

/-- The blocks of the first `m` rows and the first `kb + m` columns. -/
def truncate (kb m : Nat) (blocks : List Circulant) : List Circulant :=
  blocks.filter fun b => b.row < m ∧ b.col < kb + m

/-- Dropping blocks of other rows does not change a row's sum. -/
theorem block_sum_filter {keep : Circulant → Bool} {blocks : List Circulant} {i : Nat}
    (h : ∀ b ∈ blocks, b.row = i → keep b = true) (zc : Nat) (word : Nat → ZMod 2) (z : Nat) :
    blockSum zc (blocks.filter keep) word i z = blockSum zc blocks word i z := by
  induction blocks with
  | nil => rfl
  | cons b blocks ih =>
      have hrest := ih fun b' hb' => h b' (List.mem_cons_of_mem b hb')
      by_cases hrow : b.row = i
      · simp [h b List.mem_cons_self hrow, hrest]
      · by_cases hkeep : keep b = true
        · simp [hkeep, hrest]
        · simp [hkeep, hrow, hrest]

/-- The first `m` rows of a dual-diagonal code, `m` at least 4, use no parity column from `m` on. -/
theorem DualDiagonal.kept {kb mb m : Nat} {blocks : List Circulant}
    (h : DualDiagonal kb mb blocks) (hm : 4 ≤ m) (hle : m ≤ mb) {i : Nat} (hi : i < m) :
    ∀ b ∈ blocks, b.row = i → decide (b.row < m ∧ b.col < kb + m) = true := by
  intro b hb hrow
  have hcol : b.col < kb + m := by
    by_contra hlarge
    have hmem : (b.col - kb, b.shift) ∈ parityPart kb blocks i := by
      refine List.mem_map.mpr ⟨b, ?_, rfl⟩
      simp only [List.mem_filter, decide_eq_true_eq]
      exact ⟨hb, hrow, by omega⟩
    by_cases hfour : 4 ≤ i
    · have hext : (b.col - kb, b.shift) ∈
          (parityPart kb blocks i).filter fun c => 4 ≤ c.1 := by
        simp only [List.mem_filter, decide_eq_true_eq]
        exact ⟨hmem, by omega⟩
      rw [h.extension i (by omega) hfour, List.mem_singleton, Prod.mk.injEq] at hext
      omega
    · obtain ⟨a, c, hrow0, hrows, hrow3⟩ := h.core
      have hcore : b.col - kb < 4 := by
        rcases (by omega : i = 0 ∨ i = 1 ∨ i = 2 ∨ i = 3) with rfl | rfl | rfl | rfl <;>
          rcases hrows with ⟨hrow1, hrow2⟩ | ⟨hrow1, hrow2⟩ <;>
          simp only [hrow0, hrow1, hrow2, hrow3, List.mem_cons, Prod.mk.injEq, List.not_mem_nil,
            or_false] at hmem <;> omega
      omega
  simp [hrow, hi, hcol]

/-- Truncating a dual-diagonal code does not change the checks of the rows it keeps. -/
theorem DualDiagonal.block_sum_truncate {kb mb m : Nat} {blocks : List Circulant}
    (h : DualDiagonal kb mb blocks) (hm : 4 ≤ m) (hle : m ≤ mb) {i : Nat} (hi : i < m) (zc : Nat)
    (word : Nat → ZMod 2) (z : Nat) :
    blockSum zc (truncate kb m blocks) word i z = blockSum zc blocks word i z :=
  block_sum_filter (h.kept hm hle hi) zc word z

/-- A truncated dual-diagonal code is dual-diagonal. -/
theorem DualDiagonal.truncate {kb mb m : Nat} {blocks : List Circulant}
    (h : DualDiagonal kb mb blocks) (hm : 4 ≤ m) (hle : m ≤ mb) :
    DualDiagonal kb m (truncate kb m blocks) := by
  have hpart (i : Nat) (hi : i < m) :
      parityPart kb (QuasiCyclic.truncate kb m blocks) i = parityPart kb blocks i :=
    parity_part_filter fun b hb hrow _ => h.kept hm hle hi b hb hrow
  refine ⟨hm, ?_, fun i hi hfour => ?_⟩
  · rw [hpart 0 (by omega), hpart 1 (by omega), hpart 2 (by omega), hpart 3 (by omega)]
    exact h.core
  · rw [hpart i hi]
    exact h.extension i (by omega) hfour

end QuasiCyclic

end Foundation
