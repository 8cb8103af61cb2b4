import NrBaseband.CudaReference
import NrBaseband.Foundation.ParallelStores

/-!
# CUDA kernels that move bits

The kernels of `baseband_kernels.cu` that scramble and match the rate, and their launches. A thread
computes its index from its block, and stores one byte unless the index is past the end; a schedule
orders the threads of a launch. `element_kernel_refines` is about one kernel with any value, and
`cuda_kernels_refine_iff` compares both kernels with their CPU references.
-/

namespace NrBaseband

open Foundation Foundation.MachineInt

/-- The variable `i` of a thread: the unsigned index, converted. -/
def threadIndex (t : Nat × Nat) : Int := toInt32 (t.1 * 256 + t.2 : Nat)

/-- A kernel that sets `out[i]` to a value, where `i` is below the number of elements. -/
def elementKernel (n : Int) (value : Int → Checked UInt8) (t : Nat × Nat) :
    Checked (Option (Store UInt8)) :=
  let i := threadIndex t
  if i < n then do
    let value ← value i
    let index ← arrayIndex i
    return some { index, value }
  else .ok none

/-- `scramble_kernel`. -/
def scrambleKernel (input gold : Bits) (n : Int) :
    Nat × Nat → Checked (Option (Store UInt8)) := elementKernel n fun i => do
  let j ← arrayIndex i
  let b ← Checked.read input j
  let s ← Checked.read gold j
  return b ^^^ s

/-- `rate_match_kernel`. -/
def rateMatchKernel (coded : Bits) (nCoded eBits : Int) :
    Nat × Nat → Checked (Option (Store UInt8)) := elementKernel eBits fun i => do
  let r ← remainder32 i nCoded
  let j ← arrayIndex r
  Checked.read coded j

/-- The number of blocks of a launch. -/
def launchBlocks (n : Int) : Checked Int := do
  let threads := 256
  let sum ← int32 (n + threads)
  let rounded ← int32 (sum - 1)
  return rounded.tdiv threads

/-- The stores of a launch; a number of blocks that is not positive runs no thread. -/
def launch (n : Int) (kernel : Nat × Nat → Checked (Option (Store UInt8)))
    (schedule : Schedule (Nat × Nat)) : Checked (List (Store UInt8)) := do
  let blocks ← launchBlocks n
  gridStores kernel (schedule.order (grid blocks.toNat 256))

/-- `launch_scramble`. -/
def launchScramble (input gold : Bits) (n : Int) :
    Schedule (Nat × Nat) → Checked (List (Store UInt8)) :=
  launch n (scrambleKernel input gold n)

/-- `launch_rate_match`. -/
def launchRateMatch (coded : Bits) (nCoded eBits : Int) :
    Schedule (Nat × Nat) → Checked (List (Store UInt8)) :=
  launch eBits (rateMatchKernel coded nCoded eBits)

/-- In every order of its threads, a launch stores once into every cell of the output and nowhere
else, and leaves the expected bits there. -/
def StoresExactly (stores : Schedule (Nat × Nat) → Checked (List (Store UInt8))) (expected : Bits) :
    Prop :=
  ∀ schedule, ∃ made, stores schedule = .ok made ∧
    (made.map Store.index).Perm (List.range expected.length) ∧
    ∀ out : Bits, expected.length ≤ out.length →
      runStores made out = .ok (expected ++ out.drop expected.length)

/-- A launch over a number of elements that leaves room for another block covers them. -/
theorem launch_blocks_eq {n : Nat} (h : n + 256 < 2 ^ 31) :
    launchBlocks n = .ok ((n + 255) / 256 : Nat) := by
  have hsum : (n : Int) + 256 - 1 = ((n + 255 : Nat) : Int) := by omega
  rw [launchBlocks, int32_of_range (by omega) (by omega), Checked.ok_bind, hsum,
    int32_of_range (by omega) (by omega), Checked.ok_bind, Checked.pure_eq_ok]
  exact congrArg Except.ok (Int.ofNat_tdiv (n + 255) 256)

/-- Threads whose values are computed set the elements. -/
theorem element_kernel_refines {n : Nat} {value : Int → Checked UInt8} {f : Nat → UInt8}
    (hn : n + 256 < 2 ^ 31) (hvalue : ∀ i : Nat, i < n → value i = .ok (f i)) :
    StoresExactly (launch n (elementKernel n value)) (table n f) := by
  intro schedule
  have hkernel : ∀ t ∈ grid ((n + 255) / 256) 256, elementKernel n value t =
      .ok (if t.1 * 256 + t.2 < n then some ⟨t.1 * 256 + t.2, f (t.1 * 256 + t.2)⟩ else none) := by
    intro t ht
    have hmem : t.1 * 256 + t.2 ∈ List.range ((n + 255) / 256 * 256) := by
      rw [← grid_indices]
      exact List.mem_map_of_mem ht
    have hlt : t.1 * 256 + t.2 < (n + 255) / 256 * 256 := List.mem_range.mp hmem
    have hindex : threadIndex t = (t.1 * 256 + t.2 : Nat) :=
      to_int32_of_range (by omega) (by omega)
    rw [elementKernel, hindex]
    generalize t.1 * 256 + t.2 = i
    by_cases hi : i < n
    · rw [if_pos (Int.ofNat_lt.mpr hi), if_pos hi, hvalue i hi, Checked.ok_bind,
        array_index_natCast, Checked.ok_bind, Checked.pure_eq_ok]
    · rw [if_neg (by omega), if_neg hi]
  obtain ⟨made, hmade, hperm⟩ := grid_stores_ok (schedule.perm _)
    (grid_indices ((n + 255) / 256) 256) (by omega) hkernel
  refine ⟨made, ?_, ?_, fun out hout => ?_⟩
  · rw [launch, launch_blocks_eq hn, Checked.ok_bind, Int.toNat_natCast, hmade]
  · rw [Table.length_table]
    have hindices := hperm.map Store.index
    rw [Table.map_table] at hindices
    rwa [Table.range_eq_table]
  · rw [Table.length_table] at hout ⊢
    exact stores_ok hperm hout

/-- A kernel stores below the number of elements. -/
theorem element_kernel_index {n : Int} {value : Int → Checked UInt8} {t : Nat × Nat}
    {s : Store UInt8} (h : elementKernel n value t = .ok (some s)) : (s.index : Int) < n := by
  rw [elementKernel] at h
  generalize threadIndex t = i at h
  split at h
  case isTrue hguard =>
    obtain ⟨x, -, hrest⟩ := Checked.bind_eq_ok.mp h
    obtain ⟨index, hindex, hstore⟩ := Checked.bind_eq_ok.mp hrest
    cases hstore
    rw [arrayIndex] at hindex
    split at hindex
    case isTrue hstart =>
      cases hindex
      rw [Int.toNat_of_nonneg hstart]
      exact hguard
    case isFalse => cases hindex
  case isFalse => cases h

/-- A launch that sets all expected elements was told of so many of them, with room for another
block. -/
theorem StoresExactly.length_le {n : Int} {value : Int → Checked UInt8} {expected : Bits}
    (h : StoresExactly (launch n (elementKernel n value)) expected) (hne : expected ≠ []) :
    expected.length ≤ n ∧ n + 256 < 2 ^ 31 := by
  obtain ⟨made, hmade, hperm, -⟩ := h ⟨id, List.Perm.refl⟩
  obtain ⟨blocks, hblocks, hstores⟩ := Checked.bind_eq_ok.mp hmade
  obtain ⟨sum, hsum, -⟩ := Checked.bind_eq_ok.mp hblocks
  have hpos : 0 < expected.length := List.length_pos_iff.mpr hne
  have hlast : expected.length - 1 ∈ made.map Store.index := by
    rw [hperm.mem_iff, List.mem_range]
    omega
  obtain ⟨s, hs, hindex⟩ := List.mem_map.mp hlast
  obtain ⟨t, -, hstore⟩ := mem_grid_stores hstores hs
  have hbelow := element_kernel_index hstore
  exact ⟨by omega, (int32_eq_ok.mp hsum).2.2⟩

/-- The default configuration starts at the first bit and leaves nothing out. -/
theorem rate_match_bits_eq {coded : Bits} (hcoded : coded ≠ []) {E : Nat} (hE : 0 < E) :
    rateMatchBits coded E = .ok (table E fun i => coded.getD (i % coded.length) 0) := by
  have hpos : 0 < coded.length := List.length_pos_iff.mpr hcoded
  have hlayout : ({ eBits := E } : RateMatchConfig).Layout coded.length 0 coded.length 0 :=
    { punch_lt := hpos
      punch_eq := .inr ⟨rfl, fun h => absurd h.2 (lt_irrefl _)⟩
      n_cb_eq := rfl
      n_cb_pos := hpos
      start := by simp [startOffset, toSizeT] }
  rw [rateMatchBits]
  conv_lhs => rw [Table.eq_table coded 0]
  rw [rate_match_eq_ok]
  refine ⟨hE, 0, coded.length, 0, hlayout, Table.table_congr fun i _ => ?_⟩
  rw [sourceIndex, Nat.zero_add, Nat.zero_add, Nat.sub_zero, Nat.mod_mod]

/-- The launch of the rate matching leaves the CPU reference. -/
def RateMatchRefined : Prop :=
  ∀ coded : Bits, coded ≠ [] → coded.length < 2 ^ 30 → ∀ E : Nat, 1 ≤ E → E < 2 ^ 30 →
    launchBlocks E = .ok ((E + 255) / 256 : Nat) ∧
    ∃ reference, rateMatchBits coded E = .ok reference ∧
      StoresExactly (launchRateMatch coded coded.length E) reference

/-- The launch of the scrambling, told of the length of the bits as an `int`, leaves the CPU
reference. -/
def ScrambleRefined (bits : Bits) (cInit : UInt32) : Prop :=
  ∃ gold reference, goldSequence bits.length cInit = .ok gold ∧
    scrambleBits bits cInit = .ok reference ∧
    StoresExactly (launchScramble bits gold (toInt32 bits.length)) reference

/-- Matching the rate on the device is matching it on the CPU. -/
theorem rate_match_refined : RateMatchRefined := by
  intro coded hcoded hlength E hpos hE
  have hn : 0 < coded.length := List.length_pos_iff.mpr hcoded
  refine ⟨launch_blocks_eq (by omega), _, rate_match_bits_eq hcoded hpos, ?_⟩
  refine element_kernel_refines (by omega) fun i hi => ?_
  have hmod := Nat.mod_lt i hn
  rw [remainder32_natCast (by omega) hn, Checked.ok_bind, array_index_natCast, Checked.ok_bind,
    RowMajor.read_getD hmod 0]

/-- Scrambling on the device is scrambling on the CPU, exactly for vectors whose length leaves
room for another block in an `int`. -/
theorem scramble_refined_iff {bits : Bits} (hbits : IsBits bits) (hne : bits ≠ [])
    (cInit : UInt32) : ScrambleRefined bits cInit ↔ bits.length + 256 < 2 ^ 31 := by
  have hreference : scrambleBits bits cInit =
      .ok (table bits.length fun i => bits.getD i 0 ^^^ gold cInit i) := by
    rw [scrambleBits]
    conv_lhs => rw [Table.eq_table bits 0]
    exact scramble_ok (fun i _ => hbits.getD i) cInit
  rw [ScrambleRefined, gold_sequence_ok, hreference]
  simp only [Except.ok.injEq, exists_eq_left', exists_and_left]
  constructor
  · intro hrefines
    have hpos : 0 < bits.length := List.length_pos_iff.mpr hne
    obtain ⟨hlength, hblock⟩ := hrefines.length_le (Table.table_ne_nil hpos)
    rw [Table.length_table] at hlength
    have hle : toInt32 bits.length ≤ bits.length := to_int32_le (Int.natCast_nonneg _)
    omega
  · intro hlength
    rw [to_int32_of_range (by omega) (by omega)]
    refine element_kernel_refines (by omega) fun i hi => ?_
    rw [array_index_natCast, Checked.ok_bind, RowMajor.read_getD hi 0, Checked.ok_bind,
      Table.read_table hi, Checked.ok_bind, Checked.pure_eq_ok]

/-- Both kernels leave what their CPU references return, in every order of the threads, exactly
where the length of the scrambled bits leaves room for another block in an `int`. -/
theorem cuda_kernels_refine_iff {bits : Bits} (hbits : IsBits bits) (hne : bits ≠ [])
    (cInit : UInt32) :
    RateMatchRefined ∧ ScrambleRefined bits cInit ↔ bits.length + 256 < 2 ^ 31 := by
  rw [and_iff_right rate_match_refined, scramble_refined_iff hbits hne]

/-- Three bits. -/
theorem cuda_kernels_refine_three : RateMatchRefined ∧ ScrambleRefined [1, 0, 1] 17 := by
  have hbits : IsBits [1, 0, 1] := by simp
  exact (cuda_kernels_refine_iff hbits (List.cons_ne_nil _ _) 17).mpr (by simp)

/-- A vector of `2 ^ 31 - 1` zeros, for which the number of blocks overflows. -/
theorem scramble_launch_overflows :
    IsBits (List.replicate (2 ^ 31 - 1) 0) ∧ launchBlocks (2 ^ 31 - 1) = .error .undefined ∧
      ¬ScrambleRefined (List.replicate (2 ^ 31 - 1) 0) 17 := by
  have hbits := is_bits_replicate (2 ^ 31 - 1)
  have hne : List.replicate (2 ^ 31 - 1) (0 : UInt8) ≠ [] := by
    rw [← List.length_pos_iff, List.length_replicate]
    norm_num
  refine ⟨hbits, rfl, fun hrefined => ?_⟩
  have hlength := (scramble_refined_iff hbits hne 17).mp hrefined
  rw [List.length_replicate] at hlength
  exact absurd hlength (by norm_num)

end NrBaseband
