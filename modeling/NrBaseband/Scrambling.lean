import NrBaseband.Types
import NrBaseband.Foundation.ShiftRegister

/-!
# Scrambling

The Gold sequence of two shift registers of width 31 and the scrambling of bits with it.
`gold_sequence_ok` says that the arrays of `gold_sequence` hold the streams of the registers, and
`descramble_scramble` that descrambling undoes scrambling.
-/

namespace NrBaseband

open Foundation Foundation.ShiftRegister

/-- The number of elements that are skipped. -/
def goldOffset : Nat := 1600

/-- The array `X1` of `gold_sequence`. -/
def goldX1 (total : Nat) : Checked Bits := do
  let X1 ← Checked.write (List.replicate (total + 31) 0) 0 1
  (List.range total).foldlM (fun X1 n => do
    let a ← Checked.read X1 (n + 3)
    let b ← Checked.read X1 n
    Checked.write X1 (n + 31) (a ^^^ b)) X1

/-- The array `X2` of `gold_sequence`. -/
def goldX2 (total : Nat) (cInit : UInt32) : Checked Bits := do
  let X2 ← (List.range 31).foldlM (fun X2 i =>
    Checked.write X2 i ((cInit >>> UInt32.ofNat i) &&& 1).toUInt8) (List.replicate (total + 31) 0)
  (List.range total).foldlM (fun X2 n => do
    let a ← Checked.read X2 (n + 3)
    let b ← Checked.read X2 (n + 2)
    let c ← Checked.read X2 (n + 1)
    let d ← Checked.read X2 n
    Checked.write X2 (n + 31) (a ^^^ b ^^^ c ^^^ d)) X2

/-- `gold_sequence`. The two arrays do not depend on each other. -/
def goldSequence (length : Nat) (cInit : UInt32) : Checked Bits := do
  let X1 ← goldX1 (goldOffset + length)
  let X2 ← goldX2 (goldOffset + length) cInit
  (List.range length).mapM fun n => do
    let a ← Checked.read X1 (n + goldOffset)
    let b ← Checked.read X2 (n + goldOffset)
    return a ^^^ b

/-- `scramble`. -/
def scramble (bits : Bits) (cInit : UInt32) : Checked Bits := do
  let c ← goldSequence bits.length cInit
  (List.range bits.length).mapM fun i => do
    let b ← Checked.read bits i
    require (b = 0 ∨ b = 1) "scramble bits must be 0/1"
    let s ← Checked.read c i
    return b ^^^ s

/-- `descramble`. -/
def descramble (bits : Bits) (cInit : UInt32) : Checked Bits := scramble bits cInit

/-- The feedback of the first register. -/
def goldNext1 (w : Nat → UInt8) : UInt8 := w 3 ^^^ w 0

/-- The feedback of the second register. -/
def goldNext2 (w : Nat → UInt8) : UInt8 := w 3 ^^^ w 2 ^^^ w 1 ^^^ w 0

/-- The start of the first register. -/
def goldSeed1 (i : Nat) : UInt8 := if i = 0 then 1 else 0

/-- The start of the second register: the bits of the seed. -/
def goldSeed2 (cInit : UInt32) (i : Nat) : UInt8 := ((cInit >>> UInt32.ofNat i) &&& 1).toUInt8

/-- Element `n` of the Gold sequence of a seed. -/
def gold (cInit : UInt32) (n : Nat) : UInt8 :=
  stream 31 goldNext1 goldSeed1 (n + goldOffset) ^^^
    stream 31 goldNext2 (goldSeed2 cInit) (n + goldOffset)

/-- The feedback of the first register depends on its window. -/
theorem gold_next1_congr (w w' : Nat → UInt8) (h : ∀ i < 31, w i = w' i) :
    goldNext1 w = goldNext1 w' := by
  simp only [goldNext1, h 3 (by omega), h 0 (by omega)]

/-- The feedback of the second register depends on its window. -/
theorem gold_next2_congr (w w' : Nat → UInt8) (h : ∀ i < 31, w i = w' i) :
    goldNext2 w = goldNext2 w' := by
  simp only [goldNext2, h 3 (by omega), h 2 (by omega), h 1 (by omega), h 0 (by omega)]

/-- The first array holds the stream of the first register. -/
theorem gold_x1_ok (total : Nat) :
    goldX1 total = .ok (table (total + 31) (stream 31 goldNext1 goldSeed1)) := by
  rw [goldX1, Table.replicate_eq_table, Table.write_table (by omega), Checked.ok_bind,
    fill_stream goldSeed1 (by omega) gold_next1_congr (fun f n hn => ?_) (Nat.le_refl _)
      fun i _ => ?_]
  · refine congrArg Except.ok (Table.table_congr fun j hj => if_pos hj)
  · rw [Table.read_table (by omega), Checked.ok_bind, Table.read_table (by omega), Checked.ok_bind]
    rfl
  · by_cases hi : i = 0
    · subst hi
      rfl
    · simp [goldSeed1, hi]

/-- The second array holds the stream of the second register. -/
theorem gold_x2_ok (total : Nat) (cInit : UInt32) :
    goldX2 total cInit = .ok (table (total + 31) (stream 31 goldNext2 (goldSeed2 cInit))) := by
  have hseed : (List.range 31).foldlM (fun X2 i =>
      Checked.write X2 i ((cInit >>> UInt32.ofNat i) &&& 1).toUInt8)
      (List.replicate (total + 31) 0) = .ok (table (total + 31) fun j =>
        if 0 ≤ j ∧ j < 0 + 31 then goldSeed2 cInit (j - 0) else 0) := by
    rw [Table.replicate_eq_table]
    exact Table.copy_to (fun cells i _ => by rw [Nat.zero_add]; rfl) (by omega)
  rw [goldX2, hseed, Checked.ok_bind,
    fill_stream (goldSeed2 cInit) (by omega) gold_next2_congr (fun f n hn => ?_) (Nat.le_refl _)
      fun i hi => ?_]
  · refine congrArg Except.ok (Table.table_congr fun j hj => if_pos hj)
  · rw [Table.read_table (by omega), Checked.ok_bind, Table.read_table (by omega), Checked.ok_bind,
      Table.read_table (by omega), Checked.ok_bind, Table.read_table (by omega), Checked.ok_bind]
    rfl
  · rw [if_pos (by omega), Nat.sub_zero]

/-- `goldSequence` returns the beginning of the Gold sequence. -/
theorem gold_sequence_ok (length : Nat) (cInit : UInt32) :
    goldSequence length cInit = .ok (table length (gold cInit)) := by
  rw [goldSequence, gold_x1_ok, Checked.ok_bind, gold_x2_ok, Checked.ok_bind]
  refine Table.gather fun n hn => ?_
  rw [Table.read_table (by omega), Checked.ok_bind, Table.read_table (by omega), Checked.ok_bind]
  rfl

/-- A bit of a word is a bit. -/
theorem is_bit_and_one (x : UInt32) : IsBit (x &&& 1).toUInt8 := by
  have hmod : (x &&& 1).toNat = x.toNat % 2 := by
    rw [UInt32.toNat_and]
    exact Nat.and_one_is_mod _
  have hbyte : (x &&& 1).toUInt8.toNat = x.toNat % 2 := by
    rw [UInt32.toNat_toUInt8, hmod]
    omega
  rcases Nat.mod_two_eq_zero_or_one x.toNat with h | h
  · exact .inl (UInt8.toNat_inj.mp (hbyte.trans h))
  · exact .inr (UInt8.toNat_inj.mp (hbyte.trans h))

/-- The Gold sequence consists of bits. -/
theorem is_bit_gold (cInit : UInt32) (n : Nat) : IsBit (gold cInit n) := by
  refine IsBit.xor ?_ ?_
  · refine stream_invariant (fun i => ?_) (fun w hw => (hw 3).xor (hw 0)) _
    unfold goldSeed1
    split
    · exact is_bit_one
    · exact is_bit_zero
  · exact stream_invariant (fun i => is_bit_and_one _)
      (fun w hw => (((hw 3).xor (hw 2)).xor (hw 1)).xor (hw 0)) _

/-- Scrambling adds the Gold sequence to the bits. -/
theorem scramble_ok {n : Nat} {value : Nat → UInt8} (h : ∀ i < n, IsBit (value i))
    (cInit : UInt32) : scramble (table n value) cInit =
      .ok (table n fun i => value i ^^^ gold cInit i) := by
  rw [scramble, gold_sequence_ok, Table.length_table, Checked.ok_bind]
  refine Table.gather fun i hi => ?_
  have hbit : value i = 0 ∨ value i = 1 := h i hi
  rw [Table.read_table hi, Checked.ok_bind, require_of hbit, Checked.ok_bind, Table.read_table hi,
    Checked.ok_bind, Checked.pure_eq_ok]

/-- Descrambling undoes scrambling. -/
theorem descramble_scramble {bits : Bits} (h : IsBits bits) (cInit : UInt32) :
    ∃ scrambled, scramble bits cInit = .ok scrambled ∧ descramble scrambled cInit = .ok bits := by
  have hbit (i : Nat) : IsBit (bits.getD i 0) := h.getD i
  refine ⟨table bits.length fun i => bits.getD i 0 ^^^ gold cInit i, ?_, ?_⟩
  · conv_lhs => rw [Table.eq_table bits 0]
    exact scramble_ok (fun i _ => hbit i) cInit
  · rw [descramble, scramble_ok (fun i _ => (hbit i).xor (is_bit_gold cInit i)) cInit]
    conv_rhs => rw [Table.eq_table bits 0]
    refine congrArg Except.ok (Table.table_congr fun i _ => ?_)
    rw [UInt8.xor_assoc, UInt8.xor_self, UInt8.xor_zero]

end NrBaseband
