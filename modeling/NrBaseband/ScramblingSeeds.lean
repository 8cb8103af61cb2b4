import NrBaseband.Scrambling

/-!
# Seeds of the scrambling sequence

The sequence of a seed is one stream: a shorter request returns the beginning of a longer one
(`scramble_stream`). The second register can be run backwards over the elements that are skipped,
so 31 elements of the sequence determine the 31 bits of the seed (`gold_seeds_separated`).
-/

namespace NrBaseband

open Foundation Foundation.ShiftRegister

/-- Scrambling returns for bits only, and adds the Gold sequence to them. -/
theorem scramble_eq_ok {bits out : Bits} {cInit : UInt32} :
    scramble bits cInit = .ok out ↔ IsBits bits ∧
      out = table bits.length fun i => bits.getD i 0 ^^^ gold cInit i := by
  constructor
  · intro h
    have hbits : IsBits bits := by
      intro b hb
      obtain ⟨i, hi, rfl⟩ := List.mem_iff_getElem.mp hb
      rw [scramble, gold_sequence_ok, Checked.ok_bind] at h
      obtain ⟨_, hstep⟩ := Checked.map_returns_iff.mp ⟨out, h⟩ i (List.mem_range.mpr hi)
      rw [Checked.read_of_lt hi, Checked.ok_bind, require_bind_eq_ok] at hstep
      exact hstep.1
    refine ⟨hbits, ?_⟩
    rw [Table.eq_table bits 0, scramble_ok fun i _ => hbits.getD i] at h
    exact (Except.ok.inj h).symm
  · rintro ⟨hbits, rfl⟩
    conv_lhs => rw [Table.eq_table bits 0]
    exact scramble_ok (fun i _ => hbits.getD i) cInit

/-! ## Prefixes -/

/-- Descrambling undoes scrambling, the beginning of a scrambled text is the scrambled beginning,
and the sequence of a seed for one length begins the one for any longer length. -/
theorem scramble_stream {a b : Bits} (ha : IsBits a) (hb : IsBits b) (cInit : UInt32) :
    ∃ scrambled whole, scramble a cInit = .ok scrambled ∧
      descramble scrambled cInit = .ok a ∧ scramble (a ++ b) cInit = .ok whole ∧
      whole.take a.length = scrambled ∧
      ∀ length more, ∃ short long, goldSequence length cInit = .ok short ∧
        goldSequence (length + more) cInit = .ok long ∧ short <+: long := by
  obtain ⟨scrambled, hscramble, hback⟩ := descramble_scramble ha cInit
  have hboth : IsBits (a ++ b) := is_bits_append.mpr ⟨ha, hb⟩
  refine ⟨scrambled, _, hscramble, hback, scramble_eq_ok.mpr ⟨hboth, rfl⟩, ?_,
    fun length more => ?_⟩
  · rw [Table.take_table (by simp), (scramble_eq_ok.mp hscramble).2]
    refine Table.table_congr fun i hi => ?_
    rw [List.getD_eq_getElem?_getD, List.getElem?_append_left hi, ← List.getD_eq_getElem?_getD]
  · refine ⟨_, _, gold_sequence_ok length cInit, gold_sequence_ok (length + more) cInit, ?_⟩
    rw [← Table.append_table]
    exact List.prefix_append _ _

/-- A text of two bits and one more. -/
theorem scramble_stream_three : ∃ scrambled whole, scramble [1, 0] 0x1234 = .ok scrambled ∧
    descramble scrambled 0x1234 = .ok [1, 0] ∧ scramble ([1, 0] ++ [1]) 0x1234 = .ok whole ∧
    whole.take 2 = scrambled ∧
    ∀ length more, ∃ short long, goldSequence length 0x1234 = .ok short ∧
      goldSequence (length + more) 0x1234 = .ok long ∧ short <+: long := by
  have htwo : IsBits [1, 0] := by simp
  have hone : IsBits [1] := by simp
  exact scramble_stream htwo hone 0x1234

/-! ## Collisions -/

/-- The start of the second register is the binary expansion of the seed. -/
theorem to_nat_gold_seed {cInit : UInt32} {i : Nat} (hi : i < 32) :
    (goldSeed2 cInit i).toNat = cInit.toNat / 2 ^ i % 2 := by
  have hmod : ((cInit >>> UInt32.ofNat i) &&& 1).toNat = cInit.toNat / 2 ^ i % 2 := by
    rw [UInt32.toNat_and, UInt32.toNat_shiftRight, UInt32.toNat_ofNat', ← Nat.shiftRight_eq_div_pow]
    have hshift : i % 2 ^ 32 % 32 = i := by omega
    rw [hshift]
    exact Nat.and_one_is_mod _
  rw [goldSeed2, UInt32.toNat_toUInt8, hmod]
  omega

/-- The registers of two seeds start alike exactly when the seeds agree in their first 31 bits. -/
theorem gold_seed_eq_iff {c₁ c₂ : UInt32} :
    (∀ i < 31, goldSeed2 c₁ i = goldSeed2 c₂ i) ↔ c₁.toNat % 2 ^ 31 = c₂.toNat % 2 ^ 31 := by
  have hbit (i : Nat) (hi : i < 31) : goldSeed2 c₁ i = goldSeed2 c₂ i ↔
      c₁.toNat.testBit i = c₂.toNat.testBit i := by
    rw [← UInt8.toNat_inj, to_nat_gold_seed (by omega), to_nat_gold_seed (by omega),
      Nat.testBit_eq_decide_div_mod_eq, Nat.testBit_eq_decide_div_mod_eq, decide_eq_decide]
    omega
  constructor
  · intro h
    refine Nat.eq_of_testBit_eq fun i => ?_
    rw [Nat.testBit_mod_two_pow, Nat.testBit_mod_two_pow]
    by_cases hi : i < 31
    · rw [(hbit i hi).mp (h i hi)]
    · rw [decide_eq_false hi, Bool.false_and, Bool.false_and]
  · intro h i hi
    have hmod := congrArg (Nat.testBit · i) h
    simp only [Nat.testBit_mod_two_pow, hi, decide_true, Bool.true_and] at hmod
    exact (hbit i hi).mpr hmod

/-- A step of the second register can be undone. -/
theorem gold_next_back (w w' : Nat → UInt8) (h : ∀ i < 31, 0 < i → w i = w' i)
    (hnext : goldNext2 w = goldNext2 w') : w 0 = w' 0 := by
  rw [goldNext2, goldNext2, h 3 (by omega) (by omega), h 2 (by omega) (by omega),
    h 1 (by omega) (by omega)] at hnext
  exact (UInt8.xor_right_inj _).mp hnext

/-- The first 31 elements of the sequence determine the first 31 bits of the seed, which determine
the whole sequence. -/
theorem gold_eq_iff {length : Nat} (hlength : 31 ≤ length) {c₁ c₂ : UInt32} :
    (∀ n < length, gold c₁ n = gold c₂ n) ↔ c₁.toNat % 2 ^ 31 = c₂.toNat % 2 ^ 31 := by
  have hstream (n : Nat) : gold c₁ n = gold c₂ n ↔
      stream 31 goldNext2 (goldSeed2 c₁) (n + goldOffset) =
        stream 31 goldNext2 (goldSeed2 c₂) (n + goldOffset) :=
    UInt8.xor_right_inj _
  have hwidth : 0 < 31 := by omega
  rw [← gold_seed_eq_iff]
  constructor
  · intro h
    refine seed_of_stream hwidth gold_next2_congr gold_next_back goldOffset fun i hi => ?_
    rw [Nat.add_comm]
    exact (hstream i).mp (h i (by omega))
  · intro h n _
    exact (hstream n).mpr (stream_congr hwidth gold_next2_congr h _)

/-- Two seeds have the same sequence of at least 31 elements exactly when they agree modulo
`2 ^ 31`, and different seeds of 31 bits never scramble a text of that length alike. -/
theorem gold_seeds_separated {length : Nat} (hlength : 31 ≤ length) (c₁ c₂ : UInt32) :
    (goldSequence length c₁ = goldSequence length c₂ ↔
      c₁.toNat % 2 ^ 31 = c₂.toNat % 2 ^ 31) ∧
    (c₁.toNat < 2 ^ 31 → c₂.toNat < 2 ^ 31 → c₁ ≠ c₂ → ∀ bits : Bits, bits.length = length →
      ∀ out, scramble bits c₁ = .ok out → scramble bits c₂ ≠ .ok out) := by
  constructor
  · rw [gold_sequence_ok, gold_sequence_ok, Except.ok.injEq, ← gold_eq_iff hlength]
    simp only [table, List.map_inj_left, List.mem_range]
  · rintro hlow₁ hlow₂ hne bits rfl out hfirst hsecond
    have hsame := (scramble_eq_ok.mp hfirst).2.symm.trans (scramble_eq_ok.mp hsecond).2
    have hgold : ∀ n < bits.length, gold c₁ n = gold c₂ n := by
      intro n hn
      have helement := congrArg (·.getD n 0) hsame
      simp only [Table.getD_table hn] at helement
      exact (UInt8.xor_right_inj _).mp helement
    have hmod := (gold_eq_iff hlength).mp hgold
    rw [Nat.mod_eq_of_lt hlow₁, Nat.mod_eq_of_lt hlow₂] at hmod
    exact hne (UInt32.toNat_inj.mp hmod)

/-- The first two seeds, on the shortest length. -/
theorem gold_seeds_separated_shortest :
    (goldSequence 31 1 = goldSequence 31 2 ↔
      (1 : UInt32).toNat % 2 ^ 31 = (2 : UInt32).toNat % 2 ^ 31) ∧
    ((1 : UInt32).toNat < 2 ^ 31 → (2 : UInt32).toNat < 2 ^ 31 → (1 : UInt32) ≠ 2 →
      ∀ bits : Bits, bits.length = 31 →
        ∀ out, scramble bits 1 = .ok out → scramble bits 2 ≠ .ok out) :=
  gold_seeds_separated (Nat.le_refl 31) 1 2

end NrBaseband
