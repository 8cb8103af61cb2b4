import NrBaseband.Fft

/-!
# The FFT is the DFT

The loops of `fft_radix2` on a table of samples: the permutation loop puts the samples in
bit-reversed order (`permute_ok`), every pass of the outer loop is a stage of butterflies
(`fft_stage_ok`), and all passes together leave the transform (`fft_ok`). `fft_is_dft` compares the
result with `naive_dft` and with the samples after transforming back.
-/

namespace NrBaseband

open Foundation Foundation.Table

variable {K : Type} [Field K]

/-! ## Lengths -/

/-- The accepted lengths. -/
theorem is_power_of_two_iff {n : Nat} : isPowerOfTwo n = true ↔ ∃ m, n = 2 ^ m := by
  have hpower := @Nat.ne_zero_and_sub_one_eq_zero_iff_isPowerOfTwo n
  simpa [isPowerOfTwo, Nat.isPowerOfTwo] using hpower

/-! ## The permutation -/

omit [Field K] in
/-- Swapping two elements of a table. -/
theorem swap_ok {n i j : Nat} (hi : i < n) (hj : j < n) (f : Nat → K) :
    swapAt (table n f) i j =
      .ok (table n (Function.update (Function.update f i (f j)) j (f i))) := by
  rw [swapAt, read_table hi, Checked.ok_bind, read_table hj, Checked.ok_bind, exchange_table hi hj]

omit [Field K] in
/-- One round exchanges the pair of its index. -/
theorem permute_step_ok {m t : Nat} (ht : t + 1 < 2 ^ m) (x : Nat → K) :
    permuteStep (2 ^ m) (table (2 ^ m) (exchanged (bitReverse m) x (t + 1)), bitReverse m t)
        (t + 1) =
      .ok (table (2 ^ m) (exchanged (bitReverse m) x (t + 1 + 1)), bitReverse m (t + 1)) := by
  cases m with
  | zero => omega
  | succ m =>
      have hshift : 2 ^ (m + 1) >>> 1 = 2 ^ m := by
        rw [Nat.shiftRight_one, pow_succ, Nat.mul_div_cancel _ Nat.two_pos]
      have hpair := bit_reverse_bit_reverse ht
      rw [permuteStep, hshift, carry_bit_reverse ht]
      dsimp only
      split
      case isTrue habove =>
        rw [swap_ok ht (bit_reverse_lt _ _), Checked.ok_bind, Checked.pure_eq_ok,
          Except.ok.injEq, Prod.mk.injEq]
        refine ⟨table_congr fun i hi => ?_, rfl⟩
        exact (exchanged_succ (bit_reverse_bit_reverse hi) hpair habove).symm
      case isFalse habove =>
        rw [Checked.ok_bind, Checked.pure_eq_ok, Except.ok.injEq, Prod.mk.injEq]
        refine ⟨table_congr fun i hi => ?_, rfl⟩
        exact (exchanged_skip (bit_reverse_bit_reverse hi) hpair habove).symm

omit [Field K] in
/-- The permutation loop after the rounds up to `t`. -/
theorem permute_rounds {m t : Nat} (ht : t < 2 ^ m) (x : Nat → K) :
    (List.range' 1 t).foldlM (permuteStep (2 ^ m)) (table (2 ^ m) x, 0) =
      .ok (table (2 ^ m) (exchanged (bitReverse m) x (t + 1)), bitReverse m t) := by
  induction t with
  | zero =>
      rw [List.range'_zero, List.foldlM_nil, Checked.pure_eq_ok, bit_reverse_zero,
        Except.ok.injEq, Prod.mk.injEq]
      refine ⟨table_congr fun i hi => ?_, rfl⟩
      rw [exchanged]
      split
      case isTrue hfirst =>
        -- only 0 has a partner that is 0
        have hback := bit_reverse_bit_reverse hi
        have hzero : i = 0 := by
          rcases Nat.lt_or_ge 0 i with hpos | hnonpos
          · have hpartner : bitReverse m i = 0 := by omega
            rwa [hpartner, bit_reverse_zero, eq_comm] at hback
          · exact Nat.le_zero.mp hnonpos
        rw [hzero, bit_reverse_zero]
      case isFalse => rfl
  | succ t ih =>
      rw [List.range'_1_concat, List.foldlM_append, ih (by omega), Checked.ok_bind,
        List.foldlM_cons, Nat.add_comm 1 t, permute_step_ok ht, Checked.ok_bind, List.foldlM_nil,
        Checked.pure_eq_ok]

omit [Field K] in
/-- The permutation puts the samples in bit-reversed order. -/
theorem permute_ok (m : Nat) (x : Nat → K) :
    bitReversePermute (table (2 ^ m) x) =
      .ok (table (2 ^ m) fun i => x (bitReverse m i)) := by
  have hpos := Nat.two_pow_pos m
  have hlast : 2 ^ m - 1 < 2 ^ m := by omega
  rw [bitReversePermute, length_table, permute_rounds hlast, Checked.ok_bind,
    Checked.pure_eq_ok, Except.ok.injEq]
  refine table_congr fun i hi => ?_
  rw [exchanged, if_pos (by omega)]

/-! ## The stages -/

/-- The samples after the first `t` butterflies of the block that starts at `i`. -/
def blockAfter (w : K) (half i t : Nat) (f : Nat → K) (x : Nat) : K :=
  if i ≤ x ∧ x < i + t then f x + f (x + half) * w ^ (x - i)
  else if i + half ≤ x ∧ x < i + half + t then f (x - half) - f x * w ^ (x - half - i)
  else f x

/-- Two cells that the butterfly `t` has not reached are the samples. -/
theorem block_after_unreached {half t : Nat} (ht : t < half) (w : K) (i : Nat) (f : Nat → K) :
    blockAfter w half i t f (i + t) = f (i + t) ∧
      blockAfter w half i t f (i + t + half) = f (i + t + half) := by
  constructor
  · rw [blockAfter, if_neg (by omega), if_neg (by omega)]
  · rw [blockAfter, if_neg (by omega), if_neg (by omega)]

/-- One butterfly replaces its two cells. -/
theorem block_after_succ {half t : Nat} (ht : t < half) (w : K) (i : Nat) (f : Nat → K)
    (x : Nat) : blockAfter w half i (t + 1) f x =
      Function.update (Function.update (blockAfter w half i t f) (i + t)
        (f (i + t) + f (i + t + half) * w ^ t)) (i + t + half)
        (f (i + t) - f (i + t + half) * w ^ t) x := by
  by_cases hupper : x = i + t + half
  · have hlower : i + t + half - half = i + t := by omega
    have hexp : i + t - i = t := by omega
    subst hupper
    rw [Function.update_self, blockAfter, if_neg (by omega), if_pos (by omega), hlower, hexp]
  · rw [Function.update_of_ne hupper]
    by_cases hlower : x = i + t
    · have hexp : i + t - i = t := by omega
      subst hlower
      rw [Function.update_self, blockAfter, if_pos (by omega), hexp]
    · have hfirst : i ≤ x ∧ x < i + (t + 1) ↔ i ≤ x ∧ x < i + t := by omega
      have hsecond : i + half ≤ x ∧ x < i + half + (t + 1) ↔
          i + half ≤ x ∧ x < i + half + t := by omega
      rw [Function.update_of_ne hlower, blockAfter, blockAfter]
      simp only [hfirst, hsecond]

/-- The innermost loop after `t` rounds. -/
theorem block_rounds {n half i t : Nat} (w : K) (f : Nat → K) (hblock : i + 2 * half ≤ n)
    (ht : t ≤ half) : (List.range t).foldlM (butterflyStep (2 * half) w i) (table n f, 1) =
      .ok (table n (blockAfter w half i t f), w ^ t) := by
  induction t with
  | zero =>
      rw [List.range_zero, List.foldlM_nil, Checked.pure_eq_ok, pow_zero, Except.ok.injEq,
        Prod.mk.injEq]
      refine ⟨table_congr fun x _ => ?_, rfl⟩
      rw [blockAfter, if_neg (by omega), if_neg (by omega)]
  | succ t ih =>
      have hlow : i + t < n := by omega
      have hhigh : i + t + half < n := by omega
      have hhalf : 2 * half / 2 = half := by omega
      obtain ⟨hfirst, hsecond⟩ := block_after_unreached (Nat.lt_of_succ_le ht) w i f
      rw [List.range_succ, List.foldlM_append, ih (by omega), Checked.ok_bind, List.foldlM_cons,
        butterflyStep, hhalf]
      dsimp only
      rw [read_table hlow, Checked.ok_bind, read_table hhigh, Checked.ok_bind, write_table hlow,
        Checked.ok_bind, write_table hhigh, Checked.ok_bind, Checked.pure_eq_ok, Checked.ok_bind,
        List.foldlM_nil, Checked.pure_eq_ok, hfirst, hsecond, ← pow_succ, Except.ok.injEq,
        Prod.mk.injEq]
      exact ⟨table_congr fun x _ => (block_after_succ (Nat.lt_of_succ_le ht) w i f x).symm, rfl⟩

/-- A block after all its butterflies. -/
theorem fft_block_ok {n half i : Nat} (w : K) (f : Nat → K) (hblock : i + 2 * half ≤ n) :
    fftBlock (2 * half) w (table n f) i = .ok (table n (blockAfter w half i half f)) := by
  have hhalf : 2 * half / 2 = half := by omega
  rw [fftBlock, hhalf, block_rounds w f hblock (Nat.le_refl half), Checked.ok_bind]
  rfl

/-- The samples after the first `c` blocks of a stage. -/
def stageAfter (w : K) (half c : Nat) (f : Nat → K) (x : Nat) : K :=
  if x < c * (2 * half) then butterflies w half f x else f x

/-- One more block of a stage. -/
theorem stage_after_succ (w : K) (half c : Nat) (f : Nat → K) (x : Nat) :
    stageAfter w half (c + 1) f x =
      blockAfter w half (c * (2 * half)) half (stageAfter w half c f) x := by
  have hnext : (c + 1) * (2 * half) = c * (2 * half) + 2 * half := Nat.succ_mul _ _
  have hlater {y : Nat} (hy : c * (2 * half) ≤ y) : stageAfter w half c f y = f y :=
    if_neg (Nat.not_lt.mpr hy)
  rcases Nat.lt_or_ge x (c * (2 * half)) with hbefore | hfrom
  · rw [blockAfter, if_neg (by omega), if_neg (by omega), stageAfter, stageAfter,
      if_pos (by omega), if_pos hbefore]
  · obtain ⟨k, rfl⟩ := Nat.exists_eq_add_of_le hfrom
    rcases Nat.lt_or_ge k half with hlow | hhigh
    · -- the lower half of the block
      rw [blockAfter, if_pos (by omega), hlater (by omega), hlater (by omega), stageAfter,
        if_pos (by omega), butterflies_low w hlow, Nat.add_sub_cancel_left, Nat.add_assoc]
    · rcases Nat.lt_or_ge k (2 * half) with hinside | hbeyond
      · -- its upper half
        obtain ⟨j, rfl⟩ := Nat.exists_eq_add_of_le' hhigh
        have hlower : c * (2 * half) + (j + half) - half = c * (2 * half) + j := by omega
        rw [blockAfter, if_neg (by omega), if_pos (by omega), hlower, hlater (by omega),
          hlater (by omega), stageAfter, if_pos (by omega), butterflies_high w (by omega),
          Nat.add_sub_cancel_left]
      · rw [blockAfter, if_neg (by omega), if_neg (by omega), hlater (by omega), stageAfter,
          if_neg (by omega)]

/-- The loop over the blocks after the first `c` of them. -/
theorem stage_rounds {n half c : Nat} (w : K) (f : Nat → K) (hc : c * (2 * half) ≤ n) :
    (List.range' 0 c (2 * half)).foldlM (fftBlock (2 * half) w) (table n f) =
      .ok (table n (stageAfter w half c f)) := by
  induction c with
  | zero =>
      rw [List.range'_zero, List.foldlM_nil, Checked.pure_eq_ok, Except.ok.injEq]
      exact table_congr fun x _ => by rw [stageAfter, if_neg (by omega)]
  | succ c ih =>
      rw [Nat.succ_mul] at hc
      have hstart : 0 + 2 * half * c = c * (2 * half) := by rw [Nat.zero_add, Nat.mul_comm]
      rw [List.range'_concat, List.foldlM_append, ih (by omega), Checked.ok_bind,
        List.foldlM_cons, hstart, fft_block_ok w _ hc, Checked.ok_bind, List.foldlM_nil,
        Checked.pure_eq_ok, Except.ok.injEq]
      exact table_congr fun x _ => (stage_after_succ w half c f x).symm

/-- A stage is a pass of butterflies. -/
theorem fft_stage_ok (cosSin : ℚ → K) (inverse : Bool) (blocks : Nat) {half : Nat}
    (hhalf : 0 < half) (f : Nat → K) :
    fftStage cosSin inverse (blocks * (2 * half)) (2 * half) (table (blocks * (2 * half)) f) =
      .ok (table (blocks * (2 * half))
        (butterflies (cosSin ((if inverse then 1 else -1) / ((2 * half : Nat) : ℚ))) half f)) := by
  have hcount : (blocks * (2 * half) + 2 * half - 1) / (2 * half) = blocks := by
    have hsplit : blocks * (2 * half) + 2 * half - 1 = 2 * half - 1 + blocks * (2 * half) := by
      omega
    rw [hsplit, Nat.add_mul_div_right _ _ (by omega), Nat.div_eq_of_lt (by omega), Nat.zero_add]
  rw [fftStage, hcount, stage_rounds _ f (Nat.le_refl _), Except.ok.injEq]
  exact table_congr fun x hx => if_pos hx

/-- The roots of the stages. -/
def stageRoot (cosSin : ℚ → K) (inverse : Bool) (s : Nat) : K :=
  cosSin ((if inverse then 1 else -1) / ((2 ^ s : Nat) : ℚ))

/-- The remaining stages. -/
theorem fft_stages_ok (cosSin : ℚ → K) (inverse : Bool) {m : Nat} (f : Nat → K) (left : Nat) :
    ∀ {s : Nat}, s + left = m →
      fftStages cosSin inverse (2 ^ m) (2 ^ (s + 1))
          (table (2 ^ m) (stages (stageRoot cosSin inverse) f s)) =
        .ok (table (2 ^ m) (stages (stageRoot cosSin inverse) f m)) := by
  induction left with
  | zero =>
      intro s hs
      have hlast : ¬2 ^ (m + 1) ≤ 2 ^ m := by
        rw [pow_succ]
        have hpos := Nat.two_pow_pos m
        omega
      obtain rfl : s = m := hs
      rw [fftStages, if_neg fun h => hlast h.2]
  | succ left ih =>
      intro s hs
      have hsize : 2 ^ m = 2 ^ left * (2 * 2 ^ s) := by
        rw [← hs]
        ring
      have hfits : 0 < 2 ^ (s + 1) ∧ 2 ^ (s + 1) ≤ 2 ^ m :=
        ⟨Nat.two_pow_pos _, Nat.pow_le_pow_right Nat.two_pos (by omega)⟩
      have hnext : 2 ^ (s + 1) <<< 1 = 2 ^ (s + 1 + 1) := by
        rw [Nat.shiftLeft_eq, pow_one, ← pow_succ]
      have hstage := fft_stage_ok cosSin inverse (2 ^ left) (Nat.two_pow_pos s)
        (stages (stageRoot cosSin inverse) f s)
      rw [← hsize, ← pow_succ'] at hstage
      rw [fftStages, if_pos hfits, hstage, Checked.ok_bind, hnext]
      exact ih (by omega)

/-- The transform of `2 ^ m` samples in either direction, scaled by the length on the way back. -/
def transform (cosSin : ℚ → K) (inverse : Bool) (m : Nat) (x : Nat → K) (k : Nat) : K :=
  dft (stageRoot cosSin inverse m) (2 ^ m) x k *
    if inverse then 1 / ((2 ^ m : Nat) : K) else 1

/-- Only the samples inside the length matter. -/
theorem transform_congr {cosSin : ℚ → K} {inverse : Bool} {m : Nat} {x y : Nat → K}
    (h : ∀ t < 2 ^ m, x t = y t) (k : Nat) :
    transform cosSin inverse m x k = transform cosSin inverse m y k := by
  rw [transform, dft_congr h, transform]

/-- What the FFT leaves of `2 ^ m` samples. -/
theorem fft_ok {cosSin : ℚ → K} (hcircle : IsUnitCircle cosSin) (inverse : Bool) (m : Nat)
    (x : Nat → K) : fftRadix2 cosSin (table (2 ^ m) x) inverse =
      .ok (table (2 ^ m) (transform cosSin inverse m x)) := by
  have htower : RootTower (stageRoot cosSin inverse) := hcircle.tower inverse
  have hstages := fft_stages_ok cosSin inverse (fun i => x (bitReverse m i)) m (Nat.zero_add m)
  have hleft : table (2 ^ m) (stages (stageRoot cosSin inverse)
      (fun i => x (bitReverse m i)) m) =
        table (2 ^ m) (dft (stageRoot cosSin inverse m) (2 ^ m) x) :=
    table_congr fun k hk => stages_last htower x hk
  have hpower : isPowerOfTwo (2 ^ m) = true := is_power_of_two_iff.mpr ⟨m, rfl⟩
  rw [stages, zero_add, pow_one, hleft] at hstages
  rw [fftRadix2, length_table, require_of hpower, Checked.ok_bind, permute_ok, Checked.ok_bind,
    hstages, Checked.ok_bind]
  cases inverse with
  | true =>
      rw [if_pos rfl, Checked.pure_eq_ok, map_table]
      rfl
  | false =>
      rw [if_neg Bool.false_ne_true, Checked.pure_eq_ok, Except.ok.injEq]
      exact table_congr fun k _ => (mul_one _).symm

/-- What the educational transform leaves of them. -/
theorem naive_dft_ok {cosSin : ℚ → K} (hcircle : IsUnitCircle cosSin) (inverse : Bool) (m : Nat)
    (x : Nat → K) : naiveDft cosSin (table (2 ^ m) x) inverse =
      .ok (table (2 ^ m) (transform cosSin inverse m x)) := by
  rw [naiveDft, length_table]
  refine gather fun k _ => ?_
  have hterm (t : Nat) :
      cosSin ((if inverse then 1 else -1) * (k : ℚ) * (t : ℚ) / ((2 ^ m : Nat) : ℚ)) =
        stageRoot cosSin inverse m ^ (k * t) := by
    rw [stageRoot, ← hcircle.mul]
    congr 1
    push_cast
    ring
  have hsum : (List.range (2 ^ m)).foldlM (fun (sum : K) (t : Nat) => do
      let y ← Checked.read (table (2 ^ m) x) t
      return sum + y * cosSin ((if inverse then 1 else -1) * (k : ℚ) * (t : ℚ) /
        ((2 ^ m : Nat) : ℚ))) 0 = .ok (dft (stageRoot cosSin inverse m) (2 ^ m) x k) :=
    fold_sum fun sum t ht => by rw [read_table ht, Checked.ok_bind, hterm, Checked.pure_eq_ok]
  rw [hsum, Checked.ok_bind]
  rfl

/-- Transforming in one direction and back gives the samples again. -/
theorem transform_transform {cosSin : ℚ → K} (hcircle : IsUnitCircle cosSin) (htwo : (2 : K) ≠ 0)
    (inverse : Bool) {m t : Nat} (ht : t < 2 ^ m) (x : Nat → K) :
    transform cosSin (!inverse) m (transform cosSin inverse m x) t = x t := by
  have htower : RootTower (stageRoot cosSin inverse) := hcircle.tower inverse
  have hinv : stageRoot cosSin inverse m * stageRoot cosSin (!inverse) m = 1 := by
    have hback := hcircle.neg ((if inverse then 1 else -1) / ((2 ^ m : Nat) : ℚ))
    have hopposite : -((if inverse then 1 else -1) / ((2 ^ m : Nat) : ℚ)) =
        (if !inverse then 1 else -1) / ((2 ^ m : Nat) : ℚ) := by
      cases inverse with
      | true => simp [neg_div]
      | false => simp [neg_div]
    rwa [hopposite] at hback
  have hsize : ((2 ^ m : Nat) : K) ≠ 0 := by
    rw [Nat.cast_pow]
    exact pow_ne_zero m htwo
  have hscaled : transform cosSin inverse m x = fun k =>
      (if inverse then 1 / ((2 ^ m : Nat) : K) else 1) *
        dft (stageRoot cosSin inverse m) (2 ^ m) x k :=
    funext fun k => mul_comm _ _
  rw [transform, hscaled, dft_mul_left, dft_inverse (htower.primitive htwo m) hinv x ht]
  -- one of the two directions divides by the length
  cases inverse with
  | true =>
      rw [if_pos rfl, Bool.not_true, if_neg Bool.false_ne_true]
      field_simp
  | false =>
      rw [if_neg Bool.false_ne_true, Bool.not_false, if_pos rfl]
      field_simp

/-- The powers of the last root as exponentials. -/
theorem complex_stage_root_pow (m k l : Nat) : stageRoot complexCosSin false m ^ (k * l) =
    Complex.exp (-2 * Real.pi * Complex.I * k * l / ((2 ^ m : Nat) : ℂ)) := by
  rw [stageRoot, ← complex_unit_circle.mul, complex_cos_sin_eq, if_neg Bool.false_ne_true]
  congr 1
  push_cast
  ring

/-- The FFT of a complex vector whose length is a power of two is its DFT in both directions, and
transforming it back gives the vector again. -/
theorem fft_is_dft (x : ComplexVec ℂ) (hx : ∃ m, x.length = 2 ^ m) :
    (∀ inverse, ∃ y, fftRadix2 complexCosSin x inverse = .ok y ∧
      naiveDft complexCosSin x inverse = .ok y) ∧
    ∃ y, fftRadix2 complexCosSin x false = .ok y ∧ fftRadix2 complexCosSin y true = .ok x := by
  obtain ⟨m, hm⟩ := hx
  have htable := eq_table x 0
  rw [hm] at htable
  rw [htable]
  refine ⟨fun inverse => ⟨_, fft_ok complex_unit_circle inverse m _,
    naive_dft_ok complex_unit_circle inverse m _⟩, _, fft_ok complex_unit_circle false m _, ?_⟩
  rw [fft_ok complex_unit_circle, Except.ok.injEq]
  exact table_congr fun t ht => transform_transform complex_unit_circle two_ne_zero false ht _

/-- The transforms of a vector of two elements. -/
theorem fft_is_dft_two : ∃ y, fftRadix2 complexCosSin [3, 5] false = .ok y ∧
    naiveDft complexCosSin [3, 5] false = .ok y ∧
    fftRadix2 complexCosSin y true = .ok [3, 5] := by
  obtain ⟨hboth, y, hforward, hback⟩ := fft_is_dft [3, 5] ⟨1, rfl⟩
  obtain ⟨z, hfft, hdft⟩ := hboth false
  rw [hforward, Except.ok.injEq] at hfft
  exact ⟨y, hforward, hfft ▸ hdft, hback⟩

end NrBaseband
