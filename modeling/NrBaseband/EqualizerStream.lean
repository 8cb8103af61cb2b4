import NrBaseband.EqualizerShapes

/-!
# Equalizing streams

`equalize_stream` equalizes one sample of every antenna after the other, up to the end of the first
stream. `equalize_stream_safe_iff` says when it never leaves the other streams, in any arithmetic:
whether a matrix is rejected is decided by the pivots as they are computed.
-/

namespace NrBaseband

open Foundation Foundation.MachineInt Foundation.RowMajor

variable {R K : Type} [OfScientific R] [Zero R] [BEq R] [LT R] [DecidableLT R]
  [Zero K] [One K] [Add K] [Sub K] [Mul K] [Div K] [Star K] (ops : ComplexOps R K)

/-- The largest number of elements of 24 bytes that a vector can hold. -/
def maxStreams : Nat := (2 ^ 63 - 1) / 24

/-- The variable `y` of `equalize_stream`: the samples of all antennas at time `t`. -/
def samplesAt (yRx : List (ComplexVec K)) (nRx : Int) (t : Nat) : Checked (ComplexVec K) := do
  require (toSizeT nRx ≤ maxVectorSize) "cannot create std::vector larger than max_size()"
  (List.range nRx.toNat).foldlM (fun y r => do
    let stream ← Checked.read yRx r
    let z ← Checked.read stream t
    Checked.write y r z) (List.replicate (toSizeT nRx) 0)

/-- The loop of `equalize_stream` over the antennas that were sent from. -/
def storeAt (xHat : List (ComplexVec K)) (nTx : Int) (t : Nat) (x : ComplexVec K) :
    Checked (List (ComplexVec K)) :=
  (List.range nTx.toNat).foldlM (fun xHat c => do
    let z ← Checked.read x c
    let stream ← Checked.read xHat c
    let stream ← Checked.write stream t z
    Checked.write xHat c stream) xHat

/-- The body of the loop of `equalize_stream` over the samples. -/
def equalizeAt (yRx : List (ComplexVec K)) (H : List K) (nRx nTx : Int) (cfg : EqualizerConfig R)
    (xHat : List (ComplexVec K)) (t : Nat) : Checked (List (ComplexVec K)) := do
  let y ← samplesAt yRx nRx t
  let x ← equalizeSample ops y H nRx nTx cfg
  storeAt xHat nTx t x

/-- `equalize_stream`. -/
def equalizeStream (yRx : List (ComplexVec K)) (H : List K) (nTx : Int)
    (cfg : EqualizerConfig R) : Checked (List (ComplexVec K)) := do
  require (¬yRx.isEmpty) "empty rx"
  let nRx := toInt32 yRx.length
  let first ← Checked.read yRx 0
  require (toSizeT nTx ≤ maxStreams) "cannot create std::vector larger than max_size()"
  (List.range first.length).foldlM (equalizeAt ops yRx H nRx nTx cfg)
    (List.replicate (toSizeT nTx) (List.replicate first.length 0))

/-! ## One sample -/

/-- The first streams have at least so many samples. -/
def Covered {K : Type} (yRx : List (ComplexVec K)) (n count : Nat) : Prop :=
  ∀ stream ∈ yRx.take n, count ≤ stream.length

/-- One more stream. -/
theorem covered_succ {K : Type} {yRx : List (ComplexVec K)} {n : Nat} (hn : n < yRx.length)
    {count : Nat} : Covered yRx (n + 1) count ↔ Covered yRx n count ∧ count ≤ yRx[n].length := by
  rw [Covered, Covered, ← List.take_concat_get' yRx n hn, List.forall_mem_append,
    List.forall_mem_singleton]

/-- The samples at a time are read where the streams are long enough, and only there. -/
theorem samples_at_cases {K : Type} [Zero K] {yRx : List (ComplexVec K)} {n : Nat}
    (hn : n ≤ yRx.length) (hfits : n < 2 ^ 31) (t : Nat) :
    (∃ y, samplesAt yRx n t = .ok y ∧ y.length = n ∧ Covered yRx n (t + 1)) ∨
      (samplesAt yRx n t = .error .undefined ∧ ¬Covered yRx n (t + 1)) := by
  have hsize : toSizeT n = n := to_size_t_natCast (by omega)
  have hmax : toSizeT n ≤ maxVectorSize := by
    rw [hsize]
    exact hfits.le.trans (by decide)
  rw [samplesAt, require_of hmax, Checked.ok_bind, hsize, Int.toNat_natCast,
    List.range_eq_range']
  have hloop := counted_loop_or (fun r y => y.length = n ∧ Covered yRx r (t + 1)) (fun y r => do
    let stream ← Checked.read yRx r
    let z ← Checked.read stream t
    Checked.write y r z) .undefined (¬Covered yRx n (t + 1)) 0 n ?_
    (a := List.replicate n (0 : K)) ⟨List.length_replicate, fun _ h => absurd h List.not_mem_nil⟩
  · rw [Nat.zero_add] at hloop
    exact hloop
  · intro r y _ hr ⟨hy, hcovered⟩
    have hlt : r < yRx.length := by omega
    rw [Checked.read_of_lt hlt, Checked.ok_bind]
    by_cases ht : t < yRx[r].length
    · left
      refine ⟨y.set r yRx[r][t], ?_, by rw [List.length_set, hy], ?_⟩
      · rw [Checked.read_of_lt ht, Checked.ok_bind, Checked.write, if_pos (by omega)]
      · exact (covered_succ hlt).mpr ⟨hcovered, ht⟩
    · right
      refine ⟨by rw [Checked.read_of_le (by omega), Checked.error_bind], fun hall => ht ?_⟩
      exact hall _ (List.mem_take_iff_getElem.mpr ⟨r, by omega, rfl⟩)

/-- The equalized vectors: one for each antenna that was sent from, with all samples. -/
structure Shaped {K : Type} (tx T : Nat) (xHat : List (ComplexVec K)) : Prop where
  count : xHat.length = tx
  samples : ∀ x ∈ xHat, x.length = T

/-- The vectors at the start. -/
theorem Shaped.start (K : Type) [Zero K] (tx T : Nat) :
    Shaped tx T (List.replicate tx (List.replicate T (0 : K))) := by
  refine ⟨List.length_replicate, fun x hx => ?_⟩
  rw [List.eq_of_mem_replicate hx, List.length_replicate]

/-- An equalized sample is stored inside the vectors. -/
theorem store_at_ok {K : Type} {tx T t : Nat} {xHat : List (ComplexVec K)} (h : Shaped tx T xHat)
    {x : ComplexVec K} (hx : x.length = tx) (ht : t < T) :
    ∃ stored, storeAt xHat tx t x = .ok stored ∧ Shaped tx T stored := by
  rw [storeAt, Int.toNat_natCast]
  refine range_loop (fun _ xHat => Shaped tx T xHat) _ tx ?_ h
  intro c xHat hc hshaped
  have hlt : c < xHat.length := by
    rw [hshaped.count]
    exact hc
  have hsamples := hshaped.samples xHat[c] (List.getElem_mem hlt)
  refine ⟨xHat.set c (xHat[c].set t x[c]), ?_, ?_, ?_⟩
  · rw [Checked.read_of_lt (by omega), Checked.ok_bind, Checked.read_of_lt hlt, Checked.ok_bind,
      Checked.write, if_pos (by omega), Checked.ok_bind, Checked.write, if_pos hlt]
  · rw [List.length_set, hshaped.count]
  · intro stream hstream
    rcases List.mem_or_eq_of_mem_set hstream with hold | rfl
    · exact hshaped.samples stream hold
    · rw [List.length_set, hsamples]

/-- The calls that `equalize_sample` rejects, whatever the samples are: the sizes do not match or
are not in range, or a pivot of the inversion, as it is computed, is not above the threshold. -/
def Rejected (H : List K) (nRx nTx : Int) (cfg : EqualizerConfig R) : Prop :=
  ¬(toInt32 H.length = nRx * nTx ∧ (1 ≤ nRx ∧ nRx ≤ 4) ∧ 1 ≤ nTx ∧ nTx ≤ 4) ∨
    equalizerWeights ops H nRx.toNat nTx.toNat cfg = .error singularMatrix

/-- Samples of a rejected call end in an error. -/
theorem equalize_sample_rejected {y : ComplexVec K} {H : List K} {nRx nTx : Int}
    {cfg : EqualizerConfig R} (hy : toInt32 y.length = nRx)
    (hfits : int32 (nRx * nTx) = .ok (nRx * nTx)) (h : Rejected ops H nRx nTx cfg) :
    ∃ message, equalizeSample ops y H nRx nTx cfg = .error (.error message) := by
  by_cases hsizes : toInt32 H.length = nRx * nTx ∧ (1 ≤ nRx ∧ nRx ≤ 4) ∧ 1 ≤ nTx ∧ nTx ≤ 4
  · have hmatch : SizesMatch y H nRx nTx := ⟨hy, hsizes.1, hsizes.2.1, hsizes.2.2⟩
    have hweights := h.resolve_left (not_not_intro hsizes)
    exact ⟨_, by rw [equalize_sample_eq ops hmatch, hweights, Checked.error_bind]; rfl⟩
  · rw [equalizeSample, require_of hy, Checked.ok_bind, hfits, Checked.ok_bind]
    by_cases hH : toInt32 H.length = nRx * nTx
    · have hrange : ¬(nTx ≥ 1 ∧ nTx ≤ 4 ∧ nRx ≥ 1 ∧ nRx ≤ 4) := by
        rintro ⟨hlow, hhigh, hlow', hhigh'⟩
        exact hsizes ⟨hH, ⟨hlow', hhigh'⟩, hlow, hhigh⟩
      rw [require_of hH, Checked.ok_bind, require, if_neg hrange]
      exact ⟨_, rfl⟩
    · rw [require, if_neg hH]
      exact ⟨_, rfl⟩

/-! ## The stream -/

/-- A loop whose first round ends in a fault ends in it. -/
theorem loop_error {α : Type} {step : α → Nat → Checked α} {start : α} {fault : Fault} {T : Nat}
    (hT : 0 < T) (h : step start 0 = .error fault) :
    (List.range T).foldlM step start = .error fault := by
  obtain ⟨rest, rfl⟩ := Nat.exists_eq_succ_of_ne_zero hT.ne'
  rw [List.range_succ_eq_map, List.foldlM_cons, h, Checked.error_bind]

/-- The loop over the samples of an accepted call leaves no stream exactly where all that are read
have as many samples. -/
theorem equalize_loop_iff {yRx : List (ComplexVec K)} {H : List K} {n tx T : Nat}
    (hn : n ≤ yRx.length) (hfits : n < 2 ^ 31) {cfg : EqualizerConfig R}
    (hsizes : toInt32 H.length = (n : Int) * tx ∧ (1 ≤ (n : Int) ∧ (n : Int) ≤ 4) ∧
      1 ≤ (tx : Int) ∧ (tx : Int) ≤ 4)
    (hweights : equalizerWeights ops H n tx cfg ≠ .error singularMatrix)
    {xHat : List (ComplexVec K)} (hshaped : Shaped tx T xHat) :
    (List.range T).foldlM (equalizeAt ops yRx H n tx cfg) xHat ≠ .error .undefined ↔
      Covered yRx n T := by
  have hmatch {y : ComplexVec K} (hy : y.length = n) : SizesMatch y H n tx :=
    ⟨by rw [hy, to_int32_of_range (by omega) (by omega)], hsizes.1, hsizes.2.1, hsizes.2.2⟩
  have hH : n * tx ≤ H.length := by
    have hle := to_int32_le (Int.natCast_nonneg H.length)
    rw [hsizes.1] at hle
    exact_mod_cast hle
  obtain ⟨W, w, hW, hreads⟩ := (equalizer_weights_shape ops hH cfg).resolve_right hweights
  have hloop := counted_loop_or (fun t xHat => Shaped tx T xHat ∧ Covered yRx n t)
    (equalizeAt ops yRx H n tx cfg) .undefined (¬Covered yRx n T) 0 T ?_ ⟨hshaped, ?_⟩
  · rw [List.range_eq_range']
    rcases hloop with ⟨final, hrun, -, hcovered⟩ | ⟨hrun, hshort⟩
    · rw [Nat.zero_add] at hcovered
      exact iff_of_true (by rw [hrun]; exact nofun) hcovered
    · exact iff_of_false (fun h => h hrun) hshort
  · intro t xHat _ ht ⟨hshape, _⟩
    rw [Nat.zero_add] at ht
    rcases samples_at_cases hn hfits t with ⟨y, hy, hlength, hcovered⟩ | ⟨hy, hshort⟩
    · left
      obtain ⟨x, hx, hxlength⟩ := equalize_sample_shape ops (hmatch hlength) hW hreads
      obtain ⟨stored, hstore, hstored⟩ := store_at_ok hshape hxlength ht
      refine ⟨stored, ?_, hstored, hcovered⟩
      rw [equalizeAt, hy, Checked.ok_bind, hx, Checked.ok_bind, hstore]
    · right
      refine ⟨by rw [equalizeAt, hy, Checked.error_bind], fun hall => hshort ?_⟩
      exact fun stream hstream => ht.trans_le (hall stream hstream)
  · exact fun _ _ => Nat.zero_le _

/-- A negative `int` is no size of a vector. -/
theorem max_lt_of_negative {n : Int} (hlow : -2 ^ 31 ≤ n) (hneg : n < 0) :
    maxVectorSize < toSizeT n ∧ maxStreams < toSizeT n := by
  unfold maxVectorSize maxStreams toSizeT
  omega

/-- With a negative number of streams the vector of the samples cannot be made. -/
theorem equalize_at_negative {nRx : Int} (hlow : -2 ^ 31 ≤ nRx) (hneg : nRx < 0)
    (yRx : List (ComplexVec K)) (H : List K) (nTx : Int) (cfg : EqualizerConfig R)
    (xHat : List (ComplexVec K)) (t : Nat) : equalizeAt ops yRx H nRx nTx cfg xHat t =
      .error (.error "cannot create std::vector larger than max_size()") := by
  rw [equalizeAt, samplesAt, require, if_neg (not_le.mpr (max_lt_of_negative hlow hneg).1)]
  rfl

/-- The streams that are read have as many samples as the first one, or at least one where
`equalize_sample` rejects the call; and the product of the sizes fits. -/
structure StaysInside (yRx : List (ComplexVec K)) (H : List K) (nRx nTx : Int)
    (cfg : EqualizerConfig R) : Prop where
  sampled : Covered yRx nRx.toNat 1
  product_fits : nRx * nTx < 2 ^ 31
  covered : Rejected ops H nRx nTx cfg ∨ Covered yRx nRx.toNat (yRx.headD []).length

/-- The loop over the samples never leaves the streams exactly where they are covered. -/
theorem equalize_samples_iff {yRx : List (ComplexVec K)} {H : List K} {n tx T : Nat}
    (hn : n ≤ yRx.length) (hfits : n < 2 ^ 31) (hT : 0 < T) (cfg : EqualizerConfig R)
    {xHat : List (ComplexVec K)} (hshaped : Shaped tx T xHat) :
    (List.range T).foldlM (equalizeAt ops yRx H n tx cfg) xHat ≠ .error .undefined ↔
      Covered yRx n 1 ∧ (n : Int) * tx < 2 ^ 31 ∧
        (Rejected ops H n tx cfg ∨ Covered yRx n T) := by
  rcases samples_at_cases hn hfits 0 with ⟨y, hy, hlength, hsampled⟩ | ⟨hy, hshort⟩
  · have hysize : toInt32 y.length = n := by
      rw [hlength, to_int32_of_range (by omega) (by omega)]
    have hproduct : 0 ≤ (n : Int) * tx :=
      Int.mul_nonneg (Int.natCast_nonneg n) (Int.natCast_nonneg tx)
    by_cases hint : (n : Int) * tx < 2 ^ 31
    · have hok : int32 ((n : Int) * tx) = .ok ((n : Int) * tx) :=
        int32_of_range (by omega) hint
      by_cases hrejected : Rejected ops H n tx cfg
      · obtain ⟨message, hx⟩ := equalize_sample_rejected ops hysize hok hrejected
        have hfirst : equalizeAt ops yRx H n tx cfg xHat 0 = .error (.error message) := by
          rw [equalizeAt, hy, Checked.ok_bind, hx, Checked.error_bind]
        rw [loop_error hT hfirst]
        exact iff_of_true nofun ⟨hsampled, hint, .inl hrejected⟩
      · rw [Rejected, not_or, not_not] at hrejected
        rw [equalize_loop_iff ops hn hfits hrejected.1 hrejected.2 hshaped]
        constructor
        · exact fun hcovered => ⟨hsampled, hint, .inr hcovered⟩
        · rintro ⟨-, -, (hsizes | hsingular) | hcovered⟩
          · exact absurd hrejected.1 hsizes
          · exact absurd hsingular hrejected.2
          · exact hcovered
    · have hfirst : equalizeAt ops yRx H n tx cfg xHat 0 = .error .undefined := by
        rw [equalizeAt, hy, Checked.ok_bind, equalizeSample, require_of hysize, Checked.ok_bind,
          int32, if_neg fun h => hint h.2, Checked.error_bind, Checked.error_bind]
      rw [loop_error hT hfirst]
      exact iff_of_false (not_not_intro rfl) fun h => hint h.2.1
  · have hfirst : equalizeAt ops yRx H n tx cfg xHat 0 = .error .undefined := by
      rw [equalizeAt, hy, Checked.error_bind]
    rw [loop_error hT hfirst]
    exact iff_of_false (not_not_intro rfl) fun h => hshort h.1

/-- With a first stream and a size, the samples are equalized one after the other. -/
theorem equalize_stream_eq (first : ComplexVec K) (others : List (ComplexVec K)) (H : List K)
    {tx : Nat} (htx : (tx : Int) < 2 ^ 31) (cfg : EqualizerConfig R) :
    equalizeStream ops (first :: others) H tx cfg =
      (List.range first.length).foldlM
        (equalizeAt ops (first :: others) H (toInt32 (first :: others).length) tx cfg)
        (List.replicate tx (List.replicate first.length 0)) := by
  have hsize : toSizeT tx = tx := to_size_t_natCast (by omega)
  have hmax : toSizeT tx ≤ maxStreams := by
    rw [hsize, maxStreams]
    omega
  rw [equalizeStream, require_of (by simp), Checked.ok_bind]
  dsimp only
  rw [Checked.read_of_lt (Nat.succ_pos _), Checked.ok_bind, List.getElem_cons_zero,
    require_of hmax, Checked.ok_bind, hsize]

/-- `equalize_stream` never reads or writes outside of its streams, and no product of sizes
overflows, exactly where there is nothing to read, a size is negative, or the streams are long
enough. -/
theorem equalize_stream_safe_iff (yRx : List (ComplexVec K)) (H : List K) {nTx : Int}
    (hlow : -2 ^ 31 ≤ nTx) (hhigh : nTx < 2 ^ 31) (cfg : EqualizerConfig R) :
    equalizeStream ops yRx H nTx cfg ≠ .error .undefined ↔
      yRx.headD [] = [] ∨ nTx < 0 ∨ toInt32 yRx.length < 0 ∨
        StaysInside ops yRx H (toInt32 yRx.length) nTx cfg := by
  cases yRx with
  | nil => exact iff_of_true nofun (.inl rfl)
  | cons first others =>
      rcases lt_or_ge nTx 0 with hneg | hnonneg
      · rw [equalizeStream, require_of (by simp), Checked.ok_bind]
        dsimp only
        rw [Checked.read_of_lt (Nat.succ_pos _), Checked.ok_bind, require,
          if_neg (not_le.mpr (max_lt_of_negative hlow hneg).2)]
        exact iff_of_true nofun (.inr (.inl hneg))
      obtain ⟨tx, rfl⟩ := Int.eq_ofNat_of_zero_le hnonneg
      rw [equalize_stream_eq ops first others H hhigh]
      cases first with
      | nil => exact iff_of_true nofun (.inl rfl)
      | cons z first =>
          have hT : 0 < (z :: first).length := Nat.succ_pos _
          have hrange := to_int32_range ((z :: first) :: others).length
          rcases lt_or_ge (toInt32 ((z :: first) :: others).length) 0 with hneg | hpos
          · -- the vector of the samples at time 0 cannot be made
            rw [loop_error hT (equalize_at_negative ops hrange.1 hneg _ H tx cfg _ 0)]
            exact iff_of_true nofun (.inr (.inr (.inl hneg)))
          · have hle := to_int32_le (Int.natCast_nonneg ((z :: first) :: others).length)
            obtain ⟨n, hn⟩ := Int.eq_ofNat_of_zero_le hpos
            rw [hn] at hle hrange ⊢
            rw [equalize_samples_iff ops (by exact_mod_cast hle) (by exact_mod_cast hrange.2) hT cfg
              (Shaped.start K tx (z :: first).length)]
            constructor
            · exact fun ⟨hsampled, hfits, hcovered⟩ =>
                .inr (.inr (.inr ⟨hsampled, hfits, hcovered⟩))
            · rintro (hnone | hneg | hneg | ⟨hsampled, hfits, hcovered⟩)
              · cases hnone
              · exact absurd hneg (not_lt.mpr hnonneg)
              · exact absurd hneg (not_lt.mpr (Int.natCast_nonneg n))
              · exact ⟨hsampled, hfits, hcovered⟩

/-- Two streams of the same length. -/
theorem equalize_stream_safe_two :
    equalizeStream rationalNumbers.toComplexOps [[1, 2], [3, 4]] [1, 0, 0, 1] 2 { type := .zf } ≠
      .error .undefined := by
  refine (equalize_stream_safe_iff rationalNumbers.toComplexOps [[1, 2], [3, 4]] [1, 0, 0, 1]
    (by norm_num) (by norm_num) { type := .zf }).mpr (.inr (.inr (.inr ⟨?_, by decide, .inr ?_⟩)))
  · show ∀ stream ∈ ([[1, 2], [3, 4]] : List (ComplexVec ℚ)), 1 ≤ stream.length
    simp
  · show ∀ stream ∈ ([[1, 2], [3, 4]] : List (ComplexVec ℚ)), 2 ≤ stream.length
    simp

/-- A second stream that is shorter than the first. -/
theorem equalize_stream_short :
    ¬equalizeStream rationalNumbers.toComplexOps [[1, 2], [3]] [1, 0, 0, 1] 2 { type := .zf } ≠
      .error .undefined := by
  have hrun : equalizeStream rationalNumbers.toComplexOps [[1, 2], [3]] [1, 0, 0, 1] 2
      { type := .zf } = .error .undefined := by decide +kernel
  exact not_not_intro hrun

end NrBaseband
