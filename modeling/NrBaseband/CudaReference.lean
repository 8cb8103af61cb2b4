import NrBaseband.Demapping
import NrBaseband.RateMatching
import NrBaseband.Scrambling

/-!
# CPU references of the CUDA kernels

The functions of `cuda_cpu_ref.cpp` that move bits, compute soft values of QPSK symbols and compare
two outputs. `demodulate_llr_qpsk` relates the closed form of the soft values to the general
demapper, and `compare_step_spec` says which pairs the comparator counts.
-/

namespace NrBaseband

open Foundation

/-- `cuda_ref::scramble_bits`. -/
def scrambleBits (bits : Bits) (cInit : UInt32) : Checked Bits := scramble bits cInit

/-- `cuda_ref::rate_match_bits`, and the overload of `rate_match` that it calls. -/
def rateMatchBits (coded : Bits) (eBits : Nat) : Checked Bits := rateMatch coded { eBits }

/-! ## Soft values of QPSK symbols -/

section

variable {R : Type} [Field R] [LinearOrder R]

/-- `cuda_ref::qpsk_llr_f32`. -/
def qpskLlrF32 (iq : List R) (noiseVar : R) : Checked (SoftVec R) := do
  require (iq.length % 2 = 0) "iq interleaved length"
  require (noiseVar > 0) "noise_var"
  let scale := ((2 : Nat) : R) / noiseVar
  (List.range (iq.length / 2)).foldlM (fun llr s => do
    let re ← Checked.read iq (2 * s)
    let llr ← Checked.write llr (2 * s) (scale * re)
    let im ← Checked.read iq (2 * s + 1)
    Checked.write llr (2 * s + 1) (scale * im)) (List.replicate iq.length 0)

/-- The interleaved parts of symbols. -/
def interleaved (syms : ComplexVec (Point R)) : List R := syms.flatMap fun z => [z.re, z.im]

omit [Field R] [LinearOrder R] in
/-- Every symbol has two parts. -/
theorem length_interleaved (syms : ComplexVec (Point R)) :
    (interleaved syms).length = 2 * syms.length := by
  induction syms with
  | nil => rfl
  | cons z syms ih =>
      rw [interleaved, List.flatMap_cons, List.length_append, ← interleaved, ih, List.length_cons,
        List.length_cons, List.length_cons, List.length_nil]
      omega

/-- The closed form scales every part. -/
theorem qpsk_llr_spec {iq : List R} {noiseVar : R} (hlength : iq.length % 2 = 0)
    (hnoise : 0 < noiseVar) :
    qpskLlrF32 iq noiseVar = .ok (iq.map (((2 : Nat) : R) / noiseVar * ·)) := by
  rw [qpskLlrF32, require_of hlength, Checked.ok_bind, require_of hnoise, Checked.ok_bind]
  dsimp only
  generalize ((2 : Nat) : R) / noiseVar = scale
  have hloop := range_loop
    (fun s llr => llr = table iq.length fun i => if i < 2 * s then scale * iq.getD i 0 else 0)
    (fun llr s => do
      let re ← Checked.read iq (2 * s)
      let llr ← Checked.write llr (2 * s) (scale * re)
      let im ← Checked.read iq (2 * s + 1)
      Checked.write llr (2 * s + 1) (scale * im)) (iq.length / 2) ?_
    (Table.replicate_eq_table iq.length (0 : R))
  · obtain ⟨llr, hrun, hllr⟩ := hloop
    rw [hrun, hllr, Except.ok.injEq]
    conv_rhs => rw [Table.eq_table iq 0, Table.map_table]
    exact Table.table_congr fun i hi => if_pos (by omega)
  · intro s llr hs hllr
    subst hllr
    have hre : 2 * s < iq.length := by omega
    have him : 2 * s + 1 < iq.length := by omega
    refine ⟨_, ?_, rfl⟩
    rw [RowMajor.read_getD hre 0, Checked.ok_bind, Table.write_table hre, Checked.ok_bind,
      RowMajor.read_getD him 0, Checked.ok_bind, Table.write_table him, Except.ok.injEq]
    refine Table.table_congr fun i _ => ?_
    by_cases hlast : i = 2 * s + 1
    · subst hlast
      rw [Function.update_self, if_pos (by omega)]
    · rw [Function.update_of_ne hlast]
      by_cases hfirst : i = 2 * s
      · subst hfirst
        rw [Function.update_self, if_pos (by omega)]
      · rw [Function.update_of_ne hfirst]
        exact if_congr (by omega) rfl rfl

variable [IsStrictOrderedRing R]

/-- Where labels come in pairs that differ in a bit, and the distances of every pair differ by the
same amount, the soft value of the bit is that amount, scaled. -/
theorem symbol_llr_of_mirror {M m k : Nat} (hM : M = 2 ^ m) (hk : k < m)
    (alphabet : Vector (Point R) M) (inv2s : R) {y : Point R} {d : R} {mirror : Fin M → Fin M}
    (hpairs : Function.Involutive mirror)
    (hbit : ∀ s, ((mirror s).val >>> (m - 1 - k)) &&& 1 = 0 ↔ ¬(s.val >>> (m - 1 - k)) &&& 1 = 0)
    (hdistance : ∀ s, (s.val >>> (m - 1 - k)) &&& 1 = 0 →
      squaredDistance y (alphabet.get (mirror s)) = squaredDistance y (alphabet.get s) + d) :
    symbolLlr alphabet m inv2s y k = .finite (inv2s * d) := by
  obtain ⟨best0, best1, hclass0, hclass1, hvalue, hle0, hle1⟩ :=
    symbol_llr_eq hM hk alphabet inv2s y
  have hmirror0 : ¬((mirror best0).val >>> (m - 1 - k)) &&& 1 = 0 :=
    fun h => (hbit best0).mp h hclass0
  have hmirror1 := (hbit best1).mpr hclass1
  have hupper := hle1 _ hmirror0
  have hlower := hle0 _ hmirror1
  have hpair0 := hdistance best0 hclass0
  have hpair1 := hdistance (mirror best1) hmirror1
  rw [hpairs best1] at hpair1
  have hdifference : squaredDistance y (alphabet.get best1) -
      squaredDistance y (alphabet.get best0) = d :=
    le_antisymm (by linarith) (by linarith)
  rw [hvalue, hdifference]

variable (num : ExactReal R)

omit [IsStrictOrderedRing R] in
/-- The points of QPSK: the bits of a label are the signs of the parts. -/
theorem get_constellation_qpsk (s : Fin (1 <<< bitsPerSymbol .qpsk)) :
    (constellation num .qpsk).get s =
      ⟨if s.val < 2 then scaleFor num .qpsk else -scaleFor num .qpsk,
        if s.val % 2 = 0 then scaleFor num .qpsk else -scaleFor num .qpsk⟩ := by
  have hlevels : level 1 0 = 1 ∧ level 1 1 = -1 := by
    simp [level, Gray.decode_eq 1]
  have hpoint : labelPoint num .qpsk s = ⟨scaleFor num .qpsk * (level 1 (s.val >>> 1) : R),
      scaleFor num .qpsk * (level 1 (s.val % 2) : R)⟩ := rfl
  rw [get_constellation, hpoint, Nat.shiftRight_one]
  have hs : s.val < 4 := s.is_lt
  have hhigh : s.val / 2 = 0 ∧ s.val < 2 ∨ s.val / 2 = 1 ∧ ¬s.val < 2 := by omega
  have hlow : s.val % 2 = 0 ∨ s.val % 2 = 1 := by omega
  rcases hhigh with ⟨hquotient, hif⟩ | ⟨hquotient, hif⟩ <;> rcases hlow with hbit | hbit <;>
    simp [hquotient, hif, hbit, hlevels]

/-- The general demapper on a QPSK symbol. -/
theorem symbol_llr_qpsk (inv2s : R) (z : Point R) :
    symbolLlr (constellation num .qpsk) 2 inv2s z 0 =
        .finite (inv2s * (4 * scaleFor num .qpsk * z.re)) ∧
      symbolLlr (constellation num .qpsk) 2 inv2s z 1 =
        .finite (inv2s * (4 * scaleFor num .qpsk * z.im)) := by
  constructor
  · -- the labels of a pair differ in the sign of the real part
    have hpairs : Function.Involutive fun s : Fin 4 => s ^^^ 2 := by
      unfold Function.Involutive
      decide
    have hbit : ∀ s : Fin 4, ((s ^^^ 2).val >>> 1) &&& 1 = 0 ↔ ¬(s.val >>> 1) &&& 1 = 0 := by
      decide
    have hparts : ∀ s : Fin 4, (s.val >>> 1) &&& 1 = 0 →
        s.val < 2 ∧ ¬(s ^^^ 2).val < 2 ∧ (s ^^^ 2).val % 2 = s.val % 2 := by
      decide
    refine symbol_llr_of_mirror (num_points .qpsk) Nat.two_pos _ inv2s hpairs hbit
      fun (s : Fin 4) hs => ?_
    obtain ⟨hlow, hhigh, hparity⟩ := hparts s hs
    have hpoint := get_constellation_qpsk num s
    have hmirror := get_constellation_qpsk num (s ^^^ (2 : Fin 4))
    rw [if_pos hlow] at hpoint
    rw [if_neg hhigh, hparity] at hmirror
    rw [squaredDistance, squaredDistance, hmirror, hpoint]
    ring
  · -- and here in that of the imaginary part
    have hpairs : Function.Involutive fun s : Fin 4 => s ^^^ 1 := by
      unfold Function.Involutive
      decide
    have hbit : ∀ s : Fin 4, ((s ^^^ 1).val >>> 0) &&& 1 = 0 ↔ ¬(s.val >>> 0) &&& 1 = 0 := by
      decide
    have hparts : ∀ s : Fin 4, (s.val >>> 0) &&& 1 = 0 →
        s.val % 2 = 0 ∧ ¬(s ^^^ 1).val % 2 = 0 ∧ ((s ^^^ 1).val < 2 ↔ s.val < 2) := by
      decide
    refine symbol_llr_of_mirror (num_points .qpsk) Nat.one_lt_two _ inv2s hpairs hbit
      fun (s : Fin 4) hs => ?_
    obtain ⟨heven, hodd, hhalf⟩ := hparts s hs
    have hpoint := get_constellation_qpsk num s
    have hmirror := get_constellation_qpsk num (s ^^^ (1 : Fin 4))
    rw [if_pos heven] at hpoint
    rw [if_neg hodd, if_congr hhalf rfl rfl] at hmirror
    rw [squaredDistance, squaredDistance, hmirror, hpoint]
    ring

/-- The general demapper on QPSK symbols is the closed form times the scale of the points. -/
theorem demodulate_llr_qpsk {noiseVar : R} (hnoise : 0 < noiseVar)
    (syms : ComplexVec (Point R)) :
    demodulateLlr num syms .qpsk noiseVar = .ok ((interleaved syms).map fun x =>
      .finite (scaleFor num .qpsk * (((2 : Nat) : R) / noiseVar * x))) := by
  have hfactor (x : R) : 1 / (((2 : Nat) : R) * noiseVar) * (4 * scaleFor num .qpsk * x) =
      scaleFor num .qpsk * (((2 : Nat) : R) / noiseVar * x) := by
    push_cast
    field_simp
    ring
  rw [demodulateLlr, require_of hnoise, Checked.ok_bind, Checked.pure_eq_ok, Except.ok.injEq,
    interleaved, List.map_flatMap]
  refine List.flatMap_congr fun z _ => ?_
  obtain ⟨hre, him⟩ := symbol_llr_qpsk num (1 / (((2 : Nat) : R) * noiseVar)) z
  rw [hfactor] at hre him
  show [symbolLlr _ 2 _ z 0, symbolLlr _ 2 _ z 1] = _
  rw [hre, him]
  rfl

/-- Both paths return the same soft values. -/
def QpskPathsAgree (noiseVar : R) (syms : ComplexVec (Point R)) : Prop :=
  ∃ llr, qpskLlrF32 (interleaved syms) noiseVar = .ok llr ∧
    demodulateLlr num syms .qpsk noiseVar = .ok (llr.map .finite)

/-- The scale of QPSK is not one. -/
theorem scale_qpsk_ne_one : scaleFor num .qpsk ≠ 1 := by
  intro h
  have hroot : num.sqrt (2 : Nat) = 1 := by
    rw [scaleFor, div_eq_one_iff_eq (ne_of_gt (num.sqrt_pos (Nat.cast_pos.mpr Nat.two_pos)))] at h
    exact h.symm
  have hsq := num.sq_sqrt (2 : Nat) (Nat.cast_nonneg 2)
  rw [hroot, one_pow] at hsq
  simp at hsq

/-- The closed form lacks the scale of the points, so the paths agree exactly where every part is
zero. -/
theorem qpsk_paths_agree_iff {noiseVar : R} (hnoise : 0 < noiseVar)
    (syms : ComplexVec (Point R)) :
    QpskPathsAgree num noiseVar syms ↔ ∀ z ∈ syms, z.re = 0 ∧ z.im = 0 := by
  have hlength : (interleaved syms).length % 2 = 0 := by
    rw [length_interleaved, Nat.mul_mod_right]
  have hscale : ((2 : Nat) : R) / noiseVar ≠ 0 :=
    div_ne_zero (Nat.cast_ne_zero.mpr two_ne_zero) (ne_of_gt hnoise)
  have hpart (x : R) : scaleFor num .qpsk * (((2 : Nat) : R) / noiseVar * x) =
      ((2 : Nat) : R) / noiseVar * x ↔ x = 0 := by
    constructor
    · intro h
      by_contra hx
      exact scale_qpsk_ne_one num (mul_eq_right₀ (mul_ne_zero hscale hx) |>.mp h)
    · rintro rfl
      rw [mul_zero, mul_zero]
  have hzero : (∀ x ∈ interleaved syms, x = 0) ↔ ∀ z ∈ syms, z.re = 0 ∧ z.im = 0 := by
    simp only [interleaved, List.mem_flatMap, List.mem_cons, List.not_mem_nil, or_false]
    constructor
    · intro h z hz
      exact ⟨h _ ⟨z, hz, .inl rfl⟩, h _ ⟨z, hz, .inr rfl⟩⟩
    · rintro h x ⟨z, hz, rfl | rfl⟩
      · exact (h z hz).1
      · exact (h z hz).2
  rw [QpskPathsAgree, qpsk_llr_spec hlength hnoise, demodulate_llr_qpsk num hnoise, ← hzero]
  simp only [Except.ok.injEq, exists_eq_left', List.map_map, List.map_inj_left,
    Function.comp_apply, Extended.finite.injEq, hpart]

/-- A symbol in the middle between all points. -/
theorem qpsk_paths_agree_zero : QpskPathsAgree realNumbers 1 [⟨0, 0⟩] := by
  refine (qpsk_paths_agree_iff realNumbers one_pos [⟨0, 0⟩]).mpr fun z hz => ?_
  rw [List.mem_singleton.mp hz]
  exact ⟨rfl, rfl⟩

/-- A symbol at 1: the closed form gives 2, and the general demapper the square root of 2. -/
theorem qpsk_paths_differ : ¬QpskPathsAgree realNumbers 1 [⟨1, 0⟩] := by
  rintro ⟨llr, hfast, hgeneral⟩
  rw [qpsk_llr_spec rfl one_pos] at hfast
  rw [demodulate_llr_qpsk realNumbers one_pos, ← Except.ok.inj hfast] at hgeneral
  have hfirst := (List.cons.inj (Except.ok.inj hgeneral)).1
  have hvalue := Extended.finite.inj hfirst
  have htwo : ((2 : Nat) : ℝ) / 1 * 1 ≠ 0 := by norm_num
  exact scale_qpsk_ne_one realNumbers (mul_eq_right₀ htwo |>.mp hvalue)

end

/-! ## The comparator -/

section

variable {R : Type} [Ring R] [LinearOrder R]

/-- `CompareReport`. -/
structure CompareReport (R : Type) where
  isMatch : Bool := false
  maxAbsErr : Extended R
  mismatches : Nat := 0
  kernel : String
  status : String := "cpu_reference_only"

variable (round : R → R)

/-- The variable `e` of `compare_f32`: finite differences are rounded to a double. -/
def comparisonError (x y : Extended R) : Extended R :=
  Extended.abs (Extended.rounded round (Extended.sub x y))

/-- The body of the loop of `compare_f32`. -/
def compareStep (tol : Extended R) (r : CompareReport R) (pair : Extended R × Extended R) :
    CompareReport R :=
  let e := comparisonError round pair.1 pair.2
  let r := if Extended.lt r.maxAbsErr e then { r with maxAbsErr := e } else r
  if Extended.lt tol e then { r with mismatches := r.mismatches + 1 } else r

/-- `compare_f32`. -/
def compareF32 (a b : List (Extended R)) (kernel : String) (tol : Extended R) : CompareReport R :=
  let r := { maxAbsErr := .finite 0, kernel }
  if a.length ≠ b.length then
    { r with mismatches := max a.length b.length, status := "length_mismatch" }
  else
    let r := (a.zip b).foldl (compareStep round tol) r
    let isMatch := decide (r.mismatches = 0)
    { r with
      isMatch, status := if isMatch then "cpu_reference_match" else "cpu_reference_mismatch" }

/-- Two values are within the tolerance of each other, or the same infinity. -/
def Close (tol x y : Extended R) : Prop :=
  Extended.le (comparisonError round x y) tol = true ∨ x = y ∧ (x = .posInf ∨ x = .negInf)

instance (tol x y : Extended R) : Decidable (Close round tol x y) :=
  inferInstanceAs (Decidable (_ ∨ _ ∧ (_ ∨ _)))

/-- The loop counts the pairs whose error is above the tolerance. -/
theorem mismatches_fold (tol : Extended R) (pairs : List (Extended R × Extended R))
    (r : CompareReport R) : (pairs.foldl (compareStep round tol) r).mismatches =
      r.mismatches + pairs.countP fun p => Extended.lt tol (comparisonError round p.1 p.2) := by
  have hstep (r : CompareReport R) (p : Extended R × Extended R) :
      (compareStep round tol r p).mismatches = r.mismatches +
        if Extended.lt tol (comparisonError round p.1 p.2) then 1 else 0 := by
    unfold compareStep
    dsimp only
    split <;> split <;> rfl
  induction pairs generalizing r with
  | nil => rfl
  | cons p pairs ih =>
      rw [List.foldl_cons, ih, hstep, List.countP_cons, Nat.add_assoc, Nat.add_comm (ite _ _ _)]

/-- The error of a pair is a number, except where one of the values is not or both are the same
infinity. -/
theorem comparison_error_ne_nan (x y : Extended R) : comparisonError round x y ≠ .nan ↔
    (x ≠ .nan ∧ y ≠ .nan) ∧ ¬(x = y ∧ (x = .posInf ∨ x = .negInf)) := by
  cases x <;> cases y <;>
    simp [comparisonError, Extended.sub, Extended.neg, Extended.add, Extended.rounded,
      Extended.abs]

/-- The pairs that the comparator counts are those that are not close, except those with a value
that is not a number. -/
theorem lt_tol_iff {tol : Extended R} (htol : Extended.le (.finite 0) tol = true)
    (x y : Extended R) : Extended.lt tol (comparisonError round x y) = true ↔
      ¬Close round tol x y ∧ x ≠ .nan ∧ y ≠ .nan := by
  have hnumber : tol ≠ .nan := by
    rintro rfl
    cases htol
  rw [Extended.lt_iff, comparison_error_ne_nan, Close]
  tauto

/-- No value is close to one that is not a number. -/
theorem not_close_of_nan (tol : Extended R) {x y : Extended R} (h : ¬(x ≠ .nan ∧ y ≠ .nan)) :
    ¬Close round tol x y := by
  rintro (hle | ⟨rfl, rfl | rfl⟩)
  · have hnan : comparisonError round x y = .nan := by
      by_contra hne
      exact h ((comparison_error_ne_nan round x y).mp hne).1
    rw [hnan] at hle
    cases tol <;> cases hle
  · exact h ⟨nofun, nofun⟩
  · exact h ⟨nofun, nofun⟩

/-- The pairs that are not close are those that the comparator counts and those with a value that
is not a number. -/
theorem count_not_close {tol : Extended R} (htol : Extended.le (.finite 0) tol = true)
    (pairs : List (Extended R × Extended R)) :
    (pairs.countP fun p => ¬Close round tol p.1 p.2) =
      (pairs.countP fun p => Extended.lt tol (comparisonError round p.1 p.2)) +
        pairs.countP fun p => ¬(p.1 ≠ .nan ∧ p.2 ≠ .nan) := by
  rw [List.countP_eq_countP_filter_add pairs _ fun p => p.1 ≠ .nan ∧ p.2 ≠ .nan,
    List.countP_filter, List.countP_filter]
  congr 1
  · refine List.countP_congr fun p _ => ?_
    rw [lt_tol_iff round htol, Bool.and_eq_true, decide_eq_true_eq, decide_eq_true_eq]
  · refine List.countP_congr fun p _ => ?_
    rw [Bool.and_eq_true, Bool.not_eq_true', decide_eq_false_iff_not, decide_eq_true_eq,
      decide_eq_true_eq]
    exact and_iff_right_of_imp (not_close_of_nan round tol)

/-- A report says whether two outputs of one length are close everywhere, and at how many places
they are not. -/
def ReportsCloseness (tol : Extended R) (a b : List (Extended R)) (r : CompareReport R) : Prop :=
  (r.isMatch = true ↔ a.length = b.length ∧ ∀ p ∈ a.zip b, Close round tol p.1 p.2) ∧
    (a.length = b.length →
      r.mismatches = (a.zip b).countP fun p => ¬Close round tol p.1 p.2)

/-- The report is right exactly for outputs without a value that is not a number: the error of
such a value compares false with the tolerance. -/
theorem compare_reports_iff {tol : Extended R} (htol : Extended.le (.finite 0) tol = true)
    (a b : List (Extended R)) (kernel : String) :
    ReportsCloseness round tol a b (compareF32 round a b kernel tol) ↔
      (a.length = b.length → .nan ∉ a ∧ .nan ∉ b) := by
  by_cases hlength : a.length = b.length
  · have hmembers : (∀ p ∈ a.zip b, p.1 ≠ .nan ∧ p.2 ≠ .nan) ↔ .nan ∉ a ∧ .nan ∉ b := by
      have hfirst : (a.zip b).map Prod.fst = a := List.map_fst_zip (le_of_eq hlength)
      have hsecond : (a.zip b).map Prod.snd = b := List.map_snd_zip (ge_of_eq hlength)
      nth_rewrite 2 [← hfirst]
      nth_rewrite 3 [← hsecond]
      simp only [List.mem_map, not_exists, not_and, ← forall_and]
    have hmatch : (compareF32 round a b kernel tol).isMatch =
        decide ((compareF32 round a b kernel tol).mismatches = 0) := by
      rw [compareF32, if_neg (not_not_intro hlength)]
    have hmismatches : (compareF32 round a b kernel tol).mismatches =
        (a.zip b).countP fun p => Extended.lt tol (comparisonError round p.1 p.2) := by
      rw [compareF32, if_neg (not_not_intro hlength)]
      exact (mismatches_fold round tol (a.zip b) _).trans (Nat.zero_add _)
    have hcount := count_not_close round htol (a.zip b)
    rw [imp_iff_right hlength, ← hmembers, ReportsCloseness, imp_iff_right hlength, hmatch,
      decide_eq_true_eq, and_iff_right hlength]
    constructor
    · rintro ⟨-, hreported⟩ p hp
      have hnone : (a.zip b).countP (fun p => ¬(p.1 ≠ .nan ∧ p.2 ≠ .nan)) = 0 := by
        omega
      simpa using List.countP_eq_zero.mp hnone p hp
    · intro hnumbers
      have hnone : (a.zip b).countP (fun p => ¬(p.1 ≠ .nan ∧ p.2 ≠ .nan)) = 0 :=
        List.countP_eq_zero.mpr fun p hp => by simpa using hnumbers p hp
      rw [hnone, Nat.add_zero] at hcount
      rw [hmismatches, ← hcount]
      refine ⟨?_, rfl⟩
      rw [List.countP_eq_zero]
      simp only [decide_eq_true_eq, not_not]
  · refine iff_of_true ⟨?_, fun h => absurd h hlength⟩ fun h => absurd h hlength
    rw [compareF32, if_pos hlength]
    exact iff_of_false nofun fun h => hlength h.1

/-- Outputs with an infinity that agree. -/
theorem compare_reports_infinite :
    ReportsCloseness id (.finite 0) [.posInf, .finite (1 : ℚ)] [.posInf, .finite 1]
      (compareF32 id [.posInf, .finite 1] [.posInf, .finite 1] "qpsk_llr" (.finite 0)) :=
  (compare_reports_iff id rfl _ _ _).mpr fun _ => ⟨by simp, by simp⟩

/-- A value that is not a number passes as a match. -/
theorem compare_passes_nan :
    (compareF32 id [.nan] [.finite (0 : ℚ)] "qpsk_llr" (.finite 0)).isMatch = true ∧
      ¬ReportsCloseness id (.finite 0) [.nan] [.finite (0 : ℚ)]
        (compareF32 id [.nan] [.finite 0] "qpsk_llr" (.finite 0)) := by
  have hmatch : (compareF32 id [.nan] [.finite (0 : ℚ)] "qpsk_llr" (.finite 0)).isMatch = true :=
    rfl
  refine ⟨hmatch, fun h => ?_⟩
  have hclose := (h.1.mp hmatch).2 (.nan, .finite 0) List.mem_cons_self
  exact not_close_of_nan id (.finite 0) (fun hnumbers => hnumbers.1 rfl) hclose

end

end NrBaseband
