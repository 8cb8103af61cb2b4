import NrBaseband.Modulation
import NrBaseband.Foundation.Extended
import NrBaseband.Foundation.MachineInt

/-!
# Fronthaul impairments

`apply_impairments` of the fronthaul emulator loses and corrupts packets, exchanges the first and
the last one, and rotates the list, as the draws of a random generator say. The draws are a
parameter. `impair_all` is about the loop, and `impairments_frame_iff` says when the whole
operation only loses, alters in place and reorders packets.
-/

namespace NrBaseband

open Foundation Foundation.MachineInt

/-- `Plane`. -/
inductive Plane where
  | c
  | u
  | s
  deriving DecidableEq, Repr

/-- `EcpriMeta`. -/
structure EcpriMeta where
  pcId : UInt16 := 0
  seqId : UInt16 := 0
  msgType : UInt8 := 0
  timestampNs : UInt64 := 0
  plane : Plane := .u
  deriving DecidableEq, Repr

/-- `FhPacket`. -/
structure FhPacket (R : Type) where
  metadata : EcpriMeta
  iq : ComplexVec (Point R)
  raw : List UInt8

/-- `FhImpairments`. -/
structure FhImpairments (R : Type) [Zero R] where
  lossProb : Extended R := .finite 0
  reorderProb : Extended R := .finite 0
  delayPackets : Int32 := 0
  corruptProb : Extended R := .finite 0
  seed : UInt32 := 1

variable {R : Type} [Ring R] [LinearOrder R]

/-- The corruption of a packet: its first sample, where it has one, and its first byte. -/
def corrupt (p : FhPacket R) : FhPacket R :=
  if p.iq = [] then p
  else { p with
    iq := p.iq.modifyHead fun z => ⟨z.re + ((10 : Nat) : R), z.im - ((10 : Nat) : R)⟩
    raw := p.raw.modifyHead (· ^^^ 0xFF) }

/-- The body of the loop of `apply_impairments`, on the packets so far and the number of draws. -/
def impair (imp : FhImpairments R) (draw : Nat → R) (state : List (FhPacket R) × Nat)
    (p : FhPacket R) : List (FhPacket R) × Nat :=
  if Extended.lt (.finite (draw state.2)) imp.lossProb then (state.1, state.2 + 1)
  else if Extended.lt (.finite (draw (state.2 + 1))) imp.corruptProb then
    (state.1 ++ [corrupt p], state.2 + 2)
  else (state.1 ++ [p], state.2 + 2)

/-- `std::rotate` to the left; undefined past the end. -/
def rotateLeft {α : Type} (xs : List α) (d : Int) : Checked (List α) := do
  let k ← arrayIndex d
  if k ≤ xs.length then .ok (xs.rotate k) else .error .undefined

/-- The exchange of the ends in `apply_impairments`, for the draw `u`. -/
def reorder (imp : FhImpairments R) (u : R) (out : List (FhPacket R)) :
    Checked (List (FhPacket R)) :=
  if Extended.lt (.finite 0) imp.reorderProb ∧ out.length ≥ 2 ∧
      Extended.lt (.finite u) imp.reorderProb then
    Checked.exchange out 0 (out.length - 1)
  else .ok out

/-- The rotation in `apply_impairments`. -/
def delay (imp : FhImpairments R) (out : List (FhPacket R)) : Checked (List (FhPacket R)) :=
  if imp.delayPackets.toInt > 0 ∧ out ≠ [] then do
    let d ← remainder32 imp.delayPackets.toInt (toInt32 out.length)
    rotateLeft out d
  else .ok out

/-- `apply_impairments`. -/
def applyImpairments (draws : UInt32 → Nat → R) (imp : FhImpairments R)
    (input : List (FhPacket R)) : Checked (List (FhPacket R)) := do
  let (out, k) := input.foldl (impair imp (draws imp.seed)) ([], 0)
  let out ← reorder imp (draws imp.seed k) out
  delay imp out

/-- `loopback`. -/
def loopback (draws : UInt32 → Nat → R) (imp : FhImpairments R) (input : List (FhPacket R)) :
    Checked (List (FhPacket R)) := applyImpairments draws imp input

/-! ## The loop -/

/-- A packet in which at most the first sample and the first byte are different. -/
structure Altered (p q : FhPacket R) : Prop where
  metadata : q.metadata = p.metadata
  iq_length : q.iq.length = p.iq.length
  iq_tail : q.iq.tail = p.iq.tail
  raw_length : q.raw.length = p.raw.length
  raw_tail : q.raw.tail = p.raw.tail

omit [Ring R] [LinearOrder R] in
/-- A packet that is not touched. -/
theorem Altered.refl (p : FhPacket R) : Altered p p := ⟨rfl, rfl, rfl, rfl, rfl⟩

omit [LinearOrder R] in
/-- A corruption alters a packet. -/
theorem altered_corrupt (p : FhPacket R) : Altered p (corrupt p) := by
  rw [corrupt]
  split
  case isTrue => exact Altered.refl p
  case isFalse =>
    exact ⟨rfl, List.length_modifyHead, List.tail_modifyHead, List.length_modifyHead,
      List.tail_modifyHead⟩

/-- How many of a number of packets the draws from one on do not lose. -/
def survivors (lossProb : Extended R) (draw : Nat → R) : Nat → Nat → Nat
  | 0, _ => 0
  | n + 1, k =>
      if Extended.lt (.finite (draw k)) lossProb then survivors lossProb draw n (k + 1)
      else survivors lossProb draw n (k + 2) + 1

/-- A probability that is not positive is above no draw. -/
theorem not_lt_of_le_zero {u : R} (hu : 0 ≤ u) {x : Extended R}
    (hx : Extended.le x (.finite 0) = true) : ¬Extended.lt (.finite u) x = true := by
  cases x with
  | finite x =>
      simp only [Extended.le, Extended.lt, decide_eq_true_eq] at hx ⊢
      exact not_lt_of_ge (le_trans hx hu)
  | posInf => cases hx
  | negInf | nan => exact Bool.false_ne_true

/-- A probability from one on is above every draw. -/
theorem lt_of_one_le {u : R} (hu : u < 1) {x : Extended R}
    (hx : Extended.le (.finite 1) x = true) : Extended.lt (.finite u) x = true := by
  cases x with
  | finite x =>
      simp only [Extended.le, Extended.lt, decide_eq_true_eq] at hx ⊢
      exact lt_of_lt_of_le hu hx
  | posInf => rfl
  | negInf | nan => cases hx

/-- Without loss every packet survives. -/
theorem survivors_eq {lossProb : Extended R} {draw : Nat → R} (hdraw : ∀ k, 0 ≤ draw k)
    (hloss : Extended.le lossProb (.finite 0) = true) (n k : Nat) :
    survivors lossProb draw n k = n := by
  induction n generalizing k with
  | zero => rfl
  | succ n ih => rw [survivors, if_neg (not_lt_of_le_zero (hdraw k) hloss), ih]

/-- A step loses its packet or appends it, altered at most. -/
theorem impair_cases (imp : FhImpairments R) {draw : Nat → R} (hdraw : ∀ k, 0 ≤ draw k)
    (out : List (FhPacket R)) (k : Nat) (p : FhPacket R) :
    Extended.lt (.finite (draw k)) imp.lossProb = true ∧
        impair imp draw (out, k) p = (out, k + 1) ∨
      ¬Extended.lt (.finite (draw k)) imp.lossProb = true ∧ ∃ q, Altered p q ∧
        (Extended.le imp.corruptProb (.finite 0) = true → q = p) ∧
        impair imp draw (out, k) p = (out ++ [q], k + 2) := by
  unfold impair
  by_cases hlost : Extended.lt (.finite (draw k)) imp.lossProb = true
  · exact .inl ⟨hlost, if_pos hlost⟩
  · refine .inr ⟨hlost, ?_⟩
    rw [if_neg hlost]
    by_cases hcorrupt : Extended.lt (.finite (draw (k + 1))) imp.corruptProb = true
    · refine ⟨corrupt p, altered_corrupt p, fun hnone => ?_, if_pos hcorrupt⟩
      exact absurd hcorrupt (not_lt_of_le_zero (hdraw (k + 1)) hnone)
    · exact ⟨p, Altered.refl p, fun _ => rfl, if_neg hcorrupt⟩

/-- What the loop makes of its packets: the kept ones, and these altered. -/
structure Passes (imp : FhImpairments R) (draw : Nat → R) (input : List (FhPacket R)) (k : Nat)
    (kept altered : List (FhPacket R)) : Prop where
  sublist : kept.Sublist input
  in_place : List.Forall₂ Altered kept altered
  count : altered.length = survivors imp.lossProb draw input.length k
  all_kept : Extended.le imp.lossProb (.finite 0) = true → kept = input
  all_lost : Extended.le (.finite 1) imp.lossProb = true → altered = []
  unaltered : Extended.le imp.corruptProb (.finite 0) = true → altered = kept

/-- The loop appends the kept packets, altered at most. -/
theorem impair_all (imp : FhImpairments R) {draw : Nat → R} (hdraw : ∀ k, 0 ≤ draw k ∧ draw k < 1)
    (input out : List (FhPacket R)) (k : Nat) : ∃ kept altered,
      (input.foldl (impair imp draw) (out, k)).1 = out ++ altered ∧
        Passes imp draw input k kept altered := by
  induction input generalizing out k with
  | nil =>
      refine ⟨[], [], (List.append_nil out).symm, ⟨.slnil, .nil, rfl, ?_, ?_, ?_⟩⟩ <;>
        exact fun _ => rfl
  | cons p input ih =>
      rw [List.foldl_cons]
      rcases impair_cases imp (fun k => (hdraw k).1) out k p with
        ⟨hlost, hstep⟩ | ⟨hkept, q, hq, hsame, hstep⟩
      · obtain ⟨kept, altered, hrun, hpasses⟩ := ih out (k + 1)
        refine ⟨kept, altered, by rw [hstep, hrun], ?_⟩
        exact {
          sublist := hpasses.sublist.cons p
          in_place := hpasses.in_place
          count := by rw [List.length_cons, survivors, if_pos hlost, hpasses.count]
          all_kept := fun hnone => absurd hlost (not_lt_of_le_zero (hdraw k).1 hnone)
          all_lost := hpasses.all_lost
          unaltered := hpasses.unaltered }
      · obtain ⟨kept, altered, hrun, hpasses⟩ := ih (out ++ [q]) (k + 2)
        refine ⟨p :: kept, q :: altered, by rw [hstep, hrun, List.append_assoc]; rfl, ?_⟩
        exact {
          sublist := hpasses.sublist.cons_cons p
          in_place := .cons hq hpasses.in_place
          count := by
            rw [List.length_cons, List.length_cons, survivors, if_neg hkept, hpasses.count]
          all_kept := fun hnone => by rw [hpasses.all_kept hnone]
          all_lost := fun hall => absurd (lt_of_one_le (hdraw k).2 hall) hkept
          unaltered := fun hnone => by rw [hpasses.unaltered hnone, hsame hnone] }

/-! ## The order -/

/-- Rotating by a delay: the remainder is a position in the list, unless the length is zero as an
`int`. -/
theorem delay_remainder {d : Int} (hpos : 0 < d) (hd : d < 2 ^ 31) {n : Nat} (hn : ¬2 ^ 32 ∣ n) :
    ∃ r : Nat, remainder32 d (toInt32 n) = .ok r ∧ r ≤ n := by
  have hne : toInt32 n ≠ 0 := by
    simp only [toInt32, Int.bmod]
    omega
  have hquotient := Int.natAbs_tdiv_le_natAbs d (toInt32 n)
  have hremainder : ((d.tmod (toInt32 n)).natAbs : Int) = d.tmod (toInt32 n) :=
    Int.natAbs_of_nonneg (Int.tmod_nonneg _ (le_of_lt hpos))
  refine ⟨(d.tmod (toInt32 n)).natAbs, ?_, ?_⟩
  · rw [remainder32, if_neg hne, int32_of_range (by omega) (by omega), Checked.ok_bind,
      Checked.pure_eq_ok, hremainder]
  · rw [Int.natAbs_tmod]
    by_cases hfits : n < 2 ^ 31
    · rw [to_int32_of_range (by omega) (by omega), Int.natAbs_natCast]
      exact le_of_lt (Nat.mod_lt _ (by omega))
    · have hle := Nat.mod_le d.natAbs (toInt32 n).natAbs
      omega

/-- Rotating by a delay is undefined for a length that is zero as an `int`. -/
theorem delay_remainder_undefined (d : Int) {n : Nat} (hn : 2 ^ 32 ∣ n) :
    remainder32 d (toInt32 n) = .error .undefined := by
  refine if_pos ?_
  simp only [toInt32, Int.bmod]
  omega

/-- The exchange of the ends reorders the packets. -/
theorem reorder_ok (imp : FhImpairments R) (u : R) (out : List (FhPacket R)) :
    ∃ reordered, reorder imp u out = .ok reordered ∧ reordered.Perm out ∧
      (Extended.le imp.reorderProb (.finite 0) = true → reordered = out) := by
  rw [reorder]
  split
  case isTrue hswap =>
    obtain ⟨exchanged, hrun, hperm⟩ := Checked.exchange_perm
      (by omega : 0 < out.length) (by omega : out.length - 1 < out.length)
    exact ⟨exchanged, hrun, hperm, fun hnone =>
      absurd hswap.1 (not_lt_of_le_zero (le_refl 0) hnone)⟩
  case isFalse => exact ⟨out, rfl, List.Perm.refl out, fun _ => rfl⟩

omit [LinearOrder R] in
/-- The rotation reorders the packets, if it is defined. -/
theorem delay_eq_ok {imp : FhImpairments R} {out delayed : List (FhPacket R)}
    (h : delay imp out = .ok delayed) :
    delayed.Perm out ∧ (imp.delayPackets.toInt ≤ 0 → delayed = out) := by
  rw [delay] at h
  split at h
  case isTrue hdelay =>
    obtain ⟨d, -, hrotate⟩ := Checked.bind_eq_ok.mp h
    rw [rotateLeft] at hrotate
    obtain ⟨k, -, hrest⟩ := Checked.bind_eq_ok.mp hrotate
    split at hrest
    case isTrue =>
      cases hrest
      exact ⟨List.rotate_perm out k, fun hnone => by omega⟩
    case isFalse => cases hrest
  case isFalse =>
    cases h
    exact ⟨List.Perm.refl out, fun _ => rfl⟩

omit [LinearOrder R] in
/-- The rotation is defined exactly where it is skipped or the number of packets is not zero as an
`int`. -/
theorem delay_returns_iff (imp : FhImpairments R) (out : List (FhPacket R)) :
    (∃ delayed, delay imp out = .ok delayed) ↔
      imp.delayPackets.toInt ≤ 0 ∨ out.length = 0 ∨ ¬2 ^ 32 ∣ out.length := by
  by_cases hdelay : imp.delayPackets.toInt > 0 ∧ out ≠ []
  · rw [delay, if_pos hdelay]
    have hlength : out.length ≠ 0 := mt List.length_eq_zero_iff.mp hdelay.2
    by_cases hzero : 2 ^ 32 ∣ out.length
    · rw [delay_remainder_undefined _ hzero]
      refine iff_of_false nofun ?_
      rintro (hnone | hnone | hnone)
      · omega
      · exact hlength hnone
      · exact hnone hzero
    · refine iff_of_true ?_ (.inr (.inr hzero))
      obtain ⟨r, hr, hle⟩ := delay_remainder hdelay.1 imp.delayPackets.toInt_lt hzero
      refine ⟨out.rotate r, ?_⟩
      rw [hr, Checked.ok_bind, rotateLeft, array_index_natCast, Checked.ok_bind, if_pos hle]
  · rw [delay, if_neg hdelay]
    refine iff_of_true ⟨out, rfl⟩ ?_
    rw [not_and_or, not_not, ← List.length_eq_zero_iff] at hdelay
    omega

/-- The packets that leave are the kept ones, altered at most, in another order; a probability or
a delay that is not positive has no effect. -/
def ImpairsOnly (imp : FhImpairments R) (input out : List (FhPacket R)) : Prop :=
  (∃ kept altered : List (FhPacket R), kept.Sublist input ∧ List.Forall₂ Altered kept altered ∧
    out.Perm altered ∧ (Extended.le imp.lossProb (.finite 0) = true → kept = input) ∧
    (Extended.le imp.corruptProb (.finite 0) = true → altered = kept)) ∧
  (Extended.le (.finite 1) imp.lossProb = true → out = []) ∧
  (Extended.le imp.lossProb (.finite 0) = true → Extended.le imp.corruptProb (.finite 0) = true →
    Extended.le imp.reorderProb (.finite 0) = true → imp.delayPackets.toInt ≤ 0 → out = input)

/-- The impairments are a rotation of the packets that the loop and the exchange leave. -/
theorem apply_impairments_eq {draws : UInt32 → Nat → R} (imp : FhImpairments R)
    (hdraws : ∀ k, 0 ≤ draws imp.seed k ∧ draws imp.seed k < 1) (input : List (FhPacket R)) :
    ∃ kept altered reordered, Passes imp (draws imp.seed) input 0 kept altered ∧
      reordered.Perm altered ∧
      (Extended.le imp.reorderProb (.finite 0) = true → reordered = altered) ∧
      applyImpairments draws imp input = delay imp reordered := by
  obtain ⟨kept, altered, hrun, hpasses⟩ := impair_all imp hdraws input [] 0
  obtain ⟨reordered, hreorder, hperm, hsame⟩ :=
    reorder_ok imp (draws imp.seed (input.foldl (impair imp (draws imp.seed)) ([], 0)).2) altered
  refine ⟨kept, altered, reordered, hpasses, hperm, hsame, ?_⟩
  rw [applyImpairments]
  dsimp only
  rw [hrun, List.nil_append, hreorder, Checked.ok_bind]

/-- The impairments are defined exactly where the delay is not positive or the number of packets
that are left is zero or not zero as an `int`. -/
theorem impairments_return_iff {draws : UInt32 → Nat → R} (imp : FhImpairments R)
    (hdraws : ∀ k, 0 ≤ draws imp.seed k ∧ draws imp.seed k < 1) (input : List (FhPacket R)) :
    (∃ out, applyImpairments draws imp input = .ok out) ↔ imp.delayPackets.toInt ≤ 0 ∨
      survivors imp.lossProb (draws imp.seed) input.length 0 = 0 ∨
      ¬2 ^ 32 ∣ survivors imp.lossProb (draws imp.seed) input.length 0 := by
  obtain ⟨kept, altered, reordered, hpasses, hperm, -, happly⟩ :=
    apply_impairments_eq imp hdraws input
  rw [happly, delay_returns_iff, hperm.length_eq, hpasses.count]

/-- What the impairments return has only lost, altered and reordered packets. -/
theorem impairs_only {draws : UInt32 → Nat → R} {imp : FhImpairments R}
    (hdraws : ∀ k, 0 ≤ draws imp.seed k ∧ draws imp.seed k < 1) {input out : List (FhPacket R)}
    (hout : applyImpairments draws imp input = .ok out) : ImpairsOnly imp input out := by
  obtain ⟨kept, altered, reordered, hpasses, hperm, hsame, happly⟩ :=
    apply_impairments_eq imp hdraws input
  obtain ⟨hrotated, hstill⟩ := delay_eq_ok (happly ▸ hout)
  refine ⟨⟨kept, altered, hpasses.sublist, hpasses.in_place, hrotated.trans hperm,
    hpasses.all_kept, hpasses.unaltered⟩, fun hall => ?_, fun hloss hcorrupt hnone hdelay => ?_⟩
  · rw [hpasses.all_lost hall] at hperm
    exact (hrotated.trans hperm).eq_nil
  · rw [hstill hdelay, hsame hnone, hpasses.unaltered hcorrupt, hpasses.all_kept hloss]

/-- The impairments only lose, alter in place and reorder packets, exactly where the delay is not
positive or the number of packets that are left is zero or not zero as an `int`. -/
theorem impairments_frame_iff {draws : UInt32 → Nat → R}
    (hdraws : ∀ seed k, 0 ≤ draws seed k ∧ draws seed k < 1) (imp : FhImpairments R)
    (input : List (FhPacket R)) :
    (∃ out, applyImpairments draws imp input = .ok out ∧ ImpairsOnly imp input out) ↔
      imp.delayPackets.toInt ≤ 0 ∨
        survivors imp.lossProb (draws imp.seed) input.length 0 = 0 ∨
        ¬2 ^ 32 ∣ survivors imp.lossProb (draws imp.seed) input.length 0 := by
  rw [← impairments_return_iff imp (hdraws imp.seed)]
  constructor
  · rintro ⟨out, hout, -⟩
    exact ⟨out, hout⟩
  · rintro ⟨out, hout⟩
    exact ⟨out, hout, impairs_only (hdraws imp.seed) hout⟩

/-- Two packets that are not lost, delayed by three. -/
theorem impairments_frame_two :
    ∃ out, applyImpairments (fun _ _ => (0 : ℚ)) { delayPackets := 3 }
        [⟨{}, [⟨1, 0⟩], [7]⟩, ⟨{ seqId := 1 }, [], []⟩] = .ok out ∧
      ImpairsOnly { delayPackets := 3 }
        [⟨{}, [⟨1, 0⟩], [7]⟩, ⟨{ seqId := 1 }, [], []⟩] out := by
  refine (impairments_frame_iff (fun _ _ => ⟨le_refl _, one_pos⟩) _ _).mpr (.inr (.inr ?_))
  rw [survivors_eq (fun _ => le_refl _) rfl]
  decide

/-- A delay of `2 ^ 32` packets, whose number is zero as an `int`. -/
theorem impairments_divide_by_zero :
    ¬∃ out, applyImpairments (fun _ _ => (0 : ℚ)) { delayPackets := 1 }
      (List.replicate (2 ^ 32) ⟨{}, [], []⟩) = .ok out := by
  have hdraws (k : Nat) : (0 : ℚ) ≤ 0 ∧ (0 : ℚ) < 1 := ⟨le_refl _, one_pos⟩
  rw [impairments_return_iff _ hdraws, survivors_eq (fun _ => le_refl _) rfl,
    List.length_replicate]
  rintro (hdelay | hnone | hzero)
  · exact absurd hdelay (by decide)
  · exact absurd hnone (by norm_num)
  · exact hzero (dvd_refl _)

end NrBaseband
