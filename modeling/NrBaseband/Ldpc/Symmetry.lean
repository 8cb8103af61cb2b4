import NrBaseband.Ldpc.Encode
import NrBaseband.Foundation.Table

/-!
# Symmetries of the encoder

The code of a standard graph is closed under exclusive or and under rotating every block by the
same number of positions. Both operations act on the information part alone, so by the uniqueness
of code words the encoder commutes with them: `encode_linear_quasi_cyclic`.
-/

namespace NrBaseband

open Foundation Foundation.TannerGraph

/-- The vector with each of its blocks of length `zc` rotated by `t` positions. -/
def rotateBlocks (zc t : Nat) (w : Bits) : Bits :=
  table w.length fun p => w.getD (QuasiCyclic.rotated zc t p) 0

/-- Rotating keeps the length of a word. -/
@[simp] theorem length_rotate_blocks (zc t : Nat) (w : Bits) :
    (rotateBlocks zc t w).length = w.length := by
  simp [rotateBlocks]

/-- Rotating by the length of the blocks does nothing. -/
example : rotateBlocks 3 3 [1, 0, 0, 1, 1, 0] = [1, 0, 0, 1, 1, 0] ∧
    rotateBlocks 3 1 [1, 0, 0, 1, 1, 0] = [0, 0, 1, 1, 0, 1] := by decide

/-- Rotated bits are bits. -/
theorem is_bits_rotate {w : Bits} (h : IsBits w) (zc t : Nat) : IsBits (rotateBlocks zc t w) := by
  intro b hb
  obtain ⟨p, _, rfl⟩ := List.mem_map.mp hb
  exact h.getD _

/-- A rotated vector of whole blocks reads as the rotated word. -/
theorem word_of_rotate {w : Bits} (zc t : Nat) {p : Nat} (hp : p < w.length) :
    wordOf (rotateBlocks zc t w) p = wordOf w (QuasiCyclic.rotated zc t p) := by
  rw [wordOf, rotateBlocks, List.getD_eq_getElem?_getD, Table.getElem?_table hp]
  rfl

/-- The exclusive or of two code words is a code word. -/
theorem Graph.IsCodeword.xor {g : Graph} {a b : Bits} (ha : g.IsCodeword a)
    (hb : g.IsCodeword b) : g.IsCodeword (xorBits a b) := by
  have hlength := ha.length_eq.trans hb.length_eq.symm
  refine ⟨?_, is_bits_xor ha.bits hb.bits, ?_⟩
  · rw [xorBits, List.length_zipWith, ha.length_eq, hb.length_eq, Nat.min_self]
  · rw [checks_congr fun p _ => word_of_xor hlength p, checks_iff_satisfies]
    exact ((checks_iff_satisfies g _).mp ha.checks).add ((checks_iff_satisfies g _).mp hb.checks)

/-- A code word rotated within its blocks is a code word. -/
theorem Graph.IsCodeword.rotate {g : Graph} {w : Bits} (h : g.IsCodeword w) (t : Nat) :
    g.IsCodeword (rotateBlocks g.zc t w) := by
  refine ⟨by rw [length_rotate_blocks, h.length_eq], is_bits_rotate h.bits _ _, ?_⟩
  rw [checks_congr fun p hp => word_of_rotate g.zc t (h.length_eq.symm ▸ hp), checks_iff_satisfies]
  exact ((checks_iff_satisfies g _).mp h.checks).rotated g.zc_pos t

/-- The beginning of an exclusive or. -/
theorem take_xor (k : Nat) (a b : Bits) : (xorBits a b).take k = xorBits (a.take k) (b.take k) :=
  List.take_zipWith

/-- The first blocks of a rotated vector. -/
theorem take_rotate {zc : Nat} (hzc : 0 < zc) (k t : Nat) {w : Bits} (h : k * zc ≤ w.length) :
    (rotateBlocks zc t w).take (k * zc) = rotateBlocks zc t (w.take (k * zc)) := by
  refine List.ext_getElem (by simp) fun p hp _ => ?_
  rw [List.length_take, length_rotate_blocks] at hp
  have hpk : p < k * zc := by omega
  have hmoved := QuasiCyclic.rotated_lt hzc hpk t
  simp [rotateBlocks, table, List.getElem?_take_of_lt hmoved]

/-- What the encoding of a whole information part by a standard code has computed. -/
theorem code_word_of_encode {p : LdpcParams} (hp : p.IsStandard) {info cw : Bits}
    (hlength : info.length = p.bg.kb * p.zc.toNat) (h : ldpcEncode info p = .ok cw) :
    ∃ g, makeGraph p = .ok g ∧ g.IsStandard p.bg ∧ g.zc = p.zc.toNat ∧ g.IsCodeword cw ∧
      cw.take g.kOf = info := by
  obtain ⟨g, _, hg, _, hzc, _, _, hstandard⟩ :=
    make_graph_standard hp (info_bits_le_of_encode hp h)
  have hfull : info.length = g.kOf := by rw [hlength, hstandard.k_of, hzc]
  obtain ⟨cw', hcw', hcode, htake⟩ :=
    encode_standard hp hg hstandard (encode_eq_ok h).1 (Nat.le_of_eq hfull)
  rw [h, Except.ok.injEq] at hcw'
  subst hcw'
  rw [hfull, Nat.sub_self, List.replicate_zero, List.append_nil] at htake
  exact ⟨g, hg, hstandard, hzc, hcode, htake⟩

/-- The encoder is a linear quasi-cyclic map: the exclusive or of two information words is encoded
to the exclusive or of their code words, and rotating every block of an information word by the
same number of positions rotates every block of its code word. -/
theorem encode_linear_quasi_cyclic {p : LdpcParams} (hp : p.IsStandard) {a b : Bits}
    (ha : IsBits a) (hb : IsBits b) (halength : a.length = p.bg.kb * p.zc.toNat)
    (hblength : b.length = p.bg.kb * p.zc.toNat) :
    (p.infoBits ≤ p.bg.kb * p.zc →
      (∃ ca, ldpcEncode a p = .ok ca) ∧ ∃ cb, ldpcEncode b p = .ok cb) ∧
    (∀ ca cb, ldpcEncode a p = .ok ca → ldpcEncode b p = .ok cb →
      ldpcEncode (xorBits a b) p = .ok (xorBits ca cb)) ∧
    ∀ t ca, ldpcEncode a p = .ok ca →
      ldpcEncode (rotateBlocks p.zc.toNat t a) p = .ok (rotateBlocks p.zc.toNat t ca) := by
  refine ⟨fun hinfo => ?_, fun ca cb hca hcb => ?_, fun t ca hca => ?_⟩
  · obtain ⟨g, _, hg, _, hzc, _, _, hstandard⟩ := make_graph_standard hp hinfo
    have hfit {info : Bits} (hlength : info.length = p.bg.kb * p.zc.toNat) :
        info.length ≤ g.kOf := by
      rw [hlength, hstandard.k_of, hzc]
    obtain ⟨ca, hca, _⟩ := encode_standard hp hg hstandard ha (hfit halength)
    obtain ⟨cb, hcb, _⟩ := encode_standard hp hg hstandard hb (hfit hblength)
    exact ⟨⟨ca, hca⟩, cb, hcb⟩
  · obtain ⟨g, hg, _, _, hcodeA, htakeA⟩ := code_word_of_encode hp halength hca
    obtain ⟨g', hg', _, _, hcodeB, htakeB⟩ := code_word_of_encode hp hblength hcb
    rw [hg, Except.ok.injEq] at hg'
    subst hg'
    have hcode := hcodeA.xor hcodeB
    rw [← htakeA, ← htakeB, ← take_xor]
    exact (code_word_iff_encode hp hg hcode.bits hcode.length_eq).mp hcode
  · obtain ⟨g, hg, _, hzc, hcodeA, htakeA⟩ := code_word_of_encode hp halength hca
    have hcode := hcodeA.rotate t
    have hlong : g.kb * g.zc ≤ ca.length := by
      rw [hcodeA.length_eq]
      exact g.k_of_le
    rw [← hzc, ← htakeA, Graph.kOf, ← take_rotate g.zc_pos g.kb t hlong]
    exact (code_word_iff_encode hp hg hcode.bits hcode.length_eq).mp hcode

/-- Two information words of lifting size 2, the second added to the first and the first rotated. -/
theorem encode_linear_quasi_cyclic_two :
    let a : Bits := 1 :: List.replicate 19 0
    let b : Bits := List.replicate 19 0 ++ [1]
    ∃ ca cb, ldpcEncode a { zc := 2 } = .ok ca ∧ ldpcEncode b { zc := 2 } = .ok cb ∧
      ldpcEncode (xorBits a b) { zc := 2 } = .ok (xorBits ca cb) ∧
      ldpcEncode (rotateBlocks 2 1 a) { zc := 2 } = .ok (rotateBlocks 2 1 ca) := by
  intro a b
  have hp : ({ zc := 2 } : LdpcParams).IsStandard := standard_two _
  obtain ⟨htotal, hlinear, hcyclic⟩ := encode_linear_quasi_cyclic hp (a := a) (b := b)
    (by decide +kernel) (by decide +kernel) (by decide) (by decide)
  obtain ⟨⟨ca, hca⟩, cb, hcb⟩ := htotal (by decide)
  exact ⟨ca, cb, hca, hcb, hlinear ca cb hca hcb, hcyclic 1 ca hca⟩

end NrBaseband
