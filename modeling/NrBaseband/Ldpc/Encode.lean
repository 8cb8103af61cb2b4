import NrBaseband.Ldpc.Codewords
import NrBaseband.Ldpc.Elimination
import Mathlib.Algebra.BigOperators.Fin

/-!
# The encoder

`encodeGe` reads the information part of the dense matrix into a right-hand side and the parity
part into a square system, eliminates, and writes the solution after the information bits.
`encode_ge_spec` says that it returns a code word where the parity part is invertible, and
`encode_standard` that `ldpcEncode` does so on every standard configuration.
-/

namespace NrBaseband

open Foundation Foundation.MachineInt Foundation.TannerGraph Foundation.GaussJordan

/-- The first loop of `encode_ge`: the variable `s` of row `r`. -/
def Graph.infoSyndrome (g : Graph) (H : List (ZMod 2)) (infoFull : Bits) (r : Nat) :
    Checked (ZMod 2) :=
  (List.range g.kOf).foldlM (fun s k => do
    let h ← Checked.read H (r * g.nOf + k)
    if h = 0 then return s
    else
      let b ← Checked.read infoFull k
      if b = 0 then return s else return s + 1) 0

/-- The arrays `rhs` and `A` of `encode_ge` before the elimination. -/
def Graph.paritySystem (g : Graph) (H : List (ZMod 2)) (infoFull : Bits) :
    Checked (LinearSystem g.mOf) := do
  let rhs ← Vector.ofFnM fun r : Fin g.mOf => g.infoSyndrome H infoFull r
  let A ← Vector.ofFnM fun r : Fin g.mOf => Vector.ofFnM fun c : Fin g.mOf =>
    Checked.read H (r * g.nOf + (g.kOf + c))
  return { A, rhs }

/-- `encode_ge`. -/
def encodeGe (infoFull : Bits) (g : Graph) : Checked Bits := do
  require (toInt32 infoFull.length = g.kOf) "info length must equal kb*zc (incl. filler)"
  let H ← buildH g
  let system ← g.paritySystem H infoFull
  let solved ← system.eliminate
  let cw ← Checked.writeFrom (List.replicate g.nOf 0) 0 (infoFull.take g.kOf)
  Checked.writeFrom cw g.kOf (solved.rhs.toList.map ofGf2)

/-- The parameters with `info_bits` defaulted to the number of bits given. -/
def LdpcParams.withInfo (p : LdpcParams) (info : Bits) : LdpcParams :=
  if p.infoBits < 0 then { p with infoBits := toInt32 info.length } else p

/-- `ldpc_encode`. -/
def ldpcEncode (info : Bits) (p : LdpcParams) : Checked Bits := do
  Checked.forEach (fun b => require (b = 0 ∨ b = 1) "info bits must be 0/1") info
  let g ← makeGraph (p.withInfo info)
  require (toInt32 info.length ≤ g.kOf) "info longer than kb*Zc"
  let padded ← Checked.writeFrom (List.replicate g.kOf 0) 0 info
  encodeGe padded g

/-- An information word followed by parity values. -/
def joinWord {m : Nat} (k : Nat) (info : Nat → ZMod 2) (parity : Fin m → ZMod 2) (i : Nat) :
    ZMod 2 :=
  if i < k then info i else if h : i - k < m then parity ⟨i - k, h⟩ else 0

/-- The information part is inside the code word. -/
theorem Graph.k_of_le (g : Graph) : g.kOf ≤ g.nOf :=
  Nat.mul_le_mul_right _ (Nat.le_of_lt g.kb_range.2)

/-- Where all parity columns exist, the information and the parity part are inside the code word. -/
theorem k_of_add_m_of_le {g : Graph} (hnb : g.kb + g.mb ≤ g.nb) : g.kOf + g.mOf ≤ g.nOf := by
  rw [Graph.kOf, Graph.mOf, Graph.nOf, ← Nat.add_mul]
  exact Nat.mul_le_mul_right _ hnb

/-- A check of a joined word adds its information part and its parity part. -/
theorem check_sum_join {g : Graph} (hnb : g.kb + g.mb ≤ g.nb) (info : Nat → ZMod 2)
    (parity : Fin g.mOf → ZMod 2) (r : Nat) :
    checkSum (expandEdges g) (joinWord g.kOf info parity) r =
      ∑ k ∈ Finset.range g.kOf, incidence (expandEdges g) r k * info k +
      ∑ c : Fin g.mOf, incidence (expandEdges g) r (g.kOf + c) * parity c := by
  -- past the parity part the word is zero
  obtain ⟨rest, hnOf⟩ := Nat.exists_eq_add_of_le (k_of_add_m_of_le hnb)
  have hrest : ∑ c ∈ Finset.range rest, incidence (expandEdges g) r (g.kOf + g.mOf + c) *
      joinWord g.kOf info parity (g.kOf + g.mOf + c) = 0 := by
    refine Finset.sum_eq_zero fun c _ => ?_
    rw [joinWord, if_neg (by omega), dif_neg (by omega), mul_zero]
  rw [← sum_incidence (fun e he => (expand_edges_lt g e he).2), hnOf, Finset.sum_range_add, hrest,
    add_zero, Finset.sum_range_add,
    Finset.sum_range (fun c => incidence (expandEdges g) r (g.kOf + c) * _)]
  congr 1
  · refine Finset.sum_congr rfl fun k hk => ?_
    rw [joinWord, if_pos (Finset.mem_range.mp hk)]
  · refine Finset.sum_congr rfl fun c _ => ?_
    simp [joinWord]

/-- The system's coefficients are the parity columns and its right-hand side is the information
part of every check. -/
structure Graph.IsParitySystem (g : Graph) (info : Nat → ZMod 2) (s : LinearSystem g.mOf) :
    Prop where
  matrix_eq : ∀ r c, s.matrix r c = incidence (expandEdges g) r (g.kOf + c)
  vector_eq : ∀ r, s.vector r =
    ∑ k ∈ Finset.range g.kOf, incidence (expandEdges g) r k * info k

/-- The first loop computes the information part of a check. -/
theorem info_syndrome_spec {g : Graph} {H : List (ZMod 2)}
    (hH : RowMajor.Represents g.mOf g.nOf H (incidence (expandEdges g))) {info : Bits}
    (hbits : IsBits info) (hlength : info.length = g.kOf) {r : Nat} (hr : r < g.mOf) :
    g.infoSyndrome H info r =
      .ok (∑ k ∈ Finset.range g.kOf, incidence (expandEdges g) r k * wordOf info k) := by
  have hkn := g.k_of_le
  have hstep : ∀ s : ZMod 2, ∀ k ∈ List.range g.kOf, (do
      let h ← Checked.read H (r * g.nOf + k)
      if h = 0 then return s
      else
        let b ← Checked.read info k
        if b = 0 then return s else return s + 1 : Checked (ZMod 2)) =
      .ok (s + incidence (expandEdges g) r k * wordOf info k) := by
    intro s k hk
    have hlt := List.mem_range.mp hk
    have hread : Checked.read info k = .ok info[k] := Checked.read_of_lt (by omega)
    rw [hH.read_eq r hr k (by omega), Checked.ok_bind]
    by_cases hzero : incidence (expandEdges g) r k = 0
    · simp [hzero]
    · have hone := LinearSystem.eq_one_of_ne_zero hzero
      rw [if_neg hzero, hread, Checked.ok_bind, hone, one_mul, word_of_lt (by omega)]
      rcases hbits _ (List.getElem_mem (by omega : k < info.length)) with hbit | hbit
      · simp [hbit]
      · simp [hbit, gf2_one]
  have hfold (ks : List Nat) (s : ZMod 2) : ks.foldl
      (fun s k => s + incidence (expandEdges g) r k * wordOf info k) s =
      s + (ks.map fun k => incidence (expandEdges g) r k * wordOf info k).sum := by
    induction ks generalizing s with
    | nil => simp
    | cons k ks ih => rw [List.foldl_cons, ih, List.map_cons, List.sum_cons, add_assoc]
  rw [Graph.infoSyndrome, Checked.fold_ok hstep, hfold, zero_add, sum_map_range]

/-- Where all parity columns exist, the arrays are filled inside the matrix. -/
theorem parity_system_spec {g : Graph} (hnb : g.kb + g.mb ≤ g.nb) {H : List (ZMod 2)}
    (hH : RowMajor.Represents g.mOf g.nOf H (incidence (expandEdges g))) {info : Bits}
    (hbits : IsBits info) (hlength : info.length = g.kOf) :
    ∃ s, g.paritySystem H info = .ok s ∧ g.IsParitySystem (wordOf info) s := by
  have hinside := k_of_add_m_of_le hnb
  let rhs (r : Fin g.mOf) : ZMod 2 :=
    ∑ k ∈ Finset.range g.kOf, incidence (expandEdges g) r k * wordOf info k
  let A (r c : Fin g.mOf) : ZMod 2 := incidence (expandEdges g) r (g.kOf + c)
  have hrhs : (Vector.ofFnM fun r : Fin g.mOf => g.infoSyndrome H info r) = .ok (Vector.ofFn rhs) :=
    Checked.table_ok fun r => info_syndrome_spec hH hbits hlength r.isLt
  have hA : (Vector.ofFnM fun r : Fin g.mOf => Vector.ofFnM fun c : Fin g.mOf =>
      Checked.read H (r * g.nOf + (g.kOf + c))) =
      .ok (Vector.ofFn fun r => Vector.ofFn (A r)) :=
    Checked.table_ok fun r => Checked.table_ok fun c =>
      hH.read_eq r r.isLt (g.kOf + c) (by omega)
  refine ⟨⟨Vector.ofFn fun r => Vector.ofFn (A r), Vector.ofFn rhs⟩, ?_, ?_⟩
  · rw [Graph.paritySystem, hrhs, Checked.ok_bind, hA, Checked.ok_bind]
    rfl
  · constructor
    · intro r c
      simp [LinearSystem.matrix, A]
    · intro r
      simp [LinearSystem.vector, rhs]

/-- Where a parity column is missing, the last row of the matrix is read past its end. -/
theorem parity_system_undefined {g : Graph} (hnOf : g.nOf < g.kOf + g.mOf) {H : List (ZMod 2)}
    (hH : RowMajor.Represents g.mOf g.nOf H (incidence (expandEdges g))) {info : Bits}
    (hbits : IsBits info) (hlength : info.length = g.kOf) :
    g.paritySystem H info = .error .undefined := by
  have hkn := g.k_of_le
  have hrhs := Checked.table_ok fun r : Fin g.mOf => info_syndrome_spec hH hbits hlength r.isLt
  let row (r : Fin g.mOf) : Checked (Vector (ZMod 2) g.mOf) :=
    Vector.ofFnM fun c : Fin g.mOf => Checked.read H (r * g.nOf + (g.kOf + c))
  have hrows (r : Fin g.mOf) : (∃ values, row r = .ok values) ∨ row r = .error .undefined :=
    Checked.table_cases fun c => Checked.read_cases _ _
  have hlast : row ⟨g.mOf - 1, by omega⟩ = .error .undefined := by
    refine Checked.table_error (i := ⟨g.nOf - g.kOf, by omega⟩)
      (fun c => Checked.read_cases _ _) (Checked.read_of_le ?_)
    have hcells : g.mOf * g.nOf = (g.mOf - 1) * g.nOf + g.nOf := by
      rw [← Nat.succ_mul]
      congr 1
      omega
    rw [hH.length_eq, hcells]
    show (g.mOf - 1) * g.nOf + g.nOf ≤ (g.mOf - 1) * g.nOf + (g.kOf + (g.nOf - g.kOf))
    omega
  rw [Graph.paritySystem, hrhs, Checked.ok_bind]
  show Vector.ofFnM row >>= _ = _
  rw [Checked.table_error hrows hlast, Checked.error_bind]

/-- Solving the system is completing the information bits to a word that passes the checks. -/
theorem Graph.IsParitySystem.solves_iff {g : Graph} (hnb : g.kb + g.mb ≤ g.nb)
    {info : Nat → ZMod 2} {s : LinearSystem g.mOf} (h : g.IsParitySystem info s)
    (x : Fin g.mOf → ZMod 2) :
    Solves s.matrix s.vector x ↔ g.Checks (joinWord g.kOf info x) := by
  have hrow (r : Fin g.mOf) : ∑ c, s.matrix r c * x c = s.vector r ↔
      checkSum (expandEdges g) (joinWord g.kOf info x) r = 0 := by
    rw [check_sum_join hnb, ← h.vector_eq, CharTwo.add_eq_zero, eq_comm]
    simp only [h.matrix_eq]
  exact ⟨fun hx r hr => (hrow ⟨r, hr⟩).mp (hx ⟨r, hr⟩), fun hx r => (hrow r).mpr (hx r r.isLt)⟩

/-- A kernel vector of the system completes the zero word. -/
theorem Graph.IsParitySystem.kernel_iff {g : Graph} (hnb : g.kb + g.mb ≤ g.nb)
    {info : Nat → ZMod 2} {s : LinearSystem g.mOf} (h : g.IsParitySystem info s)
    (x : Fin g.mOf → ZMod 2) :
    Solves s.matrix 0 x ↔ g.Checks (joinWord g.kOf 0 x) := by
  have hrow (r : Fin g.mOf) : ∑ c, s.matrix r c * x c = 0 ↔
      checkSum (expandEdges g) (joinWord g.kOf 0 x) r = 0 := by
    rw [check_sum_join hnb]
    simp [h.matrix_eq]
  exact ⟨fun hx r hr => (hrow ⟨r, hr⟩).mp (hx ⟨r, hr⟩), fun hx r => (hrow r).mpr (hx r r.isLt)⟩

/-- The information bits followed by a solution and zeros. -/
theorem word_of_append {info : Bits} {k m : Nat} (hlength : info.length = k)
    (x : Vector (ZMod 2) m) (rest : Nat) :
    ∀ i, wordOf (info ++ x.toList.map ofGf2 ++ List.replicate rest 0) i =
      joinWord k (wordOf info) (fun c : Fin m => x[c]) i := by
  intro i
  subst hlength
  have hparity : (x.toList.map ofGf2).length = m := by simp
  by_cases hi : i < info.length
  · simp [wordOf, joinWord, hi, List.getElem?_append_left hi, List.append_assoc]
  · rw [wordOf, List.append_assoc, List.getD_append_right _ _ _ _ (Nat.le_of_not_lt hi),
      joinWord, if_neg hi]
    by_cases hm : i - info.length < m
    · rw [List.getD_append _ _ _ _ (by omega), dif_pos hm]
      simp [hm]
    · rw [List.getD_append_right _ _ _ _ (by omega), dif_neg hm]
      exact congrFun (word_of_replicate rest) _

/-- The two copies of the encoder put the information and the parity bits in front of zeros. -/
theorem copy_word {info parity : Bits} {n k m : Nat} (hinfo : info.length = k)
    (hparity : parity.length = m) (hn : k + m ≤ n) :
    (Checked.writeFrom (List.replicate n 0) 0 (info.take k) >>= fun cw =>
      Checked.writeFrom cw k parity) =
      .ok (info ++ parity ++ List.replicate (n - (k + m)) 0) := by
  have htake : info.take k = info := List.take_of_length_le (by omega)
  have hfirst : Checked.writeFrom (List.replicate n 0) 0 (info.take k) =
      .ok (info ++ List.replicate (n - k) 0) := by
    rw [htake, Checked.write_from_ok (by rw [List.length_replicate]; omega)]
    simp [hinfo]
  rw [hfirst, Checked.ok_bind, Checked.write_from_ok (by simp [hinfo]; omega), hparity, ← hinfo]
  simp [List.drop_append, Nat.sub_sub]

/-- The encoder returns a code word that starts with the information bits and is zero past the
parity part, or the parity part of the graph is singular. -/
theorem encode_ge_cases {g : Graph} (hnb : g.kb + g.mb ≤ g.nb) {info : Bits} (hbits : IsBits info)
    (hlength : info.length = g.kOf) (hrange : g.nOf < 2 ^ 31) :
    (∃ cw, encodeGe info g = .ok cw ∧ g.IsCodeword cw ∧ cw.take g.kOf = info ∧
      cw.drop (g.kOf + g.mOf) = List.replicate (g.nOf - (g.kOf + g.mOf)) 0 ∧
      ∀ x : Fin g.mOf → ZMod 2, g.Checks (joinWord g.kOf 0 x) → x = 0) ∨
    (encodeGe info g = .error LinearSystem.singular ∧
      ∃ x : Fin g.mOf → ZMod 2, g.Checks (joinWord g.kOf 0 x) ∧ x ≠ 0) := by
  have hinside := k_of_add_m_of_le hnb
  obtain ⟨H, hH, hrep⟩ := build_h_represents g
  obtain ⟨s, hs, hsystem⟩ := parity_system_spec hnb hrep hbits hlength
  have hcast : toInt32 info.length = g.kOf := by
    rw [hlength]
    exact to_int32_of_range (by omega) (by omega)
  -- the elimination solves the parity system, or there is a word with zero information bits
  rcases s.eliminate_spec with ⟨t, ht, hsolution, hkernel⟩ | ⟨hsingular, x, hx, hne⟩
  · have hparityLength : (t.rhs.toList.map ofGf2).length = g.mOf := by simp
    refine .inl ⟨info ++ t.rhs.toList.map ofGf2 ++ List.replicate (g.nOf - (g.kOf + g.mOf)) 0, ?_,
      ⟨?_, ?_, ?_⟩, ?_, ?_, fun x hx => ?_⟩
    · rw [encodeGe, require_of hcast, Checked.ok_bind, hH, Checked.ok_bind, hs, Checked.ok_bind, ht,
        Checked.ok_bind, copy_word hlength hparityLength hinside]
    · rw [List.length_append, List.length_append, hparityLength, hlength, List.length_replicate]
      omega
    · rw [is_bits_append, is_bits_append]
      refine ⟨⟨hbits, fun b hb => ?_⟩, is_bits_replicate _⟩
      obtain ⟨x, _, rfl⟩ := List.mem_map.mp hb
      exact is_bit_of_gf2 x
    · have hword := funext (word_of_append hlength t.rhs (g.nOf - (g.kOf + g.mOf)))
      rw [hword]
      exact (hsystem.solves_iff hnb _).mp ((hsolution _).mpr rfl)
    · rw [← hlength, List.append_assoc, List.take_left]
    · exact List.drop_left' (by rw [List.length_append, hparityLength, hlength])
    · exact hkernel x ((hsystem.kernel_iff hnb x).mpr hx)
  · refine .inr ⟨?_, x, (hsystem.kernel_iff hnb x).mp hx, hne⟩
    rw [encodeGe, require_of hcast, Checked.ok_bind, hH, Checked.ok_bind, hs, Checked.ok_bind,
      hsingular, Checked.error_bind]

/-- Where a parity column is missing, the encoder reads past the end of the matrix. -/
theorem encode_ge_undefined {g : Graph} (hnb : g.nb < g.kb + g.mb) {info : Bits}
    (hbits : IsBits info) (hlength : info.length = g.kOf) (hrange : g.nOf < 2 ^ 31) :
    encodeGe info g = .error .undefined := by
  have hkn := g.k_of_le
  have hmissing : g.nOf < g.kOf + g.mOf := by
    rw [Graph.kOf, Graph.mOf, Graph.nOf, ← Nat.add_mul]
    exact Nat.mul_lt_mul_of_pos_right hnb g.zc_pos
  obtain ⟨H, hH, hrep⟩ := build_h_represents g
  have hcast : toInt32 info.length = g.kOf := by
    rw [hlength]
    exact to_int32_of_range (by omega) (by omega)
  rw [encodeGe, require_of hcast, Checked.ok_bind, hH, Checked.ok_bind,
    parity_system_undefined hmissing hrep hbits hlength, Checked.error_bind]

/-- Where the parity part of a graph is invertible the encoder returns a code word that starts
with the information bits. -/
theorem encode_ge_spec {g : Graph} (hnb : g.kb + g.mb ≤ g.nb) {info : Bits} (hbits : IsBits info)
    (hlength : info.length = g.kOf) (hrange : g.nOf < 2 ^ 31)
    (hkernel : ∀ x : Fin g.mOf → ZMod 2, g.Checks (joinWord g.kOf 0 x) → x = 0) :
    ∃ cw, encodeGe info g = .ok cw ∧ g.IsCodeword cw ∧ cw.take g.kOf = info := by
  rcases encode_ge_cases hnb hbits hlength hrange with
    ⟨cw, hcw, hcode, hsystematic, _⟩ | ⟨_, x, hchecks, hne⟩
  · exact ⟨cw, hcw, hcode, hsystematic⟩
  · exact absurd (hkernel x hchecks) hne

/-- What the encoder returns is a code word that starts with the information bits. -/
theorem encode_ge_eq_ok {g : Graph} {info cw : Bits} (hbits : IsBits info)
    (hlength : info.length = g.kOf) (hrange : g.nOf < 2 ^ 31) (h : encodeGe info g = .ok cw) :
    g.IsCodeword cw ∧ cw.take g.kOf = info := by
  by_cases hnb : g.kb + g.mb ≤ g.nb
  · rcases encode_ge_cases hnb hbits hlength hrange with
      ⟨cw', hcw', hcode, hsystematic, _⟩ | ⟨hsingular, _⟩
    · rw [h, Except.ok.injEq] at hcw'
      subst hcw'
      exact ⟨hcode, hsystematic⟩
    · rw [h] at hsingular
      cases hsingular
  · rw [encode_ge_undefined (Nat.lt_of_not_le hnb) hbits hlength hrange] at h
    cases h

/-- The length of a graph is far below the range of an int. -/
theorem n_of_lt {p : LdpcParams} {g : Graph} (hg : makeGraph p = .ok g) : g.nOf < 2 ^ 31 := by
  obtain ⟨hzc, _, hnb⟩ := make_graph_range hg
  have hle : g.nb * g.zc ≤ 114 * 384 := Nat.mul_le_mul hnb hzc
  unfold Graph.nOf
  omega

/-- What an encoding that returned has computed. -/
theorem encode_eq_ok {p : LdpcParams} {info cw : Bits} (h : ldpcEncode info p = .ok cw) :
    IsBits info ∧ ∃ g, makeGraph (p.withInfo info) = .ok g ∧ info.length ≤ g.kOf ∧
      encodeGe (info ++ List.replicate (g.kOf - info.length) 0) g = .ok cw := by
  rw [ldpcEncode, Checked.check_bind_eq_ok, Checked.for_each_eq_ok, Checked.bind_eq_ok] at h
  obtain ⟨hbits, g, hg, hrest⟩ := h
  rw [require_bind_eq_ok, Checked.bind_eq_ok] at hrest
  obtain ⟨_, padded, hpadded, hencode⟩ := hrest
  have hfit := Checked.write_from_length (Nat.zero_le _) hpadded
  rw [List.length_replicate, Nat.zero_add] at hfit
  rw [Checked.write_from_ok (by simpa using hfit), Except.ok.injEq] at hpadded
  refine ⟨fun b hb => require_eq_ok.mp (hbits b hb), g, hg, hfit, ?_⟩
  rw [← hencode, ← hpadded]
  simp

/-- The filler does not change the information part. -/
theorem k_of_fill (g : Graph) (n : Int) : (g.fill n).kOf = g.kOf := rfl

/-- Where the parameters alone give a graph, it differs from the encoder's in the filler only. -/
theorem encode_graph {p : LdpcParams} {info cw : Bits} (hderived : 0 < p.zc ∨ 0 ≤ p.infoBits)
    (hcw : ldpcEncode info p = .ok cw) :
    IsBits info ∧ ∃ g base : Graph, makeGraph p = .ok g ∧ g = base.fill p.infoBits ∧
      info.length ≤ base.kOf ∧ ∃ n,
        encodeGe (info ++ List.replicate (base.kOf - info.length) 0) (base.fill n) = .ok cw := by
  obtain ⟨hbits, g, hg, hfit, hencode⟩ := encode_eq_ok hcw
  refine ⟨hbits, ?_⟩
  by_cases hdeclared : p.infoBits < 0
  · rw [LdpcParams.withInfo, if_pos hdeclared] at hg
    obtain ⟨base, rfl, hmake⟩ :=
      make_graph_fill (p := { p with infoBits := toInt32 info.length })
        (hderived.resolve_right (by omega)) hg p.infoBits (by omega)
    rw [k_of_fill] at hfit hencode
    exact ⟨base.fill p.infoBits, base, hmake, rfl, hfit, _, hencode⟩
  · rw [LdpcParams.withInfo, if_neg hdeclared] at hg
    obtain ⟨lift, hils, hkb, _, _, _, rfl⟩ := make_graph_eq_ok.mp hg
    rw [k_of_fill] at hfit hencode
    exact ⟨_, _, hg, rfl, hfit, p.infoBits, hencode⟩

/-- What an encoding returns is a code word of the graph that the parameters give. -/
theorem encode_code_word {p : LdpcParams} {info cw : Bits} (hderived : 0 < p.zc ∨ 0 ≤ p.infoBits)
    (hcw : ldpcEncode info p = .ok cw) : ∃ g, makeGraph p = .ok g ∧ info.length ≤ g.kOf ∧
      g.IsCodeword cw ∧ cw.take g.kOf = info ++ List.replicate (g.kOf - info.length) 0 := by
  obtain ⟨hbits, g, base, hg, rfl, hfit, n, hencode⟩ := encode_graph hderived hcw
  have hrange := n_of_lt hg
  obtain ⟨hcode, hsystematic⟩ := encode_ge_eq_ok (g := base.fill n) (by simpa using hbits)
    (by rw [k_of_fill]; simp; omega) hrange hencode
  exact ⟨_, hg, hfit, ⟨hcode.length_eq, hcode.bits, hcode.checks⟩, hsystematic⟩

/-- Once its graph is built, `ldpcEncode` pads bits that fit with zeros. -/
theorem encode_of_graph {p : LdpcParams} {info : Bits} {g : Graph}
    (hg : makeGraph (p.withInfo info) = .ok g) (hbits : IsBits info) (hfit : info.length ≤ g.kOf) :
    ldpcEncode info p = encodeGe (info ++ List.replicate (g.kOf - info.length) 0) g := by
  have hrange := n_of_lt hg
  have hle := g.k_of_le
  have hcast : toInt32 info.length ≤ g.kOf := by
    rw [to_int32_of_range (by omega) (by omega)]
    exact_mod_cast hfit
  have hcheck : Checked.forEach (fun b => require (b = 0 ∨ b = 1) "info bits must be 0/1") info =
      .ok () := Checked.for_each_eq_ok.mpr fun b hb => require_of (hbits b hb)
  have hpadded : Checked.writeFrom (List.replicate g.kOf 0) 0 info =
      .ok (info ++ List.replicate (g.kOf - info.length) 0) := by
    rw [Checked.write_from_ok (by simpa using hfit)]
    simp
  rw [ldpcEncode, hcheck, Checked.ok_bind, hg, Checked.ok_bind, require_of hcast, Checked.ok_bind,
    hpadded, Checked.ok_bind]

/-- The graph of parameters with a size also serves for encoding bits that fit. -/
theorem encode_eq {p : LdpcParams} {g : Graph} (hzc : 0 < p.zc) (hg : makeGraph p = .ok g)
    {info : Bits} (hbits : IsBits info) (hfit : info.length ≤ g.kOf) :
    ldpcEncode info p = encodeGe (info ++ List.replicate (g.kOf - info.length) 0) g := by
  have hrange := n_of_lt hg
  have hle := g.k_of_le
  -- the length of the bits decides about the filler of the graph only
  have hgraph : ∃ base : Graph, g = base.fill p.infoBits ∧
      ∃ n, makeGraph (p.withInfo info) = .ok (base.fill n) := by
    unfold LdpcParams.withInfo
    rw [to_int32_of_range (by omega) (by omega)]
    split
    · obtain ⟨base, hbase, hmake⟩ := make_graph_fill hzc hg info.length (by omega)
      exact ⟨base, hbase, _, hmake⟩
    · obtain ⟨base, hbase, hmake⟩ := make_graph_fill hzc hg 0 (by omega)
      exact ⟨base, hbase, p.infoBits, by rw [hg, hbase]⟩
  obtain ⟨base, rfl, n, hmake⟩ := hgraph
  rw [encode_of_graph hmake hbits hfit]
  rfl

/-- The parity part of a standard graph is invertible. -/
theorem kernel_trivial {g : Graph} {bg : BaseGraph} (hg : g.IsStandard bg)
    (x : Fin g.mOf → ZMod 2) (hx : g.Checks (joinWord g.kOf 0 x)) : x = 0 := by
  have hnOf : g.nOf = g.kOf + g.mOf := by
    rw [Graph.nOf, hg.nb_eq, Nat.add_mul, Graph.kOf, Graph.mOf]
  have hzero := checks_eq_zero hg hx fun i hi => if_pos hi
  funext c
  have hc := hzero (g.kOf + c) (by omega)
  simpa [joinWord] using hc

/-- On a standard configuration the encoder returns a code word that starts with the bits and zero
filler. -/
theorem encode_standard {p : LdpcParams} (hp : p.IsStandard) {g : Graph}
    (hg : makeGraph p = .ok g) (hstandard : g.IsStandard p.bg) {info : Bits}
    (hbits : IsBits info) (hfit : info.length ≤ g.kOf) :
    ∃ cw, ldpcEncode info p = .ok cw ∧ g.IsCodeword cw ∧
      cw.take g.kOf = info ++ List.replicate (g.kOf - info.length) 0 := by
  rw [encode_eq hp.zc_valid.1 hg hbits hfit]
  exact encode_ge_spec (Nat.le_of_eq hstandard.nb_eq.symm) (by simpa using hbits)
    (by simp; omega) (n_of_lt hg) (kernel_trivial hstandard)

/-- A word of the code's length is a code word exactly when encoding its information part returns
it. -/
theorem code_word_iff_encode {p : LdpcParams} (hp : p.IsStandard) {g : Graph}
    (hg : makeGraph p = .ok g) {w : Bits} (hbits : IsBits w) (hlength : w.length = g.nOf) :
    g.IsCodeword w ↔ ldpcEncode (w.take g.kOf) p = .ok w := by
  obtain ⟨_, _, hstandard⟩ := graph_standard hp hg
  have hinfo : (w.take g.kOf).length = g.kOf := by
    rw [List.length_take, hlength]
    exact Nat.min_eq_left g.k_of_le
  obtain ⟨cw, hcw, hcode, hsystematic⟩ :=
    encode_standard hp hg hstandard (hbits.take g.kOf) (Nat.le_of_eq hinfo)
  rw [hinfo, Nat.sub_self, List.replicate_zero, List.append_nil] at hsystematic
  rw [hcw, Except.ok.injEq]
  constructor
  · exact fun hw => code_word_unique hstandard hcode hw hsystematic
  · rintro rfl
    exact hcode

/-- The dense check accepts exactly the words whose beginning is a code word. -/
theorem syndrome_ok_iff {p : LdpcParams} {g : Graph} (hg : makeGraph p = .ok g) {w : Bits}
    (hbits : IsBits w) : ldpcSyndromeOk w p = .ok true ↔
      toInt32 w.length = g.nOf ∧ g.IsCodeword (w.take g.nOf) := by
  by_cases hlength : toInt32 w.length = g.nOf
  · have hlong : g.nOf ≤ w.length := by
      have := to_int32_le (Int.natCast_nonneg w.length)
      omega
    rw [syndrome_ok_eq hg hbits hlength hlong, Except.ok.injEq, decide_eq_true_iff,
      ← checks_congr fun i hi => word_of_take hi]
    constructor
    · intro h
      exact ⟨hlength, by simpa using hlong, hbits.take _, h⟩
    · exact fun h => h.2.checks
  · rw [ldpcSyndromeOk, hg, Checked.ok_bind, require_of_not hlength]
    simp [hlength]

/-- The whole code word passes the dense check. -/
theorem syndrome_ok_of_code_word {p : LdpcParams} {g : Graph} (hg : makeGraph p = .ok g)
    {cw : Bits} (hcode : g.IsCodeword cw) : ldpcSyndromeOk cw p = .ok true := by
  have hrange := n_of_lt hg
  refine (syndrome_ok_iff hg hcode.bits).mpr ⟨?_, ?_⟩
  · rw [hcode.length_eq]
    exact to_int32_of_range (by omega) (by omega)
  · rwa [List.take_of_length_le (by rw [hcode.length_eq])]

/-- As many bits as the base graph has information columns of the lifting size fit the graph. -/
theorem fits_k_of {p : LdpcParams} (hp : p.IsStandard) {g : Graph} (hg : g.IsStandard p.bg)
    (hzc : g.zc = p.zc.toNat) {n : Nat} (h : (n : Int) ≤ p.bg.kb * p.zc) : n ≤ g.kOf := by
  have hsize : ((g.zc : Nat) : Int) = p.zc := by
    have := hp.zc_valid.1
    omega
  rw [← hsize] at h
  rw [hg.k_of]
  exact_mod_cast h

/-- On every standard configuration the encoder returns a word of the code's length that starts
with the bits and zero filler and passes the dense check. Another word with this beginning that
passes has the code word in front, and is the code word exactly when it has fewer than `2 ^ 32`
bytes: the check casts the length to an `int`. -/
theorem encode_total_systematic_unique_iff {p : LdpcParams} (hp : p.IsStandard) {info : Bits}
    (hbits : IsBits info) (hlength : info.length ≤ p.bg.kb * p.zc)
    (hinfo : p.infoBits ≤ p.bg.kb * p.zc) :
    ∃ cw, ldpcEncode info p = .ok cw ∧ cw.length = (p.bg.kb + p.rows) * p.zc.toNat ∧ IsBits cw ∧
      cw.take info.length = info ∧
      (∀ i, info.length ≤ i → i < p.bg.kb * p.zc.toNat → cw[i]? = some 0) ∧
      ldpcSyndromeOk cw p = .ok true ∧
      ∀ other, IsBits other →
        other.take (p.bg.kb * p.zc.toNat) = cw.take (p.bg.kb * p.zc.toNat) →
        ldpcSyndromeOk other p = .ok true →
        other.take cw.length = cw ∧ (other = cw ↔ other.length < 2 ^ 32) := by
  obtain ⟨g, _, hg, _, hzc, _, hrows, hstandard⟩ := make_graph_standard hp hinfo
  have hfit := fits_k_of hp hstandard hzc hlength
  obtain ⟨cw, hcw, hcode, hsystematic⟩ := encode_standard hp hg hstandard hbits hfit
  have hrange := n_of_lt hg
  rw [← hzc, ← hrows, ← hstandard.k_of, ← hstandard.n_of]
  refine ⟨cw, hcw, hcode.length_eq, hcode.bits, ?_, fun i hi hik => ?_, ?_, ?_⟩
  · have hinitial := congrArg (List.take info.length) hsystematic
    rwa [List.take_take, Nat.min_eq_left hfit, List.take_left] at hinitial
  · have hread : (cw.take g.kOf)[i]? = some 0 := by
      rw [hsystematic, List.getElem?_append_right hi, List.getElem?_replicate, if_pos (by omega)]
    rwa [List.getElem?_take_of_lt hik] at hread
  · exact syndrome_ok_of_code_word hg hcode
  · intro other hother hsame hok
    obtain ⟨hcast, hcodeOther⟩ := (syndrome_ok_iff hg hother).mp hok
    have hequal : other.take g.nOf = cw := by
      refine code_word_unique hstandard hcodeOther hcode ?_
      rw [List.take_take, Nat.min_eq_left g.k_of_le, hsame]
    refine ⟨by rw [hcode.length_eq, hequal], fun hsameWord => ?_, fun hshort => ?_⟩
    · rw [hsameWord, hcode.length_eq]
      exact hrange.trans (by norm_num)
    · have hotherLength : other.length = g.nOf :=
        Int.ofNat_inj.mp (eq_of_to_int32 hcast (by omega) (by omega))
      rwa [List.take_of_length_le (Nat.le_of_eq hotherLength)] at hequal

/-- Two information bits of lifting size 2 on all rows of the second base graph. -/
theorem encode_total_systematic_unique_iff_two : ∃ cw, ldpcEncode [1, 0] { zc := 2 } = .ok cw ∧
    cw.length = 104 ∧ cw.take 2 = [1, 0] ∧ ldpcSyndromeOk cw { zc := 2 } = .ok true := by
  have hp : ({ zc := 2 } : LdpcParams).IsStandard := standard_two _
  obtain ⟨cw, hcw, hlength, _, hinitial, _, hok, _⟩ := encode_total_systematic_unique_iff hp
    (show IsBits [1, 0] by simp) (by decide) (by decide)
  exact ⟨cw, hcw, hlength.trans (by decide), hinitial, hok⟩

/-- Bytes behind a code word are not seen by the dense check when the cast of the length misses
them. -/
theorem syndrome_ok_append {p : LdpcParams} {g : Graph} (hg : makeGraph p = .ok g) {cw rest : Bits}
    (hcode : g.IsCodeword cw) (hrest : IsBits rest)
    (hcast : toInt32 (g.nOf + rest.length : Nat) = g.nOf) :
    ldpcSyndromeOk (cw ++ rest) p = .ok true := by
  refine (syndrome_ok_iff hg fun b hb => ?_).mpr ⟨?_, ?_⟩
  · exact (List.mem_append.mp hb).elim (hcode.bits b) (hrest b)
  · rwa [List.length_append, hcode.length_eq]
  · rwa [← hcode.length_eq, List.take_left]

/-- The code word of two bits with `2 ^ 32` zeros behind it passes the dense check as well. -/
theorem encode_not_unique : ∃ cw rest, ldpcEncode [1, 0] { zc := 2 } = .ok cw ∧
    rest = List.replicate (2 ^ 32) 0 ∧ IsBits (cw ++ rest) ∧ (cw ++ rest).take 20 = cw.take 20 ∧
    ldpcSyndromeOk (cw ++ rest) { zc := 2 } = .ok true ∧ cw ++ rest ≠ cw := by
  have hp : ({ zc := 2 } : LdpcParams).IsStandard := standard_two _
  obtain ⟨g, _, hg, _, hzc, _, hrows, hstandard⟩ := make_graph_standard hp (by decide)
  have hn : g.nOf = 104 := by
    rw [hstandard.n_of, hzc, hrows]
    decide
  obtain ⟨cw, hcw, hcode, _⟩ := encode_standard hp hg hstandard (show IsBits [1, 0] by simp)
    (fits_k_of hp hstandard hzc (by decide))
  have hlength : cw.length = 104 := hcode.length_eq.trans hn
  obtain ⟨rest, hzeros⟩ : ∃ rest : Bits, rest = List.replicate (2 ^ 32) 0 := ⟨_, rfl⟩
  have hrest : IsBits rest := hzeros ▸ is_bits_replicate _
  have hsize : rest.length = 2 ^ 32 := by rw [hzeros, List.length_replicate]
  refine ⟨cw, rest, hcw, hzeros, ?_, ?_, syndrome_ok_append hg hcode hrest ?_, fun hequal => ?_⟩
  · exact fun b hb => (List.mem_append.mp hb).elim (hcode.bits b) (hrest b)
  · rw [List.take_append_of_le_length (by omega)]
  · rw [hn, hsize]
    decide +kernel
  · have hlonger := congrArg List.length hequal
    rw [List.length_append, hsize] at hlonger
    omega

/-- Parameters whose declared bits do not fit are rejected by the encoder. -/
theorem info_bits_le_of_encode {p : LdpcParams} (hp : p.IsStandard) {info cw : Bits}
    (h : ldpcEncode info p = .ok cw) : p.infoBits ≤ p.bg.kb * p.zc := by
  have hpos := hp.zc_valid.1
  by_cases hnegative : p.infoBits < 0
  · have hnonneg : 0 ≤ (p.bg.kb : Int) * p.zc := Int.mul_nonneg (by omega) (by omega)
    omega
  · have hdeclared : p.withInfo info = p := if_neg hnegative
    obtain ⟨_, g, hg, _⟩ := encode_eq_ok h
    exact info_bits_le hp (hdeclared ▸ hg)

/-- Standard parameters stay standard when they are cut to at least the core rows. -/
theorem LdpcParams.IsStandard.truncate {p : LdpcParams} (hp : p.IsStandard) {m : Nat}
    (hm : 4 ≤ m ∧ m ≤ p.bg.mb) : { p with mbUse := m }.IsStandard :=
  ⟨hp.zc_valid, hp.ils_le, hp.kb_default, .inr ⟨Int.ofNat_le.mpr hm.1, Int.ofNat_le.mpr hm.2⟩⟩

/-- The graphs of parameters for all rows and for the first rows have one lifting. -/
theorem make_graph_truncated {p : LdpcParams} (hp : p.IsStandard) (hall : p.mbUse ≤ 0) {m : Nat}
    (hm : 4 ≤ m ∧ m ≤ p.bg.mb) (hinfo : p.infoBits ≤ p.bg.kb * p.zc) : ∃ g short,
      makeGraph p = .ok g ∧ makeGraph { p with mbUse := m } = .ok short ∧
      g.IsStandard p.bg ∧ short.IsStandard p.bg ∧ g.zc = p.zc.toNat ∧ short.zc = g.zc ∧
      short.iLs = g.iLs ∧ short.mb = m ∧ short.mb ≤ g.mb := by
  obtain ⟨g, lift, hg, hlift, hzc, hils, hrows, hstandard⟩ := make_graph_standard hp hinfo
  obtain ⟨short, lift', hshort, hlift', hshortZc, hshortIls, hshortRows, hshortStandard⟩ :=
    make_graph_standard (hp.truncate hm) hinfo
  have hsame : lift' = lift := by
    have hchoose : chooseLifting p = .ok lift' := hlift'
    rw [hlift, Except.ok.injEq] at hchoose
    exact hchoose.symm
  have hmb : short.mb = m := by
    rw [hshortRows, LdpcParams.rows, if_pos (by show (m : Int) > 0; omega)]
    exact Int.toNat_natCast m
  have hle : short.mb ≤ g.mb := by
    rw [hmb, hrows, LdpcParams.rows, if_neg (by omega)]
    exact hm.2
  exact ⟨g, short, hg, hshort, hstandard, hshortStandard, hzc, hshortZc.trans hzc.symm,
    Fin.ext (by rw [hshortIls, hils, hsame]), hmb, hle⟩

/-- Encoding with the first `m` rows, at least the core, returns the beginning of the word that
encoding with all rows returns. -/
theorem truncated_encode_is_prefix {p : LdpcParams} (hp : p.IsStandard) (hall : p.mbUse ≤ 0)
    {m : Nat} (hm : 4 ≤ m ∧ m ≤ p.bg.mb) {info : Bits} (hbits : IsBits info)
    (hlength : info.length ≤ p.bg.kb * p.zc) :
    (p.infoBits ≤ p.bg.kb * p.zc → ∃ cw, ldpcEncode info p = .ok cw) ∧
    ∀ cw, ldpcEncode info p = .ok cw →
      ldpcEncode info { p with mbUse := m } = .ok (cw.take ((p.bg.kb + m) * p.zc.toNat)) := by
  have hencode (hinfo : p.infoBits ≤ p.bg.kb * p.zc) : ∃ cw, ldpcEncode info p = .ok cw ∧
      ldpcEncode info { p with mbUse := m } =
        .ok (cw.take ((p.bg.kb + m) * p.zc.toNat)) := by
    obtain ⟨g, short, hg, hshort, hstandard, hshortStandard, hzc, hshortZc, hils, hmb, hle⟩ :=
      make_graph_truncated hp hall hm hinfo
    have hkOf : short.kOf = g.kOf := by
      rw [hstandard.k_of, hshortStandard.k_of, hshortZc]
    have hfit := fits_k_of hp hstandard hzc hlength
    obtain ⟨cw, hcw, hcode, hsystematic⟩ := encode_standard hp hg hstandard hbits hfit
    obtain ⟨cw', hcw', hcode', hsystematic'⟩ :=
      encode_standard (hp.truncate hm) hshort hshortStandard hbits (hkOf ▸ hfit)
    -- the cut word is a code word of the short code with the same information part
    have hinitial : short.IsCodeword (cw.take short.nOf) :=
      code_word_truncate hstandard hshortStandard hshortZc hils hle hcode
    refine ⟨cw, hcw, ?_⟩
    rw [hcw', ← hmb, ← hzc, ← hshortZc, ← hshortStandard.n_of, Except.ok.injEq]
    refine code_word_unique hshortStandard hcode' hinitial ?_
    rw [List.take_take, Nat.min_eq_left short.k_of_le, hsystematic', hkOf, hsystematic]
  refine ⟨fun hinfo => ?_, fun cw hcw => ?_⟩
  · obtain ⟨cw, hcw, _⟩ := hencode hinfo
    exact ⟨cw, hcw⟩
  · obtain ⟨_, hword, hinitial⟩ := hencode (info_bits_le_of_encode hp hcw)
    rw [hcw, Except.ok.injEq] at hword
    rw [hinitial, hword]

/-- The four core rows against all rows, for two information bits of lifting size 2. -/
theorem truncated_encode_is_prefix_two : ∃ cw, ldpcEncode [1, 0] { zc := 2 } = .ok cw ∧
    ldpcEncode [1, 0] { zc := 2, mbUse := 4 } = .ok (cw.take 28) := by
  have hp : ({ zc := 2 } : LdpcParams).IsStandard := standard_two _
  obtain ⟨htotal, hinitial⟩ := truncated_encode_is_prefix hp (by decide) (m := 4) (by decide)
    (show IsBits [1, 0] by simp) (by decide)
  obtain ⟨cw, hcw⟩ := htotal (by decide)
  exact ⟨cw, hcw, hinitial cw hcw⟩

end NrBaseband
