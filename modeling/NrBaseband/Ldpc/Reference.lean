import NrBaseband.Ldpc.Encode

/-!
# The graph report and the reference vectors

`ldpcGraphInfo` reports the dimensions of the graph of some parameters and `ldpcMakeReference` pairs
an encoding with the report. The encoder derives its graph from the parameters and the number of
bits it is given, the others from the parameters alone: `encoder_reference_agree_iff` says when the
two agree, and `filler_zero_iff` when the positions reported as filler stay zero.
-/

namespace NrBaseband

open Foundation Foundation.MachineInt

/-- `LdpcGraphInfo`. -/
structure LdpcGraphInfo where
  mb : Nat
  nb : Nat
  kb : Nat
  zc : Nat
  iLs : Nat
  nLdpc : Nat
  kLdpc : Nat
  fillerBits : Int
  provenance : String
  deriving DecidableEq, Repr

/-- `ldpc_graph_info`. -/
def ldpcGraphInfo (p : LdpcParams) : Checked LdpcGraphInfo := do
  let g ← makeGraph p
  return { mb := g.mb, nb := g.nb, kb := g.kb, zc := g.zc, iLs := g.iLs, nLdpc := g.nOf,
           kLdpc := g.kOf, fillerBits := g.filler, provenance := g.provenance }

/-- `LdpcReferenceVector`. -/
structure LdpcReferenceVector where
  info : Bits
  codeword : Bits
  params : LdpcParams
  provenance : String
  deriving DecidableEq, Repr

/-- `ldpc_make_reference`. -/
def ldpcMakeReference (info : Bits) (p : LdpcParams) : Checked LdpcReferenceVector := do
  let codeword ← ldpcEncode info p
  let report ← ldpcGraphInfo p
  return { info, codeword, params := p, provenance := report.provenance ++ "; self-generated" }

/-- What a report that is returned says. -/
theorem graph_info_eq_ok {p : LdpcParams} {report : LdpcGraphInfo}
    (h : ldpcGraphInfo p = .ok report) : ∃ g, makeGraph p = .ok g ∧ report.nLdpc = g.nOf ∧
      report.kLdpc = g.kOf ∧ report.fillerBits = g.filler := by
  obtain ⟨g, hg, hreport⟩ := Checked.bind_eq_ok.mp h
  rw [Checked.pure_eq_ok, Except.ok.injEq] at hreport
  subst hreport
  exact ⟨g, hg, rfl, rfl, rfl⟩

/-- Parameters with a graph have a report. -/
theorem graph_info_of_graph {p : LdpcParams} {g : Graph} (hg : makeGraph p = .ok g) :
    ∃ report, ldpcGraphInfo p = .ok report ∧ report.nLdpc = g.nOf ∧ report.kLdpc = g.kOf ∧
      report.fillerBits = g.filler := by
  rw [ldpcGraphInfo, hg]
  exact ⟨_, rfl, rfl, rfl, rfl⟩

/-- The filler of a graph is what `n` bits leave exactly when `n` is the declared number of bits or,
where none is declared, fills the information part of the size asked for. -/
theorem filler_eq_iff {p : LdpcParams} {g : Graph} (hg : makeGraph p = .ok g) (n : Nat) :
    g.filler = (g.kOf : Int) - n ↔
      (n : Int) = if p.infoBits > 0 then p.infoBits else p.kbOf * p.zc := by
  obtain ⟨hkb, hsize, hdeclared, hgraph⟩ := make_graph_dims hg
  rw [hgraph]
  by_cases hpos : p.infoBits > 0
  · rw [if_pos hpos, if_pos hpos]
    omega
  · rw [if_neg hpos, if_neg hpos]
    have hzc : 0 < p.zc := by
      by_contra hle
      exact hpos (hdeclared (by omega))
    rw [← hsize hzc, ← hkb, ← Nat.cast_mul, ← Graph.kOf]
    omega

/-- An encoding of that many bits is of a size asked for or of declared bits: without both the
encoder needs bits to choose a size. -/
theorem size_or_declared {p : LdpcParams} {info cw : Bits} (hcw : ldpcEncode info p = .ok cw)
    (hlength : (info.length : Int) = if p.infoBits > 0 then p.infoBits else p.kbOf * p.zc) :
    0 < p.zc ∨ 0 ≤ p.infoBits := by
  by_contra hnone
  obtain ⟨hbits, g, hg, _⟩ := encode_eq_ok hcw
  rw [if_neg (by omega)] at hlength
  have hnonpos : (p.kbOf : Int) * p.zc ≤ 0 :=
    Int.mul_nonpos_of_nonneg_of_nonpos (Int.natCast_nonneg _) (by omega)
  have hnil : info.length = 0 := by omega
  rw [LdpcParams.withInfo, if_pos (by omega), hnil] at hg
  have hpositive : 0 < toInt32 ((0 : Nat) : Int) :=
    (make_graph_dims hg).2.2.1 (by show p.zc ≤ 0; omega)
  exact absurd hpositive (by decide)

/-- The report, the checker and the reference builder agree with an encoding exactly when the
number of bits is the declared one or, where none is declared, fills the information part of the
size asked for. -/
theorem encoder_reference_agree_iff {p : LdpcParams} {info cw : Bits}
    (hcw : ldpcEncode info p = .ok cw) :
    (∃ report reference, ldpcGraphInfo p = .ok report ∧
      ldpcMakeReference info p = .ok reference ∧ report.nLdpc = cw.length ∧
      report.fillerBits = (report.kLdpc : Int) - info.length ∧ ldpcSyndromeOk cw p = .ok true ∧
      reference.codeword = cw) ↔
    (info.length : Int) = if p.infoBits > 0 then p.infoBits else p.kbOf * p.zc := by
  constructor
  · intro ⟨report, _, hreport, _, _, hfiller, _⟩
    obtain ⟨g, hg, _, hk, hreported⟩ := graph_info_eq_ok hreport
    rw [hreported, hk] at hfiller
    exact (filler_eq_iff hg info.length).mp hfiller
  · intro hlength
    obtain ⟨g, hg, _, hcode, _⟩ := encode_code_word (size_or_declared hcw hlength) hcw
    obtain ⟨report, hreport, hn, hk, hfiller⟩ := graph_info_of_graph hg
    refine ⟨report, ⟨info, cw, p, report.provenance ++ "; self-generated"⟩, hreport, ?_, ?_, ?_,
      syndrome_ok_of_code_word hg hcode, rfl⟩
    · rw [ldpcMakeReference, hcw, Checked.ok_bind, hreport]
      rfl
    · rw [hn, hcode.length_eq]
    · rw [hfiller, hk]
      exact (filler_eq_iff hg info.length).mpr hlength

/-- Two declared bits of lifting size 2 are encoded. -/
theorem encode_two : ∃ cw, ldpcEncode [1, 0] { zc := 2, infoBits := 2 } = .ok cw := by
  have hp : ({ zc := 2, infoBits := 2 } : LdpcParams).IsStandard := standard_two _
  obtain ⟨g, _, hg, _, hzc, _, _, hstandard⟩ := make_graph_standard hp (by decide)
  obtain ⟨cw, hcw, _⟩ := encode_standard hp hg hstandard (show IsBits [1, 0] by simp)
    (fits_k_of hp hstandard hzc (by decide))
  exact ⟨cw, hcw⟩

/-- The report and the reference of this encoding. -/
theorem encoder_reference_agree_iff_two : ∃ cw, ldpcEncode [1, 0] { zc := 2, infoBits := 2 } =
      .ok cw ∧ ∃ report reference, ldpcGraphInfo { zc := 2, infoBits := 2 } = .ok report ∧
      ldpcMakeReference [1, 0] { zc := 2, infoBits := 2 } = .ok reference ∧
      report.nLdpc = cw.length ∧ report.fillerBits = (report.kLdpc : Int) - 2 ∧
      ldpcSyndromeOk cw { zc := 2, infoBits := 2 } = .ok true ∧ reference.codeword = cw := by
  obtain ⟨cw, hcw⟩ := encode_two
  exact ⟨cw, hcw, (encoder_reference_agree_iff hcw).mpr (by decide)⟩

/-- Under the default parameters the encoder takes one bit, and the report of these parameters
throws. -/
theorem report_throws_on_default : ∃ cw, ldpcEncode [1] {} = .ok cw ∧
    ldpcGraphInfo {} = .error (.error "zc==0 requires info_bits for lifting selection") := by
  -- the bit selects lifting size 2
  let p : LdpcParams := { zc := 2, infoBits := 1 }
  have hp : p.IsStandard := standard_two 1
  obtain ⟨g, _, hg, _, hzc, _, _, hstandard⟩ := make_graph_standard hp (by decide)
  have hsame : makeGraph (LdpcParams.withInfo {} [1]) = makeGraph p := by
    have hselect : selectLifting (LdpcParams.withInfo {} [1]).infoBits
        (LdpcParams.withInfo {} [1]).bg = .ok ⟨2, 0, 10, by decide⟩ := by decide +kernel
    have hlift : chooseLifting (LdpcParams.withInfo {} [1]) = chooseLifting p := by
      rw [chooseLifting, dif_neg (by decide), require_of (by decide), Checked.ok_bind, hselect]
      rfl
    rw [makeGraph, makeGraph, hlift]
    rfl
  have hfit : ([1] : Bits).length ≤ g.kOf := fits_k_of hp hstandard hzc (by decide)
  have hpadded : IsBits ([1] ++ List.replicate (g.kOf - 1) 0) := by simp
  have hlength : ([1] ++ List.replicate (g.kOf - 1) 0 : Bits).length = g.kOf := by
    rw [List.length_append, List.length_replicate]
    exact Nat.add_sub_cancel' hfit
  obtain ⟨cw, hcw, _⟩ := encode_ge_spec (Nat.le_of_eq hstandard.nb_eq.symm) hpadded hlength
    (n_of_lt hg) (kernel_trivial hstandard)
  refine ⟨cw, ?_, rfl⟩
  rw [encode_of_graph (hsame.trans hg) (by simp) hfit]
  exact hcw

/-- The positions reported as filler are zero exactly when the information bits are zero from the
declared number on. -/
theorem filler_positions_iff {p : LdpcParams} {info cw : Bits} (hdeclared : 0 < p.infoBits)
    (hcw : ldpcEncode info p = .ok cw) : ∃ report, ldpcGraphInfo p = .ok report ∧
      report.fillerBits = (report.kLdpc : Int) - p.infoBits ∧
      ((∀ i : Nat, p.infoBits ≤ i → i < report.kLdpc → cw[i]? = some 0) ↔
        ∀ i : Nat, p.infoBits ≤ i → info.getD i 0 = 0) := by
  obtain ⟨g, hg, hfit, _, hsystematic⟩ := encode_code_word (.inr (Int.le_of_lt hdeclared)) hcw
  obtain ⟨report, hreport, _, hk, hfiller⟩ := graph_info_of_graph hg
  obtain ⟨_, _, _, hgraph⟩ := make_graph_dims hg
  rw [if_pos hdeclared] at hgraph
  have hposition (i : Nat) (hi : i < g.kOf) : cw[i]? = some (info.getD i 0) := by
    rw [← List.getElem?_take_of_lt hi, hsystematic, List.getD_eq_getElem?_getD]
    by_cases hlt : i < info.length
    · rw [List.getElem?_append_left hlt, List.getElem?_eq_getElem hlt, Option.getD_some]
    · rw [List.getElem?_append_right (by omega), List.getElem?_replicate, if_pos (by omega),
        List.getElem?_eq_none (by omega), Option.getD_none]
  refine ⟨report, hreport, by rw [hfiller, hk, hgraph], ?_⟩
  rw [hk]
  constructor
  · intro h i hi
    by_cases hlt : i < g.kOf
    · simpa [hposition i hlt] using h i hi hlt
    · rw [List.getD_eq_getElem?_getD, List.getElem?_eq_none (by omega), Option.getD_none]
  · intro h i hi hlt
    rw [hposition i hlt, h i hi]

/-- The positions reported as filler are all zero, and an encoding of more bits than are declared is
rejected. -/
def FillerKept (p : LdpcParams) (info cw : Bits) : Prop :=
  (∃ report, ldpcGraphInfo p = .ok report ∧
    report.fillerBits = (report.kLdpc : Int) - p.infoBits ∧
    ∀ i : Nat, p.infoBits ≤ i → i < report.kLdpc → cw[i]? = some 0) ∧
  (p.infoBits < info.length → ∃ message, ldpcEncode info p = .error (.error message))

/-- Where the encoder returns, the filler is kept exactly when there are at most the declared bits:
more of them are not rejected. -/
theorem filler_zero_iff {p : LdpcParams} {info cw : Bits} (hdeclared : 0 < p.infoBits)
    (hcw : ldpcEncode info p = .ok cw) : FillerKept p info cw ↔ info.length ≤ p.infoBits := by
  constructor
  · rintro ⟨_, hrejected⟩
    by_contra hlonger
    obtain ⟨message, herror⟩ := hrejected (not_le.mp hlonger)
    rw [hcw] at herror
    cases herror
  · intro hdeclares
    obtain ⟨report, hreport, hfiller, hzero⟩ := filler_positions_iff hdeclared hcw
    refine ⟨⟨report, hreport, hfiller, hzero.mpr fun i hi => ?_⟩, fun hlonger => ?_⟩
    · rw [List.getD_eq_getElem?_getD, List.getElem?_eq_none (by omega), Option.getD_none]
    · exact absurd hdeclares (not_le.mpr hlonger)

/-- Two declared bits of lifting size 2. -/
theorem filler_zero_iff_two : ∃ cw, ldpcEncode [1, 0] { zc := 2, infoBits := 2 } = .ok cw ∧
    FillerKept { zc := 2, infoBits := 2 } [1, 0] cw := by
  obtain ⟨cw, hcw⟩ := encode_two
  exact ⟨cw, hcw, (filler_zero_iff (by decide) hcw).mpr (by decide)⟩

/-- Twenty ones are encoded where ten bits are declared: position 10 is reported as filler and
is 1. -/
theorem filler_not_zero : ∃ cw, ldpcEncode (List.replicate 20 1) { zc := 2, infoBits := 10 } =
      .ok cw ∧ (∃ report, ldpcGraphInfo { zc := 2, infoBits := 10 } = .ok report ∧
      report.kLdpc = 20 ∧ report.fillerBits = 10 ∧ cw[10]? = some 1) ∧
      ¬FillerKept { zc := 2, infoBits := 10 } (List.replicate 20 1) cw := by
  have hp : ({ zc := 2, infoBits := 10 } : LdpcParams).IsStandard := standard_two _
  obtain ⟨g, _, hg, _, hzc, _, _, hstandard⟩ := make_graph_standard hp (by decide)
  have hkOf : g.kOf = 20 := by rw [hstandard.k_of, hzc]; rfl
  have hbits : IsBits (List.replicate 20 1) := fun b hb => .inr (List.eq_of_mem_replicate hb)
  obtain ⟨cw, hcw, _, hsystematic⟩ := encode_standard hp hg hstandard hbits (by simp [hkOf])
  obtain ⟨report, hreport, _, hk, hfiller⟩ := graph_info_of_graph hg
  obtain ⟨_, _, _, hgraph⟩ := make_graph_dims hg
  refine ⟨cw, hcw, ⟨report, hreport, by rw [hk, hkOf], ?_, ?_⟩, ?_⟩
  · rw [hfiller, hgraph, hkOf]
    decide
  · have hposition : (cw.take g.kOf)[10]? = some 1 := by
      rw [hsystematic]
      rfl
    rwa [List.getElem?_take_of_lt (by omega)] at hposition
  · rintro ⟨_, hrejected⟩
    obtain ⟨message, herror⟩ := hrejected (by decide)
    rw [hcw] at herror
    cases herror

end NrBaseband
