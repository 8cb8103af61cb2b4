import NrBaseband.Chain
import NrBaseband.HarqCombining
import NrBaseband.HardDecisions
import NrBaseband.Foundation.SignedSums
import NrBaseband.Ldpc.Erasures

/-!
# Soft reception with retransmissions

The code blocks of a transport block are sent over noisy symbols, each in several redundancy
versions and in any order. Every transmission is demapped softly, recovered and put into the buffer
of the process of its block, and the blocks are decoded from the combined values. As long as the
noise stays inside the decision regions, a soft value leans to its bit whatever its size, so sums of
them do (`receive_soft_ok`, `gathers_run`), and what has not been sent is an erasure.
`transport_block_received` says that the transport block comes back once the core columns of every
block, the first two aside, have been sent.
-/

namespace NrBaseband

open Foundation Foundation.MachineInt Foundation.Pieces Foundation.Extended

variable {R : Type} [Field R] [LinearOrder R]

/-- One transmission of a coded word: its version and length, whether the first two columns are left
out, the modulation order, the noise variance that the receiver works with, and the noise on every
symbol. -/
structure AirTransmission (R : Type) where
  rv : Int
  eBits : Nat
  punctured : Bool
  order : ModulationOrder
  noiseVar : R
  noise : Nat → Point R

/-- A symbol with noise on both parts. -/
def Point.moved (z noise : Point R) : Point R := ⟨z.re + noise.re, z.im + noise.im⟩

/-- The received symbols. -/
def disturbed (noise : Nat → Point R) (syms : ComplexVec (Point R)) : ComplexVec (Point R) :=
  syms.mapIdx fun i z => z.moved (noise i)

variable (num : ExactReal R)

/-- The rate matching of a transmission of a planned block. -/
def AirTransmission.matching (t : AirTransmission R) (plan : CodeBlockPlan) : RateMatchConfig where
  eBits := t.eBits
  rv := t.rv
  nCb := 0
  zc := plan.zc
  bg := plan.bg
  punctureFirst2z := t.punctured

/-- The soft values recovered from one transmission of a coded block. -/
def receiveSoft (coded : Bits) (plan : CodeBlockPlan) (t : AirTransmission R) :
    Checked (SoftVec (Extended R)) := do
  let matched ← rateMatch coded (t.matching plan)
  let syms ← modulate num matched t.order
  let llr ← demodulateLlr num (disturbed t.noise syms) t.order t.noiseVar
  rateDematch llr (t.matching plan) plan.coded

/-! ## Soft values in the decision regions -/

/-- A part moved by less than the scale is nearest to the amplitude it comes from, and to no
other. -/
theorem axis_nearest [IsStrictOrderedRing R] {s x : R} (hs : 0 < s) {nbits g : Nat}
    (h : |x - s * (level nbits g : R)| < s) (g' : Nat) :
    |x - s * (level nbits g : R)| ≤ |x - s * (level nbits g' : R)| ∧
      (|x - s * (level nbits g : R)| = |x - s * (level nbits g' : R)| → g = g') := by
  by_cases hsame : g = g'
  · exact ⟨by rw [hsame], fun _ => hsame⟩
  · have hfar : s ≤ |x - s * (level nbits g' : R)| :=
      not_lt.mp fun hnear => hsame (level_separated hs h hnear)
    exact ⟨h.le.trans hfar, fun heq => absurd (heq ▸ h) (not_lt.mpr hfar)⟩

/-- A symbol in the region of a label is nearer to its point than to any other. -/
theorem region_nearest [IsStrictOrderedRing R] {order : ModulationOrder} {n : Nat} {z : Point R}
    (h : InRegion num order (labelPoint num order n) z) {n' : Nat} (hne : n' ≠ n) :
    squaredDistance z (labelPoint num order n) < squaredDistance z (labelPoint num order n') := by
  have hs := scale_pos num order
  obtain ⟨hre, him⟩ := h
  obtain ⟨hleI, heqI⟩ := axis_nearest hs hre (n' >>> (bitsPerSymbol order / 2))
  obtain ⟨hleQ, heqQ⟩ := axis_nearest hs him (n' % 2 ^ (bitsPerSymbol order / 2))
  refine lt_of_le_of_ne (add_le_add (sq_le_sq.mpr hleI) (sq_le_sq.mpr hleQ)) fun heq => hne ?_
  -- equal sums of ordered squares have equal squares
  have hI := sq_le_sq.mpr hleI
  have hQ := sq_le_sq.mpr hleQ
  have hsumI := le_antisymm hI (by unfold squaredDistance labelPoint at heq; linarith)
  have hsumQ := le_antisymm hQ (by unfold squaredDistance labelPoint at heq; linarith)
  have hhigh := heqI ((sq_eq_sq_iff_abs_eq_abs _ _).mp hsumI)
  have hlow := heqQ ((sq_eq_sq_iff_abs_eq_abs _ _).mp hsumQ)
  rw [Nat.shiftRight_eq_div_pow, Nat.shiftRight_eq_div_pow] at hhigh
  rw [← Nat.div_add_mod n' (2 ^ (bitsPerSymbol order / 2)), ← hhigh, ← hlow, Nat.div_add_mod]

/-- A value that fits a bit and is not zero leans to it. -/
theorem Fits.leans [IsStrictOrderedRing R] {e : R} {b : UInt8} (h : Fits e b)
    (hne : e ≠ 0) : Leans (signOf b) (finite e) := by
  refine ⟨e, rfl, ?_⟩
  rcases h with ⟨rfl, hle⟩ | ⟨rfl, hle⟩
  · rw [signOf, if_pos rfl, one_mul]
    exact lt_of_le_of_ne hle hne.symm
  · rw [signOf, if_neg (by decide), neg_one_mul, neg_pos]
    exact lt_of_le_of_ne hle hne

/-- The soft values of a symbol in the region of a label lean to the bits of the label. -/
theorem symbol_leans [IsStrictOrderedRing R] {order : ModulationOrder} {inv2s : R}
    (hpos : 0 < inv2s) {n : Nat} (hn : n < 2 ^ bitsPerSymbol order) {z : Point R}
    (h : InRegion num order (labelPoint num order n) z) :
    List.Forall₂ (fun l b => Leans (signOf b) l)
      ((List.range (bitsPerSymbol order)).map fun k =>
        symbolLlr (constellation num order) (bitsPerSymbol order) inv2s z k)
      (labelBits n (bitsPerSymbol order)) := by
  let t : Fin (1 <<< bitsPerSymbol order) := ⟨n, hn.trans_eq (num_points order).symm⟩
  have hpoint : (constellation num order).get t = labelPoint num order n := get_constellation num t
  have hstrict (s : Fin (1 <<< bitsPerSymbol order)) (hs : s ≠ t) :
      squaredDistance z ((constellation num order).get t) <
        squaredDistance z ((constellation num order).get s) := by
    rw [hpoint, get_constellation]
    exact region_nearest num h fun heq => hs (Fin.ext heq)
  have hmin (s : Fin (1 <<< bitsPerSymbol order)) :
      squaredDistance z ((constellation num order).get t) ≤
        squaredDistance z ((constellation num order).get s) := by
    by_cases hs : s = t
    · rw [hs]
    · exact (hstrict s hs).le
  rw [label_bits_eq, List.forall₂_map_left_iff, List.forall₂_map_right_iff, List.forall₂_same]
  intro k hk
  obtain ⟨e, he, hfits, hne⟩ :=
    symbol_llr_fits (num_points order) (List.mem_range.mp hk) hpos hmin
  rw [he]
  exact hfits.leans (hne hstrict)

/-- Noise that keeps every symbol in the region of its label. -/
def Quiet (order : ModulationOrder) (count : Nat) (noise : Nat → Point R) : Prop :=
  ∀ i < count, |(noise i).re| < scaleFor num order ∧ |(noise i).im| < scaleFor num order

/-- The soft demapper works symbol by symbol. -/
theorem demodulate_llr_eq (order : ModulationOrder) {noiseVar : R}
    (h : 0 < noiseVar) (syms : ComplexVec (Point R)) :
    demodulateLlr num syms order noiseVar = .ok (syms.flatMap fun y =>
      (List.range (bitsPerSymbol order)).map fun k =>
        symbolLlr (constellation num order) (bitsPerSymbol order) (1 / ((2 : Nat) * noiseVar)) y
          k) := by
  rw [demodulateLlr, require_of h]
  rfl

/-- The soft values of a disturbed vector lean to its bits. -/
theorem demodulate_leans [IsStrictOrderedRing R] {order : ModulationOrder} {noiseVar : R}
    (hnoiseVar : 0 < noiseVar) {bits : Bits} (hbits : IsBits bits)
    (hlength : bits.length % bitsPerSymbol order = 0) (hfit : bits.length ≤ 2 ^ 31)
    {noise : Nat → Point R}
    (hquiet : Quiet num order (bits.length / bitsPerSymbol order) noise) :
    ∃ syms llr, modulate num bits order = .ok syms ∧
      demodulateLlr num (disturbed noise syms) order noiseVar = .ok llr ∧
      List.Forall₂ (fun l b => Leans (signOf b) l) llr bits := by
  refine ⟨_, _, modulate_spec num hbits hlength hfit, demodulate_llr_eq num order hnoiseVar _, ?_⟩
  let sent (n : Nat) : Point R :=
    labelPoint num order ((piece 0 (bitsPerSymbol order) bits n).foldl pushBit 0)
  have hreceived : disturbed noise ((List.range (bits.length / bitsPerSymbol order)).map sent) =
      (List.range (bits.length / bitsPerSymbol order)).map fun n => (sent n).moved (noise n) := by
    refine List.ext_getElem (by simp [disturbed]) fun n hn _ => ?_
    simp [disturbed]
  rw [hreceived, List.flatMap_map]
  have hall := Checked.forall₂_flat_map (List.range (bits.length / bitsPerSymbol order))
    fun n hn => symbol_leans num (inv2s_pos hnoiseVar) (z := (sent n).moved (noise n))
      (by
        have hlt := fold_push_bit_lt (is_bits_piece hbits (bitsPerSymbol order) n)
        rwa [length_piece] at hlt)
      ⟨by
        rw [Point.moved, add_sub_cancel_left]
        exact (hquiet n (List.mem_range.mp hn)).1, by
        rw [Point.moved, add_sub_cancel_left]
        exact (hquiet n (List.mem_range.mp hn)).2⟩
  have hlabels (n : Nat) : labelBits ((piece 0 (bitsPerSymbol order) bits n).foldl pushBit 0)
      (bitsPerSymbol order) = piece 0 (bitsPerSymbol order) bits n := by
    have hlabel := label_bits_fold (is_bits_piece hbits (bitsPerSymbol order) n)
    rwa [length_piece] at hlabel
  simp only [hlabels] at hall
  rwa [flat_map_pieces 0 hlength] at hall

/-! ## One transmission -/

/-- The receiver can work with a transmission: whole symbols, indices that fit an `int`, and noise
inside the decision regions. -/
structure AirTransmission.Admissible (t : AirTransmission R) : Prop where
  some_bits : 0 < t.eBits
  whole_symbols : t.eBits % bitsPerSymbol t.order = 0
  fits : t.eBits ≤ 2 ^ 31
  noise_var_pos : 0 < t.noiseVar
  quiet : Quiet num t.order (t.eBits / bitsPerSymbol t.order) t.noise

omit [Field R] [LinearOrder R] in
/-- The layout of a transmission: the circular buffer is the coded word, or what is left of it
without the first two columns. -/
theorem AirTransmission.layout {plan : CodeBlockPlan} (hlow : 0 < plan.zc) (hhigh : plan.zc ≤ 384)
    (t : AirTransmission R) :
    ∃ punch k0, (t.matching plan).Layout plan.coded punch (plan.coded - punch) k0 := by
  cases hpunctured : t.punctured with
  | false =>
      obtain ⟨k0, hlayout⟩ := layout_whole plan.bg hlow hhigh t.eBits t.rv
      refine ⟨0, k0, ?_⟩
      rw [AirTransmission.matching, hpunctured]
      exact hlayout
  | true =>
      have hcols : 52 ≤ plan.bg.nb ∧ plan.bg.nb ≤ 68 := by cases plan.bg <;> decide
      have hcoded : 52 * plan.zc ≤ plan.coded ∧ plan.coded ≤ 68 * 384 :=
        ⟨Nat.mul_le_mul_right _ hcols.1, Nat.mul_le_mul hcols.2 hhigh⟩
      have hdoubled : int32 (2 * (plan.zc : Int)) = .ok (2 * plan.zc) :=
        int32_of_range (by omega) (by omega)
      have hpunch : toSizeT (2 * (plan.zc : Int)) = 2 * plan.zc := by
        have hcast := to_size_t_of_lt (by omega : 0 ≤ 2 * (plan.zc : Int)) (by omega)
        omega
      have hversion : ((t.rv.tmod 4 + 4).tmod 4).toNat < ((rvCoeffs plan.bg).map fun coeff =>
          toSizeT ((coeff * (plan.coded - 2 * plan.zc : Nat) / (rvCols plan.bg * plan.zc)) *
            plan.zc)).length := by
        rw [List.length_map, (rv_coeffs_range plan.bg).2.1]
        exact version_lt t.rv
      have hstart : ∃ k0, startOffset (t.matching plan) (plan.coded - 2 * plan.zc) = .ok k0 := by
        unfold startOffset AirTransmission.matching
        dsimp only
        rw [if_pos (by omega), rv_k0_ok plan.bg (by omega) (by omega) (by omega) (by omega),
          Checked.ok_bind, Checked.read_of_lt hversion, Checked.ok_bind]
        exact ⟨_, rfl⟩
      obtain ⟨k0, hk0⟩ := hstart
      refine ⟨2 * plan.zc, k0, by omega, .inl ⟨⟨_, hdoubled, hpunch.symm⟩, hpunctured, ?_⟩, rfl,
        by omega, hk0⟩
      show (plan.zc : Int) > 0
      omega

omit [Field R] [LinearOrder R] in
/-- A transmission copies from a position as many bits as it reads there. -/
theorem copies_eq {plan : CodeBlockPlan} {t : AirTransmission R} (hE : 0 < t.eBits)
    {punch k0 : Nat} (hlayout : (t.matching plan).Layout plan.coded punch (plan.coded - punch) k0)
    (j : Nat) : copies plan.coded (t.matching plan) j = ((Finset.range t.eBits).filter fun i =>
      sourceIndex plan.coded punch (plan.coded - punch) k0 i = j).card := by
  have hsources : rateMatch (table plan.coded id) (t.matching plan) =
      .ok (table t.eBits fun i => sourceIndex plan.coded punch (plan.coded - punch) k0 i) :=
    rate_match_eq_ok.mpr ⟨hE, punch, plan.coded - punch, k0, hlayout, rfl⟩
  rw [copies, Table.range_eq_table, hsources]
  exact Table.count_table t.eBits _ j

/-- What is recovered from a transmission leans at every position to the bit there, or is zero
where nothing was copied. -/
theorem receive_soft_ok [IsStrictOrderedRing R] {plan : CodeBlockPlan} (hlow : 0 < plan.zc)
    (hhigh : plan.zc ≤ 384) {coded : Bits} (hbits : IsBits coded)
    (hlength : coded.length = plan.coded) {t : AirTransmission R} (ht : t.Admissible num) :
    ∃ soft, receiveSoft num coded plan t = .ok (table plan.coded soft) ∧
      ∀ j < plan.coded, Gathered (signOf (coded.getD j 0))
        (copies plan.coded (t.matching plan) j) (soft j) := by
  obtain ⟨punch, k0, hlayout⟩ := t.layout hlow hhigh
  let source (i : Nat) : Nat := sourceIndex plan.coded punch (plan.coded - punch) k0 i
  have hmatched : rateMatch coded (t.matching plan) =
      .ok (table t.eBits fun i => coded.getD (source i) 0) := by
    conv_lhs => rw [Table.eq_table coded 0, hlength]
    exact rate_match_eq_ok.mpr ⟨ht.some_bits, punch, plan.coded - punch, k0, hlayout, rfl⟩
  have hmatchedBits : IsBits (table t.eBits fun i => coded.getD (source i) 0) := by
    intro b hb
    obtain ⟨i, _, rfl⟩ := List.mem_map.mp hb
    exact hbits.getD _
  obtain ⟨syms, llr, hsyms, hllr, hleans⟩ := demodulate_leans num ht.noise_var_pos hmatchedBits
    (by rw [Table.length_table]; exact ht.whole_symbols)
    (by rw [Table.length_table]; exact ht.fits)
    (by rw [Table.length_table]; exact ht.quiet)
  have hsize := hleans.length_eq
  rw [Table.length_table] at hsize
  have hllrTable : llr = table t.eBits fun i => llr.getD i 0 := by
    conv_lhs => rw [Table.eq_table llr 0, hsize]
  have hlean (i : Nat) (hi : i < t.eBits) :
      Leans (signOf (coded.getD (source i) 0)) (llr.getD i 0) := by
    have hin : i < llr.length := hsize.symm ▸ hi
    have hget := hleans.get hin (by rwa [Table.length_table])
    rw [List.get_eq_getElem, List.get_eq_getElem] at hget
    rw [List.getD_eq_getElem _ _ hin]
    simpa [table] using hget
  have hrecovered := rate_dematch_ok hlayout (reads_last_of_le (Nat.le_refl _) k0 t.eBits)
    fun i => llr.getD i 0
  rw [← hllrTable] at hrecovered
  have hreceived : receiveSoft num coded plan t = .ok (table plan.coded fun j =>
      ∑ i ∈ (Finset.range t.eBits).filter (fun i => source i = j), llr.getD i 0) := by
    rw [receiveSoft, hmatched, Checked.ok_bind, hsyms, Checked.ok_bind, hllr, Checked.ok_bind,
      hrecovered]
  refine ⟨_, hreceived, fun j _ => ?_⟩
  rw [copies_eq ht.some_bits hlayout]
  refine gathered_sum _ fun i hi => ?_
  obtain ⟨hrange, hsource⟩ := Finset.mem_filter.mp hi
  rw [← hsource]
  exact hlean i (Finset.mem_range.mp hrange)

/-! ## All transmissions -/

/-- The process that combines the transmissions of each block, and its new-data indicator. -/
structure Processes where
  pid : Nat → UInt32
  ndi : Nat → Int

/-- Something that happens to the buffer: a transmission of a block, or a call for a process that
combines no block. -/
inductive AirEvent (R : Type) where
  | transmit (c : Nat) (t : AirTransmission R)
  | other (call : HarqCall (Extended R))

namespace Processes

/-- The buffer after one event. -/
def step (procs : Processes) (blocks : List CodeBlockPlan) (buffer : HarqBuffer (Extended R)) :
    AirEvent R → Checked (HarqBuffer (Extended R))
  | .transmit c t => do
      let plan ← Checked.read blocks c
      let coded ← ldpcEncode plan.bitsWithCrc plan.ldpc
      let soft ← receiveSoft num coded plan t
      buffer.upsert (procs.pid c) (procs.ndi c) soft t.rv
  | .other call => buffer.apply call

/-- The buffer after a list of events, from an empty one. -/
def run (procs : Processes) (blocks : List CodeBlockPlan) (events : List (AirEvent R)) :
    Checked (HarqBuffer (Extended R)) :=
  events.foldlM (procs.step num blocks) {}

/-- The call that an event amounts to, without its values. -/
def mark (procs : Processes) (blocks : List CodeBlockPlan) : AirEvent R → HarqMark
  | .transmit c _ =>
      .upsert (procs.pid c) (procs.ndi c) ((blocks[c]?.map CodeBlockPlan.coded).getD 0)
  | .other call => call.mark

/-- An event that the receiver can work with: an admissible transmission of a block, or a call for
another process. -/
def Accepts (procs : Processes) (count : Nat) : AirEvent R → Prop
  | .transmit c t => c < count ∧ t.Admissible num
  | .other call => ∀ c < count, call.pid ≠ procs.pid c

/-- The blocks have processes of their own. -/
def Separate (procs : Processes) (count : Nat) : Prop :=
  ∀ c < count, ∀ c' < count, procs.pid c = procs.pid c' → c = c'

end Processes

/-- How many bits the transmissions of block `c` copied from a position. -/
def copiesFrom (plan : CodeBlockPlan) (c : Nat) (events : List (AirEvent R)) (j : Nat) : Nat :=
  (events.map fun
    | .transmit c' t => if c' = c then copies plan.coded (t.matching plan) j else 0
    | .other _ => 0).sum

/-- What the process of a block holds after some events: nothing before the first transmission, and
then sums of values that lean to the coded bits. -/
def Gathers (procs : Processes) (plan : CodeBlockPlan) (coded : Bits) (c : Nat)
    (events : List (AirEvent R)) (buffer : HarqBuffer (Extended R)) : Prop :=
  (∀ t, .transmit c t ∉ events) ∧ buffer.procs (procs.pid c) = none ∨
  ∃ process soft, buffer.procs (procs.pid c) = some process ∧ process.ndi = procs.ndi c ∧
    process.softBuffer = table plan.coded soft ∧
    ∀ j < plan.coded, Gathered (signOf (coded.getD j 0)) (copiesFrom plan c events j) (soft j)

omit [Field R] [LinearOrder R] in
/-- One more event. -/
theorem copies_from_append (plan : CodeBlockPlan) (c : Nat) (events : List (AirEvent R))
    (event : AirEvent R) (j : Nat) : copiesFrom plan c (events ++ [event]) j =
      copiesFrom plan c events j + copiesFrom plan c [event] j := by
  simp [copiesFrom]

omit [Field R] [LinearOrder R] in
/-- Without a transmission nothing is copied. -/
theorem copies_from_none {plan : CodeBlockPlan} {c : Nat} {events : List (AirEvent R)}
    (h : ∀ t, .transmit c t ∉ events) (j : Nat) : copiesFrom plan c events j = 0 := by
  refine List.sum_eq_zero fun x hx => ?_
  obtain ⟨event, hevent, rfl⟩ := List.mem_map.mp hx
  cases event with
  | other call => rfl
  | transmit c' t =>
      have hne : c' ≠ c := fun heq => h t (heq ▸ hevent)
      exact if_neg hne

/-- An event that is no transmission of the block keeps what its process holds. -/
theorem gathers_kept {procs : Processes} {plan : CodeBlockPlan} {coded : Bits} {c : Nat}
    {events : List (AirEvent R)} {buffer updated : HarqBuffer (Extended R)}
    (h : Gathers procs plan coded c events buffer) {event : AirEvent R}
    (hevent : ∀ t, event ≠ .transmit c t)
    (hkept : updated.procs (procs.pid c) = buffer.procs (procs.pid c)) :
    Gathers procs plan coded c (events ++ [event]) updated := by
  have hnone : ∀ t, AirEvent.transmit c t ∉ [event] := fun t hmem =>
    hevent t (List.mem_singleton.mp hmem).symm
  rcases h with ⟨hfirst, habsent⟩ | ⟨process, soft, hprocess, hndi, hsoft, hgathered⟩
  · refine .inl ⟨fun t hmem => ?_, hkept.trans habsent⟩
    rcases List.mem_append.mp hmem with hmem | hmem
    · exact hfirst t hmem
    · exact hnone t hmem
  · refine .inr ⟨process, soft, hkept.trans hprocess, hndi, hsoft, fun j hj => ?_⟩
    rw [copies_from_append, copies_from_none hnone, Nat.add_zero]
    exact hgathered j hj

/-- The values of a transmission of the block find room in its process. -/
theorem gathers_room {procs : Processes} {plan : CodeBlockPlan} {coded : Bits} {c : Nat}
    {events : List (AirEvent R)} {buffer : HarqBuffer (Extended R)}
    (h : Gathers procs plan coded c events buffer) {process : HarqProcess (Extended R)}
    (hprocess : buffer.procs (procs.pid c) = some process) :
    process.softBuffer.length = plan.coded := by
  rcases h with ⟨_, habsent⟩ | ⟨stored, soft, hstored, _, hsoft, _⟩
  · rw [habsent] at hprocess
    cases hprocess
  · rw [hstored, Option.some.injEq] at hprocess
    rw [← hprocess, hsoft, Table.length_table]

/-- A transmission of the block adds what it copied to what its process holds. -/
theorem gathers_transmit [IsStrictOrderedRing R] {procs : Processes} {plan : CodeBlockPlan}
    {coded : Bits} {c : Nat} {events : List (AirEvent R)}
    {buffer updated : HarqBuffer (Extended R)} (h : Gathers procs plan coded c events buffer)
    {t : AirTransmission R} {soft : Nat → Extended R}
    (hgathered : ∀ j < plan.coded, Gathered (signOf (coded.getD j 0))
      (copies plan.coded (t.matching plan) j) (soft j))
    (happly : buffer.apply (.upsert (procs.pid c) (procs.ndi c) (table plan.coded soft) t.rv) =
      .ok updated) :
    Gathers procs plan coded c (events ++ [.transmit c t]) updated := by
  have hcopies (j : Nat) : copiesFrom plan c (events ++ [.transmit c t]) j =
      copiesFrom plan c events j + copies plan.coded (t.matching plan) j := by
    rw [copies_from_append]
    simp [copiesFrom]
  rcases h with ⟨hfirst, habsent⟩ | ⟨process, stored, hprocess, hndi, hstored, hholds⟩
  · -- the first transmission is stored
    obtain ⟨fresh, hfresh, hfreshNdi, hfreshSoft⟩ := HarqBuffer.upsert_absent habsent happly
    refine .inr ⟨fresh, soft, hfresh, hfreshNdi, hfreshSoft, fun j hj => ?_⟩
    rw [hcopies, copies_from_none hfirst, Nat.zero_add]
    exact hgathered j hj
  · -- a later one is added to what is stored
    rw [← hndi] at happly
    obtain ⟨combined, hcombined, hcombinedNdi, hcombinedSoft⟩ :=
      HarqBuffer.upsert_combine hprocess (by simp [hstored]) happly
    rw [hstored, Table.zip_with_table] at hcombinedSoft
    refine .inr ⟨combined, _, hcombined, hcombinedNdi.trans hndi, hcombinedSoft, fun j hj => ?_⟩
    rw [hcopies]
    exact (hholds j hj).add (hgathered j hj)

/-- One event the receiver can work with is a call on the buffer, which keeps, for every block, what
its process holds. -/
theorem gathers_step [IsStrictOrderedRing R] {procs : Processes} {blocks : List CodeBlockPlan}
    (hseparate : procs.Separate blocks.length) {coded : Nat → Bits}
    (hcoded : ∀ c (hc : c < blocks.length), blocks[c].EncodesTo (coded c))
    {events : List (AirEvent R)} {buffer : HarqBuffer (Extended R)}
    (h : ∀ c (hc : c < blocks.length), Gathers procs blocks[c] (coded c) c events buffer)
    {event : AirEvent R} (hevent : procs.Accepts num blocks.length event) :
    ∃ call : HarqCall (Extended R), call.mark = procs.mark blocks event ∧
      procs.step num blocks buffer event = buffer.apply call ∧
      ∀ updated, buffer.apply call = .ok updated → ∀ c (hc : c < blocks.length),
        Gathers procs blocks[c] (coded c) c (events ++ [event]) updated := by
  cases event with
  | other call =>
      refine ⟨call, rfl, rfl, fun updated hupdated c hc => ?_⟩
      exact gathers_kept (h c hc) (fun t => nofun) (HarqBuffer.apply_other (hevent c hc) hupdated)
  | transmit c t =>
      obtain ⟨hc, ht⟩ := hevent
      have hblock := hcoded c hc
      obtain ⟨soft, hsoft, hgathered⟩ :=
        receive_soft_ok num hblock.zc_pos hblock.zc_le hblock.is_bits hblock.length_eq ht
      refine ⟨.upsert (procs.pid c) (procs.ndi c) (table blocks[c].coded soft) t.rv, ?_, ?_,
        fun updated hupdated c' hc' => ?_⟩
      · rw [HarqCall.mark, Processes.mark, Table.length_table, List.getElem?_eq_getElem hc]
        rfl
      · rw [Processes.step, Checked.read_of_lt hc, Checked.ok_bind, hblock.encode, Checked.ok_bind,
          hsoft, Checked.ok_bind]
        refine HarqBuffer.upsert_eq_apply (fun process hprocess => ?_) t.rv
        rw [gathers_room (h c hc) hprocess, Table.length_table]
      · by_cases hsame : c' = c
        · subst hsame
          exact gathers_transmit (h c' hc) hgathered hupdated
        · refine gathers_kept (h c' hc') (fun t' heq => hsame ?_) ?_
          · exact (AirEvent.transmit.inj heq).1.symm
          · refine HarqBuffer.apply_other (fun heq => ?_) hupdated
            exact hsame (hseparate c hc c' hc' heq).symm

/-- Whatever the order of the events, the receiver works through all of them when the counts fit,
and every process holds what was sent of its block. -/
theorem gathers_run [IsStrictOrderedRing R] {procs : Processes} {blocks : List CodeBlockPlan}
    (hseparate : procs.Separate blocks.length) {coded : Nat → Bits}
    (hcoded : ∀ c (hc : c < blocks.length), blocks[c].EncodesTo (coded c))
    {events : List (AirEvent R)}
    (hevents : ∀ event ∈ events, procs.Accepts num blocks.length event)
    (hcounts : CountsFit (events.map (procs.mark blocks))) :
    ∃ buffer, procs.run num blocks events = .ok buffer ∧
      ∀ c (hc : c < blocks.length), Gathers procs blocks[c] (coded c) c events buffer := by
  let gathers (events : List (AirEvent R)) (buffer : HarqBuffer (Extended R)) : Prop :=
    ∀ c (hc : c < blocks.length), Gathers procs blocks[c] (coded c) c events buffer
  rcases HarqBuffer.run_cases (procs.step num blocks) (procs.mark blocks) gathers
    (fun c hc => .inl ⟨by simp, rfl⟩) events (fun event hevent before buffer hbefore =>
      gathers_step num hseparate hcoded hbefore (hevents event hevent)) with
    ⟨_, hrun⟩ | ⟨hover, _⟩
  · exact hrun
  · exact absurd hcounts hover

/-! ## Decoding -/

/-- Every position of the core columns but the first two has been sent. -/
def CoreSent (plan : CodeBlockPlan) (count : Nat → Nat) : Prop :=
  ∀ j < (plan.bg.kb + 4) * plan.zc, 2 * plan.zc ≤ j → 0 < count j

/-- Combined values that gather at least one soft value in the core columns are decoded to the
block: nothing sent is an erasure. -/
theorem gathered_decoded [IsStrictOrderedRing R] {plan : CodeBlockPlan} {g : Graph} {cw : Bits}
    (hg : makeGraph plan.ldpc = .ok g) (hstandard : g.IsStandard plan.bg) (hgzc : g.zc = plan.zc)
    (hzc : plan.ldpc.zc ≠ 0) (hiter : 3 ≤ plan.ldpc.maxIter) (hcw : g.IsCodeword cw)
    (hnOf : g.nOf = plan.coded) {soft : Nat → Extended R} {count : Nat → Nat}
    (hgathered : ∀ j < plan.coded, Gathered (signOf (cw.getD j 0)) (count j) (soft j))
    (hsent : CoreSent plan count) :
    ldpcDecode (table plan.coded soft) plan.ldpc = .ok (cw.take g.kOf) := by
  have hvalues (j : Nat) : ∃ v, j < plan.coded → soft j = finite v ∧
      0 ≤ signOf (cw.getD j 0) * v ∧ (0 < count j → 0 < signOf (cw.getD j 0) * v) := by
    by_cases hj : j < plan.coded
    · rcases hgathered j hj with ⟨hnone, hzero⟩ | ⟨_, v, hv, hsign⟩
      · exact ⟨0, fun _ => ⟨hzero, by rw [mul_zero], fun hcount => absurd hcount (by omega)⟩⟩
      · exact ⟨v, fun _ => ⟨hv, hsign.le, fun _ => hsign⟩⟩
    · exact ⟨0, fun h => absurd h hj⟩
  choose value hvalue using hvalues
  have hsoft : table plan.coded soft = (table plan.coded value).map finite := by
    rw [Table.map_table]
    exact Table.table_congr fun j hj => (hvalue j hj).1
  have hlean {j : Nat} (hj : j < plan.coded) : 0 ≤ signOf (cw.getD j 0) * value j ∧
      (0 < count j → 0 < signOf (cw.getD j 0) * value j) := (hvalue j hj).2
  have hcore : (plan.bg.kb + 4) * plan.zc ≤ plan.coded := by
    rw [← hnOf, hstandard.n_of, hgzc]
    exact Nat.mul_le_mul_right _ (by have := hstandard.mb_range; omega)
  have hfills : FilledBy (coreRank g cw (table plan.coded value)) g cw
      (table plan.coded value) := by
    refine core_fills hstandard (fun v hv => ?_) fun v hv hlow => ?_
    · rw [hnOf] at hv
      rw [Table.getD_table hv]
      exact (hlean hv).1
    · rw [hgzc] at hv hlow
      rw [Table.getD_table (hv.trans_le hcore)]
      exact (hlean (hv.trans_le hcore)).2 (hsent v hv hlow)
  rw [hsoft]
  exact code_word_filled (fun h => absurd h hzc) hg hstandard hcw
    (by rw [Table.length_table, hnOf]) hfills fun v _ =>
      ((core_rank_le g cw _ v).trans (round_of_le _)).trans (by omega)

namespace Processes

/-- What a process holds; the result of `get` is used without a test. -/
def stored (procs : Processes) (buffer : HarqBuffer (Extended R)) (c : Nat) :
    Checked (SoftVec (Extended R)) :=
  match buffer.get (procs.pid c) with
  | some soft => .ok soft
  | none => .error .undefined

/-- A block decoded from what its process holds, without its filler. -/
def decodeBlock (procs : Processes) (buffer : HarqBuffer (Extended R)) (plan : CodeBlockPlan)
    (c : Nat) : Checked Bits := do
  let soft ← procs.stored buffer c
  let out ← ldpcDecode soft plan.ldpc
  return plan.stripFiller out

/-- Decode all blocks and put their payloads together, cut to the length of the transport block. -/
def collect (procs : Processes) (cfg : SegmentationConfig) (blocks : List CodeBlockPlan)
    (buffer : HarqBuffer (Extended R)) (B : Nat) : Checked Bits := do
  let payloads ← (List.range blocks.length).mapM fun c => do
    let plan ← Checked.read blocks c
    let bits ← procs.decodeBlock buffer plan c
    return bits.take (bits.length - cfg.crcBits blocks.length)
  return payloads.flatten.take B

end Processes

/-- A block whose core columns, the first two aside, have been sent is decoded. -/
theorem block_decoded [IsStrictOrderedRing R] {cfg : SegmentationConfig} {L : Nat} {payload : Bits}
    {plan : CodeBlockPlan} (h : cfg.IsPlanOf L payload plan) {g : Graph} {cw : Bits}
    (hg : makeGraph plan.ldpc = .ok g) (hstandard : g.IsStandard plan.bg) (hgzc : g.zc = plan.zc)
    (hcw : g.IsCodeword cw) (hnOf : g.nOf = plan.coded)
    (hsystematic : cw.take g.kOf = plan.bitsWithCrc ++ List.replicate plan.fillerBits.toNat 0)
    {procs : Processes} {c : Nat} {events : List (AirEvent R)}
    {buffer : HarqBuffer (Extended R)} (hgathers : Gathers procs plan cw c events buffer)
    (hsent : CoreSent plan (copiesFrom plan c events)) :
    procs.decodeBlock buffer plan c = .ok plan.bitsWithCrc := by
  obtain ⟨_, hlow, hhigh⟩ := h.ldpc_standard
  have hzc : plan.ldpc.zc = plan.zc := by rw [h.ldpc_eq]
  have hiter : plan.ldpc.maxIter = 25 := by rw [h.ldpc_eq]
  rcases hgathers with ⟨hnone, _⟩ | ⟨process, soft, hprocess, _, hsoft, hgathered⟩
  · have hthird : 2 * plan.zc < (plan.bg.kb + 4) * plan.zc :=
      Nat.mul_lt_mul_of_pos_right (by omega) hlow
    exact absurd (hsent _ hthird (Nat.le_refl _)) (by rw [copies_from_none hnone]; decide)
  · have hstored : procs.stored buffer c = .ok (table plan.coded soft) := by
      rw [Processes.stored, HarqBuffer.get, hprocess, Option.map_some, hsoft]
    have hdecode := gathered_decoded hg hstandard hgzc (by omega) (by omega) hcw hnOf hgathered
      hsent
    rw [Processes.decodeBlock, hstored, Checked.ok_bind, hdecode, Checked.ok_bind, hsystematic,
      strip_filler]
    rfl

/-- A transport block comes back from noisy symbols: whatever the order, the versions and the
lengths of the transmissions of its blocks, and whatever happens to other processes in between, as
long as no counter of the buffer overflows, once the core columns of every block, the first two
aside, have been sent, with noise inside the decision regions, decoding the combined values and
putting the payloads together gives the transport block, and every block passes its check. -/
theorem transport_block_received [IsStrictOrderedRing R] {tb : Bits} {cfg : SegmentationConfig}
    {r : SegmentationResult} (hne : tb ≠ []) (hbits : IsBits tb)
    (hok : segmentTransportBlock tb cfg = .ok r) (hfits : cfg.FitsInt tb.length)
    {procs : Processes} (hseparate : procs.Separate r.codeBlocks.length)
    {events : List (AirEvent R)}
    (hevents : ∀ event ∈ events, procs.Accepts num r.codeBlocks.length event)
    (hcounts : CountsFit (events.map (procs.mark r.codeBlocks)))
    (hsent : ∀ c (hc : c < r.codeBlocks.length), CoreSent (r.codeBlocks.get ⟨c, hc⟩)
      (copiesFrom (r.codeBlocks.get ⟨c, hc⟩) c events)) :
    ∃ buffer, procs.run num r.codeBlocks events = .ok buffer ∧
      procs.collect cfg r.codeBlocks buffer tb.length = .ok tb ∧
      (1 < r.codeBlocks.length → cfg.attachCrc24bWhenSegmented = true →
        ∀ c (hc : c < r.codeBlocks.length), ∃ block,
          procs.decodeBlock buffer (r.codeBlocks.get ⟨c, hc⟩) c = .ok block ∧
            crcCheck block .crc24b = .ok true) := by
  obtain ⟨hK, _⟩ := segment_inv hne hok
  have hpos : 0 < cfg.wantedBlocks tb.length :=
    ceil_div_pos (List.length_pos_iff.mpr hne) (by omega)
  obtain ⟨hcount, _, _, hplan⟩ := segment_plans hne hbits hok (hfits.length_lt hpos) hfits.1
  have hcover : tb.length ≤ r.codeBlocks.length * cfg.share tb.length := by
    rw [hcount]
    exact le_mul_ceil_div hpos _
  have hrange := hfits.2
  rw [← hcount] at hplan hrange
  -- the code of every block
  have hcodes (c : Nat) : ∃ cw, ∀ hc : c < r.codeBlocks.length, ∃ g,
      makeGraph r.codeBlocks[c].ldpc = .ok g ∧ g.IsStandard r.codeBlocks[c].bg ∧
      g.zc = r.codeBlocks[c].zc ∧ r.codeBlocks[c].EncodesTo cw ∧ g.IsCodeword cw ∧
      g.nOf = r.codeBlocks[c].coded ∧ cw.take g.kOf =
        r.codeBlocks[c].bitsWithCrc ++ List.replicate r.codeBlocks[c].fillerBits.toNat 0 := by
    by_cases hc : c < r.codeBlocks.length
    · have hsize := (hplan c hc).length_eq
      rw [length_piece] at hsize
      obtain ⟨g, cw, hcode⟩ := planned_code (hplan c hc)
        ((hplan c hc).is_bits (is_bits_piece hbits _ _)) (by omega)
      exact ⟨cw, fun _ => ⟨g, hcode⟩⟩
    · exact ⟨[], fun h => absurd h hc⟩
  choose coded hcodes using hcodes
  have hencodes (c : Nat) (hc : c < r.codeBlocks.length) :
      r.codeBlocks[c].EncodesTo (coded c) := by
    obtain ⟨_, _, _, _, hencodes, _⟩ := hcodes c hc
    exact hencodes
  obtain ⟨buffer, hrun, hgathers⟩ := gathers_run num hseparate hencodes hevents hcounts
  have hdecoded (c : Nat) (hc : c < r.codeBlocks.length) :
      procs.decodeBlock buffer r.codeBlocks[c] c = .ok r.codeBlocks[c].bitsWithCrc := by
    obtain ⟨g, hg, hstandard, hgzc, _, hcw, hnOf, hsystematic⟩ := hcodes c hc
    exact block_decoded (hplan c hc) hg hstandard hgzc hcw hnOf hsystematic (hgathers c hc)
      (hsent c hc)
  refine ⟨buffer, hrun, ?_, fun hmany hattach c hc => ⟨_, hdecoded c hc, ?_⟩⟩
  · have hpayloads : ((List.range r.codeBlocks.length).mapM fun c => do
        let plan ← Checked.read r.codeBlocks c
        let bits ← procs.decodeBlock buffer plan c
        return bits.take (bits.length - cfg.crcBits r.codeBlocks.length)) =
        .ok ((List.range r.codeBlocks.length).map (piece 0 (cfg.share tb.length) tb)) := by
      refine Checked.map_ok fun c hmem => ?_
      have hc := List.mem_range.mp hmem
      have htake := (hplan c hc).take_payload
      rw [Checked.read_of_lt hc, Checked.ok_bind, hdecoded c hc, Checked.ok_bind,
        (hplan c hc).length_eq, Nat.add_sub_cancel, htake]
      rfl
    rw [Processes.collect, hpayloads, Checked.ok_bind, take_flatten_pieces hcover]
    rfl
  · exact ((balanced_of_fits hne hbits hok hfits).checked (by omega) hattach _
      (List.getElem_mem hc)).2

/-- Two blocks, each sent once without the first two and the extension columns; the second again in
another version, with a cleared process in between. -/
theorem transport_block_received_two : ∃ r,
    segmentTransportBlock (List.replicate 50 1) { maxCbInfoBits := 40 } = .ok r ∧
      ∃ buffer : HarqBuffer (Extended ℝ),
        (⟨fun c => UInt32.ofNat c, fun _ => 0⟩ : Processes).collect { maxCbInfoBits := 40 }
          r.codeBlocks buffer 50 = .ok (List.replicate 50 1) := by
  have hplans : (segmentTransportBlock (List.replicate 50 1) { maxCbInfoBits := 40 }).map
      (fun r => r.codeBlocks.map fun plan => (plan.bg, plan.zc)) =
      .ok [(.bg2, 9), (.bg2, 9)] := by decide +kernel
  have hbits : IsBits (List.replicate 50 1) := by decide +kernel
  have hsources : rateMatch (List.range 468) { eBits := 108, zc := 9 } =
      .ok (List.range' 18 108) := by decide +kernel
  cases hok : segmentTransportBlock (List.replicate 50 1) { maxCbInfoBits := 40 } with
  | error fault => rw [hok] at hplans; cases hplans
  | ok r =>
      rw [hok, Except.map, Except.ok.injEq] at hplans
      have hcount : r.codeBlocks.length = 2 := by simpa using congrArg List.length hplans
      have hcode (c : Nat) (hc : c < r.codeBlocks.length) :
          (r.codeBlocks.get ⟨c, hc⟩).bg = .bg2 ∧ (r.codeBlocks.get ⟨c, hc⟩).zc = 9 := by
        have hget : (r.codeBlocks.map fun plan => (plan.bg, plan.zc))[c]? = some (.bg2, 9) := by
          rw [hplans]
          rcases (by omega : c = 0 ∨ c = 1) with rfl | rfl <;> rfl
        simpa [hc] using hget
      have hindex {c : Nat} (hc : c < r.codeBlocks.length) : c = 0 ∨ c = 1 := by omega
      let t (rv : Int) : AirTransmission ℝ := ⟨rv, 108, true, .qpsk, 1, fun _ => ⟨0, 0⟩⟩
      have ht (rv : Int) : (t rv).Admissible realNumbers := by
        refine ⟨by norm_num [t], by norm_num [t, bitsPerSymbol], by norm_num [t], one_pos,
          fun _ _ => ?_⟩
        simpa [t] using scale_pos realNumbers .qpsk
      let procs : Processes := ⟨fun c => UInt32.ofNat c, fun _ => 0⟩
      let events : List (AirEvent ℝ) :=
        [.transmit 1 (t 0), .other (.clear 9), .transmit 0 (t 0), .transmit 1 (t 2)]
      have hseparate : procs.Separate r.codeBlocks.length := by
        intro c hc c' hc' h
        rcases hindex hc with rfl | rfl <;> rcases hindex hc' with rfl | rfl
        · rfl
        · exact absurd h (by decide)
        · exact absurd h (by decide)
        · rfl
      have hevents : ∀ event ∈ events,
          procs.Accepts realNumbers r.codeBlocks.length event := by
        intro event hmem
        simp only [events, List.mem_cons, List.not_mem_nil, or_false] at hmem
        rcases hmem with rfl | rfl | rfl | rfl
        · exact ⟨by omega, ht 0⟩
        · intro c hc
          rcases hindex hc with rfl | rfl <;> exact fun h => absurd h (by decide)
        · exact ⟨by omega, ht 0⟩
        · exact ⟨by omega, ht 2⟩
      have hsent (c : Nat) (hc : c < r.codeBlocks.length) : CoreSent (r.codeBlocks.get ⟨c, hc⟩)
          (copiesFrom (r.codeBlocks.get ⟨c, hc⟩) c events) := by
        obtain ⟨hbg, hzc⟩ := hcode c hc
        intro j hj hlow
        rw [hbg, hzc] at hj
        rw [hzc] at hlow
        have hcoded : (r.codeBlocks.get ⟨c, hc⟩).coded = 468 := by
          rw [CodeBlockPlan.coded, hbg, hzc]
          rfl
        have hmatching : (t 0).matching (r.codeBlocks.get ⟨c, hc⟩) = { eBits := 108, zc := 9 } := by
          rw [AirTransmission.matching, hbg, hzc]
          rfl
        have hcopies : 0 < copies (r.codeBlocks.get ⟨c, hc⟩).coded
            ((t 0).matching (r.codeBlocks.get ⟨c, hc⟩)) j := by
          rw [copies, hcoded, hmatching, hsources]
          have hmem : j ∈ List.range' 18 108 := List.mem_range'_1.mpr ⟨hlow, hj⟩
          exact List.count_pos_iff.mpr hmem
        rcases hindex hc with rfl | rfl
        · simpa [copiesFrom, events] using hcopies
        · simp only [copiesFrom, events, List.map_cons, List.sum_cons, if_true]
          omega
      obtain ⟨buffer, _, hcollect, _⟩ := transport_block_received realNumbers (by decide) hbits hok
        (by decide) hseparate hevents (CountsFit.of_length (by simp [events])) hsent
      exact ⟨r, rfl, buffer, hcollect⟩

end NrBaseband
