import NrBaseband.Equalizer
import NrBaseband.Foundation.RowMajor
import NrBaseband.Foundation.GaussJordan

/-!
# The matrices of the equalizer

What each helper of the equalizer stores, entry by entry: products, conjugate transposes and the
regularised Gram matrix. Where an entry is no sum, the statement holds in any arithmetic.
-/

namespace NrBaseband

open Foundation Foundation.MachineInt Foundation.RowMajor

/-! ## Entries in any arithmetic -/

section

variable {K : Type}

/-- The inner loop of `mat_mul` adds a multiple of a row of the second factor to row `i`. -/
theorem mat_mul_row [Add K] [Mul K] {A B C : List K} {ar ac bc : Nat} {a b entry : Nat → Nat → K}
    (hA : Reads ar ac A a) (hB : Reads ac bc B b) (hC : Represents ar bc C entry)
    {i k : Nat} (hi : i < ar) (hk : k < ac) :
    ∃ next, (List.range bc).foldlM (fun C j => do
        let a ← Checked.read A (i * ac + k)
        let b ← Checked.read B (k * bc + j)
        Checked.modify C (i * bc + j) (· + a * b)) C = .ok next ∧
      Represents ar bc next fun r c => if r = i then entry i c + a i k * b k c else entry r c := by
  refine hC.update_whole_row hi (fun c => entry i c + a i k * b k c) _
    fun c hc C' entry' hinv hsame => ?_
  rw [hA i hi k hk, Checked.ok_bind, hB k hk c hc, Checked.ok_bind,
    hinv.modify_eq hi hc, hsame i c (.inr (Nat.le_refl c))]

/-- One more entry or row is accumulated once its sum is complete. -/
theorem ite_done {α : Type} {i r : Nat} {done part rest : α} (h : r = i → part = done) :
    (if r < i then done else if r = i then part else rest) = if r < i + 1 then done else rest := by
  by_cases hlt : r < i
  · rw [if_pos hlt, if_pos (by omega)]
  · by_cases heq : r = i
    · rw [if_neg hlt, if_pos heq, if_pos (by omega), h heq]
    · rw [if_neg hlt, if_neg heq, if_neg (by omega)]

/-- `mat_herm` computes the conjugate transpose. -/
theorem mat_herm_spec [Zero K] [Star K] {A : List K} {r c : Nat} {a : Nat → Nat → K}
    (hA : Reads r c A a) :
    ∃ AH, matHerm A r c = .ok AH ∧ Represents c r AH fun j i => star (a i j) := by
  have houter := range_loop
    (fun i AH => Represents c r AH fun j i' => if i' < i then star (a i' j) else 0)
    (fun AH i => (List.range c).foldlM (fun AH j => do
      let a ← Checked.read A (i * c + j)
      Checked.write AH (j * r + i) (star a)) AH) r ?_
    (by simpa using Represents.replicate c r (0 : K))
  · obtain ⟨AH, hrun, hrep⟩ := houter
    exact ⟨AH, hrun, hrep.congr fun j _ i hi => if_pos hi⟩
  · intro i AH hi hAH
    have hinner := range_loop
      (fun j AH => Represents c r AH fun j' i' =>
        if i' < i ∨ i' = i ∧ j' < j then star (a i' j') else 0)
      (fun AH j => do
        let a ← Checked.read A (i * c + j)
        Checked.write AH (j * r + i) (star a)) c ?_
      (hAH.congr fun j' _ i' _ => by simp)
    · obtain ⟨next, hrun, hrep⟩ := hinner
      refine ⟨next, hrun, hrep.congr fun j' hj' i' _ => ?_⟩
      have hiff : (i' < i ∨ i' = i ∧ j' < c) ↔ i' < i + 1 := by omega
      simp only [hiff]
    · intro j AH hj hinv
      obtain ⟨next, hwrite, hrep⟩ := hinv.write hj hi (star (a i j))
      refine ⟨next, ?_, hrep.congr fun j' _ i' _ => ?_⟩
      · rw [hA i hi j hj, Checked.ok_bind, hwrite]
      · by_cases heq : j' = j ∧ i' = i
        · rw [if_pos heq, if_pos (by omega), heq.1, heq.2]
        · have hiff : (i' < i ∨ i' = i ∧ j' < j) ↔ (i' < i ∨ i' = i ∧ j' < j + 1) := by omega
          rw [if_neg heq]
          simp only [hiff]

/-- `mat_eye` computes a multiple of the identity. -/
theorem mat_eye_spec [Zero K] (n : Nat) (scale : K) :
    ∃ I, matEye n scale = .ok I ∧ Represents n n I fun i j => if i = j then scale else 0 := by
  refine (Represents.replicate n n (0 : K)).each_row (fun i j => if i = j then scale else 0) _
    fun i hi I entry hI hzero _ => ?_
  obtain ⟨next, hwrite, hrep⟩ := hI.write hi hi scale
  refine ⟨next, hwrite, hrep.congr fun r _ c _ => ?_⟩
  by_cases hr : r = i
  · subst hr
    by_cases hc : c = r
    · rw [if_pos ⟨rfl, hc⟩, if_pos rfl, if_pos hc.symm]
    · rw [if_neg fun h => hc h.2, if_pos rfl, if_neg (Ne.symm hc), hzero r c (Nat.le_refl r)]
  · rw [if_neg fun h => hr h.1, if_neg hr]

/-- A loop over all cells of a matrix that adds the cells of another one. -/
theorem add_cells [Add K] {X Y : List K} {m n : Nat} {x y : Nat → Nat → K} (hX : Represents m n X x)
    (hY : Represents m n Y y) :
    ∃ sum, (List.range X.length).foldlM (fun X t => do
        let b ← Checked.read Y t
        Checked.modify X t (· + b)) X = .ok sum ∧
      Represents m n sum fun r c => x r c + y r c := by
  have hloop := range_loop
    (fun t X => Represents m n X fun r c => if r * n + c < t then x r c + y r c else x r c)
    (fun X t => do
      let b ← Checked.read Y t
      Checked.modify X t (· + b)) X.length ?_ (hX.congr fun r _ c _ => by simp)
  · obtain ⟨sum, hrun, hrep⟩ := hloop
    refine ⟨sum, hrun, hrep.congr fun r hr c hc => if_pos ?_⟩
    rw [hX.length_eq]
    exact index_lt hr hc
  · intro t Z ht hinv
    rw [hX.length_eq] at ht
    have hn : 0 < n := Nat.pos_of_ne_zero fun hzero => by
      rw [hzero, Nat.mul_zero] at ht
      exact absurd ht (Nat.not_lt_zero t)
    have hr : t / n < m := Nat.div_lt_of_lt_mul (by rwa [Nat.mul_comm])
    have hc : t % n < n := Nat.mod_lt t hn
    have hindex : t / n * n + t % n = t := Nat.div_add_mod' t n
    obtain ⟨next, hmodify, hrep⟩ := hinv.modify hr hc (· + y (t / n) (t % n))
    have hread := hY.read_eq _ hr _ hc
    rw [hindex] at hread hmodify
    refine ⟨next, ?_, hrep.congr fun r _ c hc' => ?_⟩
    · rw [hread, Checked.ok_bind, hmodify]
    · by_cases hhere : r = t / n ∧ c = t % n
      · rw [if_pos hhere, if_neg (by omega), if_pos (by rw [hhere.1, hhere.2]; omega), hhere.1,
          hhere.2]
      · have hne : r * n + c ≠ t := fun h => hhere ((index_inj hc' hc).mp (h.trans hindex.symm))
        have hiff : r * n + c < t ↔ r * n + c < t + 1 := by omega
        rw [if_neg hhere]
        simp only [hiff]

end

variable {K : Type} [Field K]

/-! ## Sums -/

/-- `mat_mul` computes the product. -/
theorem mat_mul_spec {A B : List K} {ar ac bc : Nat} {a b : Nat → Nat → K}
    (hA : Reads ar ac A a) (hB : Reads ac bc B b) :
    ∃ C, matMul A ar ac B ac bc = .ok C ∧
      Represents ar bc C fun r c => ∑ k ∈ Finset.range ac, a r k * b k c := by
  rw [matMul, require_of rfl, Checked.ok_bind]
  refine (Represents.replicate ar bc (0 : K)).each_row _ _ fun i hi C entry hC hzero _ => ?_
  -- row `i` accumulates the terms of its sums
  have hmiddle := range_loop
    (fun k C => Represents ar bc C fun r c =>
      if r = i then ∑ k' ∈ Finset.range k, a i k' * b k' c else entry r c)
    (fun C k => (List.range bc).foldlM (fun C j => do
      let a ← Checked.read A (i * ac + k)
      let b ← Checked.read B (k * bc + j)
      Checked.modify C (i * bc + j) (· + a * b)) C) ac ?_ (hC.congr fun r _ c _ => ?_)
  · exact hmiddle
  · intro k C hk hinv
    obtain ⟨next, hrun, hrep⟩ := mat_mul_row hA hB hinv hi hk
    refine ⟨next, hrun, hrep.congr fun r _ c _ => ?_⟩
    by_cases heq : r = i
    · simp only [heq, if_true, Finset.sum_range_succ]
    · simp only [heq, if_false]
  · by_cases heq : r = i
    · rw [if_pos heq, heq, hzero i c (Nat.le_refl i), Finset.sum_range_zero]
    · rw [if_neg heq]

/-- `mat_vec` computes the product with a vector. -/
theorem mat_vec_spec {A x : List K} {r c : Nat} {a : Nat → Nat → K} {v : Nat → K}
    (hA : Reads r c A a) (hsize : toInt32 x.length = c)
    (hx : ∀ j < c, Checked.read x j = .ok (v j)) :
    ∃ y, matVec A r c x = .ok y ∧ y.length = r ∧
      ∀ i < r, Checked.read y i = .ok (∑ j ∈ Finset.range c, a i j * v j) := by
  rw [matVec, require_of hsize, Checked.ok_bind]
  -- the vector is a matrix with one row
  have hzero : Represents 1 r (List.replicate r (0 : K)) fun _ _ => 0 := by
    simpa using Represents.replicate 1 r (0 : K)
  have houter := range_loop
    (fun i y => Represents 1 r y fun _ i' =>
      if i' < i then ∑ j ∈ Finset.range c, a i' j * v j else 0)
    (fun y i => (List.range c).foldlM (fun y j => do
      let a ← Checked.read A (i * c + j)
      let b ← Checked.read x j
      Checked.modify y i (· + a * b)) y) r ?_ (by simpa using hzero)
  · obtain ⟨y, hrun, hrep⟩ := houter
    refine ⟨y, hrun, by rw [hrep.length_eq, Nat.one_mul], fun i hi => ?_⟩
    have hread := hrep.read_eq 0 Nat.one_pos i hi
    rwa [Nat.zero_mul, Nat.zero_add, if_pos hi] at hread
  · intro i y hi hy
    have hinner := range_loop
      (fun j y => Represents 1 r y fun _ i' =>
        if i' < i then ∑ j ∈ Finset.range c, a i' j * v j
        else if i' = i then ∑ j' ∈ Finset.range j, a i j' * v j' else 0)
      (fun y j => do
        let a ← Checked.read A (i * c + j)
        let b ← Checked.read x j
        Checked.modify y i (· + a * b)) c ?_ (hy.congr fun _ _ i' _ => by simp)
    · obtain ⟨next, hrun, hrep⟩ := hinner
      refine ⟨next, hrun, hrep.congr fun _ _ i' _ => ite_done fun heq => ?_⟩
      rw [heq]
    · intro j y hj hinv
      obtain ⟨next, hmodify, hrep⟩ := hinv.modify Nat.one_pos hi (· + a i j * v j)
      rw [Nat.zero_mul, Nat.zero_add] at hmodify
      refine ⟨next, ?_, hrep.congr fun r' hr' i' _ => ?_⟩
      · rw [hA i hi j hj, Checked.ok_bind, hx j hj, Checked.ok_bind, hmodify]
      · by_cases heq : i' = i
        · have hrow : r' = 0 := by omega
          simp only [heq, hrow, and_self, if_true, Nat.lt_irrefl, if_false,
            Finset.sum_range_succ]
        · simp only [heq, and_false, if_false]

/-- The regularisation adds a multiple of the identity. -/
theorem regularise_spec {R : Type} [Field R] [LinearOrder R] [StarRing K] (num : ExactComplex R K)
    {gram : List K} {n : Nat} {g : Nat → Nat → K} (hG : Represents n n gram g) (reg : R) :
    ∃ out, regularise num gram n reg = .ok out ∧
      Represents n n out fun i j => g i j + if i = j then num.ofReal reg else 0 := by
  unfold regularise
  split
  case isTrue =>
    obtain ⟨I, hI, hrep⟩ := mat_eye_spec n (num.ofReal reg)
    rw [num.real_eq, hI, Checked.ok_bind]
    exact add_cells hG hrep
  case isFalse hzero =>
    rw [bne_iff_ne, not_not] at hzero
    refine ⟨gram, rfl, hG.congr fun i _ j _ => ?_⟩
    rw [hzero, map_zero, ite_self, add_zero]

end NrBaseband
