import NrBaseband.Foundation.Table
import Mathlib.Algebra.Order.Floor.Div

/-!
# Cutting a sequence into equal pieces

A sequence is cut into pieces of one size, the last of which is filled up. With
`n = ⌈length / bound⌉` pieces of size `⌈length / n⌉` no piece exceeds the bound and none consists
of filling alone (`share_le`, `last_nonempty`); putting the pieces together gives the sequence back
(`take_flatten_pieces`). Where every piece is padded, trimming the paddings from the end gives it
back only under the condition of `take_flatten_padded_iff`.
-/

namespace Foundation.Pieces

variable {α : Type} {fill : α} {size c : Nat} {xs : List α}

/-- The rounded-up share of something is not nothing. -/
theorem ceil_div_pos {total n : Nat} (htotal : 0 < total) (hn : 0 < n) : 0 < total ⌈/⌉ n := by
  by_contra hzero
  have hle := (ceilDiv_le_iff_le_mul hn).mp (Nat.le_of_not_lt hzero)
  omega

/-- Enough shares make the whole. -/
theorem le_mul_ceil_div {n : Nat} (hn : 0 < n) (total : Nat) : total ≤ n * (total ⌈/⌉ n) :=
  (ceilDiv_le_iff_le_mul hn).mp (Nat.le_refl _)

/-- With as many pieces as the bound needs, no piece exceeds it. -/
theorem share_le {total bound : Nat} (htotal : 0 < total) (hbound : 0 < bound) :
    total ⌈/⌉ (total ⌈/⌉ bound) ≤ bound := by
  rw [ceilDiv_le_iff_le_mul (ceil_div_pos htotal hbound), Nat.mul_comm]
  exact le_mul_ceil_div hbound total

/-- With as many pieces as the bound needs, the others do not cover the whole. -/
theorem last_nonempty {total bound : Nat} (htotal : 0 < total) (hbound : 0 < bound) :
    (total ⌈/⌉ bound - 1) * (total ⌈/⌉ (total ⌈/⌉ bound)) < total := by
  have hpos := ceil_div_pos htotal hbound
  by_contra hcovered
  have hbounded : (total ⌈/⌉ bound - 1) * (total ⌈/⌉ (total ⌈/⌉ bound)) ≤
      (total ⌈/⌉ bound - 1) * bound := Nat.mul_le_mul_left _ (share_le htotal hbound)
  have hfewer : total ⌈/⌉ bound ≤ total ⌈/⌉ bound - 1 := by
    rw [ceilDiv_le_iff_le_mul hbound, Nat.mul_comm]
    omega
  omega

/-- The pieces before the last lie inside the whole. -/
theorem inner_within {total bound c : Nat} (htotal : 0 < total) (hbound : 0 < bound)
    (hinner : c + 1 < total ⌈/⌉ bound) :
    c * (total ⌈/⌉ (total ⌈/⌉ bound)) + total ⌈/⌉ (total ⌈/⌉ bound) ≤ total := by
  have hbefore : (c + 1) * (total ⌈/⌉ (total ⌈/⌉ bound)) ≤
      (total ⌈/⌉ bound - 1) * (total ⌈/⌉ (total ⌈/⌉ bound)) := Nat.mul_le_mul_right _ (by omega)
  have hlast := last_nonempty htotal hbound
  rw [Nat.succ_mul] at hbefore
  omega

/-- The last piece starts inside the whole and reaches its end. -/
theorem last_reaches {total bound c : Nat} (htotal : 0 < total) (hbound : 0 < bound)
    (hlast : c + 1 = total ⌈/⌉ bound) :
    c * (total ⌈/⌉ (total ⌈/⌉ bound)) < total ∧
      total ≤ c * (total ⌈/⌉ (total ⌈/⌉ bound)) + total ⌈/⌉ (total ⌈/⌉ bound) := by
  have hstart := last_nonempty htotal hbound
  have hcover := le_mul_ceil_div (ceil_div_pos htotal hbound) total
  rw [← hlast] at hstart hcover ⊢
  rw [Nat.succ_mul] at hcover
  exact ⟨hstart, hcover⟩

/-- Piece `c` of the sequence, filled up to the size. -/
def piece (fill : α) (size : Nat) (xs : List α) (c : Nat) : List α :=
  table size fun i => xs.getD (c * size + i) fill

/-- Every piece has the size asked for. -/
@[simp] theorem length_piece (fill : α) (size : Nat) (xs : List α) (c : Nat) :
    (piece fill size xs c).length = size := by simp [piece]

/-- A running offset that stops at the end of the sequence cuts the pieces. -/
theorem window_eq_piece {offset : Nat} (hoffset : offset = min (c * size) xs.length) :
    (xs.drop offset).take (min size (xs.length - offset)) ++ List.replicate
      (size - ((xs.drop offset).take (min size (xs.length - offset))).length) fill =
      piece fill size xs c := by
  have hlength : ((xs.drop offset).take (min size (xs.length - offset))).length =
      min size (xs.length - offset) := by
    rw [List.length_take, List.length_drop]
    omega
  refine List.ext_getElem (by simp) fun i hi hi' => ?_
  rw [length_piece] at hi'
  by_cases hinside : i < min size (xs.length - offset)
  · have hposition : offset + i = c * size + i ∧ c * size + i < xs.length := by omega
    rw [List.getElem_append_left (by rw [hlength]; exact hinside)]
    simp [piece, table, hposition.1, hposition.2]
  · rw [List.getElem_append_right (by rw [hlength]; omega)]
    have hpast : xs.length ≤ c * size + i := by omega
    simp [piece, table, hpast]

/-- A piece inside the sequence. -/
theorem piece_of_le (h : c * size + size ≤ xs.length) :
    piece fill size xs c = (xs.drop (c * size)).take size := by
  rw [← window_eq_piece (Nat.min_eq_left (by omega)).symm,
    Nat.min_eq_left (by omega : size ≤ xs.length - c * size), List.length_take, List.length_drop,
    Nat.min_eq_left (by omega), Nat.sub_self]
  exact List.append_nil _

/-- The piece that reaches the end of the sequence. -/
theorem piece_of_ge (hstart : c * size ≤ xs.length) (h : xs.length ≤ c * size + size) :
    piece fill size xs c =
      xs.drop (c * size) ++ List.replicate (c * size + size - xs.length) fill := by
  have hrest : (xs.drop (c * size)).take (xs.length - c * size) = xs.drop (c * size) :=
    List.take_of_length_le (by rw [List.length_drop])
  rw [← window_eq_piece (Nat.min_eq_left hstart).symm,
    Nat.min_eq_right (by omega : xs.length - c * size ≤ size), hrest, List.length_drop]
  congr 2
  omega

/-- The pieces in order are the sequence, filled up. -/
theorem flatten_pieces (fill : α) (size : Nat) (xs : List α) (n : Nat) :
    ((List.range n).map (piece fill size xs)).flatten = table (n * size) (xs.getD · fill) := by
  induction n with
  | zero => simp [table]
  | succ n ih =>
      rw [List.range_succ, List.map_append, List.flatten_append, ih, List.map_singleton,
        List.flatten_singleton, piece, Nat.succ_mul, ← Table.append_table]

/-- A sequence that is made of whole pieces is its pieces in order. -/
theorem flat_map_pieces (fill : α) {size : Nat} {xs : List α} (h : xs.length % size = 0) :
    (List.range (xs.length / size)).flatMap (piece fill size xs) = xs := by
  rw [List.flatMap_def, flatten_pieces, Nat.div_mul_cancel (Nat.dvd_of_mod_eq_zero h)]
  exact (Table.eq_table xs fill).symm

/-- Pieces that cover the sequence give it back. -/
theorem take_flatten_pieces {n : Nat} (h : xs.length ≤ n * size) :
    ((List.range n).map (piece fill size xs)).flatten.take xs.length = xs := by
  have hrange : (List.range (n * size)).take xs.length = List.range xs.length := by
    rw [List.take_range, Nat.min_eq_left h]
  rw [flatten_pieces, table, ← List.map_take, hrange]
  exact (Table.eq_table xs fill).symm

/-! ## Pieces with padding -/

/-- What stands at a position of the padded pieces: each is followed by `pad` fillings. -/
def padded (fill : α) (size pad : Nat) (xs : List α) (j : Nat) : α :=
  if j % (size + pad) < size then xs.getD (j / (size + pad) * size + j % (size + pad)) fill
  else fill

/-- The padded pieces in order. -/
theorem flatten_padded (fill : α) (size pad : Nat) (xs : List α) (n : Nat) :
    ((List.range n).map fun c => piece fill size xs c ++ List.replicate pad fill).flatten =
      table (n * (size + pad)) (padded fill size pad xs) := by
  have hpiece (c : Nat) : piece fill size xs c ++ List.replicate pad fill =
      table (size + pad) fun i => if i < size then xs.getD (c * size + i) fill else fill := by
    rw [← Table.append_table, piece, Table.replicate_eq_table]
    congr 1
    · exact Table.table_congr fun i hi => (if_pos hi).symm
    · exact Table.table_congr fun i _ => (if_neg (by omega)).symm
  simp only [hpiece]
  exact Table.flatten_tables n (size + pad) fun c i =>
    if i < size then xs.getD (c * size + i) fill else fill

/-- Without padding the positions are those of the sequence. -/
theorem padded_zero (fill : α) {size : Nat} (hsize : 0 < size) (xs : List α) (j : Nat) :
    padded fill size 0 xs j = xs.getD j fill := by
  rw [padded, Nat.add_zero, if_pos (Nat.mod_lt j hsize), Nat.div_add_mod']

/-- The first piece keeps its positions. -/
theorem padded_of_lt {pad j : Nat} (hj : j < size) :
    padded fill size pad xs j = xs.getD j fill := by
  have hlt : j < size + pad := by omega
  rw [padded, Nat.div_eq_of_lt hlt, Nat.mod_eq_of_lt hlt, if_pos hj, Nat.zero_mul, Nat.zero_add]

/-- Past the first piece there is filling, or an earlier element from past the first piece. -/
theorem padded_of_ge {pad j : Nat} (hpad : 0 < pad) (hj : size ≤ j) :
    padded fill size pad xs j = fill ∨
      ∃ i, size ≤ i ∧ i < j ∧ padded fill size pad xs j = xs.getD i fill := by
  have hsplit := Nat.div_add_mod' j (size + pad)
  unfold padded
  generalize j / (size + pad) = c at *
  generalize j % (size + pad) = i at *
  by_cases hi : i < size
  · right
    cases c with
    | zero => omega
    | succ c =>
        have hmul : (c + 1) * size ≤ (c + 1) * (size + pad) := Nat.mul_le_mul_left _ (by omega)
        have hfirst : size ≤ (c + 1) * size := Nat.le_mul_of_pos_left size (Nat.succ_pos c)
        have hstrict : (c + 1) * size < (c + 1) * (size + pad) :=
          Nat.mul_lt_mul_of_pos_left (by omega) (Nat.succ_pos c)
        exact ⟨(c + 1) * size + i, by omega, by omega, if_pos hi⟩
  · exact .inl (if_neg hi)

/-- Trimming the length of all paddings from the end of the padded pieces gives the sequence back
exactly when the pieces have its length and there is no padding or only filling past the first
piece. -/
theorem take_flatten_padded_iff {pad n : Nat} (hsize : 0 < size) :
    (((List.range n).map fun c => piece fill size xs c ++ List.replicate pad fill).flatten.take
      (n * size) = xs) ↔
    n * size = xs.length ∧ (pad = 0 ∨ ∀ i, size ≤ i → xs.getD i fill = fill) := by
  have hle : n * size ≤ n * (size + pad) := Nat.mul_le_mul_left n (Nat.le_add_right size pad)
  rw [flatten_padded, Table.take_table hle]
  have heq : xs = table xs.length (xs.getD · fill) := Table.eq_table xs fill
  constructor
  · intro h
    have hlength : n * size = xs.length := by rw [← h, Table.length_table]
    refine ⟨hlength, (Nat.eq_zero_or_pos pad).imp_right fun hpad i hi => ?_⟩
    have hsame (j : Nat) (hj : j < n * size) : xs.getD j fill = padded fill size pad xs j := by
      conv => lhs; rw [← h]
      exact Table.getD_table hj fill
    -- an element past the first piece is filling, or one of the earlier ones
    induction i using Nat.strong_induction_on with
    | _ i ih =>
        by_cases hinside : i < n * size
        · rw [hsame i hinside]
          rcases padded_of_ge hpad hi with hfill | ⟨j, hj, hlt, helement⟩
          · exact hfill
          · rw [helement, ih j hlt hj]
        · rw [List.getD_eq_getElem?_getD, List.getElem?_eq_none (by omega), Option.getD_none]
  · rintro ⟨hlength, hclean⟩
    rw [hlength]
    refine (Table.table_congr fun j _ => ?_).trans heq.symm
    rcases hclean with rfl | hclean
    · exact padded_zero fill hsize xs j
    · by_cases hj : j < size
      · exact padded_of_lt hj
      · rw [hclean j (Nat.le_of_not_lt hj)]
        rcases Nat.eq_zero_or_pos pad with rfl | hpad
        · rw [padded_zero fill hsize, hclean j (Nat.le_of_not_lt hj)]
        · rcases padded_of_ge hpad (Nat.le_of_not_lt hj) with hfill | ⟨i, hi, _, helement⟩
          · exact hfill
          · rw [helement, hclean i hi]

end Foundation.Pieces
