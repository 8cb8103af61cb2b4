import NrBaseband.Types
import NrBaseband.Foundation.Interleaving
import NrBaseband.Foundation.MachineInt
import NrBaseband.Foundation.RowMajor

/-!
# Layer mapping

`layer_map` deals symbols to one, two or four layers, and `layer_demap` collects them. Each undoes
the other (`layer_map_inverse`).
-/

namespace NrBaseband

open Foundation Foundation.MachineInt Foundation.Interleaving

variable {K : Type} [Zero K]

/-- `layer_map`. -/
def layerMap (symbols : List K) (nLayers : Int) : Checked (List (List K)) := do
  require (nLayers = 1 ∨ nLayers = 2 ∨ nLayers = 4) "n_layers must be 1,2,4"
  require (symbols.length % toSizeT nLayers = 0) "symbol count not divisible by layers"
  let nSym := symbols.length / toSizeT nLayers
  let layers := List.replicate (toSizeT nLayers) (List.replicate nSym 0)
  (List.range nSym).foldlM (fun layers t => (List.range nLayers.toNat).foldlM (fun layers l => do
    let x ← Checked.read symbols (t * toSizeT nLayers + l)
    let layer ← Checked.read layers l
    let layer ← Checked.write layer t x
    Checked.write layers l layer) layers) layers

omit [Zero K] in
/-- `layer_demap`. -/
def layerDemap (layers : List (List K)) : Checked (List K) := do
  require (layers ≠ []) "no layers"
  let first ← Checked.read layers 0
  let nSym := first.length
  Checked.forEach (fun L => require (L.length = nSym) "layer length mismatch") layers
  let rounds ← (List.range nSym).mapM fun t => layers.mapM fun L => Checked.read L t
  return rounds.flatten

/-- The mapping deals the symbols. -/
theorem layer_map_eq {n m : Nat} (hn : n = 1 ∨ n = 2 ∨ n = 4) (symbols : Nat → K) :
    layerMap (table (m * n) symbols) n = .ok (deal n m symbols) := by
  have hpos : 0 < n := by omega
  have hcast : toSizeT n = n := to_size_t_natCast (by omega)
  have hlayers : (n : Int) = 1 ∨ (n : Int) = 2 ∨ (n : Int) = 4 := by omega
  rw [layerMap, require_of hlayers, Checked.ok_bind, hcast, Table.length_table,
    require_of (Nat.mul_mod_left m n), Checked.ok_bind, Nat.mul_div_cancel m hpos,
    Int.toNat_natCast]
  exact deal_loop 0 fun t ht l hl => Table.read_table (RowMajor.index_lt ht hl)

omit [Zero K] in
/-- The demapping collects the layers. -/
theorem layer_demap_eq {n m : Nat} (hn : 0 < n) (layer : Nat → Nat → K) :
    layerDemap (table n fun l => table m fun t => layer l t) = .ok (collect n m layer) := by
  have hequal : Checked.forEach (fun L => require (L.length = m) "layer length mismatch")
      (table n fun l => table m fun t => layer l t) = .ok () := by
    refine Checked.for_each_eq_ok.mpr fun L hL => ?_
    obtain ⟨l, -, rfl⟩ := List.mem_map.mp hL
    exact require_of (Table.length_table m _)
  rw [layerDemap, require_of (Table.table_ne_nil hn), Checked.ok_bind, Table.read_table hn,
    Checked.ok_bind]
  dsimp only
  rw [Table.length_table, hequal, Checked.ok_bind]
  exact collect_loop n m layer

/-- Demapping undoes mapping, and mapping undoes demapping. -/
theorem layer_map_inverse :
    (∀ n : Int, n = 1 ∨ n = 2 ∨ n = 4 → ∀ x : List K, x.length % n.toNat = 0 →
      ∃ layers, layerMap x n = .ok layers ∧ layerDemap layers = .ok x) ∧
    ∀ L : List (List K), L.length = 1 ∨ L.length = 2 ∨ L.length = 4 →
      (∀ a ∈ L, ∀ b ∈ L, a.length = b.length) →
      ∃ x, layerDemap L = .ok x ∧ layerMap x (toInt32 L.length) = .ok L := by
  constructor
  · intro n hn x hx
    obtain ⟨k, rfl⟩ : ∃ k : Nat, n = k := ⟨n.toNat, by omega⟩
    rw [Int.toNat_natCast] at hx
    have hsymbols : x = table (x.length / k * k) fun i => x.getD i 0 := by
      rw [Nat.div_mul_cancel (Nat.dvd_of_mod_eq_zero hx)]
      exact Table.eq_table x 0
    rw [hsymbols]
    refine ⟨_, layer_map_eq (by omega) _, ?_⟩
    rw [deal, layer_demap_eq (by omega)]
    exact congrArg Except.ok (collect_deal k _ fun i => x.getD i 0)
  · intro L hL hequal
    have hpos : 0 < L.length := by omega
    have hrows : L = table L.length fun l => table L[0].length fun t => (L.getD l []).getD t 0 :=
      eq_tables (fun row hrow => hequal row hrow L[0] (List.getElem_mem hpos)) 0
    have hcast : toInt32 L.length = L.length := to_int32_of_range (by omega) (by omega)
    have hdemap : layerDemap L = _ := (congrArg layerDemap hrows).trans (layer_demap_eq hpos _)
    have hmap := layer_map_eq hL (m := L[0].length) fun j =>
      (L.getD (j % L.length) []).getD (j / L.length) 0
    rw [deal_collect L.length _ fun l t => (L.getD l []).getD t 0, ← hrows] at hmap
    refine ⟨_, hdemap, ?_⟩
    rw [hcast]
    exact hmap

/-- Four symbols on two layers and back, and layers without symbols. -/
theorem layer_map_inverse_two :
    (∃ layers, layerMap [(5 : Int), 6, 7, 8] 2 = .ok layers ∧
      layerDemap layers = .ok [5, 6, 7, 8]) ∧
    ∃ x, layerDemap [([] : List Int), []] = .ok x ∧ layerMap x (toInt32 2) = .ok [[], []] :=
  ⟨layer_map_inverse.1 2 (by decide) _ rfl, layer_map_inverse.2 [[], []] (by decide) (by simp)⟩

end NrBaseband
