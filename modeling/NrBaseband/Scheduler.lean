import NrBaseband.Types
import NrBaseband.Foundation.MachineInt
import Mathlib.Algebra.Order.Floor.Ring
import Mathlib.Algebra.Order.Field.Basic
import Mathlib.Data.Rat.Cast.OfScientific

/-!
# The MAC scheduler

`MacScheduler::schedule`: the eligibility filter, the stable sort by metric and the loop that packs
the carrier. The numbers are those of any linear order with the operations that the source uses; no
law of arithmetic is built in, so a metric may be rounded or infinite, and a share of the carrier
may be no number. On a field with a floor function the arithmetic is exact. The metrics are computed
once for each eligible UE; the comparison function of the sort and both loops of the source compute
them again each time, with the same result.
-/

namespace NrBaseband

open Foundation Foundation.MachineInt

/-- Numbers whose whole part can be converted to an `int`. The conversion is undefined where the
whole part does not fit or there is none, as of a NaN. -/
class FloorToInt (R : Type) where
  floorToInt : R → Checked Int

export FloorToInt (floorToInt)

/-- Exact numbers. -/
instance {R : Type} [Ring R] [LinearOrder R] [FloorRing R] : FloorToInt R where
  floorToInt x := int32 ⌊x⌋

/-- `UeState`. -/
structure UeState (R : Type) [One R] [OfScientific R] where
  ueId : UInt32 := 0
  avgThroughput : R := 1
  instantRate : R := 1
  harqProcessesActive : Int := 0
  harqProcessesMax : Int := 16
  qosWeight : R := 1
  bufferBytes : R := 1000.0
  rrcConnected : Bool := true
  filteredOut : Bool := false
  preferredMcs : Int := 4
  preferredLayers : Int := 1
  cqi : Int := 4

/-- `PrbAllocation`. -/
structure PrbAllocation (R : Type) where
  ueId : UInt32
  prbStart : Int
  prbCount : Int
  mcs : Int
  layers : Int
  metric : R

/-- `ScheduleResult`. -/
structure ScheduleResult (R : Type) where
  allocations : List (PrbAllocation R) := []
  selectedUes : List UInt32 := []
  filteredUes : List UInt32 := []
  replayHash : UInt64 := 0

/-- `SchedulerConfig`, whose number of blocks is an `int`. -/
structure SchedulerConfig (R : Type) [One R] where
  nPrb : Int := 50
  maxUes : Int := 4
  maxHarqActive : Int := 8
  minBufferBytes : R := 1
  enableQos : Bool := true
  seed : UInt64 := 1
  n_prb_lt : nPrb < 2 ^ 31 := by decide

variable {R : Type} [LinearOrder R] [Zero R] [One R] [Add R] [Mul R] [Div R] [OfScientific R]
  [IntCast R] [FloorToInt R]

namespace UeState

/-- `pf_metric`. -/
def pfMetric (ue : UeState R) : R :=
  let denom := max ue.avgThroughput 1e-9
  ue.qosWeight * (ue.instantRate / denom)

/-- `composite_metric`. -/
def compositeMetric (ue : UeState R) (enableQos : Bool) : Checked R := do
  let m := pfMetric ue
  let m := m * (1 + 0.05 * ue.cqi)
  let m := m * (1 + 0.02 * ue.preferredLayers)
  let m := if enableQos then m * max 0.1 ue.qosWeight else m
  let m := m * (1 + min ue.bufferBytes 1e6 / 1e6)
  let spare ← int32 (ue.harqProcessesMax - ue.harqProcessesActive)
  return m * (1 + 0.1 * (max 0 spare : Int))

/-- The variable `mcs` of the packing loop. -/
def mcs (ue : UeState R) : Int :=
  if ue.cqi ≥ 10 then max ue.preferredMcs 16
  else if ue.cqi ≥ 7 then max ue.preferredMcs 10
  else if ue.cqi ≤ 2 then min ue.preferredMcs 2
  else ue.preferredMcs

end UeState

/-- `mix64`. -/
def mix64 (x : UInt64) : UInt64 :=
  let x := x ^^^ (x >>> 30)
  let x := x * 0xbf58476d1ce4e5b9
  let x := x ^^^ (x >>> 27)
  let x := x * 0x94d049bb133111eb
  x ^^^ (x >>> 31)

/-- One step of the hash over the allocations. -/
def hashAllocation (h : UInt64) (a : PrbAllocation R) : UInt64 :=
  mix64 (h ^^^ (a.ueId.toUInt64 <<< 32) ^^^ UInt64.ofInt a.prbStart ^^^
    (UInt64.ofInt a.prbCount <<< 16) ^^^ UInt64.ofInt a.mcs)

/-- A selected UE with its metric. -/
abbrev Candidate (R : Type) [One R] [OfScientific R] : Type := UeState R × R

/-- `sum_m`. -/
def sumMetrics (selected : List (Candidate R)) : R :=
  selected.foldl (fun sum candidate => sum + max 1e-9 candidate.2) 0

namespace SchedulerConfig

variable (cfg : SchedulerConfig R)

/-- The variable `pass` of the filter. -/
def pass (ue : UeState R) : Bool :=
  ue.rrcConnected && !ue.filteredOut && ue.bufferBytes ≥ cfg.minBufferBytes &&
    ue.harqProcessesActive < cfg.maxHarqActive && ue.harqProcessesActive < ue.harqProcessesMax

/-- The vector `eligible` before it is sorted. -/
def eligible (ues : List (UeState R)) : List (UeState R) := ues.filter cfg.pass

/-- A UE with its metric. -/
def candidate (ue : UeState R) : Checked (Candidate R) := do
  let m ← ue.compositeMetric cfg.enableQos
  return (ue, m)

/-- `n_sel`. The number of eligible UEs is converted to an `int`. -/
def nSel (ues : List (UeState R)) : Int := min cfg.maxUes (toInt32 (cfg.eligible ues).length)

/-- The selected UEs with their metrics: the first `n_sel` after the stable sort. -/
def selection (ues : List (UeState R)) : Checked (List (Candidate R)) := do
  let candidates ← (cfg.eligible ues).mapM cfg.candidate
  return (candidates.mergeSort fun a b => a.2 ≥ b.2).take (cfg.nSel ues).toNat

/-- The share of a UE that is not the last one. -/
def share (sumM m : R) : Checked Int := do
  let n ← floorToInt ((cfg.nPrb : R) * (m / sumM))
  return max 1 n

/-- The packing loop from one of the selected UEs on. -/
def packPrbs (sumM : R) (cursor remaining : Int) :
    List (Candidate R) → Checked (List (PrbAllocation R))
  | [] => return []
  | (ue, m) :: later => do
      let n ← if later.isEmpty then .ok remaining else cfg.share sumM m
      let n := if n > remaining then remaining else n
      let next ← int32 (cursor + n)
      let left ← int32 (remaining - n)
      let allocations ← packPrbs sumM next left later
      return {
        ueId := ue.ueId, prbStart := cursor, prbCount := n, mcs := ue.mcs,
        layers := ue.preferredLayers, metric := m } :: allocations

/-- `MacScheduler::schedule`. -/
def schedule (ues : List (UeState R)) : Checked (ScheduleResult R) := do
  require (cfg.nPrb > 0) "n_prb must be > 0"
  require (cfg.maxUes > 0) "max_ues must be > 0"
  let filteredUes := (ues.filter fun ue => !cfg.pass ue).map UeState.ueId
  let selected ← cfg.selection ues
  if cfg.nSel ues = 0 then
    return { filteredUes, replayHash := mix64 (cfg.seed ^^^ UInt64.ofInt cfg.nPrb) }
  else
    let allocations ← cfg.packPrbs (sumMetrics selected) 0 cfg.nPrb selected
    return {
      allocations, selectedUes := selected.map fun candidate => candidate.1.ueId, filteredUes,
      replayHash := allocations.foldl hashAllocation cfg.seed }

end SchedulerConfig

end NrBaseband
