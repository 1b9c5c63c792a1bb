import Spmd.Rejection

/-!
# Tallies

Counts over attempts to vectorize. Every count is a 64-bit word, and a sum that does not fit faults.
-/

namespace Spmd

structure Tally where
  attempts : Nat := 0
  successes : Nat := 0
  rejectedFlow : Nat := 0
  rejectedUnsupported : Nat := 0
  rejectedDivergentBarrier : Nat := 0
  rejectedWidth : Nat := 0
  rejectedMalformed : Nat := 0
  /-- Values that became one vector. -/
  packets : Nat := 0
  /-- Values that became one scalar per lane. -/
  instances : Nat := 0
  /-- Collective calls that were spelled out. -/
  collectives : Nat := 0
  /-- Divergent branches that were turned into masks. -/
  regions : Nat := 0
  /-- Groups of strided accesses that were merged. -/
  merged : Nat := 0
deriving DecidableEq, Repr

namespace Tally

/-- All counts in the order of the fields. -/
def toList (t : Tally) : List Nat :=
  [t.attempts, t.successes, t.rejectedFlow, t.rejectedUnsupported, t.rejectedDivergentBarrier, t.rejectedWidth,
    t.rejectedMalformed, t.packets, t.instances, t.collectives, t.regions, t.merged]

/-- The names of the counts in the order of the fields. -/
def names : List String :=
  ["attempts", "successes", "rejected_cfg", "rejected_unsupported", "rejected_divergent_barrier", "rejected_factor",
    "rejected_verify", "values_packetized", "values_instantiated", "collectives_lowered", "regions_linearized",
    "interleaved_groups_merged"]

/-- Reads the counts in the order of the fields; a missing count is zero. -/
def ofList (ns : List Nat) : Tally where
  attempts := ns.getD 0 0
  successes := ns.getD 1 0
  rejectedFlow := ns.getD 2 0
  rejectedUnsupported := ns.getD 3 0
  rejectedDivergentBarrier := ns.getD 4 0
  rejectedWidth := ns.getD 5 0
  rejectedMalformed := ns.getD 6 0
  packets := ns.getD 7 0
  instances := ns.getD 8 0
  collectives := ns.getD 9 0
  regions := ns.getD 10 0
  merged := ns.getD 11 0

/-- Adds count by count. -/
def merge (s t : Tally) : Checked Tally :=
  return ofList (← (s.toList.zip t.toList).mapM fun (m, n) => Checked.word64 (m + n))

/-- Counts a rejection. -/
def reject (t : Tally) : RejectionKind → Checked Tally
  | .flow => t.merge { rejectedFlow := 1 }
  | .unsupported => t.merge { rejectedUnsupported := 1 }
  | .divergentBarrier => t.merge { rejectedDivergentBarrier := 1 }
  | .width => t.merge { rejectedWidth := 1 }
  | .malformed => t.merge { rejectedMalformed := 1 }

/-- How many attempts were rejected. -/
def rejections (t : Tally) : Checked Nat :=
  Checked.word64 (t.rejectedFlow + t.rejectedUnsupported + t.rejectedDivergentBarrier + t.rejectedWidth
    + t.rejectedMalformed)

/-- The share of attempts that succeeded, in single precision; zero without attempts. -/
def successRate (t : Tally) : Float32 :=
  if t.attempts = 0 then 0
  else (UInt64.ofNat t.successes).toFloat32 / (UInt64.ofNat t.attempts).toFloat32

end Tally

end Spmd
