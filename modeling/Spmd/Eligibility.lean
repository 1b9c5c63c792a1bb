import Spmd.Divergence
import Spmd.Rejection

/-!
# Eligible control flow

A kernel can be vectorized if exactly one of its blocks leaves it, it has no many-way branches, and every
cycle is entered through one block.
-/

namespace Spmd

namespace Kernel

/-- The first switch that can be reached. -/
def reachableSwitch? (k : Kernel) (g : FlowGraph) : Option InstId :=
  (g.order.filterMap k.terminator?).find? fun i =>
    match k.instr? i with
    | some (.switch ..) => true
    | _ => false

/-- What is wrong with the jumps of a kernel. -/
def flowIssue? (k : Kernel) (g : FlowGraph) : Option FlowIssue :=
  if g.order.isEmpty then some .empty
  else match k.reachableSwitch? g, g.exits with
    | some i, _ => some (.switch i)
    | none, [] => some .noExit
    | none, [_] => (g.irreducibleEdge? g.dominators).map fun (source, target) => .irreducible source target
    | none, exits => some (.multipleExits exits.length)

/-- Accepts a kernel whose jumps can be vectorized. -/
def checkFlow (k : Kernel) : Attempt Unit := do
  let g ← k.flowGraph
  match k.flowIssue? g with
  | some issue => .reject (.flow issue)
  | none => pure ()

end Kernel

end Spmd
