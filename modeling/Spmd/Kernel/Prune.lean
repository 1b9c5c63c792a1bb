import Spmd.FlowGraph.Basic
import Spmd.Kernel.Edit

/-!
# Pruning

Removes the blocks that control never reaches, and the inputs that phis would get from them.
-/

namespace Spmd.Kernel

/-- The blocks that control can reach from the entry. -/
def reachableBlocks (k : Kernel) : List BlockId := Graph.discover k.blocks.ids k.successors [] k.entry?.toList

/-- Removes the blocks of the layout that cannot be reached, and says how many they were. -/
def removeUnreachable (k : Kernel) : Checked (Kernel × Nat) := do
  let reachable := k.reachableBlocks
  match (reachable.flatMap k.successors).find? fun t => !k.blocks.contains t with
  | some t => throw (.noBlock t.index)
  | none => pure ()
  let gone := k.layout.filter fun b => !reachable.contains b
  if gone.isEmpty then return (k, 0)
  let k ← gone.foldlM removeBlock k
  let k := k.instsInOrder.foldl
    (fun k i => k.modifyInst i fun d => { d with instr := dropIncoming reachable d.instr }) k
  return (k, gone.length)

end Spmd.Kernel
