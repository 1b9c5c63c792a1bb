import Spmd.Graph.Discover
import Spmd.Kernel.Basic
import Spmd.SideTable

/-!
# Flow graphs

The blocks of a kernel with the jumps between them. `order` lists the blocks that can be reached from the
entry in reverse post-order: along any walk that does not go round in circles, it goes forward. Analyses
look at those blocks only.
-/

namespace Spmd

/-- The jumps of a kernel. -/
structure FlowGraph where
  entry : Option BlockId
  /-- The different blocks each block of the layout jumps to. -/
  succTable : SideTable .block (List BlockId)
  /-- The blocks that jump to each block, in layout order; for a reachable block only the reachable ones. -/
  predTable : SideTable .block (List BlockId)
  /-- The reachable blocks in reverse post-order. -/
  order : List BlockId
  /-- The reachable blocks that leave the kernel. -/
  exits : List BlockId

namespace FlowGraph

def succs (g : FlowGraph) (b : BlockId) : List BlockId := g.succTable.get b

def preds (g : FlowGraph) (b : BlockId) : List BlockId := g.predTable.get b

/-- The place of a block in reverse post-order. -/
def position? (g : FlowGraph) (b : BlockId) : Option Nat := g.order.idxOf? b

def isReachable (g : FlowGraph) (b : BlockId) : Bool := g.order.contains b

/-- Jumps that do not go forward in reverse post-order. -/
def retreatingEdges (g : FlowGraph) : List (BlockId × BlockId) :=
  g.order.zipIdx.flatMap fun (b, i) =>
    ((g.succs b).filter fun s => (g.position? s).any (· ≤ i)).map (b, ·)

end FlowGraph

namespace Kernel

/-- The different blocks that a block of the layout jumps to. -/
def targets (k : Kernel) (b : BlockId) : List BlockId :=
  if k.layout.contains b then (k.successors b).eraseDups else []

def succTable (k : Kernel) : SideTable .block (List BlockId) := .tabulate k.blocks.size [] k.targets

/-- The blocks reachable from the entry in reverse post-order. -/
def blockOrder (k : Kernel) : List BlockId :=
  match k.entry? with
  | some entry => Graph.postorder k.blocks.ids k.succTable.get entry
  | none => []

/-- The blocks of the layout that jump to each block. For the blocks of `order` only those in `order` are kept. -/
def predTable (k : Kernel) (order : List BlockId) : SideTable .block (List BlockId) :=
  order.foldl (fun t b => t.modify b (·.filter order.contains)) (.enlist k.blocks.size k.targets k.layout)

/-- Faults if one of the blocks jumps to a block that does not exist. -/
def checkTargets (k : Kernel) (bs : List BlockId) : Checked Unit :=
  match (bs.flatMap k.targets).find? fun t => !k.blocks.contains t with
  | some t => throw (.noBlock t.index)
  | none => pure ()

/-- The flow graph of a kernel. -/
def flowGraph (k : Kernel) : Checked FlowGraph := do
  let order := k.blockOrder
  k.checkTargets order
  return {
    entry := k.entry?
    succTable := k.succTable
    predTable := k.predTable order
    order
    exits := order.filter fun b => (k.terminatorInstr? b).any Instr.isExit }

end Kernel

end Spmd
