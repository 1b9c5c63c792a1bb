import Spmd.FlowGraph.Basic
import Spmd.Graph.Ascent

/-!
# Dominance

A block dominates another if every walk from the entry to the second goes through the first. The dominators of a
block form a chain, from the block itself up to the entry, so it is enough to know of every block its closest
strict dominator. These are found by iteration over the blocks in reverse post-order. The same iteration on the
reversed graph, with a root placed beyond all exits, gives post-dominance: a block post-dominates another if
every walk from the second to any exit goes through the first.
-/

namespace Spmd

/-- The closest strict dominators in a rooted graph. -/
structure DominatorTree where
  /-- The nodes that the root reaches, each behind one of its predecessors. -/
  nodes : List BlockId
  /-- The way up from the position of a node to the positions of its dominators. -/
  ascent : Ascent

namespace DominatorTree

/-- Where in the order the predecessors of a position stand. -/
def positions (order : List BlockId) (preds : BlockId → List BlockId) (i : Nat) : List Nat :=
  match order[i]? with
  | some b => (preds b).filterMap order.idxOf?
  | none => []

/-- The dominator tree of a graph. The order starts with the root. -/
def ofOrder (order : List BlockId) (preds : BlockId → List BlockId) : DominatorTree :=
  let start := Ascent.start order.length
  { nodes := order, ascent := (start.settle (positions order preds)).getD start }

/-- The closest strict dominator. -/
def immediate? (t : DominatorTree) (b : BlockId) : Option BlockId := do
  let i ← t.nodes.idxOf? b
  let p ← t.ascent.up? i
  t.nodes[p]?

/-- A node with the nodes above it in the tree. -/
def ancestors (t : DominatorTree) (b : BlockId) : List BlockId :=
  match t.nodes.idxOf? b with
  | some i => (t.ascent.chain i).filterMap (t.nodes[·]?)
  | none => [b]

/-- Whether `a` is `b` or every walk to `b` goes through `a`. -/
def dominates (t : DominatorTree) (a b : BlockId) : Bool := (t.ancestors b).contains a

def strictlyDominates (t : DominatorTree) (a b : BlockId) : Bool := a ≠ b && t.dominates a b

/-- The nodes whose closest strict dominator is `a`. -/
def children (t : DominatorTree) (a : BlockId) : List BlockId := t.nodes.filter (t.immediate? · = some a)

/-- Notes the depth of a node: one more than that of the node above it. -/
def deepen (t : DominatorTree) (depths : SideTable .block Nat) (b : BlockId) : SideTable .block Nat :=
  match t.immediate? b with
  | some above => depths.set b (depths.get above + 1)
  | none => depths

/-- How many nodes are above a node in the tree, as noted along the order of the nodes. -/
def depth (t : DominatorTree) (b : BlockId) : Nat := (t.nodes.foldl t.deepen (.replicate 0 0)).get b

/-- Dominance between nodes of the tree alone. -/
def covers (t : DominatorTree) (a b : BlockId) : Bool := t.nodes.contains b && t.dominates a b

/-- The tree without its root. -/
def dropRoot (t : DominatorTree) : DominatorTree := { nodes := t.nodes.tail, ascent := t.ascent.dropRoot }

end DominatorTree

namespace FlowGraph

/-- Dominance from the entry on. -/
def dominators (g : FlowGraph) : DominatorTree := .ofOrder g.order g.preds

/-- The place beyond all exits. No reachable block has its name. -/
def beyond (g : FlowGraph) : BlockId := ⟨(g.order.map (·.index + 1)).foldl max 0⟩

/-- Where control comes from, seen from a block or from beyond the exits. -/
def sources (g : FlowGraph) (b : BlockId) : List BlockId := if b = g.beyond then g.exits else g.preds b

/-- Where control goes from a block. From an exit it goes beyond. -/
def destinations (g : FlowGraph) (b : BlockId) : List BlockId :=
  g.succs b ++ if g.exits.contains b then [g.beyond] else []

/-- The place beyond the exits, and the blocks from which it can be reached. -/
def backOrder (g : FlowGraph) : List BlockId := Graph.postorder g.order g.sources g.beyond

/-- The reachable blocks from which an exit can be reached. -/
def leavingBlocks (g : FlowGraph) : List BlockId := g.backOrder.tail

/-- Post-dominance: dominance from beyond the exits back. -/
def postDominators (g : FlowGraph) : DominatorTree := (DominatorTree.ofOrder g.backOrder g.destinations).dropRoot

/-- The first retreating jump whose target does not dominate its source. There is none exactly if every
cycle is entered through one block. -/
def irreducibleEdge? (g : FlowGraph) (dom : DominatorTree) : Option (BlockId × BlockId) :=
  g.retreatingEdges.find? fun (source, target) => !dom.dominates target source

end FlowGraph

end Spmd
