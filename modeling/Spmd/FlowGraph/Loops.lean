import Spmd.FlowGraph.Dominance

/-!
# Natural loops

A jump back to a block that dominates its source closes a natural loop. The target is the loop's header, the
source is a latch, and the body is the header with all blocks that reach a latch without passing the header.
Two loops are disjoint or one lies inside the other, so the loops around a block are ordered by size: from the
smallest of them, parents lead to all others.
-/

namespace Spmd

structure Loop where
  header : BlockId
  /-- The sources of the jumps back to the header. -/
  latches : List BlockId
  /-- The header and the other blocks of the loop, in the order in which they are found. -/
  body : List BlockId
deriving DecidableEq

namespace FlowGraph

/-- Jumps to a block that dominates their source. -/
def backEdges (g : FlowGraph) (dom : DominatorTree) : List (BlockId × BlockId) :=
  g.order.flatMap fun b => ((g.succs b).filter (dom.dominates · b)).map (b, ·)

/-- The loop that the jumps back to one header close. Each latch in turn is walked back from. -/
def loopAt (g : FlowGraph) (edges : List (BlockId × BlockId)) (header : BlockId) : Loop :=
  let latches := (edges.filter (·.2 = header)).map (·.1)
  { header, latches, body := latches.foldl (fun body latch => Graph.discover g.order g.preds body [latch]) [header] }

/-- The natural loops, in the order in which their headers are met. -/
def loops (g : FlowGraph) (dom : DominatorTree) : List Loop :=
  let edges := g.backEdges dom
  (edges.map (·.2)).eraseDups.map (g.loopAt edges)

end FlowGraph

namespace Loop

def contains (l : Loop) (b : BlockId) : Bool := l.body.contains b

/-- The smallest of some loops, the first of them if there are several. -/
def smallest? (loops : List Loop) : Option Loop := loops.minOn? (·.body.length)

/-- The innermost loop around a block. -/
def innermost? (loops : List Loop) (b : BlockId) : Option Loop := smallest? (loops.filter (·.contains b))

/-- The innermost other loop around the header of a loop. -/
def parent? (loops : List Loop) (l : Loop) : Option Loop :=
  smallest? (loops.filter fun m => m ≠ l && m.contains l.header)

/-- A loop, its parent, the parent of that and so on, at most as many as said. -/
def lineage (loops : List Loop) : Nat → Option Loop → List Loop
  | 0, _ | _, none => []
  | count + 1, some l => l :: lineage loops count (parent? loops l)

/-- The loops around a block, innermost first. -/
def around (loops : List Loop) (b : BlockId) : List Loop := lineage loops loops.length (innermost? loops b)

/-- How many loops there are around the header, the loop itself included. -/
def depth (loops : List Loop) (l : Loop) : Nat := (lineage loops loops.length (some l)).length

end Loop

end Spmd
