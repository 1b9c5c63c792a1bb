import Spmd.Divergence
import Spmd.Options
import Spmd.Rejection

/-!
# Divergent regions

The region of a branch is all blocks between it and its join, the block where all ways from it meet again. A
region can be flattened if it is entered through the branch alone and holds no loop.
-/

namespace Spmd

/-- The blocks that a branch decides about. -/
structure Region where
  branch : InstId
  /-- The block that ends with the branch. -/
  head : BlockId
  /-- The closest block that every way from the head to an exit goes through. -/
  join : BlockId
  /-- The blocks between head and join in reverse post-order. -/
  blocks : List BlockId
deriving DecidableEq

namespace FlowGraph

/-- The blocks reached from the successors of `head` before `join`. -/
def between (g : FlowGraph) (head join : BlockId) : List BlockId :=
  let next (b : BlockId) : List BlockId := (g.succs b).filter (· ≠ join)
  Graph.discover g.order next [] (next head)

/-- What keeps the blocks between `head` and a join from being flattened. -/
def regionObstacle? (g : FlowGraph) (head : BlockId) (members : List BlockId) : Option Obstacle :=
  if members.contains head then some .divergentLoop
  else if members.any fun b => (g.preds b).any fun p => p ≠ head && !members.contains p then some .sideEntry
  else if g.retreatingEdges.any fun (source, target) => members.contains source && members.contains target then
    some .innerLoop
  else none

end FlowGraph

namespace Kernel

/-- The region of a branch. -/
def region (k : Kernel) (g : FlowGraph) (post : DominatorTree) (branch : InstId) : Attempt Region := do
  let head := (← k.inst branch).block
  match post.immediate? head with
  | none => .unsupported branch .noJoin
  | some join =>
    let members := g.between head join
    match g.regionObstacle? head members with
    | some obstacle => .unsupported branch obstacle
    | none => return ⟨branch, head, join, g.order.filter members.contains⟩

/-- Whether a call may make lanes wait for each other. -/
def waits (options : Options) : CallKind → Bool
  | .unknown => options.unknownCallsConvergent
  | kind => kind.isConvergent

/-- Accepts a region in which no lane waits for lanes that went another way. -/
def checkWaits (k : Kernel) (classify : Classifier) (options : Options) (r : Region) : Attempt Unit :=
  (r.blocks.flatMap k.instsOf).forM fun i => do
    if (← k.callKind? classify i).any (waits options) then .reject (.divergentBarrier i)

end Kernel

end Spmd
