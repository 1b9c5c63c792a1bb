import Spmd.Callee
import Spmd.FlowGraph.Dominance
import Spmd.IndexSet
import Spmd.Pointer.Root

/-!
# Divergence

Tells which instructions may do something different in different lanes. A call that asks for the lane does,
and so does a call that has to be made per lane; a private buffer is a different one for every lane. From
there it spreads:

* along operands, a mask included;
* through memory, from a varying write to the loads that may read it;
* through control, from a varying branch to all blocks between it and its join, and to the phis at the join.

What lanes compute together and all get back alike stays uniform whatever its operands. Sweeps over the
instructions in reverse post-order add varying instructions until a sweep adds none.
-/

namespace Spmd

/-- Which instructions and blocks differ between lanes. -/
structure Divergence where
  /-- Indices of the varying instructions. -/
  varying : IndexSet
  /-- Indices of the blocks that some lanes may not go through. -/
  tainted : IndexSet
  /-- The varying branches in reverse post-order. -/
  branches : List InstId

namespace Divergence

def isVaryingInst (d : Divergence) (i : InstId) : Bool := d.varying.contains i.index

/-- Whether a value differs between lanes. Only instructions make it differ. -/
def isVarying (d : Divergence) (k : Kernel) (v : ValueId) : Checked Bool := do
  match (← k.value v).kind with
  | .inst i => return d.isVaryingInst i
  | _ => return false

def isDivergentBlock (d : Divergence) (b : BlockId) : Bool := d.tainted.contains b.index

end Divergence

/-- An instruction at its place, with what it does if it is a call. -/
structure Site where
  block : BlockId
  inst : InstId
  instr : Instr
  call : Option CallKind

/-- The instructions of the reachable blocks in reverse post-order. -/
def Kernel.sites (k : Kernel) (classify : Classifier) (g : FlowGraph) : Checked (List Site) :=
  (g.order.flatMap fun b => (k.instsOf b).map (b, ·)).mapM fun (b, i) => do
    return ⟨b, i, (← k.inst i).instr, ← k.callKind? classify i⟩

/-- What the sweeps look at. -/
structure DivergenceProblem where
  kernel : Kernel
  graph : FlowGraph
  post : DominatorTree
  sites : List Site
  /-- The dimension that is spread over lanes. -/
  dimension : Nat

/-- What the sweeps have found so far. -/
structure Spread where
  varying : IndexSet := ∅
  tainted : IndexSet := ∅
  /-- Blocks where lanes that took different ways meet. -/
  joins : IndexSet := ∅
  /-- Objects that varying instructions write. -/
  writes : List MemRoot := []

namespace Spread

def isVarying (s : Spread) (k : Kernel) (v : ValueId) : Checked Bool := do
  match (← k.value v).kind with
  | .inst i => return s.varying.contains i.index
  | _ => return false

def anyVarying (s : Spread) (k : Kernel) (vs : List ValueId) : Checked Bool := vs.anyM (s.isVarying k)

end Spread

namespace CallKind

/-- Whether the result of a call varies; none if that depends on the operands. -/
def varies? (dimension : Nat) : CallKind → Option Bool
  | laneIdentity (.index d) => some (d = dimension)
  | laneIdentity _ => some true
  | collective c => some (c.op = .scanInclusive || c.op = .scanExclusive)
  | barrier => some false
  | unknown | neverConvergent | inherentlyVarying => some true
  | groupInvariant | pure => none

end CallKind

namespace DivergenceProblem

/-- Whether an instruction varies, given what varies so far. -/
def varies (p : DivergenceProblem) (s : Spread) (site : Site) : Checked Bool := do
  let operands := s.anyVarying p.kernel site.instr.operands
  if s.tainted.contains site.block.index then return true
  match site.instr with
  | .phi _ => if s.joins.contains site.block.index then return true else operands
  | .call .. =>
    match site.call.bind (CallKind.varies? p.dimension) with
    | some answer => return answer
    | none => operands
  | .alloca .. => return true
  | .load ptr .. | .strideLoad ptr .. =>
    if ← operands then return true
    let root ← p.kernel.memoryRoot ptr
    return s.writes.any (p.kernel.rootsMayAlias · root)
  | .gather .. =>
    if ← operands then return true
    return !s.writes.isEmpty
  | _ => operands

/-- The object that a varying instruction writes. -/
def written? (p : DivergenceProblem) (site : Site) : Checked (Option MemRoot) := do
  match site.instr with
  | .call .. => return if site.call.any CallKind.isPerLane then some .unknown else none
  | instr => if instr.mayWrite then p.kernel.accessRoot? site.inst else return none

/-- Taints the blocks between a varying branch and its join. A block that is tainted already is not looked
behind. -/
def taint (p : DivergenceProblem) (s : Spread) (b : BlockId) : Spread :=
  let join := p.post.immediate? b
  let next (b : BlockId) : List BlockId := (p.graph.succs b).filter fun t => some t ≠ join
  let old := p.graph.order.filter fun b => s.tainted.contains b.index
  { s with
    joins := s.joins.insertAll (join.map (·.index)).toList
    tainted := s.tainted.insertAll ((Graph.discover p.graph.order next old (next b)).map (·.index)) }

/-- Notes an instruction as varying, with all that follows at once. -/
def note (p : DivergenceProblem) (s : Spread) (site : Site) : Checked Spread := do
  let s := { s with varying := s.varying.insert site.inst.index }
  let s := match ← p.written? site with
    | some root => if s.writes.contains root then s else { s with writes := s.writes ++ [root] }
    | none => s
  match site.instr with
  | .condBr .. => return p.taint s site.block
  | _ => return s

/-- Looks at one instruction. -/
def visit (p : DivergenceProblem) (s : Spread) (site : Site) : Checked Spread := do
  if s.varying.contains site.inst.index then return s
  if ← p.varies s site then p.note s site else return s

def sweep (p : DivergenceProblem) (s : Spread) : Checked Spread := p.sites.foldlM p.visit s

/-- How many instructions are not known to vary. -/
def remaining (p : DivergenceProblem) (s : Spread) : Nat := p.sites.countP fun site => !s.varying.contains site.inst.index

-- the bound of `if h` is used for termination only
set_option linter.unusedVariables false in
/-- Sweeps until a sweep finds nothing new. -/
def settle (p : DivergenceProblem) (s : Spread) : Checked Spread := do
  let t ← p.sweep s
  if h : p.remaining t < p.remaining s then p.settle t else return t
termination_by p.remaining s

end DivergenceProblem

/-- Which instructions differ between lanes when a dimension is spread over them. -/
def Kernel.divergence (k : Kernel) (classify : Classifier) (dimension : Nat) : Checked Divergence := do
  let graph ← k.flowGraph
  let sites ← k.sites classify graph
  let p : DivergenceProblem := { kernel := k, graph, post := graph.postDominators, sites, dimension }
  let s ← p.settle {}
  let isDivergent (i : InstId) : Bool :=
    match k.instr? i with
    | some (.condBr ..) => s.varying.contains i.index
    | _ => false
  return ⟨s.varying, s.tainted, (graph.order.filterMap k.terminator?).filter isDivergent⟩

end Spmd
