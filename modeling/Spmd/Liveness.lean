import Spmd.Divergence
import Spmd.Target

/-!
# Liveness

A value is live where some walk from there reads it before defining it. Parameters and results of
instructions are looked at, constants are not. A phi reads its inputs at the end of the blocks they come
from. Live values are found by sweeps over the blocks, last block first, until a sweep changes no set. Sets that
differ only in their room count as changed too; as neither members nor room are ever lost, that ends as well.

From the live values comes an estimate of how many vector registers a kernel needs.
-/

namespace Spmd

/-- What a block reads and defines itself. -/
structure BlockUse where
  /-- Values read before the block defines them. -/
  reads : IndexSet := ∅
  defs : IndexSet := ∅

structure Liveness where
  /-- The reachable blocks in reverse post-order. -/
  blocks : List BlockId
  liveIn : SideTable .block IndexSet
  liveOut : SideTable .block IndexSet

namespace Kernel

/-- Whether liveness looks at a value. -/
def isTracked (k : Kernel) (v : ValueId) : Checked Bool := do
  match (← k.value v).kind with
  | .param _ | .inst _ => return true
  | _ => return false

def tracked (k : Kernel) (vs : List ValueId) : Checked (List Nat) := return (← vs.filterM k.isTracked).map (·.index)

/-- The operands that an instruction reads at its own place. -/
def readsAt (k : Kernel) (i : InstId) : Checked (List Nat) := do
  match (← k.inst i).instr with
  | .phi _ => return []
  | instr => k.tracked instr.operands

/-- Adds what the next instruction of a block reads and defines. -/
def addUse (k : Kernel) (u : BlockUse) (i : InstId) : Checked BlockUse := do
  let reads := (← k.readsAt i).filter fun v => !u.defs.contains v
  return { reads := u.reads.insertAll reads, defs := u.defs.insertAll ((k.result? i).toList.map (·.index)) }

def blockUse (k : Kernel) (b : BlockId) : Checked BlockUse := (k.instsOf b).foldlM k.addUse {}

/-- The inputs of an instruction that is a phi. -/
def inputsOf (k : Kernel) (i : InstId) : List (BlockId × ValueId) :=
  match k.instr? i with
  | some (.phi incoming) => incoming
  | _ => []

/-- The inputs of the phis of a block with the blocks they come from. -/
def phiInputs (k : Kernel) (b : BlockId) : Checked (List (BlockId × Nat)) := do
  let kept ← ((k.instsOf b).flatMap k.inputsOf).filterM fun x => k.isTracked x.2
  return kept.map fun x => (x.1, x.2.index)

/-- Parameters first, then results in layout order. -/
def programOrder (k : Kernel) : List ValueId := k.params.map (·.value) ++ k.instsInOrder.filterMap k.result?

/-- The members of a set of values in program order, each at its last place there. -/
def inProgramOrder (k : Kernel) (s : IndexSet) : List ValueId :=
  let order := k.programOrder.reverse.eraseDups.reverse
  order.filter (fun v => s.contains v.index)
    ++ (s.toList.map Id.mk).filter fun v => !order.contains v

end Kernel

/-- What the live values of the blocks are found from. -/
structure LiveProblem where
  graph : FlowGraph
  uses : SideTable .block BlockUse
  /-- What phis take from the end of a block. -/
  phiOut : SideTable .block IndexSet

namespace LiveProblem

/-- The values live at the end of a block, given those at the start of all blocks. -/
def outOf (p : LiveProblem) (liveIn : SideTable .block IndexSet) (b : BlockId) : IndexSet :=
  (p.graph.succs b).foldl (fun s t => s.union (liveIn.get t)) (p.phiOut.get b)

/-- The values live at the start of a block, given those at the start of all blocks. -/
def inOf (p : LiveProblem) (liveIn : SideTable .block IndexSet) (b : BlockId) : IndexSet :=
  ((p.outOf liveIn b).diff (p.uses.get b).defs).union (p.uses.get b).reads

/-- Looks at one block again, and notes whether the set at its start changed. -/
def visit (p : LiveProblem) (s : Liveness × Bool) (b : BlockId) : Liveness × Bool :=
  let l := { s.1 with liveOut := s.1.liveOut.set b (p.outOf s.1.liveIn b) }
  let live := p.inOf s.1.liveIn b
  if live = s.1.liveIn.get b then (l, s.2) else ({ l with liveIn := l.liveIn.set b live }, true)

def sweep (p : LiveProblem) (l : Liveness) : Liveness × Bool := p.graph.order.reverse.foldl p.visit (l, false)

/-- As much room as a set can get. -/
def roomLimit (p : LiveProblem) : Nat :=
  (p.graph.order.map fun b => max (p.phiOut.get b).capacity (p.uses.get b).reads.capacity).foldl max 0

/-- How much room and how many members the sets can still gain. -/
def slack (p : LiveProblem) (l : Liveness) : Nat :=
  total (p.graph.order.map fun b => 2 * p.roomLimit - ((l.liveIn.get b).capacity + (l.liveIn.get b).count))

-- the bound of `if h` is used for termination only
set_option linter.unusedVariables false in
/-- Sweeps until a sweep changes nothing. -/
def settle (p : LiveProblem) (l : Liveness) : Checked Liveness :=
  let next := p.sweep l
  if !next.2 then return next.1
  else if h : p.slack next.1 < p.slack l then p.settle next.1 else throw .endless
termination_by p.slack l

end LiveProblem

namespace Kernel

def liveProblem (k : Kernel) : Checked LiveProblem := do
  let graph ← k.flowGraph
  let uses ← graph.order.mapM fun b => return (b, ← k.blockUse b)
  let inputs := (← graph.order.mapM k.phiInputs).flatten
  return {
    graph
    uses := uses.foldl (fun t x => t.set x.1 x.2) (.replicate k.blocks.size {})
    phiOut := .tabulate k.blocks.size ∅ fun b => .ofList ((inputs.filter fun x => x.1 = b).map (·.2)) }

def liveness (k : Kernel) : Checked Liveness := do
  let p ← k.liveProblem
  p.settle ⟨p.graph.order, .replicate k.blocks.size ∅, .replicate k.blocks.size ∅⟩

end Kernel

namespace Liveness

/-- The live values before each instruction of `insts`, last instruction first, given those behind them. -/
def pointsBefore (k : Kernel) : List InstId → IndexSet → Checked (List IndexSet)
  | [], _ => return []
  | i :: rest, live => do
    let live := (k.result? i).elim live fun v => live.erase v.index
    let live := live.insertAll (← k.readsAt i)
    return live :: (← pointsBefore k rest live)

/-- The live values at every point of the program. -/
def points (l : Liveness) (k : Kernel) : Checked (List IndexSet) := do
  let perBlock ← l.blocks.mapM fun b => do
    let out := l.liveOut.get b
    return out :: (← pointsBefore k (k.instsOf b).reverse out)
  return perBlock.flatten

/-- The most values that are live at once. -/
def peak (points : List IndexSet) : Nat := (points.map IndexSet.count).foldl max 0

end Liveness

/-! ## Register pressure -/

/-- What the register file has to say about the width of a lane group. -/
structure WidthAdvice where
  /-- The most values that are live at once. -/
  peakLive : Nat
  /-- How many vector registers the requested group needs. -/
  pressure : Nat
  /-- The widest group that fits into the registers. -/
  maxWidth : Nat
deriving DecidableEq, Repr

/-- The registers that values of so many bits per lane need, as a 32-bit word. -/
def Target.pressure (t : Target) (bitsPerLane lanes : Nat) : Nat :=
  let width := max 1 t.nativeBits
  min ((bitsPerLane * lanes + width - 1) / width) 0xffffffff

/-- Whether a group of that width is allowed and fits into the registers. -/
def Target.fits (t : Target) (bitsPerLane lanes : Nat) : Bool :=
  lanes ≤ t.maxFixedWidth && t.pressure bitsPerLane lanes ≤ t.registers

/-- The widest power of two up to which all powers of two fit. Faults if all that a 32-bit word holds do. -/
def Target.widestFit (t : Target) (bitsPerLane : Nat) : Checked Nat :=
  let widths := ((List.range 31).map fun n => 1 <<< (n + 1)).takeWhile (t.fits bitsPerLane)
  if widths.length < 31 then return widths.getLast?.getD 1 else throw .overflow

namespace Kernel

/-- Bits per lane of the varying values in a set. -/
def varyingBits (k : Kernel) (d : Divergence) (live : IndexSet) : Checked Nat := do
  let bits ← live.toList.mapM fun n => do
    let v : ValueId := ⟨n⟩
    if ← d.isVarying k v then
      return ((← k.valueTy v).element?.map fun e => e.size * 8).getD 0
    else return 0
  return total bits

/-- Advice on the width of a lane group from the live values of a kernel. -/
def widthAdvice (k : Kernel) (d : Divergence) (t : Target) (g : LaneGroup) : Checked WidthAdvice := do
  let points ← (← k.liveness).points k
  let bits ← points.mapM (k.varyingBits d)
  let perLane := bits.foldl max 0
  return ⟨Liveness.peak points, t.pressure perLane g.lanes, ← t.widestFit perLane⟩

end Kernel

end Spmd
