import Spmd.Options
import Spmd.Stride
import Spmd.Target

/-!
# Lane plans

Decides for every varying value whether it becomes one vector, one scalar per lane, or is computed anew from
the lane index; and for every varying memory access how the lanes' accesses are put together.

A value is made a vector if something that stays a vector needs it: the data and mask of a vector store, a
returned value, an argument of what lanes compute together. From there the need goes back along operands.
The address of an access whose lanes lie at regular distances is not needed in all lanes, so it stays scalar.
-/

namespace Spmd

/-- How the accesses of the lanes are put together. -/
inductive MemoryForm where
  /-- Consecutive elements from the first lane's address on. -/
  | contiguous
  /-- Every `stride`-th element from the first lane's address on. -/
  | interleaved (stride : Int)
  /-- One address per lane. -/
  | gatherScatter
  /-- One scalar access per lane, in lane order. -/
  | perLane
deriving DecidableEq, Repr

namespace MemoryForm

/-- Whether the lanes' accesses become one instruction. -/
def isVector (f : MemoryForm) : Bool := f ≠ .perLane

def text : MemoryForm → String
  | contiguous => "contiguous"
  | interleaved stride => "interleaved:" ++ toString stride
  | gatherScatter => "gather_scatter"
  | perLane => "instantiate"

end MemoryForm

/-- What becomes of a value. -/
inductive ValuePlan where
  /-- It stays the scalar it is. -/
  | uniform
  /-- One vector. -/
  | packet
  /-- One scalar per lane. -/
  | perLane
  /-- The lane index: that of the first lane plus the position in the group. -/
  | laneId
deriving DecidableEq, Repr

def ValuePlan.text : ValuePlan → String
  | uniform => "uniform"
  | packet => "packet"
  | perLane => "instance"
  | laneId => "lane_id"

structure LanePlan where
  plans : Std.TreeMap ValueId ValuePlan := ∅
  memory : Std.TreeMap InstId MemoryForm := ∅
  /-- The values that something which stays a vector needs. -/
  needed : List ValueId := []

namespace LanePlan

/-- The plan of a value; one without an entry is uniform. -/
def get (p : LanePlan) (v : ValueId) : ValuePlan := p.plans.getD v .uniform

def memoryForm? (p : LanePlan) (i : InstId) : Option MemoryForm := p.memory[i]?

def isNeeded (p : LanePlan) (v : ValueId) : Bool := p.needed.contains v

/-- How many values have a given plan. -/
def count (p : LanePlan) (plan : ValuePlan) : Nat := p.plans.toList.countP (·.2 = plan)

end LanePlan

namespace Kernel

/-- The address and the element type of a plain memory access. -/
def access? (k : Kernel) (i : InstId) : Instr → Checked (Option (ValueId × ScalarTy))
  | .load ptr .. => return (k.resultTy i).element?.map (ptr, ·)
  | .store ptr value .. => return (← k.valueTy value).element?.map (ptr, ·)
  | _ => return none

end Kernel

/-- How lanes access elements of some size at addresses with a stride. -/
def Stride.memoryForm (size : Nat) (gather : Bool) : Stride → MemoryForm
  | .uniform => .perLane
  | .irregular => if gather then .gatherScatter else .perLane
  | .linear step =>
    if step = size then .contiguous
    else if step = 0 then .perLane
    else if step % size = 0 then .interleaved (step / size)
    else if gather then .gatherScatter
    else .perLane

/-- What a plan is made from. -/
structure PlanProblem where
  kernel : Kernel
  divergence : Divergence
  strides : Strides
  target : Target
  options : Options
  sites : List Site

namespace PlanProblem

def memoryForm? (p : PlanProblem) (site : Site) : Checked (Option MemoryForm) := do
  match ← p.kernel.access? site.inst site.instr with
  | none => return none
  | some (ptr, elem) =>
    if site.instr.mask?.isSome && !p.target.maskedMemory then return some .perLane
    else return some ((p.strides.get ptr).memoryForm elem.size (p.options.gatherScatter && p.target.gatherScatter))

/-- The memory forms of the varying accesses. -/
def memoryForms (p : PlanProblem) : Checked (Std.TreeMap InstId MemoryForm) :=
  p.sites.foldlM
    (fun forms site => do
      if p.divergence.isVaryingInst site.inst then
        match ← p.memoryForm? site with
        | some form => return forms.insert site.inst form
        | none => return forms
      else return forms) ∅

/-- Whether an instruction has a vector form, given the forms of memory accesses. -/
def isPacketizable (forms : Std.TreeMap InstId MemoryForm) (site : Site) : Bool :=
  match site.instr with
  | .binary .. | .unary .. | .compare .. | .cast .. | .select .. | .elementPtr .. | .phi _ => true
  | .load .. => forms[site.inst]?.any MemoryForm.isVector
  | .call .. =>
    match site.call with
    | some .pure | some (.collective _) => true
    | _ => false
  | _ => false

/-- The values that an instruction needs in all lanes whoever reads its result. -/
def roots (forms : Std.TreeMap InstId MemoryForm) (site : Site) : List ValueId :=
  match site.instr with
  | .store ptr value mask _ =>
    match forms[site.inst]? with
    | some .gatherScatter => value :: mask.toList ++ [ptr]
    | some .perLane | none => []
    | some _ => value :: mask.toList
  | .ret (some v) => [v]
  | .call _ args _ =>
    match site.call with
    | some (.collective _) => args
    | _ => []
  | _ => []

/-- The values that an instruction needs in all lanes if its result is needed so. -/
def inputs (forms : Std.TreeMap InstId MemoryForm) (site : Site) : List ValueId :=
  if isPacketizable forms site then
    match site.instr with
    | .load ptr mask _ => mask.toList ++ if forms[site.inst]? = some .gatherScatter then [ptr] else []
    | .call .. =>
      match site.call with
      | some (.collective _) => []
      | _ => site.instr.operands
    | instr => instr.operands
  else []

/-- The varying values among those that an instruction asks for. -/
def varyingOf (p : PlanProblem) (vs : List ValueId) : Checked (List ValueId) :=
  vs.filterM (p.divergence.isVarying p.kernel)

/-- The varying values with the instructions that define them. -/
def definitions (p : PlanProblem) : List (ValueId × Site) :=
  (p.sites.filter fun site => p.divergence.isVaryingInst site.inst).filterMap fun site =>
    (p.kernel.result? site.inst).map (·, site)

/-- The values needed in all lanes: the roots and, step by step, what those need. -/
def neededValues (p : PlanProblem) (forms : Std.TreeMap InstId MemoryForm) : Checked (List ValueId) := do
  let seeds ← p.sites.flatMapM fun site => p.varyingOf (roots forms site)
  let table : Std.TreeMap ValueId (List ValueId) :=
    .ofList (p.definitions.map fun (v, site) => (v, inputs forms site))
  let known := p.definitions.map (·.1)
  let needed := Graph.discover known (fun v => table.getD v []) [] seeds
  needed.forM fun v => (table.getD v []).forM fun u => do discard (p.kernel.value u)
  return needed

/-- What becomes of the value that a varying instruction defines. -/
def planOf (forms : Std.TreeMap InstId MemoryForm) (group : LaneGroup) (site : Site) (needed : Bool) : ValuePlan :=
  match site.call with
  | some (.laneIdentity (.index _)) | some (.laneIdentity .subGroup) => .laneId
  | some (.collective _) => .packet
  | _ => if needed && isPacketizable forms site && !group.isScalar then .packet else .perLane

def solve (p : PlanProblem) (group : LaneGroup) : Checked LanePlan := do
  let memory ← p.memoryForms
  let needed ← p.neededValues memory
  let plans := p.definitions.map fun (v, site) => (v, planOf memory group site (needed.contains v))
  return { plans := .ofList plans, memory, needed }

end PlanProblem

/-- Plans a kernel for a group of lanes. -/
def Kernel.lanePlan (k : Kernel) (classify : Classifier) (divergence : Divergence) (strides : Strides)
    (target : Target) (options : Options) (group : LaneGroup) : Checked LanePlan := do
  let sites ← k.sites classify (← k.flowGraph)
  ({ kernel := k, divergence, strides, target, options, sites } : PlanProblem).solve group

end Spmd
