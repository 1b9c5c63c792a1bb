import Spmd.Kernel.Cursor
import Spmd.LanePlan

/-!
# Widening a kernel to a group of lanes

A varying value is represented as a packet, one vector with a lane for each lane of the group, or by
instances, one scalar per lane. Both are made when they are first asked for and then remembered.

New instructions have to stand where their operands are defined and before all of their users. What replaces
an instruction stands right in front of it. What converts a value stands behind the value's definition, one
conversion behind the other; for parameters and constants that is the start of the entry. The inputs of a
new phi are filled in at the end, when everything has been defined.
-/

namespace Spmd

/-- What a new phi is for. -/
inductive PhiForm where
  | packet
  | lane (n : Nat)
deriving DecidableEq

/-- A phi whose inputs are still to be filled in, from those of the phi `source`. -/
structure PendingPhi where
  phi : InstId
  source : InstId
  form : PhiForm

/-- What stays the same while a kernel is widened. -/
structure WidenTask where
  divergence : Divergence
  plan : LanePlan
  options : Options
  group : LaneGroup
  entry : BlockId
  /-- What the calls of the kernel do. -/
  calls : Std.TreeMap InstId CallKind

/-- A kernel that is being widened. -/
structure Widening where
  kernel : Kernel
  packets : Std.TreeMap ValueId ValueId := ∅
  instances : Std.TreeMap (ValueId × Nat) ValueId (compareLex (compareOn Prod.fst) (compareOn Prod.snd)) := ∅
  /-- The last conversion behind a definition. -/
  tails : Std.TreeMap InstId InstId := ∅
  /-- The last conversion at the start of the entry. -/
  entryTail : Option InstId := none
  /-- Instructions that became lane 0, as they were before. -/
  sources : Std.TreeMap InstId Instr := ∅
  /-- Instructions that others stand for now. -/
  replaced : List InstId := []
  /-- The latest comes first. -/
  pending : List PendingPhi := []
  packetCount : Nat := 0
  instanceCount : Nat := 0
  collectiveCount : Nat := 0

/-- Widening may be given up. The state at that point is kept for what it counted. -/
abbrev Widen := EStateM Failure Widening

namespace Widen

variable {α : Type}

def ofChecked : Checked α → Widen α
  | .ok a => pure a
  | .error f => throw (.fault f)

instance : MonadLift Checked Widen := ⟨ofChecked⟩

/-- Gives up for want of a vector form. -/
def unsupported (inst : Option InstId) (obstacle : Obstacle) : Widen α := throw (.rejected (.unsupported inst obstacle))

def kernel : Widen Kernel := return (← get).kernel

def setKernel (k : Kernel) : Widen Unit := modify fun s => { s with kernel := k }

def editKernel (f : Kernel → Checked Kernel) : Widen Unit := do setKernel (← f (← kernel))

def valueTy (v : ValueId) : Widen Ty := do (← kernel).valueTy v

def addConst (ty : Ty) (c : Constant) : Widen ValueId := do
  let (k, v) := (← kernel).addConst ty c
  setKernel k
  return v

/-! ## Shapes -/

/-- The vector of a type with the lanes of the group. -/
def shape (t : WidenTask) (elem : ScalarTy) : VectorTy := ⟨elem, t.group.lanes, t.group.scalable⟩

/-- The type with the lanes of the group; void stays void. -/
def widenTy (t : WidenTask) (ty : Ty) : Ty :=
  match ty.element? with
  | some elem => ty.withLanes (shape t elem)
  | none => ty

/-- The number of lanes, which has to be known. -/
def fixedLanes (t : WidenTask) (i : InstId) (what : String) : Widen Nat :=
  if t.group.scalable then unsupported (some i) (.scalableLanes what) else return t.group.lanes

def isUniform (t : WidenTask) (v : ValueId) : Widen Bool := return !(← t.divergence.isVarying (← kernel) v)

/-! ## Placement -/

/-- Builds at a point and gives the point behind it. -/
def buildAt (point : InsertPoint) (action : Build α) : Widen (α × InsertPoint) := do
  let (a, c) ← (← kernel).build point action
  setKernel c.kernel
  return (a, c.point)

/-- Builds right in front of an instruction. -/
def before (i : InstId) (action : Build α) : Widen α := return (← buildAt (.before i) action).1

/-- Where the next conversion of a value goes that an instruction defines, or none. -/
def conversionPoint (t : WidenTask) (s : Widening) : Option InstId → Checked InsertPoint
  | some i =>
    match s.tails[i]? with
    | some tail => return .after tail
    | none => do
      let d ← s.kernel.inst i
      return if d.instr.isPhi then .afterPhis d.block else .after i
  | none =>
    match s.entryTail with
    | some tail => return .after tail
    | none => return .afterPhis t.entry

/-- Builds behind the conversions of a value. -/
def behind (t : WidenTask) (v : ValueId) (action : Build α) : Widen α := do
  let s ← get
  let definition ← s.kernel.def? v
  let (a, point) ← buildAt (← conversionPoint t s definition) action
  if let .after last := point then
    match definition with
    | some i => modify fun s => { s with tails := s.tails.insert i last }
    | none => modify fun s => { s with entryTail := some last }
  return a

/-! ## What is remembered -/

def setPacket (v packet : ValueId) : Widen Unit :=
  modify fun s => { s with packets := s.packets.insert v packet }

def setInstance (v : ValueId) (lane : Nat) (x : ValueId) : Widen Unit :=
  modify fun s => { s with instances := s.instances.insert (v, lane) x }

/-- Leaves an instruction to be removed at the end. -/
def replace (i : InstId) : Widen Unit := modify fun s => { s with replaced := s.replaced ++ [i] }

def addPending (p : PendingPhi) : Widen Unit := modify fun s => { s with pending := p :: s.pending }

def setSource (i : InstId) (instr : Instr) : Widen Unit :=
  modify fun s => { s with sources := s.sources.insert i instr }

/-- An instruction as it was before it became lane 0. -/
def source (i : InstId) : Widen Instr := do
  let s ← get
  match s.sources[i]? with
  | some instr => return instr
  | none => return (← s.kernel.inst i).instr

/-- Replaces a value by another everywhere. -/
def replaceUses (old new : ValueId) : Widen Unit :=
  modify fun s => { s with
    kernel := s.kernel.replaceUses old new
    sources := s.sources.map fun _ instr => instr.replaceOperand old new }

end Widen

end Spmd
