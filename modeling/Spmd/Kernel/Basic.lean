import Spmd.Arena
import Spmd.Instr
import Spmd.SideTable

/-!
# Kernels

A kernel is a function in single-assignment form: every value is defined once, by a parameter, a constant
or an instruction. Values, instructions and blocks live in arenas and are named by their ids. The layout
lists the blocks in order, and its first block is where execution starts. Removing an instruction or a block
takes it out of the layout and leaves its id behind, so no id ever changes its meaning.

Looking up an id that the kernel does not have faults; `value?`, `inst?` and `block?` answer `none` instead.
-/

namespace Spmd

/-- A constant. The type of its value decides how wide it is. -/
inductive Constant where
  | bool (b : Bool)
  /-- The bits of an integer or of a pointer. -/
  | int (i : Int64)
  /-- The bits of a double precision float. -/
  | float (bits : UInt64)
deriving DecidableEq, Repr

/-- Where a value comes from. -/
inductive ValueKind where
  | param (position : Nat)
  | const (c : Constant)
  | inst (i : InstId)
  | undef
deriving DecidableEq, Repr

structure ValueDef where
  kind : ValueKind
  ty : Ty
deriving DecidableEq, Repr

/-- What a caller promises about a pointer parameter. -/
structure ParamAttrs where
  /-- No other pointer of the kernel leads to the same memory. -/
  noalias : Bool := false
  /-- The memory behind the pointer is never written. -/
  readonly : Bool := false
deriving DecidableEq, Repr

structure Param where
  name : String
  ty : Ty
  attrs : ParamAttrs
  value : ValueId
deriving DecidableEq, Repr

structure InstDef where
  instr : Instr
  /-- The value that the instruction defines, unless its type is void. -/
  result : Option ValueId
  /-- The block that holds the instruction. -/
  block : BlockId
  /-- The instruction was removed. -/
  dead : Bool
deriving DecidableEq

structure Block where
  name : String
  insts : List InstId
deriving DecidableEq, Repr

/-- How many lanes one call of a vectorized kernel works on. -/
structure LaneGroup where
  /-- The lane count, or its least value if the group is scalable. -/
  lanes : Nat
  scalable : Bool
deriving DecidableEq, Repr

/-- Whether there is exactly one lane. -/
def LaneGroup.isScalar (g : LaneGroup) : Bool := g.lanes = 1 && !g.scalable

structure Kernel where
  name : String
  ret : Ty
  params : List Param := []
  values : Arena .value ValueDef := {}
  insts : Arena .inst InstDef := {}
  blocks : Arena .block Block := {}
  layout : List BlockId := []
  /-- Set once the kernel works on a group of lanes per call. -/
  laneGroup : Option LaneGroup := none
deriving DecidableEq

namespace Kernel

/-! ## Looking things up -/

def value? (k : Kernel) (v : ValueId) : Option ValueDef := k.values.get? v
def inst? (k : Kernel) (i : InstId) : Option InstDef := k.insts.get? i
def block? (k : Kernel) (b : BlockId) : Option Block := k.blocks.get? b

def value (k : Kernel) (v : ValueId) : Checked ValueDef := Checked.some? (.noValue v.index) (k.value? v)
def inst (k : Kernel) (i : InstId) : Checked InstDef := Checked.some? (.noInst i.index) (k.inst? i)
def block (k : Kernel) (b : BlockId) : Checked Block := Checked.some? (.noBlock b.index) (k.block? b)

def valueTy (k : Kernel) (v : ValueId) : Checked Ty := return (← k.value v).ty

def instr? (k : Kernel) (i : InstId) : Option Instr := (k.inst? i).map (·.instr)

def result? (k : Kernel) (i : InstId) : Option ValueId := (k.inst? i).bind (·.result)

/-- Type of what an instruction defines. -/
def resultTy (k : Kernel) (i : InstId) : Ty :=
  (((k.result? i).bind k.value?).map (·.ty)).getD .void

/-- The constant a value stands for. -/
def const? (k : Kernel) (v : ValueId) : Checked (Option Constant) := do
  match (← k.value v).kind with
  | .const c => return some c
  | _ => return none

/-- The integer constant a value stands for. -/
def constInt? (k : Kernel) (v : ValueId) : Checked (Option Int64) := do
  match ← k.const? v with
  | some (.int i) => return some i
  | _ => return none

/-- The instruction that defines a value. -/
def def? (k : Kernel) (v : ValueId) : Checked (Option InstId) := do
  match (← k.value v).kind with
  | .inst i => return some i
  | _ => return none

/-! ## Blocks and their instructions -/

/-- The instructions of a block in program order; none if there is no such block. -/
def instsOf (k : Kernel) (b : BlockId) : List InstId := ((k.block? b).map (·.insts)).getD []

def entry? (k : Kernel) : Option BlockId := k.layout.head?

/-- The last instruction of a block, if it is one that ends blocks. -/
def terminator? (k : Kernel) (b : BlockId) : Option InstId :=
  (k.instsOf b).getLast?.filter fun i => (k.instr? i).any Instr.isTerminator

def terminatorInstr? (k : Kernel) (b : BlockId) : Option Instr := (k.terminator? b).bind k.instr?

/-- The blocks that control may go to from the end of a block, in the order the terminator lists them. -/
def successors (k : Kernel) (b : BlockId) : List BlockId :=
  ((k.terminatorInstr? b).map Instr.successors).getD []

/-- The position of an instruction within the block it is linked to. -/
def position? (k : Kernel) (i : InstId) : Checked (Option Nat) := do
  return (← k.block (← k.inst i).block).insts.idxOf? i

def isPhi (k : Kernel) (i : InstId) : Bool := (k.instr? i).any Instr.isPhi

/-- The phis a block starts with. -/
def leadingPhis (k : Kernel) (b : BlockId) : List InstId := (k.instsOf b).takeWhile k.isPhi

/-- The position behind the phis a block starts with. -/
def firstNonPhi (k : Kernel) (b : BlockId) : Checked Nat := do
  return ((← k.block b).insts.takeWhile k.isPhi).length

/-- All linked instructions in layout order. -/
def instsInOrder (k : Kernel) : List InstId := k.layout.flatMap k.instsOf

def liveCount (k : Kernel) : Nat := total (k.layout.map fun b => (k.instsOf b).length)

/-- The values an instruction reads. -/
def operandsOf (k : Kernel) (i : InstId) : List ValueId := ((k.instr? i).map Instr.operands).getD []

/-- The instructions that read each value, in layout order. An instruction that reads a value twice is listed once. -/
def userTable (k : Kernel) : SideTable .value (List InstId) :=
  .enlist k.values.size (fun i => (k.operandsOf i).eraseDups) k.instsInOrder

/-- The instructions that read a value. -/
def users (k : Kernel) (v : ValueId) : List InstId := k.userTable.get v

/-- Whether a vector type occurs in the kernel. -/
def hasVectors (k : Kernel) : Bool :=
  k.params.any (·.ty.isVector) || k.ret.isVector || k.instsInOrder.any fun i => (k.resultTy i).isVector

end Kernel

end Spmd
