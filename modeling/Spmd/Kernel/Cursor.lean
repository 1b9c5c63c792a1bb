import Spmd.Kernel.Edit

/-!
# Building instructions at a cursor

A cursor is a kernel with a point where the next instruction goes. `Build` is the monad of actions at a
cursor. Each action derives the result type of its instruction from the operands wherever that is possible.
Instructions added one after another stand in the block in that order, whatever the point: a point behind an
instruction moves along.
-/

namespace Spmd

/-- Where the next instruction goes. -/
inductive InsertPoint where
  | atEnd (b : BlockId)
  /-- In front of the terminator, or at the end if there is none. -/
  | beforeTerminator (b : BlockId)
  /-- Behind the phis that the block starts with. -/
  | afterPhis (b : BlockId)
  | before (i : InstId)
  | after (i : InstId)
deriving DecidableEq

structure Cursor where
  kernel : Kernel
  point : InsertPoint

/-- An action that builds at a cursor. -/
abbrev Build := StateT Cursor Checked

/-- The block and the position that the point stands for. -/
def Cursor.place (c : Cursor) : Checked (BlockId × Nat) := do
  let k := c.kernel
  match c.point with
  | .atEnd b => return (b, (← k.block b).insts.length)
  | .beforeTerminator b =>
    let length := (← k.block b).insts.length
    return (b, if (k.terminator? b).isSome then length - 1 else length)
  | .afterPhis b => return (b, ← k.firstNonPhi b)
  | .before i =>
    let position ← k.position? i
    return ((← k.inst i).block, position.getD 0)
  | .after i =>
    let position ← k.position? i
    let b := (← k.inst i).block
    return (b, (position.map (· + 1)).getD (← k.block b).insts.length)

/-- The point behind a newly inserted instruction, for points that move along. -/
def InsertPoint.advance (p : InsertPoint) (i : InstId) : InsertPoint :=
  match p with
  | .after _ | .afterPhis _ => .after i
  | p => p

/-- Runs an action at a point of a kernel. -/
def Kernel.build {α : Type} (k : Kernel) (point : InsertPoint) (action : Build α) : Checked (α × Cursor) :=
  action.run ⟨k, point⟩

namespace Build

/-- Inserts an instruction with the given result type. -/
def insert (instr : Instr) (ty : Ty) : Build InstId := do
  let c ← get
  let (b, index) ← c.place
  let (kernel, id) ← c.kernel.insertInst b index instr ty
  set (Cursor.mk kernel (c.point.advance id))
  return id

/-- Inserts an instruction and gives its value; void gives the absent id. -/
def insertValue (instr : Instr) (ty : Ty) : Build ValueId := do
  let i ← insert instr ty
  return ((← get).kernel.result? i).getD .absent

/-- Type of a value of the kernel that is built. -/
def tyOf (v : ValueId) : Build Ty := do (← get).kernel.valueTy v

/-- The scalar type of a value's elements. -/
def elementTy (v : ValueId) : Build Ty := return ((← tyOf v).element?.map Ty.scalar).getD .void

def const (ty : Ty) (c : Constant) : Build ValueId :=
  modifyGet fun cur =>
    let (kernel, v) := cur.kernel.addConst ty c
    (v, { cur with kernel })

def constInt (elem : ScalarTy) (i : Int64) : Build ValueId := const (.scalar elem) (.int i)

/-! ## Result types -/

/-- Type of an address; it is a vector of addresses if the base or the index is a vector. -/
def elementPtrTy (base index : Ty) : Ty :=
  match base.vector?, index.vector? with
  | some shape, _ | none, some shape => Ty.ptr.withLanes shape
  | none, none => .ptr

/-- Type of what an instruction defines. Where the operands leave it open it is `given`: as a whole, or the
element type of a conversion, or the lanes of a splat. -/
def resultTy (given : Ty) : Instr → Build Ty
  | .binary _ x _ | .unary _ x | .select _ x _ | .insert x _ _ => tyOf x
  | .compare _ x _ => return (← tyOf x).withElement .bool
  | .cast _ x => return (← tyOf x).withElement (given.element?.getD .bool)
  | .elementPtr base index _ => return elementPtrTy (← tyOf base) (← tyOf index)
  | .alloca .. => return .ptr
  | .splat x => return (given.vector?.map (← tyOf x).withLanes).getD .void
  | .extract x _ | .reduce _ x => elementTy x
  | .shuffle (x :: _) lanes => return .fixedVector ((← tyOf x).element?.getD .i32) lanes.length
  | .shuffle [] lanes => return .fixedVector .i32 lanes.length
  | .load .. | .strideLoad .. | .gather .. | .call .. | .phi _ | .stepVector => return given
  | .store .. | .strideStore .. | .scatter .. | .br _ | .condBr .. | .switch .. | .ret _ | .unreachable => return .void

/-- Inserts an instruction with the type that its operands give its result. -/
def emit (instr : Instr) (given : Ty) : Build InstId := do insert instr (← resultTy given instr)

/-- Inserts an instruction for its value. -/
def emitValue (instr : Instr) (given : Ty) : Build ValueId := do insertValue instr (← resultTy given instr)

/-! ## Arithmetic -/

def binary (op : BinaryOp) (lhs rhs : ValueId) : Build ValueId := emitValue (.binary op lhs rhs) .void

def unary (op : UnaryOp) (x : ValueId) : Build ValueId := emitValue (.unary op x) .void

def compare (op : CmpOp) (lhs rhs : ValueId) : Build ValueId := emitValue (.compare op lhs rhs) .void

def cast (op : CastOp) (x : ValueId) (dest : ScalarTy) : Build ValueId := emitValue (.cast op x) (.scalar dest)

def select (cond thenValue elseValue : ValueId) : Build ValueId := emitValue (.select cond thenValue elseValue) .void

/-! ## Memory -/

def elementPtr (base index : ValueId) (elem : ScalarTy) : Build ValueId := emitValue (.elementPtr base index elem) .void

def load (ty : Ty) (ptr : ValueId) (mask : Option ValueId) (align : Nat) : Build ValueId :=
  emitValue (.load ptr mask align) ty

def store (ptr value : ValueId) (mask : Option ValueId) (align : Nat) : Build InstId :=
  emit (.store ptr value mask align) .void

def strideLoad (ty : Ty) (ptr : ValueId) (stride : Int64) (mask : Option ValueId) : Build ValueId :=
  emitValue (.strideLoad ptr stride mask) ty

def strideStore (ptr value : ValueId) (stride : Int64) (mask : Option ValueId) : Build InstId :=
  emit (.strideStore ptr value stride mask) .void

def gather (ty : Ty) (ptrs : ValueId) (mask : Option ValueId) : Build ValueId := emitValue (.gather ptrs mask) ty

def scatter (ptrs value : ValueId) (mask : Option ValueId) : Build InstId := emit (.scatter ptrs value mask) .void

/-! ## Calls, phis, vectors and jumps -/

def call (callee : String) (args : List ValueId) (mask : Option ValueId) (ty : Ty) : Build InstId :=
  emit (.call callee args mask) ty

/-- A call without a mask, for its value. -/
def callValue (callee : String) (args : List ValueId) (ty : Ty) : Build ValueId :=
  emitValue (.call callee args none) ty

def phi (ty : Ty) (incoming : List (BlockId × ValueId)) : Build ValueId := emitValue (.phi incoming) ty

def splat (x : ValueId) (shape : VectorTy) : Build ValueId := emitValue (.splat x) (.vector shape)

def stepVector (ty : Ty) : Build ValueId := emitValue .stepVector ty

def extract (vector index : ValueId) : Build ValueId := emitValue (.extract vector index) .void

def insertElement (vector value index : ValueId) : Build ValueId := emitValue (.insert vector value index) .void

/-- A shuffle; its result has a lane for each index. -/
def shuffle (sources : List ValueId) (lanes : List Nat) : Build ValueId := emitValue (.shuffle sources lanes) .void

def reduce (kind : RecurKind) (vector : ValueId) : Build ValueId := emitValue (.reduce kind vector) .void

def br (target : BlockId) : Build InstId := emit (.br target) .void

end Build

end Spmd
