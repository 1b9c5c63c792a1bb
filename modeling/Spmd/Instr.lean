import Spmd.Id
import Spmd.Operator

/-!
# Instructions

What one instruction does, with its operands as value ids. Operations that produce a value work lane by
lane. `operands` lists the values an instruction reads and `mapOperands` renames them; a mask is the last
operand. `successors` and `mapSuccessors` do the same for the blocks a terminator goes to.
-/

namespace Spmd

/-- An operation on values. -/
inductive Instr where
  | binary (op : BinaryOp) (lhs rhs : ValueId)
  | unary (op : UnaryOp) (operand : ValueId)
  /-- Compares; the result is a truth value per lane. -/
  | compare (op : CmpOp) (lhs rhs : ValueId)
  /-- Converts to the element type of the result. -/
  | cast (op : CastOp) (value : ValueId)
  /-- A scalar condition picks a whole operand, a vector condition picks per lane. -/
  | select (cond thenValue elseValue : ValueId)
  /-- Address of the element at `index` behind `base`. -/
  | elementPtr (base index : ValueId) (elem : ScalarTy)
  /-- A private buffer. -/
  | alloca (elem : ScalarTy) (count : Nat)
  /-- Reads consecutive elements. A lane that the mask turns off reads as zero and touches no memory. -/
  | load (ptr : ValueId) (mask : Option ValueId) (align : Nat)
  | store (ptr value : ValueId) (mask : Option ValueId) (align : Nat)
  /-- Reads every `stride`-th element. -/
  | strideLoad (ptr : ValueId) (stride : Int64) (mask : Option ValueId)
  | strideStore (ptr value : ValueId) (stride : Int64) (mask : Option ValueId)
  /-- Reads through one address per lane. -/
  | gather (ptrs : ValueId) (mask : Option ValueId)
  | scatter (ptrs value : ValueId) (mask : Option ValueId)
  /-- Calls a function by name; vector arguments call it once per active lane. -/
  | call (callee : String) (args : List ValueId) (mask : Option ValueId)
  /-- The value that belongs to the block control came from. -/
  | phi (incoming : List (BlockId × ValueId))
  /-- The same scalar in every lane. -/
  | splat (value : ValueId)
  /-- The lane numbers from zero up. -/
  | stepVector
  | extract (vector index : ValueId)
  | insert (vector value index : ValueId)
  /-- Lane `i` is lane `lanes[i]` of all sources put one after another. -/
  | shuffle (sources : List ValueId) (lanes : List Nat)
  /-- Folds all lanes in lane order. -/
  | reduce (kind : RecurKind) (vector : ValueId)
  | br (target : BlockId)
  | condBr (cond : ValueId) (thenBlock elseBlock : BlockId)
  | switch (value : ValueId) (cases : List (Int64 × BlockId)) (default : BlockId)
  | ret (value : Option ValueId)
  | unreachable
deriving DecidableEq

namespace Instr

/-- The values an instruction reads, a mask last. -/
def operands : Instr → List ValueId
  | binary _ lhs rhs | compare _ lhs rhs => [lhs, rhs]
  | unary _ x | cast _ x | splat x => [x]
  | select c t e => [c, t, e]
  | elementPtr base index _ => [base, index]
  | alloca .. | stepVector | unreachable | br _ => []
  | load ptr mask _ | strideLoad ptr _ mask => ptr :: mask.toList
  | store ptr value mask _ | strideStore ptr value _ mask => ptr :: value :: mask.toList
  | gather ptrs mask => ptrs :: mask.toList
  | scatter ptrs value mask => ptrs :: value :: mask.toList
  | call _ args mask => args ++ mask.toList
  | phi incoming => incoming.map (·.2)
  | extract vector index => [vector, index]
  | insert vector value index => [vector, value, index]
  | shuffle sources _ => sources
  | reduce _ vector => [vector]
  | condBr cond _ _ => [cond]
  | switch value _ _ => [value]
  | ret value => value.toList

/-- Renames every value the instruction reads. -/
def mapOperands (f : ValueId → ValueId) : Instr → Instr
  | binary op lhs rhs => binary op (f lhs) (f rhs)
  | unary op x => unary op (f x)
  | compare op lhs rhs => compare op (f lhs) (f rhs)
  | cast op x => cast op (f x)
  | select c t e => select (f c) (f t) (f e)
  | elementPtr base index elem => elementPtr (f base) (f index) elem
  | alloca elem count => alloca elem count
  | load ptr mask align => load (f ptr) (mask.map f) align
  | store ptr value mask align => store (f ptr) (f value) (mask.map f) align
  | strideLoad ptr stride mask => strideLoad (f ptr) stride (mask.map f)
  | strideStore ptr value stride mask => strideStore (f ptr) (f value) stride (mask.map f)
  | gather ptrs mask => gather (f ptrs) (mask.map f)
  | scatter ptrs value mask => scatter (f ptrs) (f value) (mask.map f)
  | call callee args mask => call callee (args.map f) (mask.map f)
  | phi incoming => phi (incoming.map fun (b, v) => (b, f v))
  | splat x => splat (f x)
  | stepVector => stepVector
  | extract vector index => extract (f vector) (f index)
  | insert vector value index => insert (f vector) (f value) (f index)
  | shuffle sources lanes => shuffle (sources.map f) lanes
  | reduce kind vector => reduce kind (f vector)
  | br target => br target
  | condBr cond t e => condBr (f cond) t e
  | switch value cases default => switch (f value) cases default
  | ret value => ret (value.map f)
  | unreachable => unreachable

/-- The blocks a terminator may go to; a switch lists its default first. -/
def successors : Instr → List BlockId
  | br target => [target]
  | condBr _ t e => [t, e]
  | switch _ cases default => default :: cases.map (·.2)
  | _ => []

/-- Renames every block a terminator may go to. -/
def mapSuccessors (f : BlockId → BlockId) : Instr → Instr
  | br target => br (f target)
  | condBr cond t e => condBr cond (f t) (f e)
  | switch value cases default => switch value (cases.map fun (c, b) => (c, f b)) (f default)
  | i => i

/-- Whether the instruction ends its block. -/
def isTerminator : Instr → Bool
  | br _ | condBr .. | switch .. | ret _ | unreachable => true
  | _ => false

def isPhi : Instr → Bool
  | phi _ => true
  | _ => false

/-- Whether the instruction leaves the kernel. -/
def isExit : Instr → Bool
  | ret _ | unreachable => true
  | _ => false

/-- Whether the instruction may write memory; any call may. -/
def mayWrite : Instr → Bool
  | store .. | strideStore .. | scatter .. | call .. => true
  | _ => false

/-- Whether the instruction may read memory; any call may. -/
def mayRead : Instr → Bool
  | load .. | strideLoad .. | gather .. | call .. => true
  | _ => false

def mask? : Instr → Option ValueId
  | load _ mask _ | store _ _ mask _ | strideLoad _ _ mask | strideStore _ _ _ mask | gather _ mask
  | scatter _ _ mask | call _ _ mask => mask
  | _ => none

/-- Replaces the mask of an instruction that can have one. -/
def setMask (mask : Option ValueId) : Instr → Instr
  | load ptr _ align => load ptr mask align
  | store ptr value _ align => store ptr value mask align
  | strideLoad ptr stride _ => strideLoad ptr stride mask
  | strideStore ptr value stride _ => strideStore ptr value stride mask
  | gather ptrs _ => gather ptrs mask
  | scatter ptrs value _ => scatter ptrs value mask
  | call callee args _ => call callee args mask
  | i => i

/-- The first word of the instruction's text. -/
def mnemonic : Instr → String
  | binary op .. => op.text
  | unary op _ => op.text
  | compare .. => "cmp"
  | cast op _ => op.text
  | select .. => "select"
  | elementPtr .. => "elementptr"
  | alloca .. => "alloca"
  | load .. => "load"
  | store .. => "store"
  | strideLoad .. => "interleaved.load"
  | strideStore .. => "interleaved.store"
  | gather .. => "gather"
  | scatter .. => "scatter"
  | call .. => "call"
  | phi _ => "phi"
  | splat _ => "splat"
  | stepVector => "stepvector"
  | extract .. => "extractelement"
  | insert .. => "insertelement"
  | shuffle .. => "shuffle"
  | reduce .. => "reduce"
  | br _ => "br"
  | condBr .. => "condbr"
  | switch .. => "switch"
  | ret _ => "ret"
  | unreachable => "unreachable"

/-- Replaces one value by another wherever the instruction reads it. -/
def replaceOperand (old new : ValueId) : Instr → Instr :=
  mapOperands fun v => if v = old then new else v

end Instr

end Spmd
