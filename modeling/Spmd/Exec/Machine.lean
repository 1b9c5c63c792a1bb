import Spmd.Exec.Memory
import Spmd.Exec.Operation
import Std.Data.TreeMap

/-!
# Evaluating one instruction

A machine runs one kernel. The frame of a run holds the arguments and what instructions have defined so far.
Instructions also act on the world: the memory, and whatever the environment that answers calls remembers.
The world survives a trap, so that what was written before it stays written.

A lane that a mask turns off reads as zero, writes nothing and makes no call. An undefined value and a value
that was never written read as zero.
-/

namespace Spmd

/-- What instructions act on. -/
structure World (σ : Type) where
  memory : Memory
  /-- What the environment remembers. -/
  env : σ

/-- Acting on the world, with a trap as the other way out. -/
abbrev Exec (σ : Type) := EStateM Trap (World σ)

namespace Exec

variable {σ α : Type}

def ofChecked : Checked α → Exec σ α
  | .ok a => pure a
  | .error f => throw (.fault f)

def ofExcept : Except Trap α → Exec σ α
  | .ok a => pure a
  | .error t => throw t

instance : MonadLift Checked (Exec σ) := ⟨ofChecked⟩
instance : MonadLift (Except Trap) (Exec σ) := ⟨ofExcept⟩

def alloc (size align : Nat) : Exec σ Nat := do
  let (memory, address) ← (← get).memory.alloc size align
  modify fun w => { w with memory }
  return address

def read (address : UInt64) (elem : ScalarTy) : Exec σ Val := do
  let s ← (← get).memory.read address.toNat elem
  return .scalar s

def write (address : UInt64) (v : Val) : Exec σ Unit := do
  let s ← (← get).memory.writable address.toNat v
  modify fun w => { w with memory := w.memory.put address.toNat s }

end Exec

/-- Answers calls by name. The arguments are scalars unless a vector has vectors for lanes. -/
abbrev Environment (σ : Type) := String → List Val → Exec σ (Option Val)

/-- What a run has computed so far. -/
structure Frame where
  args : List Val
  results : Std.TreeMap ValueId Val := ∅

def Frame.define (f : Frame) (v : ValueId) (x : Val) : Frame := { f with results := f.results.insert v x }

/-- A kernel that is ready to run. -/
structure Machine where
  kernel : Kernel
  /-- The factor by which scalable vectors are longer than their least length. -/
  vscale : Nat := 1

namespace Machine

variable {σ : Type}

/-! ## Values -/

def lanesOf (m : Machine) : Ty → Checked Nat
  | .vector shape => if shape.scalable then Checked.word32 (shape.lanes * m.vscale) else pure shape.lanes
  | _ => pure 1

def zeroOf (m : Machine) (ty : Ty) : Checked Val :=
  match ty with
  | .vector shape => return .vector (List.replicate (← m.lanesOf ty) (.zero shape.elem))
  | .scalar elem => pure (.zero elem)
  | .void => pure (.bool false)

/-- What a constant of some type reads as; one of a vector type stands in every lane. -/
def constant (m : Machine) (ty : Ty) (c : Constant) : Checked Val := do
  let x : Val := .scalar (.ofConstant (ty.element?.getD .bool) c)
  match ty with
  | .vector _ => return .vector (List.replicate (← m.lanesOf ty) x)
  | _ => return x

/-- What a value reads as. -/
def read (m : Machine) (f : Frame) (v : ValueId) : Checked Val := do
  let d ← m.kernel.value v
  match d.kind with
  | .param position => return f.args[position]?.getD (.bool false)
  | .const c => m.constant d.ty c
  | .undef => m.zeroOf d.ty
  | .inst _ =>
    match f.results[v]? with
    | some x => return x
    | none => m.zeroOf d.ty

def readMask (m : Machine) (f : Frame) : Option ValueId → Checked (Option Val)
  | some v => return some (← m.read f v)
  | none => return none

/-- The element type of what an instruction defines. -/
def elementOf (m : Machine) (i : InstId) : ScalarTy := (m.kernel.resultTy i).element?.getD .bool

/-- How far apart the elements of a stored value lie. -/
def elementSize (m : Machine) (v : ValueId) : Checked Nat :=
  return ((← m.kernel.valueTy v).element?.map ScalarTy.size).getD 1

/-! ## Memory -/

/-- Whether a mask lets a lane take part. -/
def active (mask : Option Val) (lane : Nat) : Bool := mask.all fun v => (v.lane lane).isTrue

/-- The address `lane` steps behind a base. -/
def stepped (base step : UInt64) (lane : Nat) : UInt64 := base + UInt64.ofNat lane * step

def loadLane (elem : ScalarTy) (mask : Option Val) (address : Nat → UInt64) (lane : Nat) : Exec σ Val :=
  if active mask lane then Exec.read (address lane) elem else pure (.zero elem)

def load (m : Machine) (ty : Ty) (mask : Option Val) (address : Nat → UInt64) : Exec σ Val := do
  let elem := ty.element?.getD .bool
  if ty.isVector then
    return .vector (← inTurn (← m.lanesOf ty) (loadLane elem mask address))
  else loadLane elem mask address 0

def storeLane (mask : Option Val) (address : Nat → UInt64) (x : Val) (lane : Nat) : Exec σ Unit :=
  if active mask lane then Exec.write (address lane) x else pure ()

def store (mask : Option Val) (address : Nat → UInt64) : Val → Exec σ Unit
  | .vector lanes => lanes.zipIdx.forM fun (x, lane) => storeLane mask address x lane
  | x => storeLane mask address x 0

/-! ## Calls -/

/-- The lane count of the longest vector among the operands of a call. -/
def callLanes? (args : List Val) (mask : Option Val) : Option Nat :=
  ((args ++ mask.toList).filterMap fun v => v.lanes?.map List.length).max?

/-- Calls once, or once per active lane if there is a vector among the operands. -/
def call (m : Machine) (env : Environment σ) (callee : String) (args : List Val) (mask : Option Val) (ty : Ty) :
    Exec σ (Option Val) := do
  let elem := ty.element?.getD .bool
  match callLanes? args mask with
  | none =>
    if mask.all Val.isTrue then env callee args
    else if ty.isVoid then return none
    else return some (← m.zeroOf ty)
  | some lanes =>
    let results ← inTurn lanes fun lane => do
      if active mask lane then
        return (← env callee (args.map (·.lane lane))).getD (.zero elem)
      else return .zero elem
    return if ty.isVoid then none else some (.vector results)

/-! ## Instructions -/

/-- A position among `lanes`, from an index at run time. -/
def lanePosition? (lanes : List Val) (index : Val) : Option Nat :=
  let i := index.toInt64.toInt
  if 0 ≤ i ∧ i < lanes.length then some i.toNat else none

def selectVals (cond thenVal elseVal : Val) : Val :=
  match cond with
  | .vector lanes => .vector (lanes.zipIdx.map fun (c, i) => if c.isTrue then thenVal.lane i else elseVal.lane i)
  | c => if c.isTrue then thenVal else elseVal

/-- Folds the lanes of a vector in lane order. -/
def reduceVal (kind : RecurKind) (i : InstId) : Val → Except Trap Val
  | .scalar _ => throw (.typeMismatch i .reduceScalar)
  | .vector [] => throw (.typeMismatch i .reduceEmpty)
  | .vector (x :: xs) => xs.foldlM (fun acc y => evalBinary kind.binaryOp acc y i) x

/-- All lanes of the sources of a shuffle. -/
def sourceLanes : Val → List Val
  | .vector lanes => lanes
  | x => [x]

/-- Carries out an instruction that does not end its block and gives the value it defines, if it has one. -/
def eval (m : Machine) (env : Environment σ) (f : Frame) (i : InstId) (instr : Instr) : Exec σ (Option Val) := do
  let ty := m.kernel.resultTy i
  match instr with
  | .binary op lhs rhs =>
    let a ← m.read f lhs
    let b ← m.read f rhs
    some <$> mapLanes₂ (evalBinary op · · i) a b
  | .unary op x => some <$> mapLanes (evalUnary op · i) (← m.read f x)
  | .compare op lhs rhs =>
    let a ← m.read f lhs
    let b ← m.read f rhs
    some <$> mapLanes₂ (fun x y => pure (evalCompare op x y)) a b
  | .cast op x => some <$> mapLanes (fun x => pure (evalCast op x (m.elementOf i))) (← m.read f x)
  | .select cond thenValue elseValue =>
    return some (selectVals (← m.read f cond) (← m.read f thenValue) (← m.read f elseValue))
  | .elementPtr base index elem =>
    let b ← m.read f base
    let n ← m.read f index
    some <$> mapLanes₂ (fun x y => pure (evalElementPtr elem x y)) b n
  | .alloca elem count =>
    let address ← Exec.alloc (elem.size * max count 1) (max elem.size 8)
    return some (.scalar (.ptr (UInt64.ofNat address)))
  | .load ptr mask _ =>
    let base := (← m.read f ptr).toUInt64
    let mask ← m.readMask f mask
    some <$> m.load ty mask (stepped base (UInt64.ofNat (m.elementOf i).size))
  | .strideLoad ptr stride mask =>
    let base := (← m.read f ptr).toUInt64
    let mask ← m.readMask f mask
    some <$> m.load ty mask (stepped base (UInt64.ofNat (m.elementOf i).size * stride.toUInt64))
  | .gather ptrs mask =>
    let ptrs ← m.read f ptrs
    let mask ← m.readMask f mask
    some <$> m.load ty mask fun lane => (ptrs.lane lane).toUInt64
  | .store ptr value mask _ =>
    let base := (← m.read f ptr).toUInt64
    let x ← m.read f value
    let mask ← m.readMask f mask
    store mask (stepped base (UInt64.ofNat (← m.elementSize value))) x
    return none
  | .strideStore ptr value stride mask =>
    let base := (← m.read f ptr).toUInt64
    let x ← m.read f value
    let mask ← m.readMask f mask
    store mask (stepped base (UInt64.ofNat (← m.elementSize value) * stride.toUInt64)) x
    return none
  | .scatter ptrs value mask =>
    let ptrs ← m.read f ptrs
    let x ← m.read f value
    let mask ← m.readMask f mask
    store mask (fun lane => (ptrs.lane lane).toUInt64) x
    return none
  | .call callee args mask =>
    let args ← (args.mapM (m.read f) : Checked (List Val))
    let mask ← m.readMask f mask
    m.call env callee args mask ty
  | .splat x =>
    let x ← m.read f x
    return some (.vector (List.replicate (← m.lanesOf ty) x))
  | .stepVector =>
    let elem := m.elementOf i
    return some (.vector ((List.range (← m.lanesOf ty)).map fun n => .ofInt64 elem (Int64.ofNat n)))
  | .extract vector index =>
    let x ← m.read f vector
    let n ← m.read f index
    let lanes := x.lanes?.getD []
    some <$> orMismatch i .extractIndex ((lanePosition? lanes n).bind (lanes[·]?))
  | .insert vector value index =>
    let lanes ← orMismatch i .insertIntoScalar (← m.read f vector).lanes?
    let n ← orMismatch i .insertIndex (lanePosition? lanes (← m.read f index))
    return some (.vector (lanes.set n (← m.read f value)))
  | .shuffle sources picks =>
    let lanes := ((← (sources.mapM (m.read f) : Checked (List Val))).flatMap sourceLanes).toArray
    return some (.vector (← orMismatch i .shuffleIndex (picks.mapM (lanes[·]?))))
  | .reduce kind vector => some <$> reduceVal kind i (← m.read f vector)
  | .phi _ | .br _ | .condBr .. | .switch .. | .ret _ | .unreachable => return none

end Machine

end Spmd
