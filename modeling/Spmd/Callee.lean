import Spmd.Kernel.Basic

/-!
# What calls do

Vectorizing needs to know of a call whether it asks for the lane, whether lanes work together in it, whether
it makes them wait for each other, and whether it does anything besides computing its result. A classifier
answers that from the call site. `Builtins` is the classifier for the usual work-item functions, with room
for names of one's own.
-/

namespace Spmd

/-- Which index a call that asks for the lane returns. -/
inductive LaneDim where
  /-- The index in a dimension of the work range. -/
  | index (dimension : Nat)
  /-- The index within the sub-group. -/
  | subGroup
  /-- The dimension is only known at run time. -/
  | dynamic
deriving DecidableEq, Repr

/-- What lanes compute together. -/
inductive CollectiveOp where
  | reduce
  | scanInclusive
  | scanExclusive
  | broadcast
  | any
  | all
deriving DecidableEq, Repr

/-- Which lanes take part. -/
inductive CollectiveScope where
  /-- Exactly the lanes of one call of the vectorized kernel. -/
  | subGroup
  /-- All lanes of the work group, which may be several calls. -/
  | workGroup
deriving DecidableEq, Repr

namespace CollectiveOp

def text : CollectiveOp → String
  | reduce => "Reduce"
  | scanInclusive => "ScanInclusive"
  | scanExclusive => "ScanExclusive"
  | broadcast => "Broadcast"
  | any => "Any"
  | all => "All"

end CollectiveOp

def CollectiveScope.text : CollectiveScope → String
  | subGroup => "SubGroup"
  | workGroup => "WorkGroup"

def LaneDim.text : LaneDim → String
  | index dimension => toString dimension
  | subGroup => "sub_group"
  | dynamic => "dynamic"

/-- A call in which lanes work together. -/
structure Collective where
  op : CollectiveOp
  scope : CollectiveScope
  recurrence : RecurKind
  elem : ScalarTy
deriving DecidableEq, Repr

def Collective.text (c : Collective) : String :=
  ":".intercalate [c.op.text, c.scope.text, c.recurrence.text, c.elem.text]

/-- What a call does. -/
inductive CallKind where
  /-- Returns the index of the calling lane. -/
  | laneIdentity (dim : LaneDim)
  /-- Returns the same to every lane. -/
  | groupInvariant
  | collective (c : Collective)
  /-- Makes the lanes wait for each other. -/
  | barrier
  /-- Computes its result from its arguments and does nothing else. -/
  | pure
  /-- May return something different to every lane, whatever the arguments. -/
  | inherentlyVarying
  /-- Has effects, but never makes lanes wait. -/
  | neverConvergent
  /-- Nothing is known. -/
  | unknown
deriving DecidableEq, Repr

namespace CallKind

def text : CallKind → String
  | laneIdentity dim => "lane_identity:" ++ dim.text
  | groupInvariant => "group_invariant"
  | collective c => "collective:" ++ c.text
  | barrier => "barrier"
  | pure => "pure"
  | inherentlyVarying => "inherently_varying"
  | neverConvergent => "never_convergent"
  | unknown => "unknown"

/-- Whether the call has to be made once for every active lane. -/
def isPerLane : CallKind → Bool
  | unknown | neverConvergent | inherentlyVarying => true
  | _ => false

/-- Whether the lanes have to make the call together. -/
def isConvergent : CallKind → Bool
  | barrier | collective _ => true
  | _ => false

/-- Whether the call can be left out if its result is not used. -/
def isRemovable : CallKind → Bool
  | laneIdentity _ | groupInvariant | pure => true
  | _ => false

end CallKind

/-- What is known about a call before it is made. -/
structure CallSite where
  callee : String
  /-- The integer constants among the arguments. -/
  constArgs : List (Option Int64)
  argTypes : List Ty
  ret : Ty

/-- The element type of the first argument, or else of the result. -/
def CallSite.operandTy (c : CallSite) : ScalarTy :=
  ((c.argTypes.head?.bind Ty.element?).or c.ret.element?).getD .i32

/-- Tells what calls do. -/
abbrev Classifier := CallSite → CallKind

namespace Kernel

/-- The call site of an instruction; none if it is no call. -/
def callSite? (k : Kernel) (i : InstId) : Checked (Option CallSite) := do
  match (← k.inst i).instr with
  | .call callee args _ =>
    return some ⟨callee, ← args.mapM k.constInt?, ← args.mapM k.valueTy, k.resultTy i⟩
  | _ => return none

/-- What a call does; none if the instruction is no call. -/
def callKind? (k : Kernel) (classify : Classifier) (i : InstId) : Checked (Option CallKind) :=
  return (← k.callSite? i).map classify

theorem callKind?_of_not_call {k : Kernel} {i : InstId} {instr : Instr} (hinstr : k.instr? i = some instr)
    (h : ∀ callee args mask, instr ≠ .call callee args mask) (classify : Classifier) : k.callKind? classify i = .ok none := by
  obtain ⟨⟨instr, result, block, dead⟩, he, rfl⟩ := Option.map_eq_some_iff.mp hinstr
  unfold callKind? callSite?
  rw [show k.inst i = .ok ⟨instr, result, block, dead⟩ by rw [inst, he]; rfl]
  cases instr with
  | call callee args mask => exact absurd rfl (h callee args mask)
  | _ => rfl

end Kernel

/-! ## Work-item functions -/

/-- The work-item functions, and names that are to be taken for one kind or another. -/
structure Builtins where
  pure : List String := []
  neverConvergent : List String := []
  inherentlyVarying : List String := []

namespace Builtins

def groupInvariantNames : List String :=
  ["get_local_size", "get_global_size", "get_enqueued_local_size", "get_group_id", "get_num_groups",
    "get_global_offset", "get_work_dim", "get_sub_group_size", "get_max_sub_group_size", "get_num_sub_groups",
    "get_sub_group_id"]

def barrierNames : List String := ["barrier", "work_group_barrier", "sub_group_barrier", "mem_fence"]

def pureNames : List String :=
  ["sqrt", "fabs", "fmin", "fmax", "floor", "ceil", "exp", "log", "sin", "cos", "pow", "fma", "mad", "abs",
    "min", "max", "clamp"]

/-- The rest of a text behind a given beginning. -/
def after? (start text : String) : Option String :=
  if start.toList.isPrefixOf text.toList then some (String.ofList (text.toList.drop start.length)) else none

/-- The way of combining that a name stands for among elements of a type. -/
def recurrence? (name : String) (elem : ScalarTy) : Option RecurKind :=
  if elem.isFloat then
    match name with
    | "add" => some .fadd
    | "mul" => some .fmul
    | "min" => some .fmin
    | "max" => some .fmax
    | _ => none
  else
    match name with
    | "add" => some .add
    | "mul" => some .mul
    | "min" => some .smin
    | "max" => some .smax
    | "umin" => some .umin
    | "umax" => some .umax
    | "and" => some .and
    | "or" => some .or
    | "xor" => some .xor
    | _ => none

/-- What lanes do together under a name without its scope. -/
def collectiveOp? (name : String) (elem : ScalarTy) : Option (CollectiveOp × RecurKind) :=
  match name with
  | "broadcast" => some (.broadcast, .or)
  | "any" => some (.any, .or)
  | "all" => some (.all, .and)
  | name =>
    match after? "reduce_" name, after? "scan_inclusive_" name, after? "scan_exclusive_" name with
    | some kind, _, _ => (recurrence? kind elem).map (.reduce, ·)
    | _, some kind, _ => (recurrence? kind elem).map (.scanInclusive, ·)
    | _, _, some kind => (recurrence? kind elem).map (.scanExclusive, ·)
    | _, _, _ => none

def collective? (c : CallSite) : Option Collective := do
  let (scope, name) ← match after? "sub_group_" c.callee, after? "work_group_" c.callee with
    | some name, _ => some (CollectiveScope.subGroup, name)
    | none, some name => some (.workGroup, name)
    | none, none => none
  let (op, recurrence) ← collectiveOp? name c.operandTy
  return { op, scope, recurrence, elem := c.operandTy }

/-- The dimension that a lane index is asked for, from the first argument. -/
def laneDim (c : CallSite) : LaneDim :=
  match c.constArgs with
  | some d :: _ => if 0 ≤ d then .index (d.toInt.toNat % 0x100000000) else .dynamic
  | _ => .dynamic

def classify (b : Builtins) : Classifier := fun c =>
  if c.callee = "get_global_id" ∨ c.callee = "get_local_id" then .laneIdentity (laneDim c)
  else if c.callee = "get_sub_group_local_id" then .laneIdentity .subGroup
  else if groupInvariantNames.contains c.callee then .groupInvariant
  else if barrierNames.contains c.callee then .barrier
  else match collective? c with
    | some collective => .collective collective
    | none =>
      if pureNames.contains c.callee || b.pure.contains c.callee then .pure
      else if b.inherentlyVarying.contains c.callee then .inherentlyVarying
      else if b.neverConvergent.contains c.callee then .neverConvergent
      else .unknown

end Builtins

end Spmd
