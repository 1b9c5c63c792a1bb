import Spmd.Kernel.Basic

/-!
# What pointers point into

A pointer that is computed from another points into the same object. Following the bases back ends at a
private buffer, at a parameter, or at something that is not looked into. Different buffers are different
objects; a parameter may point into the same object as another one unless its caller promises otherwise.
-/

namespace Spmd

/-- The object that a pointer leads into. -/
inductive MemRoot where
  | alloca (i : InstId)
  | param (position : Nat)
  | unknown
deriving DecidableEq, Repr

def MemRoot.text : MemRoot → String
  | alloca i => "alloca:" ++ i.text
  | param position => "param:" ++ toString position
  | unknown => "unknown"

namespace Kernel

/-- Follows at most `fuel` bases. -/
def rootFrom (k : Kernel) : Nat → ValueId → Checked MemRoot
  | 0, _ => throw .endless
  | fuel + 1, v => do
    match (← k.value v).kind with
    | .param position => return .param position
    | .inst i =>
      match (← k.inst i).instr with
      | .elementPtr base _ _ => k.rootFrom fuel base
      | .alloca .. => return .alloca i
      | _ => return .unknown
    | _ => return .unknown

/-- The object that a pointer leads into. A longer chain of bases than there are values has no end. -/
def memoryRoot (k : Kernel) (ptr : ValueId) : Checked MemRoot := k.rootFrom (k.values.size + 1) ptr

/-- Whether no other pointer leads into the object behind a parameter. -/
def isNoalias (k : Kernel) (position : Nat) : Bool := k.params[position]?.any (·.attrs.noalias)

/-- Whether two objects may be the same. -/
def rootsMayAlias (k : Kernel) : MemRoot → MemRoot → Bool
  | .alloca i, .alloca j => i = j
  | .alloca _, .param _ | .param _, .alloca _ => false
  | .param p, .param q => p = q || !(k.isNoalias p || k.isNoalias q)
  | _, _ => true

/-- Whether two pointers may lead into the same object. -/
def mayAlias (k : Kernel) (a b : ValueId) : Checked Bool :=
  return k.rootsMayAlias (← k.memoryRoot a) (← k.memoryRoot b)

/-- The object that an instruction reads or writes; none if it does not access memory. -/
def accessRoot? (k : Kernel) (i : InstId) : Checked (Option MemRoot) := do
  match (← k.inst i).instr with
  | .load ptr .. | .store ptr .. | .strideLoad ptr .. | .strideStore ptr .. => return some (← k.memoryRoot ptr)
  | .gather .. | .scatter .. | .call .. => return some .unknown
  | _ => return none

end Kernel

end Spmd
