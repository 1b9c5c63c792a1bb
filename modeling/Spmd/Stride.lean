import Spmd.Divergence
import Std.Data.TreeMap

/-!
# Strides

Tells how far apart the values of neighbouring lanes are, where that is a constant: in bytes for pointers,
in units for integers. Lanes of one group are taken not to wrap around between each other, so widening and
narrowing keep a stride.
-/

namespace Spmd

/-- How a value changes from lane to lane. -/
inductive Stride where
  /-- It does not. -/
  | uniform
  /-- It grows by a constant. -/
  | linear (step : Int)
  /-- Nothing is known. -/
  | irregular
deriving DecidableEq, Repr

namespace Stride

/-- The difference between neighbouring lanes. -/
def step? : Stride → Option Int
  | uniform => some 0
  | linear step => some step
  | irregular => none

def text : Stride → String
  | uniform => "uniform"
  | linear _ => "linear"
  | irregular => "irregular"

def ofStep? : Option Int → Stride
  | some step => linear step
  | none => irregular

end Stride

/-- The strides of the varying values. -/
structure Strides where
  table : Std.TreeMap ValueId Stride := ∅

namespace Strides

/-- The stride of a value; one without an entry is uniform. -/
def get (s : Strides) (v : ValueId) : Stride := s.table.getD v .uniform

def step? (s : Strides) (v : ValueId) : Option Int := (s.get v).step?

/-- A multiple of a step, if it fits. -/
def scaled? (step : Option Int) (factor : Int) : Option Int := step.bind fun n => signed64? (n * factor)

/-- A sum of steps, if it fits. -/
def sum? (a b : Option Int) : Option Int := do signed64? ((← a) + (← b))

/-- The stride of an integer operation. -/
def ofBinary (s : Strides) (k : Kernel) (op : BinaryOp) (lhs rhs : ValueId) : Checked Stride := do
  match op with
  | .add => return .ofStep? (sum? (s.step? lhs) (s.step? rhs))
  | .sub => return .ofStep? (do signed64? ((← s.step? lhs) - (← s.step? rhs)))
  | .mul =>
    match ← k.constInt? lhs, ← k.constInt? rhs with
    | _, some c => return .ofStep? (scaled? (s.step? lhs) c.toInt)
    | some c, none => return .ofStep? (scaled? (s.step? rhs) c.toInt)
    | none, none => return .irregular
  | .shl =>
    match ← k.constInt? rhs with
    | some c =>
      if 0 ≤ c ∧ c < 63 then return .ofStep? (scaled? (s.step? lhs) (1 <<< c.toInt.toNat : Nat)) else return .irregular
    | none => return .irregular
  | _ => return .irregular

/-- The stride of what a varying instruction defines, from the strides of its operands. -/
def ofInstr (s : Strides) (k : Kernel) (dimension : Nat) (instr : Instr) (call : Option CallKind) : Checked Stride := do
  match instr with
  | .call .. =>
    match call with
    | some (.laneIdentity (.index d)) => return if d = dimension then .linear 1 else .irregular
    | some (.laneIdentity .subGroup) => return .linear 1
    | _ => return .irregular
  | .binary op lhs rhs => s.ofBinary k op lhs rhs
  | .cast .sext x | .cast .zext x | .cast .trunc x => return s.get x
  | .elementPtr base index elem => return .ofStep? (sum? (scaled? (s.step? index) elem.size) (s.step? base))
  | .select cond thenValue elseValue =>
    if s.table.contains cond || s.get thenValue ≠ s.get elseValue then return .irregular
    else return s.get thenValue
  | _ => return .irregular

end Strides

/-- The strides of all varying values, in reverse post-order; phis are irregular. -/
def Kernel.strides (k : Kernel) (classify : Classifier) (d : Divergence) (dimension : Nat) : Checked Strides := do
  let graph ← k.flowGraph
  (graph.order.flatMap k.instsOf).foldlM
    (fun s i => do
      match k.result? i with
      | some v =>
        if d.isVaryingInst i then
          let stride ← s.ofInstr k dimension (← k.inst i).instr (← k.callKind? classify i)
          return ⟨s.table.insert v stride⟩
        else return s
      | none => return s) {}

end Spmd
