import Spmd.Exec.Value

/-!
# Traps

Why a run ends without a result, and how it is said.
-/

namespace Spmd

/-- Operands that an instruction cannot work on. -/
inductive Mismatch where
  | onIntegers (op : BinaryOp)
  | onFloats (op : BinaryOp)
  | onBools (op : BinaryOp)
  | operands (op : BinaryOp) (a b : Val)
  | operand (op : UnaryOp) (a : Val)
  | extractIndex
  | insertIntoScalar
  | insertIndex
  | shuffleIndex
  | reduceScalar
  | reduceEmpty

def Mismatch.message : Mismatch → String
  | onIntegers op => op.text ++ " on integers"
  | onFloats op => op.text ++ " on floats"
  | onBools op => op.text ++ " on bools"
  | operands op a b => op.text ++ " operands " ++ a.debugText ++ " and " ++ b.debugText
  | operand op a => op.text ++ " on " ++ a.debugText
  | extractIndex => "extract index out of range"
  | insertIntoScalar => "insert into a scalar"
  | insertIndex => "insert index out of range"
  | shuffleIndex => "shuffle index out of range"
  | reduceScalar => "reduce of a scalar"
  | reduceEmpty => "reduce of an empty vector"

/-- Why a run ends without a result. -/
inductive Trap where
  | divisionByZero (inst : InstId)
  /-- An access outside of allocated memory. -/
  | outOfBounds (address size : Nat)
  /-- The run is longer than allowed. -/
  | stepLimit (limit : Nat)
  /-- Control came to a place that was declared unreachable. -/
  | unreachable (inst : InstId)
  | typeMismatch (inst : InstId) (mismatch : Mismatch)
  | argumentCount (expected found : Nat)
  | unknownCallee (name : String)
  | fault (f : Fault)

def Trap.message : Trap → String
  | divisionByZero inst => "division by zero at inst " ++ inst.text
  | outOfBounds address size =>
    "out of bounds access of " ++ toString size ++ " bytes at 0x" ++ String.ofList (Nat.toDigits 16 address)
  | stepLimit limit => "step limit of " ++ toString limit ++ " exceeded"
  | unreachable inst => "reached unreachable at inst " ++ inst.text
  | typeMismatch inst mismatch => "type mismatch at inst " ++ inst.text ++ ": " ++ mismatch.message
  | argumentCount expected found => "expected " ++ toString expected ++ " arguments, found " ++ toString found
  | unknownCallee name => "unknown callee @" ++ name
  | fault _ => "fault"

end Spmd
