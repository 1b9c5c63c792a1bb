import Spmd.Exec.Value
import Spmd.Text.Hex

/-!
# Literals

The text of values at run time: the type, a colon and the value, floats by their bits.
-/

namespace Spmd

/-- A constant as a literal. -/
def Constant.literal : Constant → String
  | .bool b => "bool:" ++ toString b
  | .int i => "int:" ++ toString i.toInt
  | .float bits => "float:" ++ Text.doubleBits bits

namespace Scalar

/-- The value without its type. -/
def bareText : Scalar → String
  | bool b => toString b
  | i32 i => toString i.toInt
  | i64 i => toString i.toInt
  | f32 bits => Text.singleBits bits
  | f64 bits => Text.doubleBits bits
  | ptr a => toString a.toNat

/-- Reads a value of a known type. -/
def ofBareText? (elem : ScalarTy) (s : String) : Option Scalar :=
  match elem with
  | .bool => if s = "true" then some (bool true) else if s = "false" then some (bool false) else none
  | .i32 => s.toInt?.map fun i => i32 (Int32.ofInt i)
  | .i64 => s.toInt?.map fun i => i64 (Int64.ofInt i)
  | .f32 => (Text.singleOfBits? s).map f32
  | .f64 => (Text.doubleOfBits? s).map f64
  | .ptr => s.toNat?.map fun n => ptr (UInt64.ofNat n)

def literal (s : Scalar) : String := s.ty.text ++ ":" ++ s.bareText

def ofLiteral? (s : String) : Option Scalar :=
  match s.splitOn ":" with
  | [kind, text] => do ofBareText? (← ScalarTy.ofText? kind) text
  | _ => none

end Scalar

end Spmd
