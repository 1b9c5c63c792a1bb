import Spmd.Kernel.Basic

/-!
# Neutral elements

Two constants belong to a way of combining lanes. The neutral value changes no other value it is combined
with. The scan identity is what the first lane gets from a scan that leaves the lane itself out. They differ
for float sums, minima and maxima: a sum starts from zero and not from minus zero, and a minimum starts from
infinity and not from the float that is not a number.
-/

namespace Spmd

namespace Constant

/-! Bits of double precision floats. -/

def negZero : Constant := .float 0x8000000000000000
def posZero : Constant := .float 0
def one : Constant := .float 0x3ff0000000000000
def infinity : Constant := .float 0x7ff0000000000000
def negInfinity : Constant := .float 0xfff0000000000000
def notANumber : Constant := .float 0x7ff8000000000000

end Constant

/-- The least signed integer of a type; wide types share one bound. -/
def ScalarTy.minInt : ScalarTy → Int64
  | .i32 => -2147483648
  | _ => -9223372036854775808

/-- The greatest signed integer of a type. -/
def ScalarTy.maxInt : ScalarTy → Int64
  | .i32 => 2147483647
  | _ => 9223372036854775807

namespace RecurKind

/-- The truth value that changes no other. -/
def neutralBool : RecurKind → Bool
  | .and | .mul | .umin | .smax => true
  | _ => false

/-- The element that changes no other it is combined with. -/
def neutral (kind : RecurKind) (elem : ScalarTy) : Constant :=
  if elem = .bool then .bool kind.neutralBool
  else match kind with
    | .add | .or | .xor | .umax => .int 0
    | .mul => .int 1
    | .and | .umin => .int (-1)
    | .smin => .int elem.maxInt
    | .smax => .int elem.minInt
    | .fadd => .negZero
    | .fmul => .one
    | .fmin | .fmax => .notANumber

/-- What the first lane gets from an exclusive scan. -/
def scanIdentity (kind : RecurKind) (elem : ScalarTy) : Constant :=
  match kind with
  | .fadd => .posZero
  | .fmin => .infinity
  | .fmax => .negInfinity
  | kind => kind.neutral elem

end RecurKind

end Spmd
