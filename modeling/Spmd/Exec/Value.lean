import Spmd.Decimal.Style
import Spmd.Kernel.Basic

/-!
# Values at run time

A scalar carries its type. A float is held as its bits, so that storing it and reading it back gives the very
same value whatever the bits are. A vector is a list of lanes.
-/

namespace Spmd

/-- One element. -/
inductive Scalar where
  | bool (b : Bool)
  | i32 (i : Int32)
  | i64 (i : Int64)
  /-- The bits of a single precision float. -/
  | f32 (bits : UInt32)
  /-- The bits of a double precision float. -/
  | f64 (bits : UInt64)
  | ptr (address : UInt64)
deriving DecidableEq, Repr

/-- An element or one per lane. -/
inductive Val where
  | scalar (s : Scalar)
  | vector (lanes : List Val)
deriving BEq, Repr, Inhabited

namespace Scalar

def ty : Scalar → ScalarTy
  | bool _ => .bool
  | i32 _ => .i32
  | i64 _ => .i64
  | f32 _ => .f32
  | f64 _ => .f64
  | ptr _ => .ptr

def ofFloat32 (x : Float32) : Scalar := f32 x.toBits
def ofFloat (x : Float) : Scalar := f64 x.toBits

/-- An integer as an element of the given type: a truth value is its lowest bit, a narrow integer its low
bits, a float the nearest float. -/
def ofInt64 (elem : ScalarTy) (i : Int64) : Scalar :=
  match elem with
  | .bool => bool (i &&& 1 != 0)
  | .i32 => i32 i.toInt32
  | .i64 => i64 i
  | .f32 => ofFloat32 i.toFloat32
  | .f64 => ofFloat i.toFloat
  | .ptr => ptr i.toUInt64

/-- A float as an element of the given type; towards an integer it is cut off and held within range. -/
def ofDouble (elem : ScalarTy) (x : Float) : Scalar :=
  match elem with
  | .f32 => ofFloat32 x.toFloat32
  | .f64 => ofFloat x
  | other => ofInt64 other x.toInt64

def zero (elem : ScalarTy) : Scalar := ofInt64 elem 0

/-- The element as a signed integer. -/
def toInt64 : Scalar → Int64
  | bool b => if b then 1 else 0
  | i32 i => i.toInt64
  | i64 i => i
  | f32 bits => (Float32.ofBits bits).toInt64
  | f64 bits => (Float.ofBits bits).toInt64
  | ptr a => a.toInt64

/-- The element as an unsigned integer, extended by zeros from its own width. -/
def toUInt64 : Scalar → UInt64
  | i32 i => i.toUInt32.toUInt64
  | s => s.toInt64.toUInt64

/-- The element as a float. -/
def toDouble : Scalar → Float
  | f32 bits => (Float32.ofBits bits).toFloat
  | f64 bits => Float.ofBits bits
  | s => s.toInt64.toFloat

/-- Whether the element counts as true: its integer view is not zero. -/
def isTrue : Scalar → Bool
  | bool b => b
  | s => s.toInt64 != 0

/-- The element a constant stands for; the type matters for numbers. -/
def ofConstant (elem : ScalarTy) : Constant → Scalar
  | .bool b => bool b
  | .int i => ofInt64 elem i
  | .float bits => ofDouble elem (Float.ofBits bits)

/-- The element with its kind, as it is shown in messages. -/
def debugText : Scalar → String
  | bool b => "Bool(" ++ toString b ++ ")"
  | i32 i => "I32(" ++ toString i ++ ")"
  | i64 i => "I64(" ++ toString i ++ ")"
  | f32 bits => "F32(" ++ Decimal.kernelStyle.write .single bits.toNat ++ ")"
  | f64 bits => "F64(" ++ Decimal.kernelStyle.write .double bits.toNat ++ ")"
  | ptr a => "Ptr(" ++ toString a ++ ")"

end Scalar

namespace Val

def bool (b : Bool) : Val := .scalar (.bool b)

def ofInt64 (elem : ScalarTy) (i : Int64) : Val := .scalar (.ofInt64 elem i)

def ofDouble (elem : ScalarTy) (x : Float) : Val := .scalar (.ofDouble elem x)

def zero (elem : ScalarTy) : Val := .scalar (.zero elem)

def scalarTy? : Val → Option ScalarTy
  | scalar s => some s.ty
  | vector _ => none

/-! A vector has no number of its own and reads as zero. -/

def toInt64 : Val → Int64
  | scalar s => s.toInt64
  | vector _ => 0

def toUInt64 : Val → UInt64
  | scalar s => s.toUInt64
  | vector _ => 0

def toDouble : Val → Float
  | scalar s => s.toDouble
  | vector _ => 0

def isTrue : Val → Bool
  | scalar s => s.isTrue
  | vector _ => false

def lanes? : Val → Option (List Val)
  | scalar _ => none
  | vector lanes => some lanes

/-- One lane. A scalar has the same value in every lane; a lane past the end is false. -/
def lane (v : Val) (i : Nat) : Val :=
  match v with
  | scalar s => scalar s
  | vector lanes => lanes[i]?.getD (bool false)

/-- The value with its kind, as it is shown in messages. -/
def debugText : Val → String
  | scalar s => s.debugText
  | vector lanes => "Vector([" ++ ", ".intercalate (lanes.map debugText) ++ "])"

end Val

end Spmd
