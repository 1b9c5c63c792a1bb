import Spmd.Exec.Trap

/-!
# Operations on values

What each operator computes. Integers wrap at their width, shifts count modulo the width, and a division by
zero traps. Of two floats of which one is not a number, minimum and maximum give the other.
-/

namespace Spmd

/-- An integer operator on words of `w` bits; none if the operator is not one for integers. -/
def BinaryOp.onWords? {w : Nat} (op : BinaryOp) (a b : BitVec w) : Option (BitVec w) :=
  let shift := b.toNat % w
  match op with
  | .add => some (a + b)
  | .sub => some (a - b)
  | .mul => some (a * b)
  | .sdiv => some (a.sdiv b)
  | .srem => some (a.srem b)
  | .udiv => some (a / b)
  | .urem => some (a % b)
  | .and => some (a &&& b)
  | .or => some (a ||| b)
  | .xor => some (a ^^^ b)
  | .shl => some (a <<< shift)
  | .ashr => some (a.sshiftRight shift)
  | .lshr => some (a >>> shift)
  | .smin => some (if b.slt a then b else a)
  | .smax => some (if a.slt b then b else a)
  | .umin => some (if b.ult a then b else a)
  | .umax => some (if a.ult b then b else a)
  | _ => none

/-- An operator on truth values. -/
def BinaryOp.onBools? (op : BinaryOp) (a b : Bool) : Option Bool :=
  match op with
  | .and | .umin | .smax => some (a && b)
  | .or | .umax | .smin => some (a || b)
  | .xor => some (a != b)
  | _ => none

def BinaryOp.onFloats? (op : BinaryOp) (a b : Float) : Option Float :=
  match op with
  | .fadd => some (a + b)
  | .fsub => some (a - b)
  | .fmul => some (a * b)
  | .fdiv => some (a / b)
  | .fmin => some (if a.isNaN then b else if b.isNaN then a else if b < a then b else a)
  | .fmax => some (if a.isNaN then b else if b.isNaN then a else if a < b then b else a)
  | _ => none

def BinaryOp.onFloat32s? (op : BinaryOp) (a b : Float32) : Option Float32 :=
  match op with
  | .fadd => some (a + b)
  | .fsub => some (a - b)
  | .fmul => some (a * b)
  | .fdiv => some (a / b)
  | .fmin => some (if a.isNaN then b else if b.isNaN then a else if b < a then b else a)
  | .fmax => some (if a.isNaN then b else if b.isNaN then a else if a < b then b else a)
  | _ => none

/-- The answer of an operator, or a mismatch. -/
def orMismatch {α : Type} (inst : InstId) (mismatch : Mismatch) : Option α → Except Trap α
  | some a => pure a
  | none => throw (.typeMismatch inst mismatch)

/-- An operator on words at an instruction: a division by zero traps. -/
def evalWords {w : Nat} (op : BinaryOp) (a b : BitVec w) (inst : InstId) : Except Trap (BitVec w) :=
  match op with
  | .sdiv | .srem | .udiv | .urem =>
    if b == 0#w then throw (.divisionByZero inst)
    else orMismatch inst (.onIntegers op) (op.onWords? a b)
  | _ => orMismatch inst (.onIntegers op) (op.onWords? a b)

/-- Applies a binary operator to two scalars of one type. -/
def evalBinary (op : BinaryOp) (a b : Val) (inst : InstId) : Except Trap Val :=
  match a, b with
  | .scalar (.i32 x), .scalar (.i32 y) =>
    return .scalar (.i32 (.ofBitVec (← evalWords op x.toBitVec y.toBitVec inst)))
  | .scalar (.i64 x), .scalar (.i64 y) =>
    return .scalar (.i64 (.ofBitVec (← evalWords op x.toBitVec y.toBitVec inst)))
  | .scalar (.ptr x), .scalar (.ptr y) =>
    return .scalar (.ptr (.ofBitVec (← evalWords op x.toBitVec y.toBitVec inst)))
  | .scalar (.f32 x), .scalar (.f32 y) =>
    return .scalar (.ofFloat32 (← orMismatch inst (.onFloats op) (op.onFloat32s? (.ofBits x) (.ofBits y))))
  | .scalar (.f64 x), .scalar (.f64 y) =>
    return .scalar (.ofFloat (← orMismatch inst (.onFloats op) (op.onFloats? (.ofBits x) (.ofBits y))))
  | .scalar (.bool x), .scalar (.bool y) =>
    return .bool (← orMismatch inst (.onBools op) (op.onBools? x y))
  | _, _ => throw (.typeMismatch inst (.operands op a b))

/-- Applies a unary operator to a scalar. Sign and magnitude of a float are in its highest bit and the rest. -/
def evalUnary (op : UnaryOp) (a : Val) (inst : InstId) : Except Trap Val :=
  match op, a with
  | .neg, .scalar (.i32 x) => pure (.scalar (.i32 (-x)))
  | .neg, .scalar (.i64 x) => pure (.scalar (.i64 (-x)))
  | .not, .scalar (.bool x) => pure (.bool !x)
  | .not, .scalar (.i32 x) => pure (.scalar (.i32 (~~~x)))
  | .not, .scalar (.i64 x) => pure (.scalar (.i64 (~~~x)))
  | .fneg, .scalar (.f32 x) => pure (.scalar (.f32 (x ^^^ 0x80000000)))
  | .fneg, .scalar (.f64 x) => pure (.scalar (.f64 (x ^^^ 0x8000000000000000)))
  | .fabs, .scalar (.f32 x) => pure (.scalar (.f32 (x &&& 0x7fffffff)))
  | .fabs, .scalar (.f64 x) => pure (.scalar (.f64 (x &&& 0x7fffffffffffffff)))
  | .sqrt, .scalar (.f32 x) => pure (.scalar (.ofFloat32 (Float32.ofBits x).sqrt))
  | .sqrt, .scalar (.f64 x) => pure (.scalar (.ofFloat (Float.ofBits x).sqrt))
  | _, _ => throw (.typeMismatch inst (.operand op a))

/-- Whether a comparison holds. A float comparison fails if an operand is not a number. -/
def compareVals (op : CmpOp) (a b : Val) : Bool :=
  match op with
  | .eq => a.toUInt64 == b.toUInt64
  | .ne => a.toUInt64 != b.toUInt64
  | .slt => a.toInt64 < b.toInt64
  | .sle => a.toInt64 ≤ b.toInt64
  | .sgt => b.toInt64 < a.toInt64
  | .sge => b.toInt64 ≤ a.toInt64
  | .ult => a.toUInt64 < b.toUInt64
  | .ule => a.toUInt64 ≤ b.toUInt64
  | .ugt => b.toUInt64 < a.toUInt64
  | .uge => b.toUInt64 ≤ a.toUInt64
  | .feq => a.toDouble == b.toDouble
  | .fne => !a.toDouble.isNaN && !b.toDouble.isNaN && a.toDouble != b.toDouble
  | .flt => a.toDouble < b.toDouble
  | .fle => a.toDouble ≤ b.toDouble
  | .fgt => b.toDouble < a.toDouble
  | .fge => b.toDouble ≤ a.toDouble

def evalCompare (op : CmpOp) (a b : Val) : Val := .bool (compareVals op a b)

/-- Converts a scalar to another type. Sign extension reads a true truth value as minus one. -/
def evalCast (op : CastOp) (a : Val) (dest : ScalarTy) : Val :=
  match op with
  | .sext =>
    match a with
    | .scalar (.bool b) => .ofInt64 dest (if b then -1 else 0)
    | a => .ofInt64 dest a.toInt64
  | .zext => .ofInt64 dest a.toUInt64.toInt64
  | .trunc => .ofInt64 dest a.toInt64
  | .sitofp => .ofDouble dest a.toInt64.toFloat
  | .fptosi => .ofInt64 dest a.toDouble.toInt64
  | .fpext | .fptrunc => .ofDouble dest a.toDouble

/-- The address of an element: `index` elements of a type behind a base. -/
def evalElementPtr (elem : ScalarTy) (base index : Val) : Val :=
  .scalar (.ptr (base.toUInt64 + index.toInt64.toUInt64 * UInt64.ofNat elem.size))

/-! ## Lane by lane -/

/-- Applies an operation lane by lane. -/
def mapLanes (f : Val → Except Trap Val) : Val → Except Trap Val
  | .vector xs => return .vector (← xs.mapM f)
  | x => f x

/-- Applies an operation to two operands lane by lane; a scalar goes with every lane of a vector. -/
def mapLanes₂ (f : Val → Val → Except Trap Val) : Val → Val → Except Trap Val
  | .vector xs, .vector ys => return .vector (← (xs.zip ys).mapM fun (x, y) => f x y)
  | .vector xs, y => return .vector (← xs.mapM fun x => f x y)
  | x, .vector ys => return .vector (← ys.mapM fun y => f x y)
  | x, y => f x y

end Spmd
