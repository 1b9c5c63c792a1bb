import Spmd.Ty

/-!
# Operators

The operators an instruction applies per lane, with the facts about each that do not need an evaluator:
its number, its name, whether it works on floats, whether its operands commute, whether it can trap.
-/

namespace Spmd

/-- Arithmetic and logic on two operands. -/
inductive BinaryOp where
  | add | sub | mul | sdiv | srem | udiv | urem
  | and | or | xor | shl | ashr | lshr
  | smin | smax | umin | umax
  | fadd | fsub | fmul | fdiv | fmin | fmax
deriving DecidableEq, Hashable, Repr

namespace BinaryOp

def all : List BinaryOp :=
  [add, sub, mul, sdiv, srem, udiv, urem, and, or, xor, shl, ashr, lshr, smin, smax, umin, umax,
    fadd, fsub, fmul, fdiv, fmin, fmax]

def text : BinaryOp → String
  | add => "add" | sub => "sub" | mul => "mul"
  | sdiv => "sdiv" | srem => "srem" | udiv => "udiv" | urem => "urem"
  | and => "and" | or => "or" | xor => "xor"
  | shl => "shl" | ashr => "ashr" | lshr => "lshr"
  | smin => "smin" | smax => "smax" | umin => "umin" | umax => "umax"
  | fadd => "fadd" | fsub => "fsub" | fmul => "fmul" | fdiv => "fdiv"
  | fmin => "fmin" | fmax => "fmax"

def ofText? (s : String) : Option BinaryOp := all.find? (·.text == s)

/-- Number of the operator; float operators start at 32. -/
def code : BinaryOp → Nat
  | add => 0 | sub => 1 | mul => 2 | sdiv => 3 | srem => 4 | udiv => 5 | urem => 6
  | and => 7 | or => 8 | xor => 9 | shl => 10 | ashr => 11 | lshr => 12
  | smin => 13 | smax => 14 | umin => 15 | umax => 16
  | fadd => 32 | fsub => 33 | fmul => 34 | fdiv => 35 | fmin => 36 | fmax => 37

def isFloat : BinaryOp → Bool
  | fadd | fsub | fmul | fdiv | fmin | fmax => true
  | _ => false

def isCommutative : BinaryOp → Bool
  | add | mul | and | or | xor | smin | smax | umin | umax | fadd | fmul | fmin | fmax => true
  | _ => false

/-- Whether the operator fails on a zero divisor. -/
def mayTrap : BinaryOp → Bool
  | sdiv | srem | udiv | urem => true
  | _ => false

/-- Whether the operator is defined on elements of this type. -/
def accepts (op : BinaryOp) (elem : ScalarTy) : Bool :=
  if op.isFloat then elem.isFloat
  else match op with
    | and | or | xor => elem.isInt || elem == .bool
    | _ => elem.isInt

end BinaryOp

/-- Arithmetic and logic on one operand. -/
inductive UnaryOp where
  | neg | not | fneg | fabs | sqrt
deriving DecidableEq, Hashable, Repr

namespace UnaryOp

def all : List UnaryOp := [neg, not, fneg, fabs, sqrt]

def text : UnaryOp → String
  | neg => "neg" | not => "not" | fneg => "fneg" | fabs => "fabs" | sqrt => "sqrt"

def ofText? (s : String) : Option UnaryOp := all.find? (·.text == s)

def code : UnaryOp → Nat
  | neg => 0 | not => 1 | fneg => 2 | fabs => 3 | sqrt => 4

def isFloat : UnaryOp → Bool
  | fneg | fabs | sqrt => true
  | _ => false

end UnaryOp

/-- Comparisons. -/
inductive CmpOp where
  | eq | ne | slt | sle | sgt | sge | ult | ule | ugt | uge
  | feq | fne | flt | fle | fgt | fge
deriving DecidableEq, Hashable, Repr

namespace CmpOp

def all : List CmpOp :=
  [eq, ne, slt, sle, sgt, sge, ult, ule, ugt, uge, feq, fne, flt, fle, fgt, fge]

def text : CmpOp → String
  | eq => "eq" | ne => "ne" | slt => "slt" | sle => "sle" | sgt => "sgt" | sge => "sge"
  | ult => "ult" | ule => "ule" | ugt => "ugt" | uge => "uge"
  | feq => "feq" | fne => "fne" | flt => "flt" | fle => "fle" | fgt => "fgt" | fge => "fge"

def ofText? (s : String) : Option CmpOp := all.find? (·.text == s)

/-- Number of the comparison; float comparisons start at 16. -/
def code : CmpOp → Nat
  | eq => 0 | ne => 1 | slt => 2 | sle => 3 | sgt => 4 | sge => 5
  | ult => 6 | ule => 7 | ugt => 8 | uge => 9
  | feq => 16 | fne => 17 | flt => 18 | fle => 19 | fgt => 20 | fge => 21

def isFloat : CmpOp → Bool
  | feq | fne | flt | fle | fgt | fge => true
  | _ => false

/-- The comparison that holds exactly where this one does not. Float comparisons have none, because an
operand that is not a number makes both fail. -/
def inverse? : CmpOp → Option CmpOp
  | eq => some ne | ne => some eq
  | slt => some sge | sge => some slt | sle => some sgt | sgt => some sle
  | ult => some uge | uge => some ult | ule => some ugt | ugt => some ule
  | feq | fne | flt | fle | fgt | fge => none

end CmpOp

/-- Conversions between element types. -/
inductive CastOp where
  | sext | zext | trunc | sitofp | fptosi | fpext | fptrunc
deriving DecidableEq, Hashable, Repr

namespace CastOp

def all : List CastOp := [sext, zext, trunc, sitofp, fptosi, fpext, fptrunc]

def text : CastOp → String
  | sext => "sext" | zext => "zext" | trunc => "trunc" | sitofp => "sitofp" | fptosi => "fptosi"
  | fpext => "fpext" | fptrunc => "fptrunc"

def ofText? (s : String) : Option CastOp := all.find? (·.text == s)

def code : CastOp → Nat
  | sext => 0 | zext => 1 | trunc => 2 | sitofp => 3 | fptosi => 4 | fpext => 5 | fptrunc => 6

/-- Whether an integer that fits the result type comes out unchanged. -/
def preservesInteger : CastOp → Bool
  | sext | zext | trunc => true
  | _ => false

end CastOp

/-- How a sequence of lanes is folded into one value. -/
inductive RecurKind where
  | add | mul | smin | smax | umin | umax | and | or | xor
  | fadd | fmul | fmin | fmax
deriving DecidableEq, Hashable, Repr

namespace RecurKind

def all : List RecurKind :=
  [add, mul, smin, smax, umin, umax, and, or, xor, fadd, fmul, fmin, fmax]

/-- The operator that joins two lanes. -/
def binaryOp : RecurKind → BinaryOp
  | add => .add | mul => .mul | smin => .smin | smax => .smax | umin => .umin | umax => .umax
  | and => .and | or => .or | xor => .xor
  | fadd => .fadd | fmul => .fmul | fmin => .fmin | fmax => .fmax

def text (k : RecurKind) : String := k.binaryOp.text

def ofText? (s : String) : Option RecurKind := all.find? (·.text == s)

/-- Number of the fold; float folds start at 16. -/
def code : RecurKind → Nat
  | add => 0 | mul => 1 | smin => 2 | smax => 3 | umin => 4 | umax => 5 | and => 6 | or => 7 | xor => 8
  | fadd => 16 | fmul => 17 | fmin => 18 | fmax => 19

def isFloat (k : RecurKind) : Bool := k.binaryOp.isFloat

/-- Whether the result is the same in whichever order the lanes are joined. -/
def isExact : RecurKind → Bool
  | fadd | fmul => false
  | _ => true

end RecurKind

end Spmd
