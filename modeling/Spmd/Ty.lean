import Spmd.Fault

/-!
# Types of values

A scalar type is what one lane computes with. A vector type holds one element per lane; a scalable vector
has its lane count multiplied by a number that is only known when the kernel runs.
-/

namespace Spmd

/-- Type of a single element. -/
inductive ScalarTy where
  /-- A truth value, stored in one byte. -/
  | bool
  /-- A 32-bit two's complement integer. -/
  | i32
  /-- A 64-bit two's complement integer. -/
  | i64
  /-- A single precision float. -/
  | f32
  /-- A double precision float. -/
  | f64
  /-- A 64-bit address. -/
  | ptr
deriving DecidableEq, Hashable, Repr

namespace ScalarTy

/-- All scalar types in the order of their numbers. -/
def all : List ScalarTy := [.bool, .i32, .i64, .f32, .f64, .ptr]

/-- Number of the type. -/
def rank : ScalarTy → Nat
  | bool => 0
  | i32 => 1
  | i64 => 2
  | f32 => 3
  | f64 => 4
  | ptr => 5

/-- Bytes an element takes in memory. -/
def size : ScalarTy → Nat
  | bool => 1
  | i32 | f32 => 4
  | i64 | f64 | ptr => 8

/-- Bits an element takes in a register. -/
def bits : ScalarTy → Nat
  | bool => 1
  | t => t.size * 8

def isInt : ScalarTy → Bool
  | i32 | i64 => true
  | _ => false

def isFloat : ScalarTy → Bool
  | f32 | f64 => true
  | _ => false

def text : ScalarTy → String
  | bool => "bool"
  | i32 => "i32"
  | i64 => "i64"
  | f32 => "f32"
  | f64 => "f64"
  | ptr => "ptr"

/-- The type with this name. -/
def ofText? (s : String) : Option ScalarTy := all.find? (·.text == s)

theorem size_pos (t : ScalarTy) : 0 < t.size := by cases t <;> decide

end ScalarTy

/-- A vector type: an element per lane. -/
structure VectorTy where
  elem : ScalarTy
  /-- The lane count, or its least value if the vector is scalable. -/
  lanes : Nat
  scalable : Bool
deriving DecidableEq, Hashable, Repr

/-- Least size in bits, as a 32-bit word. -/
def VectorTy.minBits (v : VectorTy) : Checked Nat := Checked.word32 (v.elem.bits * v.lanes)

/-- Type of a value. -/
inductive Ty where
  /-- No value at all. -/
  | void
  | scalar (elem : ScalarTy)
  | vector (shape : VectorTy)
deriving DecidableEq, Hashable, Repr

namespace Ty

abbrev bool : Ty := .scalar .bool
abbrev ptr : Ty := .scalar .ptr

/-- A vector type of known lane count. -/
def fixedVector (elem : ScalarTy) (lanes : Nat) : Ty := .vector ⟨elem, lanes, false⟩

def element? : Ty → Option ScalarTy
  | void => none
  | scalar e => some e
  | vector v => some v.elem

def vector? : Ty → Option VectorTy
  | vector v => some v
  | _ => none

def isVoid : Ty → Bool
  | void => true
  | _ => false

def isScalar : Ty → Bool
  | scalar _ => true
  | _ => false

def isVector : Ty → Bool
  | vector _ => true
  | _ => false

/-- Lane count where it is known: a scalar has one lane. -/
def fixedLanes? : Ty → Option Nat
  | scalar _ => some 1
  | vector ⟨_, lanes, false⟩ => some lanes
  | _ => none

/-- The same element with the lanes of `shape`. -/
def withLanes (shape : VectorTy) : Ty → Ty
  | void => void
  | scalar e => vector { shape with elem := e }
  | vector v => vector { shape with elem := v.elem }

/-- The same lanes with another element. -/
def withElement (elem : ScalarTy) : Ty → Ty
  | void => void
  | scalar _ => scalar elem
  | vector v => vector { v with elem }

/-- Bytes a value takes in memory, as a 32-bit word; the least number if the vector is scalable. -/
def size : Ty → Checked Nat
  | void => pure 0
  | scalar e => pure e.size
  | vector v => Checked.word32 (v.elem.size * v.lanes)

def text : Ty → String
  | void => "void"
  | scalar e => e.text
  | vector v =>
    "<" ++ (if v.scalable then "vscale x " else "") ++ toString v.lanes ++ " x " ++ v.elem.text ++ ">"

/-- The vector type with these words between its brackets. -/
def ofWords? : List String → Option Ty
  | [lanes, elem] => return .vector ⟨← ScalarTy.ofText? elem, ← lanes.toNat?, false⟩
  | ["vscale", lanes, elem] => return .vector ⟨← ScalarTy.ofText? elem, ← lanes.toNat?, true⟩
  | _ => none

/-- The type with the given text. -/
def ofText? (s : String) : Option Ty :=
  if s == void.text then some void
  else match ScalarTy.ofText? s, s.toList with
    | some elem, _ => some (.scalar elem)
    | none, '<' :: rest => ofWords? ((String.ofList rest.dropLast).splitOn " x ")
    | none, _ => none

end Ty

end Spmd
