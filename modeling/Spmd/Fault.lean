/-!
Faults: the ways a computation on a kernel can have no answer at all.

A kernel may hold references to things that do not exist: an operand that names no value, a branch to a
block that was never made. Such a kernel can be stored, printed in part and reported by the well-formedness
check. An operation that has to look behind the reference faults instead. Arithmetic on sizes is done in
bounded words, and leaving the bound is a fault too.
-/

namespace Spmd

/-- A reason why an operation has no answer. -/
inductive Fault where
  /-- A value was looked up that the kernel does not have. -/
  | noValue (index : Nat)
  /-- An instruction was looked up that the kernel does not have. -/
  | noInst (index : Nat)
  /-- A block was looked up that the kernel does not have. -/
  | noBlock (index : Nat)
  /-- A position outside of a sequence was used. -/
  | outOfRange
  /-- A size left the range of its word. -/
  | overflow
  /-- The computation would go on without end. -/
  | endless
deriving DecidableEq, Repr

/-- A computation that may fault. -/
abbrev Checked := Except Fault

namespace Checked

/-- A size held in an unsigned 32-bit word. -/
def word32 (n : Nat) : Checked Nat :=
  if n < 0x100000000 then pure n else throw .overflow

/-- A size held in an unsigned 64-bit word. -/
def word64 (n : Nat) : Checked Nat :=
  if n < 0x10000000000000000 then pure n else throw .overflow

/-- The content of an option, or the given fault. -/
def some? {α : Type} (f : Fault) : Option α → Checked α
  | some a => pure a
  | none => throw f

end Checked

/-- The sum of sizes. -/
def total (sizes : List Nat) : Nat := sizes.foldr (· + ·) 0

@[simp] theorem total_nil : total [] = 0 := rfl

@[simp] theorem total_cons (n : Nat) (sizes : List Nat) : total (n :: sizes) = n + total sizes := rfl

/-- A signed 64-bit number, if the integer is one. -/
def signed64? (i : Int) : Option Int :=
  if -0x8000000000000000 ≤ i ∧ i < 0x8000000000000000 then some i else none

end Spmd
