import Spmd.Kernel.Basic

/-!
# Symbolic addresses

An address as a root plus a number of bytes plus multiples of integer values. Two addresses with the same
root and the same multiples lie a constant distance apart. All numbers have to stay within signed 64 bits;
an address for which they do not has no symbolic form.
-/

namespace Spmd

/-- A number plus multiples of integer values. Multiples are sorted by value and not zero. -/
structure Linear where
  offset : Int := 0
  terms : List (ValueId × Int) := []
deriving DecidableEq, Repr

namespace Linear

/-- Adds a multiple of a value to sorted multiples. -/
def addTerm (v : ValueId) (scale : Int) : List (ValueId × Int) → Option (List (ValueId × Int))
  | [] => some [(v, scale)]
  | (w, s) :: rest =>
    if v.index < w.index then some ((v, scale) :: (w, s) :: rest)
    else if v = w then return (w, ← signed64? (s + scale)) :: rest
    else return (w, s) :: (← addTerm v scale rest)

/-- Adds a multiple of another sum. -/
def addScaled (a b : Linear) (scale : Int) : Option Linear := do
  let offset ← signed64? (a.offset + (← signed64? (b.offset * scale)))
  let terms ← b.terms.foldlM (fun terms (v, s) => do addTerm v (← signed64? (s * scale)) terms) a.terms
  return ⟨offset, terms.filter (·.2 ≠ 0)⟩

end Linear

/-- A pointer as a root plus a sum in bytes. -/
structure Address where
  root : ValueId
  sum : Linear
deriving DecidableEq, Repr

/-- The bytes from one address to another, if that is a constant. -/
def Address.distance? (a b : Address) : Option Int :=
  if a.root = b.root ∧ a.sum.terms = b.sum.terms then signed64? (b.sum.offset - a.sum.offset) else none

instance : MonadLift Option (OptionT Checked) := ⟨fun x => OptionT.mk (pure x)⟩

namespace Kernel

/-- How deep symbolic forms look into definitions. -/
def symbolicDepth : Nat := 16

/-- The symbolic form of what an instruction computes, from those of its operands; `leaf` if it is not looked into. -/
def linearInstr? (k : Kernel) (form : ValueId → OptionT Checked Linear) (leaf : Linear) : Instr → OptionT Checked Linear
  | .binary .add lhs rhs => do
    let a ← ({} : Linear).addScaled (← form lhs) 1
    a.addScaled (← form rhs) 1
  | .binary .sub lhs rhs => do
    let a ← ({} : Linear).addScaled (← form lhs) 1
    a.addScaled (← form rhs) (-1)
  | .binary .mul lhs rhs => do
    match ← OptionT.lift (k.constInt? lhs), ← OptionT.lift (k.constInt? rhs) with
    | _, some c => ({} : Linear).addScaled (← form lhs) c.toInt
    | some c, none => ({} : Linear).addScaled (← form rhs) c.toInt
    | none, none => return leaf
  | .binary .shl lhs rhs => do
    match ← OptionT.lift (k.constInt? rhs) with
    | some c =>
      if 0 ≤ c ∧ c < 32 then ({} : Linear).addScaled (← form lhs) (1 <<< c.toInt.toNat : Nat)
      else return leaf
    | none => return leaf
  | .cast .sext x | .cast .zext x => form x
  | _ => return leaf

/-- The symbolic form of an integer value, with `look` for what the definition of a computed value gives. -/
def linearValue? (k : Kernel) (v : ValueId) (look : InstId → Linear → OptionT Checked Linear) : OptionT Checked Linear := do
  let leaf : Linear := ⟨0, [(v, 1)]⟩
  match (← OptionT.lift (k.value v)).kind with
  | .const (.int c) => return ⟨c.toInt, []⟩
  | .inst i => look i leaf
  | _ => return leaf

/-- The symbolic form of an integer value, looking `depth` definitions deep. -/
def linear? (k : Kernel) : Nat → ValueId → OptionT Checked Linear
  | 0, v => k.linearValue? v fun _ leaf => return leaf
  | depth + 1, v => k.linearValue? v fun i leaf => do
    k.linearInstr? (k.linear? depth) leaf (← OptionT.lift (k.inst i)).instr

/-- Follows at most `fuel` bases and sums up the indices on the way. -/
def addressFrom? (k : Kernel) : Nat → Linear → ValueId → OptionT Checked Address
  | 0, _, _ => failure
  | fuel + 1, sum, v => do
    match (← OptionT.lift (k.value v)).kind with
    | .inst i =>
      match (← OptionT.lift (k.inst i)).instr with
      | .elementPtr base index elem =>
        let sum ← sum.addScaled (← k.linear? symbolicDepth index) elem.size
        k.addressFrom? fuel sum base
      | _ => return ⟨v, sum⟩
    | _ => return ⟨v, sum⟩

/-- The symbolic form of a pointer. -/
def address? (k : Kernel) (ptr : ValueId) : Checked (Option Address) :=
  (k.addressFrom? symbolicDepth {} ptr).run

/-- The bytes from one pointer to another, if that is a constant. -/
def distance? (k : Kernel) (a b : ValueId) : Checked (Option Int) := do
  match ← k.address? a with
  | none => return none
  | some x => return (← k.address? b).bind x.distance?

end Kernel

end Spmd
