/-!
Ids of the things a kernel is made of. An id is the position of its thing in the arena that holds it, and
the kind of thing is part of the id's type, so that a block id is never taken for a value id.
-/

namespace Spmd

/-- The kinds of things that have ids. -/
inductive Entity where
  | value
  | inst
  | block
deriving DecidableEq, Repr

/-- The id of a thing of the given kind: its position in the arena. -/
structure Id (kind : Entity) where
  index : Nat
deriving DecidableEq, Hashable, Repr

abbrev ValueId := Id .value
abbrev InstId := Id .inst
abbrev BlockId := Id .block

namespace Id

variable {kind : Entity}

instance {n : Nat} : OfNat (Id kind) n := ⟨⟨n⟩⟩

@[simp] theorem ofNat_eq (n : Nat) : (OfNat.ofNat n : Id kind) = ⟨n⟩ := rfl

/-- The id that stands for no thing at all: the greatest 32-bit index. -/
def absent : Id kind := ⟨0xffffffff⟩

instance : Inhabited (Id kind) := ⟨absent⟩

def isPresent (id : Id kind) : Bool := id != absent

/-- Ids are ordered by position. -/
instance : Ord (Id kind) := ⟨fun a b => compare a.index b.index⟩

instance : Std.TransOrd (Id kind) := inferInstanceAs (Std.TransCmp (compareOn Id.index))

instance : Std.LawfulEqOrd (Id kind) where
  eq_of_compare {a b} h := by
    cases a
    cases b
    exact congrArg Id.mk (Std.LawfulEqOrd.eq_of_compare h)

/-- The bare position. -/
def text (id : Id kind) : String := toString id.index

/-- The position with a mark that tells an id from a number. -/
def debugText (id : Id kind) : String :=
  if id.isPresent then "#" ++ id.text else "#INVALID"

end Id

end Spmd
