import Spmd.Fault
import Spmd.Id

/-!
Arenas: append-only storage in which an item keeps its id for ever. `alloc` gives the next free position,
and no operation moves or drops an item.
-/

namespace Spmd

/-- Items of one kind, addressed by id. -/
structure Arena (kind : Entity) (α : Type) where
  items : Array α := #[]
deriving DecidableEq

namespace Arena

variable {kind : Entity} {α : Type}

def size (a : Arena kind α) : Nat := a.items.size

/-- The id that the next item will get. -/
def nextId (a : Arena kind α) : Id kind := ⟨a.size⟩

def alloc (a : Arena kind α) (item : α) : Arena kind α × Id kind :=
  (⟨a.items.push item⟩, a.nextId)

def get? (a : Arena kind α) (id : Id kind) : Option α := a.items[id.index]?

def contains (a : Arena kind α) (id : Id kind) : Bool := id.index < a.size

/-- Changes the item with this id; an id that is not in the arena changes nothing. -/
def modify (a : Arena kind α) (id : Id kind) (f : α → α) : Arena kind α :=
  ⟨a.items.modify id.index f⟩

/-- All ids, in the order of allocation. -/
def ids (a : Arena kind α) : List (Id kind) := (List.range a.size).map Id.mk

def toList (a : Arena kind α) : List (Id kind × α) := a.ids.zip a.items.toList

@[simp] theorem size_alloc (a : Arena kind α) (item : α) : (a.alloc item).1.size = a.size + 1 := by
  simp [alloc, size]

@[simp] theorem size_modify (a : Arena kind α) (id : Id kind) (f : α → α) : (a.modify id f).size = a.size := by
  simp [modify, size]

/-- The ids of an arena are those below its size. -/
theorem isSome_get?_iff (a : Arena kind α) (id : Id kind) : (a.get? id).isSome = true ↔ id.index < a.size := by
  rw [get?, size, Option.isSome_iff_exists]
  constructor
  · rintro ⟨item, hitem⟩
    exact (Array.getElem?_eq_some_iff.mp hitem).1
  · exact fun hlt => ⟨_, Array.getElem?_eq_getElem hlt⟩

theorem mem_ids_iff (a : Arena kind α) (id : Id kind) : id ∈ a.ids ↔ id.index < a.size := by
  rw [ids, List.mem_map]
  constructor
  · rintro ⟨n, hn, rfl⟩
    exact List.mem_range.mp hn
  · exact fun hlt => ⟨id.index, List.mem_range.mpr hlt, rfl⟩

/-- A new item is found under the id it was given, and every older item under its own. -/
theorem get?_alloc (a : Arena kind α) (item : α) (id : Id kind) :
    (a.alloc item).1.get? id = if id = a.nextId then some item else a.get? id := by
  obtain ⟨i⟩ := id
  simp [alloc, get?, nextId, size, Array.getElem?_push]

theorem get?_modify (a : Arena kind α) (id other : Id kind) (f : α → α) :
    (a.modify id f).get? other = if other = id then (a.get? other).map f else a.get? other := by
  obtain ⟨i⟩ := id
  obtain ⟨j⟩ := other
  simp only [modify, get?, Array.getElem?_modify, Id.mk.injEq]
  grind

end Arena

end Spmd
