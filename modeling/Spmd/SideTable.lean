import Spmd.Fault
import Spmd.Id

/-!
Side tables attach data to ids without touching the arena that owns them. A table grows to the ids that
are written, and an id past its end reads as the table's default.
-/

namespace Spmd

/-- Data for the ids of one kind. -/
structure SideTable (kind : Entity) (α : Type) where
  cells : Array α
  default : α

namespace SideTable

variable {kind : Entity} {α : Type}

/-- A table whose first `n` cells are stored. -/
def replicate (n : Nat) (default : α) : SideTable kind α := ⟨Array.replicate n default, default⟩

/-- A table whose first `n` cells are stored as 64-bit words of zero. Faults if they would outgrow a signed
64-bit size in bytes. -/
def zeros (n : Nat) : Checked (SideTable kind Int64) :=
  if 0x8000000000000000 ≤ 8 * n then throw .overflow else return replicate n 0

def get (t : SideTable kind α) (id : Id kind) : α := t.cells.getD id.index t.default

/-- The cells with defaults added up to position `n`. -/
def padded (t : SideTable kind α) (n : Nat) : Array α :=
  t.cells ++ Array.replicate (n + 1 - t.cells.size) t.default

def set (t : SideTable kind α) (id : Id kind) (a : α) : SideTable kind α :=
  { t with cells := (t.padded id.index).setIfInBounds id.index a }

def modify (t : SideTable kind α) (id : Id kind) (f : α → α) : SideTable kind α :=
  t.set id (f (t.get id))

/-- Pushes every `x` onto the lists of the ids in `targets x`. -/
def enlist (n : Nat) (targets : α → List (Id kind)) (xs : List α) : SideTable kind (List α) :=
  xs.foldl (fun t x => (targets x).foldl (fun t id => t.modify id (· ++ [x])) t) (replicate n [])

/-- The stored cells with their ids. -/
def toList (t : SideTable kind α) : List (Id kind × α) :=
  ((List.range t.cells.size).map Id.mk).zip t.cells.toList

/-- A table that stores `f` at the first `n` ids. -/
def tabulate (n : Nat) (default : α) (f : Id kind → α) : SideTable kind α :=
  ⟨((List.range n).map fun i => f ⟨i⟩).toArray, default⟩

theorem get_tabulate (n : Nat) (default : α) (f : Id kind → α) (id : Id kind) :
    (tabulate n default f).get id = if id.index < n then f id else default := by
  simp only [get, tabulate, Array.getD_eq_getD_getElem?, List.getElem?_toArray, List.getElem?_map]
  by_cases h : id.index < n <;> simp [h]

theorem get_set (t : SideTable kind α) (id other : Id kind) (a : α) :
    (t.set id a).get other = if other = id then a else t.get other := by
  obtain ⟨i⟩ := id
  obtain ⟨j⟩ := other
  simp only [get, set, padded, Array.getD_eq_getD_getElem?, Array.getElem?_setIfInBounds, Id.mk.injEq,
    Array.getElem?_append, Array.getElem?_replicate, Array.size_append, Array.size_replicate]
  grind

theorem get_foldl_modify {ids : List (Id kind)} (hids : ids.Nodup) (f : α → α) (t : SideTable kind α) (id : Id kind) :
    (ids.foldl (fun t id => t.modify id f) t).get id = if id ∈ ids then f (t.get id) else t.get id := by
  induction ids generalizing t with
  | nil => rfl
  | cons other ids ih =>
    obtain ⟨hnot, hids⟩ := List.nodup_cons.mp hids
    rw [List.foldl_cons, ih hids, modify, get_set]
    by_cases h : id = other
    · subst h
      rw [if_neg hnot, if_pos rfl, if_pos (.head _)]
    · rw [if_neg h]
      simp [h]

/-- The list of an id holds what was pushed onto it, in order. -/
theorem get_enlist {targets : α → List (Id kind)} (htargets : ∀ x, (targets x).Nodup) (n : Nat) (xs : List α)
    (id : Id kind) : (enlist n targets xs).get id = xs.filter fun x => (targets x).contains id := by
  have hpush : ∀ t : SideTable kind (List α),
      (xs.foldl (fun t x => (targets x).foldl (fun t id => t.modify id (· ++ [x])) t) t).get id =
        t.get id ++ xs.filter fun x => (targets x).contains id := by
    induction xs with
    | nil => simp
    | cons x xs ih =>
      intro t
      rw [List.foldl_cons, ih, get_foldl_modify (htargets x)]
      by_cases h : id ∈ targets x <;> simp [h]
  have hempty : (replicate n [] : SideTable kind (List α)).get id = [] := by
    simp only [get, replicate, Array.getD_eq_getD_getElem?, Array.getElem?_replicate]
    split <;> rfl
  rw [enlist, hpush, hempty, List.nil_append]

end SideTable

end Spmd
