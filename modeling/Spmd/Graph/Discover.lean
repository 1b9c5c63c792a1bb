import Spmd.Id
import Spmd.IndexSet

/-!
# Walking a finite graph

Two walks over finitely many nodes, given each node's neighbours. `discover` lists the nodes it reaches in
breadth-first order and `postorder` lists them in reverse post-order of a depth-first search. Both keep the
set of the nodes that may still be entered, their room. A node leaves the room when it is entered, so no
node is entered twice and both walks end.
-/

namespace Spmd.Graph

variable {kind : Entity}

/-- The nodes that a walk may enter if some have been seen before. -/
def room (nodes seen : List (Id kind)) : IndexSet :=
  (IndexSet.ofList (nodes.map (·.index))).diff (IndexSet.ofList (seen.map (·.index)))

/-- Enters those of the given nodes for which there is room; lists them, with the room that is left. -/
def enter (room : IndexSet) : List (Id kind) → List (Id kind) × IndexSet
  | [] => ([], room)
  | x :: xs =>
    if room.contains x.index then
      let (entered, left) := enter (room.erase x.index) xs
      (x :: entered, left)
    else enter room xs

theorem count_enter_le (room : IndexSet) (xs : List (Id kind)) : (enter room xs).2.count ≤ room.count := by
  induction xs generalizing room with
  | nil => exact Nat.le_refl _
  | cons x xs ih =>
    rw [enter]
    split
    · rename_i h
      exact Nat.le_trans (ih _) (Nat.le_of_lt (IndexSet.count_erase_lt h))
    · exact ih room

/-- Entering a node takes room. -/
theorem count_enter_lt {room : IndexSet} {xs : List (Id kind)} (h : (enter room xs).1 ≠ []) :
    (enter room xs).2.count < room.count := by
  induction xs generalizing room with
  | nil => exact absurd rfl h
  | cons x xs ih =>
    rw [enter] at h ⊢
    split
    · rename_i hx
      exact Nat.lt_of_le_of_lt (count_enter_le _ xs) (IndexSet.count_erase_lt hx)
    · rename_i hx
      rw [if_neg hx] at h
      exact ih h

-- the equation `h` is used for termination only
set_option linter.unusedVariables false in
/-- The nodes entered from a front of nodes: first those of the front, then those reached from their
neighbours. -/
def reach (next : Id kind → List (Id kind)) (room : IndexSet) (front : List (Id kind)) : List (Id kind) :=
  match h : enter room front with
  | ([], _) => []
  | (x :: xs, left) => x :: xs ++ reach next left ((x :: xs).flatMap next)
termination_by room.count
decreasing_by
  have hlt : (enter room front).2.count < room.count := count_enter_lt (by simp [h])
  rwa [h] at hlt

/-- Nodes reached from the front, in the order in which they are found, behind those `seen` before. -/
def discover (nodes : List (Id kind)) (next : Id kind → List (Id kind)) (seen front : List (Id kind)) :
    List (Id kind) :=
  seen ++ reach next (room nodes seen) front

/-- Work left in a depth-first search: the neighbours to try of the nodes on the stack, and of all for which there
is room. -/
def pendingWork (next : Id kind → List (Id kind)) (room : IndexSet) (stack : List (Id kind × List (Id kind))) : Nat :=
  total (room.toList.map fun i => (next ⟨i⟩).length + 1) + total (stack.map fun f => f.2.length + 1)

theorem pendingWork_push {next : Id kind → List (Id kind)} {room : IndexSet} {x y : Id kind} {ys : List (Id kind)}
    {stack : List (Id kind × List (Id kind))} (h : room.contains y.index = true) :
    pendingWork next (room.erase y.index) ((y, next y) :: (x, ys) :: stack) <
      pendingWork next room ((x, y :: ys) :: stack) := by
  have hsum : total ((room.erase y.index).toList.map fun i => (next ⟨i⟩).length + 1) + ((next y).length + 1) ≤
      total (room.toList.map fun i => (next ⟨i⟩).length + 1) := IndexSet.total_erase_le h
  simp only [pendingWork, List.map_cons, total_cons, List.length_cons]
  omega

-- the bound of `if h` is used for termination only
set_option linter.unusedVariables false in
/-- Depth-first search. A frame of the stack is a node that was entered with the neighbours still to try; a
finished node goes to the front of `done`. -/
def depthFirst (next : Id kind → List (Id kind)) (room : IndexSet) (done : List (Id kind)) :
    List (Id kind × List (Id kind)) → List (Id kind)
  | [] => done
  | (x, []) :: stack => depthFirst next room (x :: done) stack
  | (x, y :: ys) :: stack =>
    if h : room.contains y.index = true then
      depthFirst next (room.erase y.index) done ((y, next y) :: (x, ys) :: stack)
    else depthFirst next room done ((x, ys) :: stack)
termination_by stack => pendingWork next room stack
decreasing_by
  · simp [pendingWork]
  · exact pendingWork_push h
  · simp [pendingWork]

/-- Nodes reached from the root in reverse post-order, the root first. -/
def postorder (nodes : List (Id kind)) (next : Id kind → List (Id kind)) (root : Id kind) : List (Id kind) :=
  depthFirst next (room nodes [root]) [] [(root, next root)]

end Spmd.Graph
