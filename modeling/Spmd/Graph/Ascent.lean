import Spmd.Fault

/-!
# Closest dominators by iteration

The nodes of a rooted graph stand in a row, the root first, and every other node is behind one of its
predecessors. Nodes are named by their positions in the row. An ascent gives a position the earlier position
that is taken for its closest strict dominator so far. A visit replaces it by the closest position on which the
ways up from all known predecessors meet, a sweep visits all positions in turn, and sweeps are repeated until
one changes nothing.

Each loop watches its own progress. Two fingers go up towards each other, and an ascent only goes to earlier
positions. A visit that would break this gives up, and so does a repetition that does not lower the weight of the
ascent.
-/

namespace Spmd

/-- What is taken for the closest strict dominator of every position. -/
structure Ascent where
  cells : Array (Option Nat)
  earlier : ∀ {i p : Nat}, cells[i]? = some (some p) → p < i

namespace Ascent

/-- Nothing is known of `n` positions but that the first is the root. -/
def start (n : Nat) : Ascent where
  cells := Array.replicate n none
  earlier h := by simp [Array.getElem?_replicate] at h

/-- The position to which another goes up. -/
def up? (t : Ascent) (i : Nat) : Option Nat := t.cells[i]?.join

theorem up?_lt {t : Ascent} {i p : Nat} (h : t.up? i = some p) : p < i :=
  t.earlier (Option.join_eq_some_iff.mp h)

/-- Lets a position go up to an earlier one. -/
def set (t : Ascent) (i p : Nat) (h : p < i) : Ascent where
  cells := t.cells.setIfInBounds i (some p)
  earlier {j r} hj := by
    rw [Array.getElem?_setIfInBounds] at hj
    split at hj
    · rename_i hij
      split at hj
      · obtain rfl : p = r := by simpa using hj
        omega
      · exact absurd hj (by simp)
    · exact t.earlier hj

/-- The positions on the way up, the start of it first. -/
def chain (t : Ascent) (i : Nat) : List Nat :=
  match _h : t.up? i with
  | some p => i :: t.chain p
  | none => [i]
termination_by i
decreasing_by exact up?_lt _h

/-- The root, and every position of which something is taken for the closest strict dominator. -/
def known (t : Ascent) (i : Nat) : Bool := i = 0 || (t.up? i).isSome

/-- Where a finger goes: up, and to the root if nothing better is known. -/
def up (t : Ascent) (i : Nat) : Nat := (t.up? i).getD 0

theorem up_lt (t : Ascent) {i : Nat} (h : 0 < i) : t.up i < i := by
  rw [up]
  cases hp : t.up? i with
  | none => exact h
  | some p => exact up?_lt hp

/-- Where two ways up meet. Of two fingers the one that is further back goes up, until both are at one place. -/
def meet (t : Ascent) (a b : Nat) : Nat :=
  if a = b then a
  else if b < a then t.meet (t.up a) b
  else t.meet a (t.up b)
termination_by a + b
decreasing_by
  · have := t.up_lt (i := a) (by omega)
    omega
  · have := t.up_lt (i := b) (by omega)
    omega

/-- Where the ways up from all known predecessors meet. -/
def candidate? (t : Ascent) (preds : List Nat) : Option Nat :=
  match preds.filter t.known with
  | [] => none
  | p :: ps => some (ps.foldl (fun c p => t.meet p c) p)

/-- Looks again at a position's predecessors. Gives up if the ways up from them do not meet in front of it. -/
def visit (preds : Nat → List Nat) (t : Ascent) (i : Nat) : Option Ascent :=
  match t.candidate? (preds i) with
  | some p => if h : p < i then some (t.set i p h) else none
  | none => some t

/-- Visits all positions behind the root in turn. -/
def sweep (preds : Nat → List Nat) (t : Ascent) : Option Ascent :=
  (List.range' 1 (t.cells.size - 1)).foldlM (visit preds) t

/-- How far back the positions go up to. One of which nothing is known counts for itself. -/
def weight (t : Ascent) : Nat := total ((List.range t.cells.size).map fun i => (t.up? i).getD i)

/-- Sweeps until nothing changes. Gives up if a sweep changes something and the weight does not fall. -/
def settle (preds : Nat → List Nat) (t : Ascent) : Option Ascent :=
  match sweep preds t with
  | none => none
  | some next =>
    if next.cells = t.cells then some t
    else if _h : next.weight < t.weight then settle preds next
    else none
termination_by t.weight

/-- The ascent without the root: what stood at a position stands one further to the front, and positions that
go up to the root alone go up no more. -/
def dropRoot (t : Ascent) : Ascent where
  cells := (t.cells.toList.tail.map (Option.bind · fun | 0 => none | p + 1 => some p)).toArray
  earlier {i p} h := by
    simp only [List.getElem?_toArray, List.getElem?_map, Option.map_eq_some_iff] at h
    obtain ⟨c, hc, hp⟩ := h
    rw [List.getElem?_tail, Array.getElem?_toList] at hc
    obtain ⟨r, rfl, hr⟩ := Option.bind_eq_some_iff.mp hp
    have hlt := t.earlier hc
    cases r with
    | zero => exact absurd hr (by simp)
    | succ r =>
      obtain rfl := Option.some.inj hr
      omega

end Ascent

end Spmd
