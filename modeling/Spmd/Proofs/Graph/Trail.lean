import Spmd.Proofs.Graph.Reach

/-!
# Trails of a depth-first search

When a search is done with a node, the nodes on its stack are a trail from the node back to the root, and every
neighbour of the node is on the trail or done before. Since the search lists the nodes in reverse, an edge that does
not lead to a later node of the list leads to a node of the trail (**`exists_trail_of_postorder`**). That is what
makes the edges against the order independent of how the search went: each of them closes a cycle.
-/

namespace Spmd.Graph

open List

variable {kind : Entity} {next : Id kind → List (Id kind)} {start room : IndexSet} {root x y : Id kind}
  {done : List (Id kind)} {stack : List (Id kind × List (Id kind))} {trail : List (Id kind)}

/-- The nodes from `x` back to the root without repetition, each a neighbour of the one behind it. -/
structure IsTrail (next : Id kind → List (Id kind)) (root x : Id kind) (trail : List (Id kind)) : Prop where
  head : trail.head? = some x
  last : trail.getLast? = some root
  linked : trail.IsChain fun y x => y ∈ next x
  nodup : trail.Nodup

/-- Every node that is done has a trail with all of its neighbours that were not done before it. -/
def Trailed (next : Id kind → List (Id kind)) (start : IndexSet) (root : Id kind) (done : List (Id kind)) : Prop :=
  ∀ l x r, done = l ++ x :: r → ∃ trail, IsTrail next root x trail ∧
    ∀ y ∈ next x, start.contains y.index = true ∨ y = root → y ∈ r ∨ y ∈ trail

/-- The nodes on the stack are a trail of the uppermost. -/
theorem isTrail_stack {ys : List (Id kind)} (hsearch : Underway next start room done ((x, ys) :: stack))
    (hled : Led next root done ((x, ys) :: stack)) : IsTrail next root x (((x, ys) :: stack).map (·.1)) where
  head := rfl
  last := by
    have hsome : (((x, ys) :: stack).map (·.1)).getLast?.isSome = true := by simp
    obtain ⟨z, hz⟩ := Option.isSome_iff_exists.mp hsome
    have hbottom := hled.bottom
    rw [hz] at hbottom
    exact hz.trans hbottom
  linked := hled.linked
  nodup := (nodup_append.mp hsearch.nodup).2.1

/-- A node that is done with nothing left to try gets the stack for its trail. -/
theorem Trailed.finish (h : Trailed next start root done) (hsearch : Underway next start room done ((x, []) :: stack))
    (hled : Led next root done ((x, []) :: stack)) : Trailed next start root (x :: done) := by
  intro l z r heq
  cases l with
  | cons w l => exact h l z r (cons.inj heq).2
  | nil =>
    cases heq
    have htrail := isTrail_stack hsearch hled
    refine ⟨_, htrail, fun y hy hnode => ?_⟩
    rcases hnode with hstart | rfl
    · -- there is no room left for a neighbour
      have hgone : room.contains y.index = false :=
        (hsearch.tried _ (.head _) y hy).resolve_left not_mem_nil
      rcases hsearch.accounted y hstart with hdone | hstack | hroom
      · exact .inl hdone
      · exact .inr hstack
      · rw [hgone] at hroom
        exact Bool.noConfusion hroom
    · exact .inr (mem_of_getLast? htrail.last)

theorem Trailed.depthFirst (h : Trailed next start root done) (hsearch : Underway next start room done stack)
    (hled : Led next root done stack) : Trailed next start root (Graph.depthFirst next room done stack) := by
  fun_induction Graph.depthFirst next room done stack with
  | case1 room done => exact h
  | case2 room done x stack ih => exact ih (h.finish hsearch hled) hsearch.finish hled.finish
  | case3 room done x y ys stack hy ih => exact ih h (hsearch.push hy) hled.push
  | case4 room done x y ys stack hy ih => exact ih h (hsearch.skip (by simpa using hy)) hled.skip

theorem trailed_postorder (nodes : List (Id kind)) (next : Id kind → List (Id kind)) (root : Id kind) :
    Trailed next (Graph.room nodes [root]) root (postorder nodes next root) := by
  have hnone : Trailed next (Graph.room nodes [root]) root [] := fun l x r heq => absurd heq (by simp)
  exact hnone.depthFirst (underway_root nodes next root) (led_root next root)

/-- **An edge against the order leads to a node of the trail.** -/
theorem exists_trail_of_postorder {nodes : List (Id kind)} (hx : x ∈ postorder nodes next root) :
    ∃ trail, IsTrail next root x trail ∧ ∀ y ∈ next x, y ∈ postorder nodes next root →
      (postorder nodes next root).idxOf y ≤ (postorder nodes next root).idxOf x → y ∈ trail := by
  obtain ⟨l, r, heq⟩ := append_of_mem hx
  obtain ⟨trail, htrail, hnear⟩ := trailed_postorder nodes next root l x r heq
  refine ⟨trail, htrail, fun y hy hmem hle => ?_⟩
  have hnode : (Graph.room nodes [root]).contains y.index = true ∨ y = root := by
    by_cases hroot : y = root
    · exact .inr hroot
    · rcases Relation.ReflTransGen.cases_tail (mem_postorder_iff.mp hmem) with heq | ⟨_, _, hstep⟩
      · exact absurd heq hroot
      · exact .inl ((contains_room _ _ _).mpr ⟨hstep.2.resolve_right hroot, by simpa using hroot⟩)
  refine (hnear y hy hnode).resolve_left fun hr => ?_
  -- what is listed behind `x` has a greater position
  have hnodup := nodup_postorder nodes next root
  rw [heq] at hle hnodup
  obtain ⟨_, hxr, hdisjoint⟩ := nodup_append.mp hnodup
  have hyl : y ∉ l := fun hl => hdisjoint y hl y (.tail _ hr) rfl
  have hxl : x ∉ l := fun hl => hdisjoint x hl x (.head _) rfl
  have hne : x ≠ y := fun heq => (nodup_cons.mp hxr).1 (heq ▸ hr)
  rw [idxOf_append_of_notMem hyl, idxOf_append_of_notMem hxl, idxOf_cons_self,
    idxOf_cons_ne _ hne] at hle
  omega

end Spmd.Graph
