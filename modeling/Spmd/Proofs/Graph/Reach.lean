import Mathlib.Data.List.Chain
import Mathlib.Data.List.Nodup
import Mathlib.Logic.Relation
import Mathlib.Tactic.Tauto
import Spmd.Graph.Discover

/-!
# What the walks over a graph find

`discover` and `postorder` are both exact: they list the nodes that a walk can reach.

* **`Step next room`** — one edge into a node for which there is room. A walk is its reflexive and
  transitive closure.
* **`mem_reach_iff`** — the layers of the breadth-first walk hold exactly the nodes that a walk reaches
  from the front. `mem_discover_iff` says the same with the room spelled out.
* **`mem_postorder_iff`** — the depth-first search lists the root and what a walk reaches from it. The
  invariant is that a node leaves the room only for the stack or for the finished nodes, and that a
  finished node has no neighbour left in the room.
* **`exists_before_of_postorder`** — in the order of the search the root comes first, and every other node
  comes behind one of which it is a neighbour.
-/

namespace Spmd

open List
open Relation (ReflTransGen)

variable {kind : Entity} {x root y : Id kind} {done xs ys : List (Id kind)} {next : Id kind → List (Id kind)}
  {stack : List (Id kind × List (Id kind))}

/-! ## Members of listed sets -/

namespace IndexSet

theorem contains_insertAll (s : IndexSet) (is : List Nat) (j : Nat) :
    (s.insertAll is).contains j = (s.contains j || is.contains j) := by
  induction is generalizing s with
  | nil => simp [insertAll]
  | cons i is ih =>
    rw [insertAll, foldl_cons, ← insertAll, ih, contains_insert, contains_cons, Bool.or_assoc,
      Bool.beq_comm (a := j)]

theorem contains_ofList (is : List Nat) (j : Nat) : (ofList is).contains j = is.contains j := by
  rw [ofList, contains_insertAll]
  exact Bool.false_or _

end IndexSet

theorem Id.index_inj : x.index = y.index ↔ x = y := by
  cases x
  cases y
  rw [Id.mk.injEq]

theorem Id.mem_map_index : x.index ∈ xs.map (·.index) ↔ x ∈ xs := by
  constructor
  · intro h
    obtain ⟨y, hy, heq⟩ := mem_map.mp h
    exact Id.index_inj.mp heq ▸ hy
  · intro h
    exact mem_map_of_mem h

namespace Graph

variable {front nodes seen : List (Id kind)}

theorem contains_room (nodes seen : List (Id kind)) (x : Id kind) :
    (room nodes seen).contains x.index = true ↔ x ∈ nodes ∧ x ∉ seen := by
  rw [room, IndexSet.contains_diff, IndexSet.contains_ofList, IndexSet.contains_ofList]
  simp only [Bool.and_eq_true, contains_iff_mem, Bool.not_eq_true', Id.mem_map_index,
    ← Bool.not_eq_true]

/-- An edge into a node for which there is room. -/
def Step (next : Id kind → List (Id kind)) (room : IndexSet) (a b : Id kind) : Prop :=
  b ∈ next a ∧ room.contains b.index = true

/-! ## Breadth first -/

theorem mem_enter {room : IndexSet} : x ∈ (enter room xs).1 ↔ x ∈ xs ∧ room.contains x.index = true := by
  induction xs generalizing room with
  | nil => simp [enter]
  | cons y ys ih =>
    rw [enter]
    by_cases hy : room.contains y.index = true
    · rw [if_pos hy]
      simp only [mem_cons, ih, IndexSet.contains_erase]
      constructor
      · rintro (rfl | ⟨hx, hroom⟩)
        · exact ⟨.inl rfl, hy⟩
        · exact ⟨.inr hx, (Bool.and_eq_true_iff.mp hroom).1⟩
      · rintro ⟨rfl | hx, hroom⟩
        · exact .inl rfl
        · by_cases hxy : x = y
          · exact .inl hxy
          · have hne : y.index ≠ x.index := fun h => hxy (Id.index_inj.mp h).symm
            exact .inr ⟨hx, by simp [hroom, hne]⟩
    · rw [if_neg hy, ih, mem_cons]
      constructor
      · rintro ⟨hx, hroom⟩
        exact ⟨.inr hx, hroom⟩
      · rintro ⟨rfl | hx, hroom⟩
        · exact absurd hroom hy
        · exact ⟨hx, hroom⟩

/-- The room that is left is the room without the nodes that were entered. -/
theorem contains_enter {room : IndexSet} :
    (enter room xs).2.contains x.index = true ↔ room.contains x.index = true ∧ x ∉ (enter room xs).1 := by
  induction xs generalizing room with
  | nil => simp [enter]
  | cons y ys ih =>
    rw [enter]
    by_cases hy : room.contains y.index = true
    · rw [if_pos hy]
      simp only [ih, IndexSet.contains_erase, Bool.and_eq_true, Bool.not_eq_true', beq_eq_false_iff_ne,
        mem_cons, not_or]
      constructor
      · rintro ⟨⟨hroom, hne⟩, hnot⟩
        exact ⟨hroom, fun h => hne (congrArg Id.index h.symm), hnot⟩
      · rintro ⟨hroom, hne, hnot⟩
        exact ⟨⟨hroom, fun h => hne (Id.index_inj.mp h).symm⟩, hnot⟩
    · rw [if_neg hy, ih]

/-- One layer of the walk: what is entered now, and what is reached from there in the room that is left. -/
theorem mem_reach_layer {room : IndexSet} :
    x ∈ reach next room front ↔
      x ∈ (enter room front).1 ∨
        ((enter room front).1 ≠ [] ∧
          x ∈ reach next (enter room front).2 ((enter room front).1.flatMap next)) := by
  rw [reach]
  split
  next left heq =>
    simp [heq]
  next y ys left heq =>
    rw [mem_append, heq]
    simp

/-- What there is room for at the front is found. -/
theorem mem_reach_of_front {room : IndexSet} (hx : x ∈ front) (hroom : room.contains x.index = true) :
    x ∈ reach next room front :=
  mem_reach_layer.mpr (.inl (mem_enter.mpr ⟨hx, hroom⟩))

/-- Whatever is found lies in the room. -/
theorem contains_of_mem_reach {next : Id kind → List (Id kind)} {room : IndexSet} {front : List (Id kind)}
    {x : Id kind} (hx : x ∈ reach next room front) : room.contains x.index = true := by
  rcases mem_reach_layer.mp hx with h | ⟨hne, h⟩
  · exact (mem_enter.mp h).2
  · have := count_enter_lt hne
    exact (contains_enter.mp (contains_of_mem_reach h)).1
termination_by room.count

/-- The walk goes on from everything it finds. -/
theorem mem_reach_of_step {next : Id kind → List (Id kind)} {room : IndexSet} {front : List (Id kind)}
    {x y : Id kind} (hx : x ∈ reach next room front) (hxy : Step next room x y) : y ∈ reach next room front := by
  obtain ⟨hy, hroom⟩ := hxy
  -- `y` is entered in this layer, or there is still room for it in the next one
  by_cases hin : y ∈ (enter room front).1
  · exact mem_reach_layer.mpr (.inl hin)
  have hleft : (enter room front).2.contains y.index = true := contains_enter.mpr ⟨hroom, hin⟩
  rcases mem_reach_layer.mp hx with h | ⟨hne, h⟩
  · refine mem_reach_layer.mpr (.inr ⟨ne_nil_of_mem h, ?_⟩)
    exact mem_reach_of_front (mem_flatMap.mpr ⟨x, h, hy⟩) hleft
  · have := count_enter_lt hne
    exact mem_reach_layer.mpr (.inr ⟨hne, mem_reach_of_step h ⟨hy, hleft⟩⟩)
termination_by room.count

/-- Only walks from the front find nodes. -/
theorem exists_walk_of_mem_reach {next : Id kind → List (Id kind)} {room : IndexSet}
    {front : List (Id kind)} {x : Id kind} (hx : x ∈ reach next room front) :
    ∃ s ∈ front, room.contains s.index = true ∧ ReflTransGen (Step next room) s x := by
  rcases mem_reach_layer.mp hx with h | ⟨hne, h⟩
  · obtain ⟨hfront, hroom⟩ := mem_enter.mp h
    exact ⟨x, hfront, hroom, .refl⟩
  · have := count_enter_lt hne
    obtain ⟨s, hs, hsroom, hwalk⟩ := exists_walk_of_mem_reach h
    obtain ⟨a, ha, hsa⟩ := mem_flatMap.mp hs
    obtain ⟨hfront, haroom⟩ := mem_enter.mp ha
    -- the rest of the walk stays in the smaller room, so it stays in the larger one
    have hmono : ∀ u v, Step next (enter room front).2 u v → Step next room u v :=
      fun u v huv => ⟨huv.1, (contains_enter.mp huv.2).1⟩
    refine ⟨a, hfront, haroom, .head ⟨hsa, (contains_enter.mp hsroom).1⟩ ?_⟩
    exact ReflTransGen.mono hmono _ _ hwalk
termination_by room.count

/-- **The breadth-first walk is exact.** -/
theorem mem_reach_iff {room : IndexSet} :
    x ∈ reach next room front ↔
      ∃ s ∈ front, room.contains s.index = true ∧ ReflTransGen (Step next room) s x := by
  refine ⟨exists_walk_of_mem_reach, ?_⟩
  rintro ⟨s, hs, hroom, hwalk⟩
  induction hwalk with
  | refl => exact mem_reach_of_front hs hroom
  | tail _ hstep ih => exact mem_reach_of_step ih hstep

/-- Discovery finds what a walk through new nodes reaches. -/
theorem mem_discover_iff :
    x ∈ discover nodes next seen front ↔
      x ∈ seen ∨
        ∃ s ∈ front, (s ∈ nodes ∧ s ∉ seen) ∧
          ReflTransGen (fun a b => b ∈ next a ∧ b ∈ nodes ∧ b ∉ seen) s x := by
  have hstep : Step next (room nodes seen) = fun a b => b ∈ next a ∧ b ∈ nodes ∧ b ∉ seen := by
    funext a b
    rw [Step, contains_room]
  rw [discover, mem_append, mem_reach_iff, hstep]
  simp only [contains_room]

theorem nodup_enter (room : IndexSet) (xs : List (Id kind)) : (enter room xs).1.Nodup := by
  induction xs generalizing room with
  | nil => exact nodup_nil
  | cons x xs ih =>
    rw [enter]
    split
    · refine nodup_cons.mpr ⟨fun hx => ?_, ih _⟩
      have := (mem_enter.mp hx).2
      simp [IndexSet.contains_erase] at this
    · exact ih room

/-- No node is found twice. -/
theorem nodup_reach (next : Id kind → List (Id kind)) (room : IndexSet) (front : List (Id kind)) :
    (reach next room front).Nodup := by
  have hlayer := nodup_enter room front
  rw [reach]
  split
  · exact nodup_nil
  next x xs left heq =>
    have hlt : left.count < room.count := by
      have := @count_enter_lt kind room front (by simp [heq])
      rwa [heq] at this
    rw [heq] at hlayer
    refine nodup_append.mpr ⟨hlayer, nodup_reach next left _, ?_⟩
    rintro y hy _ hy' rfl
    have hleft := contains_of_mem_reach hy'
    rw [show left = (enter room front).2 by rw [heq], contains_enter, heq] at hleft
    exact hleft.2 hy
termination_by room.count

theorem nodup_discover (h : seen.Nodup) : (discover nodes next seen front).Nodup := by
  refine nodup_append.mpr ⟨h, nodup_reach _ _ _, ?_⟩
  rintro x hx _ hx' rfl
  exact ((contains_room nodes seen x).mp (contains_of_mem_reach hx')).2 hx

/-! ## Depth first -/

/-- How a depth-first search stands that began with the room `start`: every node that left the room is
finished or on the stack, and the neighbours of a node that are no longer to be tried have left the room. -/
structure Underway (next : Id kind → List (Id kind)) (start room : IndexSet) (done : List (Id kind))
    (stack : List (Id kind × List (Id kind))) : Prop where
  accounted : ∀ y : Id kind, start.contains y.index = true →
    y ∈ done ∨ y ∈ stack.map (·.1) ∨ room.contains y.index = true
  finished : ∀ x ∈ done, ∀ y ∈ next x, room.contains y.index = false
  tried : ∀ f ∈ stack, ∀ y ∈ next f.1, y ∈ f.2 ∨ room.contains y.index = false
  fresh : ∀ x : Id kind, x ∈ done ∨ x ∈ stack.map (·.1) → room.contains x.index = false
  nodup : (done ++ stack.map (·.1)).Nodup

namespace Underway

variable {start room : IndexSet}

/-- A node with no neighbours left to try is finished. -/
theorem finish (h : Underway next start room done ((x, []) :: stack)) :
    Underway next start room (x :: done) stack where
  accounted y hy := by
    have := h.accounted y hy
    simp only [map_cons, mem_cons] at this ⊢
    tauto
  finished z hz y hy := by
    rcases mem_cons.mp hz with rfl | hz
    · simpa using h.tried _ (.head _) y hy
    · exact h.finished z hz y hy
  tried f hf := h.tried f (.tail _ hf)
  fresh z hz := by
    refine h.fresh z ?_
    simp only [map_cons, mem_cons] at hz ⊢
    tauto
  nodup := nodup_middle.mp h.nodup

/-- A neighbour for which there is room goes on top of the stack. -/
theorem push (hy : room.contains y.index = true) (h : Underway next start room done ((x, y :: ys) :: stack)) :
    Underway next start (room.erase y.index) done ((y, next y) :: (x, ys) :: stack) where
  accounted z hz := by
    have := h.accounted z hz
    simp only [map_cons, mem_cons, IndexSet.contains_erase] at this ⊢
    by_cases hzy : z = y
    · exact .inr (.inl (.inl hzy))
    · have hne : y.index ≠ z.index := fun e => hzy (Id.index_inj.mp e).symm
      simp only [Bool.and_eq_true, Bool.not_eq_true', beq_eq_false_iff_ne]
      tauto
  finished z hz w hw := by
    rw [IndexSet.contains_erase, h.finished z hz w hw, Bool.false_and]
  tried f hf w hw := by
    rw [IndexSet.contains_erase, Bool.and_eq_false_iff]
    rcases mem_cons.mp hf with rfl | hf
    · exact .inl hw
    rcases mem_cons.mp hf with rfl | hf
    · rcases h.tried _ (.head _) w hw with hmem | hroom
      · rcases mem_cons.mp hmem with rfl | hmem
        · exact .inr (.inr (by simp))
        · exact .inl hmem
      · exact .inr (.inl hroom)
    · rcases h.tried f (.tail _ hf) w hw with hmem | hroom
      · exact .inl hmem
      · exact .inr (.inl hroom)
  fresh z hz := by
    rw [IndexSet.contains_erase, Bool.and_eq_false_iff]
    simp only [map_cons, mem_cons] at hz
    by_cases hzy : z = y
    · exact .inr (by simp [hzy])
    · refine .inl (h.fresh z ?_)
      simp only [map_cons, mem_cons]
      tauto
  nodup := by
    have hnew : y ∉ done ++ (x, y :: ys).1 :: stack.map (·.1) := by
      intro hmem
      have := h.fresh y (mem_append.mp hmem)
      rw [hy] at this
      exact Bool.noConfusion this
    exact nodup_middle.mpr (nodup_cons.mpr ⟨hnew, h.nodup⟩)

/-- A neighbour that was entered before is passed over. -/
theorem skip (hy : room.contains y.index = false) (h : Underway next start room done ((x, y :: ys) :: stack)) :
    Underway next start room done ((x, ys) :: stack) where
  accounted := h.accounted
  finished := h.finished
  tried f hf w hw := by
    rcases mem_cons.mp hf with rfl | hf
    · rcases h.tried _ (.head _) w hw with hmem | hroom
      · rcases mem_cons.mp hmem with rfl | hmem
        · exact .inr hy
        · exact .inl hmem
      · exact .inr hroom
    · exact h.tried f (.tail _ hf) w hw
  fresh := h.fresh
  nodup := h.nodup

/-- A search that is under way ends with nothing on the stack. -/
theorem depthFirst (h : Underway next start room done stack) :
    ∃ rest, Underway next start rest (Graph.depthFirst next room done stack) [] := by
  fun_induction Graph.depthFirst next room done stack with
  | case1 room done => exact ⟨room, h⟩
  | case2 room done x stack ih => exact ih h.finish
  | case3 room done x y ys stack hy ih => exact ih (h.push hy)
  | case4 room done x y ys stack hy ih => exact ih (h.skip (by simpa using hy))

end Underway

theorem mem_depthFirst_of_done {room : IndexSet} (hx : x ∈ done ∨ x ∈ stack.map (·.1)) :
    x ∈ depthFirst next room done stack := by
  fun_induction depthFirst next room done stack with
  | case1 room done => simpa using hx
  | case2 room done y stack ih =>
    refine ih ?_
    simp only [map_cons, mem_cons] at hx ⊢
    tauto
  | case3 room done y z zs stack hz ih =>
    refine ih ?_
    tauto
  | case4 room done y z zs stack hz ih => exact ih hx

/-- Whatever holds of the nodes on the stack and passes along edges holds of all nodes found. -/
theorem depthFirst_invariant {room : IndexSet} {P : Id kind → Prop}
    (hedge : ∀ a b, P a → b ∈ next a → room.contains b.index = true → P b) (hdone : ∀ x ∈ done, P x)
    (hstack : ∀ f ∈ stack, P f.1 ∧ ∀ y ∈ f.2, y ∈ next f.1) : ∀ x ∈ depthFirst next room done stack, P x := by
  fun_induction depthFirst next room done stack with
  | case1 room done => exact hdone
  | case2 room done x stack ih =>
    refine ih hedge ?_ fun f hf => hstack f (.tail _ hf)
    intro y hy
    rcases mem_cons.mp hy with rfl | hy
    · exact (hstack _ (.head _)).1
    · exact hdone y hy
  | case3 room done x y ys stack hy ih =>
    obtain ⟨hx, hys⟩ := hstack _ (.head _)
    have hPy : P y := hedge x y hx (hys y (.head _)) hy
    refine ih (fun a b ha hb hroom => hedge a b ha hb ?_) hdone ?_
    · rw [IndexSet.contains_erase, Bool.and_eq_true] at hroom
      exact hroom.1
    · intro f hf
      rcases mem_cons.mp hf with rfl | hf
      · exact ⟨hPy, fun _ h => h⟩
      rcases mem_cons.mp hf with rfl | hf
      · exact ⟨hx, fun z hz => hys z (.tail _ hz)⟩
      · exact hstack f (.tail _ hf)
  | case4 room done x y ys stack hy ih =>
    refine ih hedge hdone ?_
    intro f hf
    rcases mem_cons.mp hf with rfl | hf
    · obtain ⟨hx, hys⟩ := hstack _ (.head _)
      exact ⟨hx, fun z hz => hys z (.tail _ hz)⟩
    · exact hstack f (.tail _ hf)

/-- The search from a root starts under way. -/
theorem underway_root (nodes : List (Id kind)) (next : Id kind → List (Id kind)) (root : Id kind) :
    Underway next (room nodes [root]) (room nodes [root]) [] [(root, next root)] where
  accounted _ hy := .inr (.inr hy)
  finished _ hx := absurd hx not_mem_nil
  tried f hf y hy := by
    rw [mem_singleton] at hf
    subst hf
    exact .inl hy
  fresh x hx := by
    have hx : x = root := by simpa using hx
    rw [← Bool.not_eq_true, contains_room]
    simp [hx]
  nodup := by simp

/-- **The depth-first search is exact**: it lists the root and whatever a walk through the nodes reaches
from it. -/
theorem mem_postorder_iff :
    x ∈ postorder nodes next root ↔
      ReflTransGen (fun a b => b ∈ next a ∧ (b ∈ nodes ∨ b = root)) root x := by
  rw [postorder]
  constructor
  · refine depthFirst_invariant ?_ (by simp) ?_ x
    · intro a b ha hb hroom
      exact ha.tail ⟨hb, .inl ((contains_room _ _ _).mp hroom).1⟩
    · intro f hf
      rw [mem_singleton] at hf
      subst hf
      exact ⟨.refl, fun _ h => h⟩
  · intro hwalk
    have hroot : root ∈ depthFirst next (room nodes [root]) [] [(root, next root)] :=
      mem_depthFirst_of_done (.inr (by simp))
    obtain ⟨rest, hend⟩ := (underway_root nodes next root).depthFirst
    induction hwalk with
    | refl => exact hroot
    | @tail a b _ hstep ih =>
      obtain ⟨hb, hnode⟩ := hstep
      by_cases hbr : b = root
      · rw [hbr]
        exact hroot
      · have hstart : (room nodes [root]).contains b.index = true := by
          rw [contains_room]
          exact ⟨hnode.resolve_right hbr, by simpa using hbr⟩
        have hgone : rest.contains b.index = false := hend.finished a ih b hb
        rcases hend.accounted b hstart with h | h | h
        · exact h
        · simp at h
        · rw [hgone] at h
          exact Bool.noConfusion h

theorem nodup_postorder (nodes : List (Id kind)) (next : Id kind → List (Id kind)) (root : Id kind) :
    (postorder nodes next root).Nodup := by
  obtain ⟨rest, hend⟩ := (underway_root nodes next root).depthFirst
  simpa [postorder] using hend.nodup

/-! ## The order of the search -/

/-- How a depth-first search from a root stands: every node on the stack was entered from the one below it, and
every finished node from one that is on the stack or stands in front of it. -/
structure Led (next : Id kind → List (Id kind)) (root : Id kind) (done : List (Id kind))
    (stack : List (Id kind × List (Id kind))) : Prop where
  bottom : (stack.map (·.1)).getLast?.or done.head? = some root
  linked : (stack.map (·.1)).IsChain fun y x => y ∈ next x
  rest : ∀ f ∈ stack, ∀ y ∈ f.2, y ∈ next f.1
  before : ∀ {l r z}, done = l ++ z :: r → z = root ∨ ∃ p, z ∈ next p ∧ (p ∈ l ∨ p ∈ stack.map (·.1))

namespace Led

variable {room : IndexSet}

theorem finish (h : Led next root done ((x, []) :: stack)) : Led next root (x :: done) stack where
  bottom := by
    cases stack with
    | nil => simpa using h.bottom
    | cons f stack =>
      have hbottom : (f.1 :: stack.map (·.1)).getLast? = some root := by
        simpa [getLast?_cons_cons] using h.bottom
      rw [map_cons, hbottom]
      rfl
  linked := h.linked.tail
  rest f hf := h.rest f (.tail _ hf)
  before {l r z} heq := by
    cases l with
    | nil =>
      cases heq
      cases stack with
      | nil => exact .inl (by simpa using h.bottom)
      | cons f stack => exact .inr ⟨f.1, (isChain_cons_cons.mp h.linked).1, .inr (.head _)⟩
    | cons w l =>
      obtain ⟨rfl, hdone⟩ := cons.inj heq
      rcases h.before hdone with hz | ⟨p, hp, hin | hin⟩
      · exact .inl hz
      · exact .inr ⟨p, hp, .inl (.tail _ hin)⟩
      · rcases mem_cons.mp hin with rfl | hin
        · exact .inr ⟨_, hp, .inl (.head _)⟩
        · exact .inr ⟨p, hp, .inr hin⟩

theorem push (h : Led next root done ((x, y :: ys) :: stack)) : Led next root done ((y, next y) :: (x, ys) :: stack) where
  bottom := by simpa [getLast?_cons_cons] using h.bottom
  linked := isChain_cons_cons.mpr ⟨h.rest _ (.head _) y (.head _), h.linked⟩
  rest f hf z hz := by
    rcases mem_cons.mp hf with rfl | hf
    · exact hz
    rcases mem_cons.mp hf with rfl | hf
    · exact h.rest _ (.head _) z (.tail _ hz)
    · exact h.rest f (.tail _ hf) z hz
  before heq := (h.before heq).imp_right fun ⟨p, hp, hin⟩ => ⟨p, hp, hin.imp_right (.tail _)⟩

theorem skip (h : Led next root done ((x, y :: ys) :: stack)) : Led next root done ((x, ys) :: stack) where
  bottom := h.bottom
  linked := h.linked
  rest f hf z hz := by
    rcases mem_cons.mp hf with rfl | hf
    · exact h.rest _ (.head _) z (.tail _ hz)
    · exact h.rest f (.tail _ hf) z hz
  before := h.before

theorem depthFirst (h : Led next root done stack) : Led next root (Graph.depthFirst next room done stack) [] := by
  fun_induction Graph.depthFirst next room done stack with
  | case1 room done => exact h
  | case2 room done x stack ih => exact ih h.finish
  | case3 room done x y ys stack hy ih => exact ih h.push
  | case4 room done x y ys stack hy ih => exact ih h.skip

end Led

theorem led_root (next : Id kind → List (Id kind)) (root : Id kind) : Led next root [] [(root, next root)] := by
  refine ⟨rfl, .singleton _, ?_, fun heq => absurd heq (by simp)⟩
  intro f hf y hy
  obtain rfl := mem_singleton.mp hf
  exact hy

theorem led_postorder (nodes : List (Id kind)) (next : Id kind → List (Id kind)) (root : Id kind) :
    Led next root (postorder nodes next root) [] := (led_root next root).depthFirst

theorem head?_postorder (nodes : List (Id kind)) (next : Id kind → List (Id kind)) (root : Id kind) :
    (postorder nodes next root).head? = some root := by
  simpa using (led_postorder nodes next root).bottom

/-- **Every node but the root stands behind one of which it is a neighbour.** -/
theorem exists_before_of_postorder (hx : x ∈ postorder nodes next root) (hne : x ≠ root) :
    ∃ p ∈ postorder nodes next root, x ∈ next p ∧ (postorder nodes next root).idxOf p < (postorder nodes next root).idxOf x := by
  obtain ⟨l, r, heq⟩ := mem_iff_append.mp hx
  obtain ⟨p, hp, hl⟩ := ((led_postorder nodes next root).before heq).resolve_left hne
  have hl : p ∈ l := by simpa using hl
  have hxl : x ∉ l := by
    have hnodup := nodup_postorder nodes next root
    rw [heq, nodup_middle, nodup_cons] at hnodup
    exact fun h => hnodup.1 (mem_append_left _ h)
  rw [heq]
  refine ⟨p, mem_append_left _ hl, hp, ?_⟩
  rw [idxOf_append_of_mem hl, idxOf_append_of_notMem hxl]
  have := idxOf_lt_length_of_mem hl
  omega

end Graph

end Spmd
