import Mathlib.Data.Finset.Max
import Spmd.Eligibility
import Spmd.Proofs.FlowGraph.PostDominance
import Spmd.Proofs.Graph.Trail

/-!
# Reducible control flow

Control flow is reducible if every circle that control can go round in has a block that dominates all of it.

* **`Flow.reducible_of_rank`** — blocks are numbered, and a jump that does not go up leads to a dominator of its
  source. Then the block of a circle with the least number dominates the circle.
* **`Flow.dominator_of_trail`** — a jump to a block of a trail closes a circle, which shares no block but one with the
  rest of the trail.
* **`Kernel.irreducibleEdge?_eq_none_iff`** — so the jumps against the order of a depth-first search decide whether
  control flow is reducible, whichever way the search goes.
-/

namespace Spmd

open List

namespace Flow

variable {φ : Flow} {a b c d : BlockId} {rest trail : List BlockId}

/-- Control can go round in a circle: each block jumps to the next, and the last to the first. -/
structure Circuit (φ : Flow) (b : BlockId) (rest : List BlockId) : Prop where
  reached : φ.Reached b
  closed : (b :: rest ++ [b]).IsChain φ.next

/-- Every circle has a block that dominates all of it. A circle may come to a block more than once. -/
def Reducible (φ : Flow) : Prop := ∀ b rest, φ.Circuit b rest → ∃ d ∈ b :: rest, ∀ c ∈ b :: rest, φ.Dominator d c

theorem Circuit.reached_of_mem (h : φ.Circuit b rest) : ∀ c ∈ b :: rest, φ.Reached c := by
  have hchain : ∀ (l : List BlockId) (x : BlockId), (x :: l).IsChain φ.next → φ.Reached x → ∀ c ∈ x :: l, φ.Reached c := by
    intro l
    induction l with
    | nil =>
      intro x _ hx c hc
      exact mem_singleton.mp hc ▸ hx
    | cons y l ih =>
      intro x hl hx c hc
      obtain ⟨hxy, hl⟩ := isChain_cons_cons.mp hl
      rcases mem_cons.mp hc with rfl | hc
      · exact hx
      · exact ih y hl (hx.step hxy) c hc
  intro c hc
  exact hchain (rest ++ [b]) b h.closed h.reached c (mem_append_left [b] hc)

/-- Dominance goes back along a walk, past the places where the walk comes to the dominator itself. -/
theorem dominates_back {l : List BlockId} {y : BlockId} (hl : (l ++ [y]).IsChain φ.next)
    (hback : ∀ x ∈ l, φ.next x d → Dominates φ.next φ.root d x) (hy : Dominates φ.next φ.root d y) :
    ∀ x ∈ l ++ [y], Dominates φ.next φ.root d x := by
  induction l with
  | nil =>
    intro x hx
    exact mem_singleton.mp hx ▸ hy
  | cons z l ih =>
    have htail := ih hl.tail fun x hx => hback x (.tail _ hx)
    intro x hx
    rcases mem_cons.mp hx with rfl | hx
    · -- the block behind `x` is dominated by `d`, or it is `d`
      obtain ⟨v, l', hv⟩ := exists_cons_of_ne_nil (l := l ++ [y]) (by simp)
      have hxv : φ.next x v := by
        rw [cons_append, hv] at hl
        exact (isChain_cons_cons.mp hl).1
      by_cases hdv : d = v
      · exact hback x (.head _) (hdv ▸ hxv)
      · exact (htail v (hv ▸ (.head _))).of_step hdv hxv
    · exact htail x hx

/-- **If jumps that do not go up lead to dominators, control flow is reducible.** -/
theorem reducible_of_rank (rank : BlockId → Nat)
    (h : ∀ a b, φ.Reached a → φ.next a b → rank b ≤ rank a → Dominates φ.next φ.root b a) : φ.Reducible := by
  intro b rest hcircuit
  -- the block of the circle with the least number
  obtain ⟨d, hd, hleast⟩ := (b :: rest).toFinset.exists_min_image rank ⟨b, by simp⟩
  rw [mem_toFinset] at hd
  have hback : ∀ x ∈ b :: rest, φ.next x d → Dominates φ.next φ.root d x := fun x hx hxd =>
    h x d (hcircuit.reached_of_mem x hx) hxd (hleast x (mem_toFinset.mpr hx))
  -- it dominates what comes before it, and so the block where the circle starts
  have hb : Dominates φ.next φ.root d b := by
    obtain ⟨pre, post, heq⟩ := append_of_mem hd
    have hwalk : (pre ++ [d]).IsChain φ.next := by
      have hclosed := hcircuit.closed
      rw [heq, show pre ++ d :: post ++ [b] = (pre ++ [d]) ++ (post ++ [b]) by simp] at hclosed
      exact hclosed.left_of_append
    have hpre := dominates_back hwalk (fun x hx => hback x (heq ▸ mem_append_left _ hx)) (.refl _ _ d)
    refine hpre b ?_
    cases pre with
    | nil => exact (cons.inj heq).1 ▸ .head _
    | cons z pre => exact (cons.inj heq).1 ▸ (.head _)
  -- it dominates the start once more at the end of the circle, and so all of it
  refine ⟨d, hd, fun c hc => ?_⟩
  exact dominator_iff.mpr (dominates_back hcircuit.closed hback hb c (mem_append_left [b] hc))

theorem Path.reached {path : List BlockId} (h : φ.Path b path) : φ.Reached b := by
  induction h with
  | root => exact .refl
  | step _ hstep ih => exact ih.step hstep

/-- The blocks of a trail are a path from the root. -/
theorem path_of_trail (hlinked : (b :: rest).IsChain fun y x => φ.next x y) (hlast : (b :: rest).getLast? = some φ.root) :
    φ.Path b (b :: rest).reverse := by
  induction rest generalizing b with
  | nil =>
    obtain rfl : b = φ.root := by simpa using hlast
    exact .root
  | cons c rest ih =>
    obtain ⟨hcb, hrest⟩ := isChain_cons_cons.mp hlinked
    rw [reverse_cons]
    exact (ih hrest (by simpa [getLast?_cons_cons] using hlast)).step hcb

/-- A jump from the end of a trail to a block of it closes a circle: the trail up to that block, walked the other way
round. -/
theorem circuit_of_trail {l r : List BlockId} (hhead : (l ++ b :: r).head? = some a)
    (hlast : (l ++ b :: r).getLast? = some φ.root) (hlinked : (l ++ b :: r).IsChain fun y x => φ.next x y)
    (hab : φ.next a b) : φ.Circuit b l.reverse ∧ a ∈ b :: l.reverse := by
  have hend : (b :: l.reverse).getLast? = some a := by
    rw [show b :: l.reverse = (l ++ [b]).reverse by simp, getLast?_reverse]
    cases l with
    | nil => exact hhead
    | cons z l => exact hhead
  have hpath : φ.Path b (b :: r).reverse := by
    refine path_of_trail hlinked.right_of_append ?_
    rwa [getLast?_append_cons] at hlast
  have hwalk : (b :: l.reverse).IsChain φ.next := by
    rw [show l ++ b :: r = (l ++ [b]) ++ r by simp] at hlinked
    have := isChain_reverse.mpr hlinked.left_of_append
    simpa using this
  refine ⟨⟨hpath.reached, isChain_append.mpr ⟨hwalk, .singleton _, ?_⟩⟩, mem_of_getLast? hend⟩
  intro x hx y hy
  obtain rfl := Option.mem_unique hend hx
  cases hy
  exact hab

/-- **A jump from the end of a trail to a block of it leads to a dominator**, if all circles without repetition have a
block that dominates them. -/
theorem dominator_of_trail
    (h : ∀ b rest, φ.Circuit b rest → (b :: rest).Nodup → ∃ d ∈ b :: rest, ∀ c ∈ b :: rest, φ.Dominator d c)
    (hhead : trail.head? = some a) (hlast : trail.getLast? = some φ.root) (hlinked : trail.IsChain fun y x => φ.next x y)
    (hnodup : trail.Nodup) (hmem : b ∈ trail) (hab : φ.next a b) : φ.Dominator b a := by
  obtain ⟨l, r, rfl⟩ := append_of_mem hmem
  obtain ⟨hleft, hright, hdisjoint⟩ := nodup_append.mp hnodup
  -- the trail from `b` on is a path to `b`
  have hpath : φ.Path b (b :: r).reverse := by
    refine path_of_trail hlinked.right_of_append ?_
    rwa [getLast?_append_cons] at hlast
  obtain ⟨hcircuit, ha⟩ := circuit_of_trail hhead hlast hlinked hab
  have hsimple : (b :: l.reverse).Nodup := by
    refine nodup_cons.mpr ⟨fun hb => ?_, nodup_reverse.mpr hleft⟩
    exact hdisjoint b (mem_reverse.mp hb) b (.head _) rfl
  obtain ⟨d, hd, hdom⟩ := h b l.reverse hcircuit hsimple
  -- the dominator of the circle is on the path to `b`, which meets the circle in `b` alone
  have hdpath : d ∈ b :: r := mem_reverse.mp (hdom b (.head _) _ hpath)
  have hdb : d = b := by
    rcases mem_cons.mp hd with rfl | hdl
    · rfl
    · exact absurd rfl (hdisjoint d (mem_reverse.mp hdl) d hdpath)
  exact hdb ▸ hdom a ha

end Flow

/-! ## Jumps against the order -/

namespace FlowGraph

variable {g : FlowGraph} {a b : BlockId}

/-- The same graph with its blocks in another order. -/
def reordered (g : FlowGraph) (order : List BlockId) : FlowGraph := { g with order }

theorem mem_retreatingEdges_iff (hnodup : g.order.Nodup) :
    (a, b) ∈ g.retreatingEdges ↔
      a ∈ g.order ∧ b ∈ g.succs a ∧ b ∈ g.order ∧ g.order.idxOf b ≤ g.order.idxOf a := by
  have hidx : ∀ {x : BlockId}, x ∈ g.order → g.order.idxOf? x = some (g.order.idxOf x) := fun hx =>
    (idxOf?_eq_some_iff hnodup).mpr (getElem?_idxOf hx)
  unfold retreatingEdges position?
  rw [mem_flatMap]
  constructor
  · rintro ⟨⟨x, i⟩, hxi, hmem⟩
    obtain ⟨s, hs, heq⟩ := mem_map.mp hmem
    obtain ⟨rfl, rfl⟩ := Prod.mk.inj heq
    obtain ⟨hs, hle⟩ := mem_filter.mp hs
    obtain ⟨j, hj, hji⟩ := (Option.any_eq_true _ _).mp hle
    have hx := mem_zipIdx_iff_getElem?.mp hxi
    have hxo := mem_of_getElem? hx
    have hso := mem_of_getElem? ((idxOf?_eq_some_iff hnodup).mp hj)
    have hi : g.order.idxOf x = i := Option.mem_unique (hidx hxo) ((idxOf?_eq_some_iff hnodup).mpr hx)
    have hj : g.order.idxOf s = j := Option.mem_unique (hidx hso) hj
    exact ⟨hxo, hs, hso, by rw [hi, hj]; exact of_decide_eq_true hji⟩
  · rintro ⟨ha, hab, hb, hle⟩
    refine ⟨(a, g.order.idxOf a), mem_zipIdx_iff_getElem?.mpr (getElem?_idxOf ha), ?_⟩
    refine mem_map.mpr ⟨b, mem_filter.mpr ⟨hab, ?_⟩, rfl⟩
    rw [hidx hb]
    exact decide_eq_true hle

end FlowGraph

namespace Kernel

variable {k : Kernel} {g : FlowGraph} {entry a b : BlockId} {next : BlockId → List BlockId}

section

variable (hg : k.flowGraph = .ok g) (hentry : k.entry? = some entry) (hnext : ∀ a b, b ∈ next a ↔ b ∈ g.succs a)
include hg hentry hnext

/-- Every search that follows the jumps finds the same blocks. -/
theorem mem_search_iff : b ∈ Graph.postorder k.blocks.ids next entry ↔ b ∈ g.order := by
  rw [order_eq_postorder hg hentry, Graph.mem_postorder_iff, Graph.mem_postorder_iff]
  simp only [hnext]

theorem orderly_search : DominatorTree.Orderly (Graph.postorder k.blocks.ids next entry) g.preds entry := by
  refine ⟨Graph.head?_postorder _ _ _, Graph.nodup_postorder _ _ _, fun {b} hb hne => ?_⟩
  obtain ⟨p, hp, hpb, hlt⟩ := Graph.exists_before_of_postorder hb hne
  have hmem := fun {x} => mem_search_iff (b := x) hg hentry hnext
  exact ⟨p, (mem_preds_iff hg (hmem.mp hb)).mpr ⟨hmem.mp hp, (hnext p b).mp hpb⟩, hp, hlt⟩

/-- The dominator tree does not depend on the search. -/
theorem dominates_search (hb : b ∈ g.order) :
    (g.reordered (Graph.postorder k.blocks.ids next entry)).dominators.dominates a b = true ↔
      Dominates (k.flow entry).next entry a b := by
  have hedge : DominatorTree.Edge (Graph.postorder k.blocks.ids next entry) g.preds = DominatorTree.Edge g.order g.preds := by
    funext x y
    simp only [DominatorTree.Edge, mem_search_iff hg hentry hnext]
  rw [DominatorTree.dominates, contains_iff_mem, FlowGraph.dominators]
  show a ∈ (DominatorTree.ofOrder (Graph.postorder k.blocks.ids next entry) g.preds).ancestors b ↔ _
  rw [DominatorTree.mem_ancestors_ofOrder (orderly_search hg hentry hnext) ((mem_search_iff hg hentry hnext).mpr hb),
    hedge, Dominates, avoiding_edge_iff hg hentry, Dominates]

/-- No edge is reported exactly if every jump against the order leads to a dominator of its source. -/
theorem irreducibleEdge?_search :
    (g.reordered (Graph.postorder k.blocks.ids next entry)).irreducibleEdge?
        (g.reordered (Graph.postorder k.blocks.ids next entry)).dominators = none ↔
      ∀ a b, a ∈ g.order → b ∈ g.succs a →
        (Graph.postorder k.blocks.ids next entry).idxOf b ≤ (Graph.postorder k.blocks.ids next entry).idxOf a →
        Dominates (k.flow entry).next entry b a := by
  have hmem := fun {x} => mem_search_iff (b := x) hg hentry hnext
  have hedges := fun {x y : BlockId} => FlowGraph.mem_retreatingEdges_iff (a := x) (b := y)
    (g := g.reordered (Graph.postorder k.blocks.ids next entry)) (Graph.nodup_postorder _ _ _)
  rw [FlowGraph.irreducibleEdge?, find?_eq_none]
  constructor
  · intro hnone a b ha hab hle
    have hedge := hedges.mpr ⟨hmem.mpr ha, hab, hmem.mpr (succs_mem_order hg ha hab), hle⟩
    have hdom := hnone (a, b) hedge
    exact (dominates_search hg hentry hnext ha).mp (by simpa using hdom)
  · rintro hall ⟨a, b⟩ hedge
    obtain ⟨ha, hab, _, hle⟩ := hedges.mp hedge
    have hdom := (dominates_search hg hentry hnext (hmem.mp ha)).mpr (hall a b (hmem.mp ha) hab hle)
    simpa using hdom

/-- If no edge is reported, control flow is reducible. -/
theorem reducible_of_irreducibleEdge? (h : (g.reordered (Graph.postorder k.blocks.ids next entry)).irreducibleEdge?
      (g.reordered (Graph.postorder k.blocks.ids next entry)).dominators = none) : (k.flow entry).Reducible := by
  refine Flow.reducible_of_rank (Graph.postorder k.blocks.ids next entry).idxOf fun a b ha hab hle => ?_
  have hedge : b ∈ g.succs a := (mem_succs_iff hg).mpr hab
  exact (irreducibleEdge?_search hg hentry hnext).mp h a b ((mem_order_iff_reached hg hentry).mpr ha) hedge hle

/-- If all circles without repetition are dominated by a block of theirs, no edge is reported. -/
theorem irreducibleEdge?_of_circuits (h : ∀ b rest, (k.flow entry).Circuit b rest → (b :: rest).Nodup →
      ∃ d ∈ b :: rest, ∀ c ∈ b :: rest, (k.flow entry).Dominator d c) :
    (g.reordered (Graph.postorder k.blocks.ids next entry)).irreducibleEdge?
      (g.reordered (Graph.postorder k.blocks.ids next entry)).dominators = none := by
  rw [irreducibleEdge?_search hg hentry hnext]
  intro a b ha hab hle
  have hmem := fun {x} => mem_search_iff (b := x) hg hentry hnext
  have hjump : ∀ {x y}, y ∈ next x ↔ (k.flow entry).next x y := fun {x y} => (hnext x y).trans (mem_succs_iff hg)
  obtain ⟨trail, htrail, hagainst⟩ := Graph.exists_trail_of_postorder (hmem.mpr ha)
  have hb : b ∈ trail := hagainst b ((hnext a b).mpr hab) (hmem.mpr (succs_mem_order hg ha hab)) hle
  refine Flow.dominator_iff.mp (Flow.dominator_of_trail h htrail.head htrail.last ?_ htrail.nodup hb ?_)
  · exact htrail.linked.imp fun _ _ hyx => hjump.mp hyx
  · exact (mem_succs_iff hg).mp hab

/-- **Whichever way the search goes, it reports an edge exactly if control flow is not reducible.** -/
theorem irreducibleEdge?_eq_none_iff :
    (g.reordered (Graph.postorder k.blocks.ids next entry)).irreducibleEdge?
        (g.reordered (Graph.postorder k.blocks.ids next entry)).dominators = none ↔ (k.flow entry).Reducible :=
  ⟨reducible_of_irreducibleEdge? hg hentry hnext,
    fun h => irreducibleEdge?_of_circuits hg hentry hnext fun b rest hcircuit _ => h b rest hcircuit⟩

end

/-- The flow graph's own order is that of one such search. -/
theorem irreducibleEdge?_iff (hg : k.flowGraph = .ok g) (hentry : k.entry? = some entry) :
    g.irreducibleEdge? g.dominators = none ↔ (k.flow entry).Reducible := by
  have hsame : g.reordered (Graph.postorder k.blocks.ids g.succs entry) = g := by
    rw [← order_eq_postorder hg hentry]
    rfl
  have h := irreducibleEdge?_eq_none_iff hg hentry fun a b => Iff.refl (b ∈ g.succs a)
  rwa [hsame] at h

end Kernel

end Spmd
