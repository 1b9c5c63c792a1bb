import Spmd.FlowGraph.Dominance
import Spmd.Proofs.FlowGraph.Reachable
import Spmd.Proofs.Graph.Ascent

/-!
# The dominator tree of a flow graph

A flow is a root with the jumps between blocks, and `Flow.Above` is dominance among the blocks it reaches.

* **`DominatorTree.mem_ancestors_ofOrder`** — a tree that is built from an orderly order lists above every node its
  dominators. The order of a depth-first search is orderly.
* **`Kernel.dominates_iff`** — the dominator tree of a flow graph decides dominance.
* **`Kernel.join_of_immediate?`** — the join of a block lies on all its ways to an exit.
-/

namespace Spmd

open List FlowGraph
open Relation (ReflTransGen)
open Option (bind_eq_some_iff mem_unique some)

variable {a b join : BlockId} {i : Nat} {g : FlowGraph}

/-! ## Flows -/

/-- Jumps between blocks, from a block where control starts. -/
structure Flow where
  root : BlockId
  next : BlockId → BlockId → Prop

namespace Flow

variable {φ : Flow} {c : BlockId}

def Reached (φ : Flow) (b : BlockId) : Prop := ReflTransGen φ.next φ.root b

/-- A block that control reaches, and that lies on every way to another. -/
def Above (φ : Flow) (a b : BlockId) : Prop := φ.Reached a ∧ Dominates φ.next φ.root a b

theorem Reached.step (h : φ.Reached a) (hab : φ.next a b) : φ.Reached b := ReflTransGen.tail h hab

namespace Above

theorem refl (h : φ.Reached b) : φ.Above b b := ⟨h, .refl _ _ _⟩

theorem trans (hab : φ.Above a b) (hbc : φ.Above b c) : φ.Above a c := ⟨hab.1, hab.2.trans hbc.2⟩

theorem antisymm (hab : φ.Above a b) (hba : φ.Above b a) : a = b := hab.2.antisymm hba.2 hba.1

theorem of_step (h : φ.Above a c) (hne : a ≠ c) (hb : φ.next b c) : φ.Above a b := ⟨h.1, h.2.of_step hne hb⟩

end Above

end Flow

/-- The jumps of a kernel. -/
def Kernel.flow (k : Kernel) (entry : BlockId) : Flow := ⟨entry, fun a b => a ∈ k.layout ∧ b ∈ k.successors a⟩

/-! ## Dominator trees -/

theorem idxOf?_eq_some_iff {l : List BlockId} (hl : l.Nodup) : l.idxOf? b = some i ↔ l[i]? = some b := by
  induction l generalizing i with
  | nil => simp
  | cons a l ih =>
    obtain ⟨ha, hl⟩ := nodup_cons.mp hl
    rw [idxOf?_cons]
    by_cases hab : a = b
    · subst hab
      cases i with
      | zero => simp
      | succ i => simpa using fun h => ha (mem_of_getElem? h)
    · cases i with
      | zero => simp [hab]
      | succ i => simp [hab, ih hl]

namespace DominatorTree

variable {t : DominatorTree} {order : List BlockId} {preds : BlockId → List BlockId} {root : BlockId} {j : Nat}

/-! ### Going up -/

theorem immediate?_eq_some (ht : t.nodes.Nodup) (hb : t.nodes[i]? = some b) :
    t.immediate? b = some a ↔ ∃ p, t.ascent.up? i = some p ∧ t.nodes[p]? = some a := by
  unfold immediate?
  rw [(idxOf?_eq_some_iff ht).mpr hb]
  show ((t.ascent.up? i).bind fun p => t.nodes[p]?) = some a ↔ _
  exact bind_eq_some_iff

theorem mem_of_immediate? (h : t.immediate? b = some a) : a ∈ t.nodes ∧ b ∈ t.nodes := by
  obtain ⟨i, hi, h⟩ := bind_eq_some_iff.mp h
  obtain ⟨p, _, ha⟩ := bind_eq_some_iff.mp h
  exact ⟨mem_of_getElem? ha, isSome_idxOf?.mp (Option.isSome_of_eq_some hi)⟩

section

variable (ht : t.nodes.Nodup)
include ht

theorem mem_ancestors (hb : t.nodes[i]? = some b) :
    a ∈ t.ancestors b ↔ ∃ p ∈ t.ascent.chain i, t.nodes[p]? = some a := by
  unfold ancestors
  rw [(idxOf?_eq_some_iff ht).mpr hb]
  exact mem_filterMap

/-- The nodes above a node are its closest strict dominator and the nodes above that one. -/
theorem ancestors_of_immediate? (h : t.immediate? b = some a) : t.ancestors b = b :: t.ancestors a := by
  obtain ⟨ha, hb⟩ := mem_of_immediate? h
  obtain ⟨i, hi⟩ := mem_iff_getElem?.mp hb
  obtain ⟨p, hp, hpa⟩ := (immediate?_eq_some ht hi).mp h
  unfold ancestors
  rw [(idxOf?_eq_some_iff ht).mpr hi, (idxOf?_eq_some_iff ht).mpr hpa]
  show (t.ascent.chain i).filterMap (t.nodes[·]?) = _
  rw [Ascent.chain]
  split
  next r hr =>
    obtain rfl := mem_unique hp hr
    rw [filterMap_cons_some hi]
  next hr =>
    rw [hp] at hr
    cases hr

theorem ancestors_of_immediate?_none (h : t.immediate? b = none) : t.ancestors b = [b] := by
  unfold ancestors
  split
  next i hi =>
    have hb := (idxOf?_eq_some_iff ht).mp hi
    -- an earlier position has a node too, so nothing is above `b`
    have hup : t.ascent.up? i = none := by
      cases hp : t.ascent.up? i with
      | none => rfl
      | some p =>
        have hlt : p < t.nodes.length := Nat.lt_trans (Ascent.up?_lt hp) (List.getElem?_eq_some_iff.mp hb).1
        have := (immediate?_eq_some ht hb).mpr ⟨p, hp, getElem?_eq_getElem hlt⟩
        rw [h] at this
        cases this
    rw [Ascent.chain]
    split
    next p hp =>
      rw [hup] at hp
      cases hp
    · simp [hb]
  · rfl

theorem self_mem_ancestors (b : BlockId) : b ∈ t.ancestors b := by
  cases h : t.immediate? b with
  | none => simp [ancestors_of_immediate?_none ht h]
  | some a => simp [ancestors_of_immediate? ht h]

/-- The depth that is noted for a node is the length of the chain above it. -/
theorem depth_eq (hb : b ∈ t.nodes) : t.depth b + 1 = (t.ancestors b).length := by
  have hnoted : ∀ pre post, t.nodes = pre ++ post → ∀ b,
      (b ∈ pre → (pre.foldl t.deepen (.replicate 0 0)).get b + 1 = (t.ancestors b).length) ∧
        (b ∉ pre → (pre.foldl t.deepen (.replicate 0 0)).get b = 0) := by
    intro pre
    induction pre using reverseRecOn with
    | nil => exact fun _ _ b => ⟨fun hb => absurd hb not_mem_nil, fun _ => rfl⟩
    | append_singleton pre c ih =>
      intro post heq b
      rw [append_assoc] at heq
      have ih := ih _ heq
      have hnew : c ∉ pre := fun hc => (nodup_append.mp (heq ▸ ht)).2.2 c hc c (.head _) rfl
      rw [foldl_append, foldl_cons, foldl_nil, deepen, mem_append, mem_singleton]
      cases himm : t.immediate? c with
      | none =>
        refine ⟨?_, fun hb => (ih b).2 fun hmem => hb (.inl hmem)⟩
        rintro (hb | rfl)
        · exact (ih b).1 hb
        · rw [(ih b).2 hnew, ancestors_of_immediate?_none ht himm]
          rfl
      | some a =>
        -- the node above stands earlier, so its depth has been noted
        have ha : a ∈ pre := by
          have hc : t.nodes[pre.length]? = some c := by simp [heq]
          obtain ⟨p, hp, hpa⟩ := (immediate?_eq_some ht hc).mp himm
          rw [heq, getElem?_append_left (Ascent.up?_lt hp)] at hpa
          exact mem_of_getElem? hpa
        rw [SideTable.get_set]
        by_cases hbc : b = c
        · rw [if_pos hbc, hbc, ancestors_of_immediate? ht himm, (ih a).1 ha]
          exact ⟨fun _ => rfl, fun h => absurd (.inr rfl) h⟩
        · rw [if_neg hbc]
          exact ⟨fun h => (ih b).1 (h.resolve_right hbc), fun h => (ih b).2 fun hmem => h (.inl hmem)⟩
  exact (hnoted t.nodes [] (append_nil _).symm b).1 hb

/-- No node is above another twice. -/
theorem nodup_ancestors (b : BlockId) : (t.ancestors b).Nodup := by
  have hchain : ∀ i, (t.ascent.chain i).Nodup := by
    intro i
    fun_induction Ascent.chain t.ascent i with
    | case1 i p hp ih =>
      have hlt := Ascent.up?_lt hp
      exact nodup_cons.mpr ⟨fun h => absurd (Ascent.le_of_mem_chain h) (by omega), ih⟩
    | case2 i hp => exact nodup_singleton i
  unfold ancestors
  split
  · refine (hchain _).filterMap fun p q a hp hq => ?_
    exact mem_unique ((idxOf?_eq_some_iff ht).mpr hp) ((idxOf?_eq_some_iff ht).mpr hq)
  · exact nodup_singleton b

end

/-! ### Trees of orders -/

/-- A predecessor in an order. -/
def Edge (order : List BlockId) (preds : BlockId → List BlockId) (a b : BlockId) : Prop :=
  a ∈ order ∧ b ∈ order ∧ a ∈ preds b

/-- An order without repetition that starts with the root, and in which every other node is behind one of its
predecessors. -/
structure Orderly (order : List BlockId) (preds : BlockId → List BlockId) (root : BlockId) : Prop where
  head : order.head? = some root
  nodup : order.Nodup
  front : ∀ {b}, b ∈ order → b ≠ root → ∃ p ∈ preds b, p ∈ order ∧ order.idxOf p < order.idxOf b

theorem mem_positions (hnodup : order.Nodup) :
    j ∈ positions order preds i ↔ ∃ a b, order[j]? = some a ∧ order[i]? = some b ∧ a ∈ preds b := by
  unfold positions
  constructor
  · intro h
    split at h
    next b hb =>
      obtain ⟨a, ha, hj⟩ := mem_filterMap.mp h
      exact ⟨a, b, (idxOf?_eq_some_iff hnodup).mp hj, hb, ha⟩
    · exact absurd h not_mem_nil
  · rintro ⟨a, b, ha, hb, hab⟩
    rw [hb]
    exact mem_filterMap.mpr ⟨a, hab, (idxOf?_eq_some_iff hnodup).mpr ha⟩

/-- The tree of an order is what the sweeps come to, if they come to an end. -/
theorem ofOrder_of_settle {r : Ascent} (h : (Ascent.start order.length).settle (positions order preds) = some r) :
    ofOrder order preds = ⟨order, r⟩ := by
  rw [ofOrder, h]
  rfl

namespace Orderly

variable (h : Orderly order preds root)

include h in
theorem getElem?_zero : order[0]? = some root := by
  rw [← head?_eq_getElem?, h.head]

include h in
theorem idxOf_root : order.idxOf root = 0 := by
  obtain ⟨rest, rfl⟩ := head?_eq_some_iff.mp h.head
  exact idxOf_cons_self

include h in
theorem mem_root : root ∈ order := mem_of_head? h.head

include h in
theorem row : Ascent.Row (positions order preds) order.length where
  inside hp := by
    obtain ⟨a, b, ha, hb, _⟩ := (mem_positions h.nodup).mp hp
    exact ⟨(List.getElem?_eq_some_iff.mp hb).1, (List.getElem?_eq_some_iff.mp ha).1⟩
  front {i} hi hn := by
    have hb := getElem?_eq_getElem hn
    have hne : order[i] ≠ root := by
      intro heq
      have := (idxOf?_eq_some_iff h.nodup).mpr h.getElem?_zero
      rw [heq] at hb
      rw [(idxOf?_eq_some_iff h.nodup).mpr hb] at this
      cases this
      exact Nat.lt_irrefl 0 hi
    obtain ⟨p, hp, hmem, hlt⟩ := h.front (getElem_mem hn) hne
    rw [h.nodup.idxOf_getElem] at hlt
    exact ⟨order.idxOf p, (mem_positions h.nodup).mpr ⟨p, order[i], getElem?_idxOf hmem, hb, hp⟩, hlt⟩

include h in
/-- Walks among the nodes are walks among their positions. -/
theorem avoiding_iff (ha : a ∈ order) (hb : b ∈ order) :
    Avoiding (fun i j => i ∈ positions order preds j) (order.idxOf a) 0 (order.idxOf b) ↔
      Avoiding (Edge order preds) a root b := by
  constructor
  · intro hwalk
    have hnode : ∀ i, Avoiding (fun i j => i ∈ positions order preds j) (order.idxOf a) 0 i → ∀ y, order[i]? = some y →
        Avoiding (Edge order preds) a root y := by
      intro i hi
      induction hi with
      | refl =>
        intro y hy
        obtain rfl := mem_unique h.getElem?_zero hy
        exact .refl
      | @tail i j _ hstep ih =>
        intro y hy
        obtain ⟨x, z, hx, hz, hxz⟩ := (mem_positions h.nodup).mp hstep.1
        obtain rfl := mem_unique hy hz
        refine (ih x hx).tail ⟨⟨mem_of_getElem? hx, mem_of_getElem? hy, hxz⟩, ?_⟩
        rintro rfl
        have heq := (idxOf?_eq_some_iff h.nodup).mpr hy
        rw [(idxOf?_eq_some_iff h.nodup).mpr (getElem?_idxOf ha)] at heq
        exact hstep.2 (some.inj heq).symm
    exact hnode _ hwalk b (getElem?_idxOf hb)
  · intro hwalk
    clear hb
    induction hwalk with
    | refl => exact h.idxOf_root ▸ .refl
    | @tail x y _ hstep ih =>
      obtain ⟨⟨hx, hy, hxy⟩, hne⟩ := hstep
      refine ih.tail ⟨?_, fun heq => hne ((idxOf_inj hy).mp heq)⟩
      exact (mem_positions h.nodup).mpr ⟨x, y, getElem?_idxOf hx, getElem?_idxOf hy, hxy⟩

include h in
/-- The root reaches every node. -/
theorem reached (hb : b ∈ order) : ReflTransGen (Edge order preds) root b := by
  induction hi : order.idxOf b using Nat.strong_induction_on generalizing b with
  | _ i ih =>
    subst hi
    by_cases hroot : b = root
    · exact hroot ▸ .refl
    · obtain ⟨p, hp, hmem, hlt⟩ := h.front hb hroot
      exact (ih _ hlt hmem rfl).tail ⟨hmem, hb, hp⟩

include h in
/-- The sweeps come to an end. -/
theorem exists_settled : ∃ r, ofOrder order preds = ⟨order, r⟩ ∧ Ascent.Settled (positions order preds) order.length r := by
  obtain ⟨r, hr, hsettled, _⟩ := (Ascent.Visiting.start (positions order preds) order.length).settle h.row
  exact ⟨r, ofOrder_of_settle hr, hsettled⟩

end Orderly

/-- **Above a node stand its dominators.** -/
theorem mem_ancestors_ofOrder (h : Orderly order preds root) (hb : b ∈ order) :
    a ∈ (ofOrder order preds).ancestors b ↔ Dominates (Edge order preds) root a b := by
  obtain ⟨r, hr, hsettled⟩ := h.exists_settled
  have hnode := getElem?_idxOf hb
  rw [hr, mem_ancestors (t := ⟨order, r⟩) h.nodup hnode]
  by_cases ha : a ∈ order
  · have hroot : order.idxOf a = 0 ↔ a = root := by
      rw [← h.idxOf_root]
      exact idxOf_inj ha
    have hdom := hsettled.mem_chain_iff h.row (y := order.idxOf a) (idxOf_lt_length_of_mem hb)
    rw [Dominates, h.avoiding_iff ha hb, hroot] at hdom
    rw [Dominates, ← hdom]
    constructor
    · rintro ⟨p, hp, hpa⟩
      obtain rfl : p = order.idxOf a := some.inj
        (((idxOf?_eq_some_iff h.nodup).mpr hpa).symm.trans ((idxOf?_eq_some_iff h.nodup).mpr (getElem?_idxOf ha)))
      exact hp
    · exact fun hp => ⟨_, hp, getElem?_idxOf ha⟩
  · -- a walk among the nodes avoids what is no node
    have hwalk : Avoiding (Edge order preds) a root b :=
      ReflTransGen.mono (fun x y hxy => ⟨hxy, fun heq => ha (heq ▸ hxy.2.1)⟩) _ _ (h.reached hb)
    constructor
    · rintro ⟨p, _, hpa⟩
      exact absurd (mem_of_getElem? hpa) ha
    · rintro (rfl | hnot)
      · exact absurd h.mem_root ha
      · exact absurd hwalk hnot

/-- Only the root has no closest strict dominator. -/
theorem immediate?_ofOrder_isSome (h : Orderly order preds root) (hb : b ∈ order) :
    ((ofOrder order preds).immediate? b).isSome = true ↔ b ≠ root := by
  have hnodup : (ofOrder order preds).nodes.Nodup := h.nodup
  constructor
  · rintro hsome rfl
    obtain ⟨a, ha⟩ := Option.isSome_iff_exists.mp hsome
    obtain ⟨p, hp, _⟩ := (immediate?_eq_some hnodup h.getElem?_zero).mp ha
    exact absurd (Ascent.up?_lt hp) (Nat.not_lt_zero p)
  · intro hne
    by_contra hnone
    have hanc := ancestors_of_immediate?_none hnodup (Option.not_isSome_iff_eq_none.mp hnone)
    have := (mem_ancestors_ofOrder h hb).mpr (Dominates.root_left _ _ b)
    rw [hanc] at this
    exact hne (mem_singleton.mp this).symm

/-- A tree without its root goes up as before, but not to the root. -/
theorem immediate?_of_dropRoot (ht : t.nodes.Nodup) (h : t.dropRoot.immediate? b = some a) : t.immediate? b = some a := by
  unfold immediate? dropRoot at h
  obtain ⟨i, hi, h⟩ := bind_eq_some_iff.mp h
  obtain ⟨p, hp, ha⟩ := bind_eq_some_iff.mp h
  have hb := (idxOf?_eq_some_iff ht.tail).mp hi
  rw [getElem?_tail] at hb ha
  refine (immediate?_eq_some ht hb).mpr ⟨p + 1, ?_, ha⟩
  rw [Ascent.up?, Ascent.dropRoot, getElem?_toArray, getElem?_map, getElem?_tail, Array.getElem?_toList,
    Option.join_eq_some_iff, Option.map_eq_some_iff] at hp
  obtain ⟨c, hc, hp⟩ := hp
  obtain ⟨r, rfl, hr⟩ := bind_eq_some_iff.mp hp
  cases r with
  | zero => cases hr
  | succ r =>
    cases hr
    rw [Ascent.up?, hc]
    rfl

end DominatorTree

/-! ## Flow graphs -/

namespace Kernel

variable {k : Kernel} {entry : BlockId}

theorem flow_eq (hg : k.flowGraph = .ok g) (entry : BlockId) : k.flow entry = ⟨entry, fun a b => b ∈ g.succs a⟩ := by
  rw [flow, Flow.mk.injEq]
  exact ⟨rfl, funext fun a => funext fun b => propext (mem_succs_iff hg).symm⟩

/-- The flow is told by the layout and the jumps out of its blocks. -/
theorem flow_congr {k' : Kernel} (entry : BlockId) (hlayout : k'.layout = k.layout)
    (hsucc : ∀ b ∈ k.layout, k'.successors b = k.successors b) : k'.flow entry = k.flow entry := by
  rw [flow, flow, hlayout, Flow.mk.injEq]
  exact ⟨rfl, funext fun a => funext fun b => propext (and_congr_right fun ha => by rw [hsucc a ha])⟩

section

variable (hg : k.flowGraph = .ok g) (hentry : k.entry? = some entry)
include hg hentry

theorem mem_order_iff_reached : b ∈ g.order ↔ (k.flow entry).Reached b := by
  rw [mem_order_iff hg, flow_eq hg, hentry]
  exact ⟨fun ⟨_, heq, hwalk⟩ => some.inj heq ▸ hwalk, fun hwalk => ⟨entry, rfl, hwalk⟩⟩

theorem order_eq_postorder : g.order = Graph.postorder k.blocks.ids g.succs entry := by
  have hsuccs : g.succs = k.succTable.get := funext fun a => by rw [succs_eq hg, get_succTable]
  rw [hsuccs, (flowGraph_eq_ok hg).2]
  rw [blockOrder, hentry]

/-- Reverse post-order is orderly. -/
theorem orderly_order : DominatorTree.Orderly g.order g.preds entry := by
  have horder := order_eq_postorder hg hentry
  refine ⟨by rw [horder, Graph.head?_postorder], nodup_order hg, fun {b} hb hne => ?_⟩
  have hb' := hb
  rw [horder] at hb'
  obtain ⟨p, hp, hpb, hlt⟩ := Graph.exists_before_of_postorder hb' hne
  rw [← horder] at hp hlt
  exact ⟨p, (mem_preds_iff hg hb).mpr ⟨hp, hpb⟩, hp, hlt⟩

/-- The jumps among the reachable blocks are the edges of the tree's order. -/
theorem avoiding_edge_iff :
    Avoiding (DominatorTree.Edge g.order g.preds) a entry b ↔ Avoiding (k.flow entry).next a entry b := by
  rw [flow_eq hg]
  constructor
  · refine fun hwalk => ReflTransGen.mono (fun x y hxy => ?_) _ _ hwalk
    exact ⟨((mem_preds_iff hg hxy.1.2.1).mp hxy.1.2.2).2, hxy.2⟩
  · intro hwalk
    have hboth : b ∈ g.order ∧ Avoiding (DominatorTree.Edge g.order g.preds) a entry b := by
      induction hwalk with
      | refl => exact ⟨entry_mem_order hg hentry, .refl⟩
      | @tail x y _ hstep ih =>
        have hy := succs_mem_order hg ih.1 hstep.1
        exact ⟨hy, ih.2.tail ⟨⟨ih.1, hy, (mem_preds_iff hg hy).mpr ⟨ih.1, hstep.1⟩⟩, hstep.2⟩⟩
    exact hboth.2

theorem dominates_iff_dominates (hb : b ∈ g.order) :
    g.dominators.dominates a b = true ↔ Dominates (k.flow entry).next entry a b := by
  rw [DominatorTree.dominates, contains_iff_mem, dominators,
    DominatorTree.mem_ancestors_ofOrder (orderly_order hg hentry) hb, Dominates, avoiding_edge_iff hg hentry, Dominates]

/-- **The dominator tree of a flow graph decides dominance.** -/
theorem dominates_iff (hb : b ∈ g.order) : g.dominators.dominates a b = true ↔ (k.flow entry).Above a b := by
  rw [dominates_iff_dominates hg hentry hb]
  refine ⟨fun hdom => ⟨?_, hdom⟩, And.right⟩
  -- a walk to `b` goes through `a`
  have hwalk := (mem_order_iff_reached hg hentry).mp hb
  rcases hdom with rfl | hnot
  · exact .refl
  · exact (avoiding_or_through a hwalk).resolve_left hnot

end

end Kernel

/-! ## Post-dominance -/

namespace FlowGraph

theorem beyond_notMem_order (g : FlowGraph) : g.beyond ∉ g.order := by
  intro hmem
  have hmax := (max?_eq_some_iff.mp (@max?_cons' _ 0 _ (g.order.map (·.index + 1)))).2
  exact Nat.not_succ_le_self _ (hmax _ (mem_cons_of_mem 0 (mem_map_of_mem hmem)))

theorem mem_backOrder_iff : b ∈ g.backOrder ↔
    ReflTransGen (fun x y => y ∈ g.sources x ∧ (y ∈ g.order ∨ y = g.beyond)) g.beyond b :=
  Graph.mem_postorder_iff

theorem mem_leavingBlocks_iff : b ∈ g.leavingBlocks ↔ b ∈ g.backOrder ∧ b ≠ g.beyond := by
  obtain ⟨rest, hrest⟩ := head?_eq_some_iff.mp (Graph.head?_postorder g.order g.sources g.beyond)
  have hnodup := Graph.nodup_postorder g.order g.sources g.beyond
  rw [hrest, nodup_cons] at hnodup
  unfold leavingBlocks backOrder
  rw [hrest, tail_cons, mem_cons]
  exact ⟨fun h => ⟨.inr h, fun heq => hnodup.1 (heq ▸ h)⟩, fun ⟨h, hne⟩ => h.resolve_left hne⟩

theorem leavingBlocks_subset_order (h : b ∈ g.leavingBlocks) : b ∈ g.order := by
  obtain ⟨hb, hne⟩ := mem_leavingBlocks_iff.mp h
  rcases ReflTransGen.cases_tail (mem_backOrder_iff.mp hb) with heq | ⟨_, _, hstep⟩
  · exact absurd heq hne
  · exact hstep.2.resolve_right hne

theorem nodup_backOrder (g : FlowGraph) : g.backOrder.Nodup := Graph.nodup_postorder _ _ _

theorem mem_leavingBlocks_of_immediate? (h : g.postDominators.immediate? b = some join) :
    join ∈ g.leavingBlocks ∧ b ∈ g.leavingBlocks := DominatorTree.mem_of_immediate? h

theorem join_mem_order (h : g.postDominators.immediate? b = some join) : join ∈ g.order :=
  leavingBlocks_subset_order (mem_leavingBlocks_of_immediate? h).1

end FlowGraph

namespace Kernel

variable {k : Kernel}

variable (hg : k.flowGraph = .ok g)
include hg

/-- The order of the search back from beyond the exits is orderly. -/
theorem orderly_backOrder : DominatorTree.Orderly g.backOrder g.destinations g.beyond := by
  refine ⟨Graph.head?_postorder _ _ _, g.nodup_backOrder, fun {b} hb hne => ?_⟩
  obtain ⟨p, hp, hpb, hlt⟩ := Graph.exists_before_of_postorder hb hne
  refine ⟨p, ?_, hp, hlt⟩
  unfold sources at hpb
  unfold destinations
  split at hpb
  next heq =>
    simp [heq, hpb]
  next hpne =>
    have hpo := leavingBlocks_subset_order (mem_leavingBlocks_iff.mpr ⟨hp, hpne⟩)
    exact mem_append_left _ ((mem_preds_iff hg hpo).mp hpb).2

/-- A walk from a block to an exit is a walk back from beyond the exits. -/
theorem avoiding_back {e : BlockId} (he : e ∈ g.exits) (hej : e ≠ join) (hb : b ∈ g.order)
    (hbj : b ≠ join) (hwalk : Avoiding (fun x y => y ∈ g.succs x) join b e) :
    b ∈ g.backOrder ∧ Avoiding (DominatorTree.Edge g.backOrder g.destinations) join g.beyond b := by
  have hbeyond : g.beyond ∈ g.backOrder := mem_backOrder_iff.mpr .refl
  induction hwalk using ReflTransGen.head_induction_on with
  | refl =>
    have hback : e ∈ g.backOrder := by
      refine mem_backOrder_iff.mpr (.single ⟨?_, .inl hb⟩)
      rw [sources, if_pos rfl]
      exact he
    refine ⟨hback, .single ⟨⟨hbeyond, hback, ?_⟩, hej⟩⟩
    simp [destinations, he]
  | @head x y hstep _ ih =>
    have hy := succs_mem_order hg hb hstep.1
    obtain ⟨hyback, hback⟩ := ih hy hstep.2
    have hybeyond : y ≠ g.beyond := fun heq => g.beyond_notMem_order (heq ▸ hy)
    have hxback : x ∈ g.backOrder := by
      refine mem_backOrder_iff.mpr ((mem_backOrder_iff.mp hyback).tail ⟨?_, .inl hb⟩)
      rw [sources, if_neg hybeyond]
      exact (mem_preds_iff hg hy).mpr ⟨hb, hstep.1⟩
    exact ⟨hxback, hback.tail ⟨⟨hyback, hxback, mem_append_left _ hstep.1⟩, hbj⟩⟩

/-- **No walk from a block to an exit gets around the block's join.** -/
theorem join_of_immediate? (h : g.postDominators.immediate? b = some join) :
    join ≠ b ∧ b ∈ g.leavingBlocks ∧
      ∀ e ∈ g.exits, e ≠ join → ¬Avoiding (fun x y => y ∈ g.succs x) join b e := by
  obtain ⟨hjoin, hb⟩ := mem_leavingBlocks_of_immediate? h
  have hnodup : (DominatorTree.ofOrder g.backOrder g.destinations).nodes.Nodup := g.nodup_backOrder
  have himm := DominatorTree.immediate?_of_dropRoot hnodup h
  have hanc := DominatorTree.ancestors_of_immediate? hnodup himm
  have hne : join ≠ b := by
    rintro rfl
    have := DominatorTree.nodup_ancestors hnodup join
    rw [hanc, nodup_cons] at this
    exact this.1 (DominatorTree.self_mem_ancestors hnodup join)
  have hdom : Dominates (DominatorTree.Edge g.backOrder g.destinations) g.beyond join b := by
    rw [← DominatorTree.mem_ancestors_ofOrder (orderly_backOrder hg) (mem_leavingBlocks_iff.mp hb).1, hanc]
    exact .tail _ (DominatorTree.self_mem_ancestors hnodup join)
  refine ⟨hne, hb, fun e he hej hwalk => ?_⟩
  rcases hdom with hroot | hnot
  · exact (mem_leavingBlocks_iff.mp hjoin).2 hroot
  · exact hnot (avoiding_back hg he hej (leavingBlocks_subset_order hb) (Ne.symm hne) hwalk).2

end Kernel

end Spmd
