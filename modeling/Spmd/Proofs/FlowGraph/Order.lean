import Spmd.Proofs.Eligibility

/-!
# Reverse post-order

Every analysis goes over the blocks of a flow graph in the order in which a depth-first search left them, last to first.
**`Kernel.order_of_flowGraph`** is what they rely on. When the search leaves a block, the blocks on its stack are a trail
back to the entry. A jump that does not go forward leads to a block of that trail, so control can come back to where it
jumped from (`Kernel.walk_of_retreating`). Without circles every jump goes forward.
-/

namespace Spmd.Kernel

variable {k : Kernel} {g : FlowGraph} {entry a b : BlockId} {i : Nat}

theorem position?_eq_some_iff (hg : k.flowGraph = .ok g) : g.position? b = some i ↔ g.order[i]? = some b :=
  idxOf?_eq_some_iff (nodup_order hg)

theorem nodup_succs (hg : k.flowGraph = .ok g) (a : BlockId) : (g.succs a).Nodup := by
  rw [succs_eq hg]
  exact k.nodup_targets a

/-- A predecessor stands among the predecessors as often as in the layout. -/
theorem count_preds (hg : k.flowGraph = .ok g) (hb : b ∈ g.order) (ha : a ∈ g.preds b) :
    (g.preds b).count a = k.layout.count a := by
  rw [preds_eq hg hb] at ha ⊢
  exact List.count_filter (List.mem_filter.mp ha).2

section

variable (hg : k.flowGraph = .ok g) (hentry : k.entry? = some entry)
include hg hentry

/-- The jumps that are reported are those that do not go forward. -/
theorem mem_retreatingEdges_iff_position? :
    (a, b) ∈ g.retreatingEdges ↔ (k.flow entry).Reached a ∧ (k.flow entry).next a b ∧
      ∃ i j, g.position? a = some i ∧ g.position? b = some j ∧ j ≤ i := by
  have hidx : ∀ {x i}, g.position? x = some i ↔ x ∈ g.order ∧ g.order.idxOf x = i := by
    intro x i
    have hself : ∀ {x}, x ∈ g.order → g.position? x = some (g.order.idxOf x) := fun hx =>
      (position?_eq_some_iff hg).mpr (List.getElem?_idxOf hx)
    constructor
    · intro hx
      have hmem := List.mem_of_getElem? ((position?_eq_some_iff hg).mp hx)
      exact ⟨hmem, Option.mem_unique (hself hmem) hx⟩
    · rintro ⟨hx, rfl⟩
      exact hself hx
  rw [FlowGraph.mem_retreatingEdges_iff (nodup_order hg), ← mem_order_iff_reached hg hentry, mem_succs_iff hg]
  constructor
  · rintro ⟨ha, hab, hb, hle⟩
    exact ⟨ha, hab, _, _, hidx.mpr ⟨ha, rfl⟩, hidx.mpr ⟨hb, rfl⟩, hle⟩
  · rintro ⟨ha, hab, i, j, hi, hj, hle⟩
    obtain ⟨_, rfl⟩ := hidx.mp hi
    obtain ⟨hb, rfl⟩ := hidx.mp hj
    exact ⟨ha, hab, hb, hle⟩

/-- **A jump that does not go forward can be repeated**: control can come back from its target to its source. -/
theorem walk_of_retreating (h : (a, b) ∈ g.retreatingEdges) : Relation.ReflTransGen (k.flow entry).next b a := by
  obtain ⟨ha, hab, hb, hle⟩ := (FlowGraph.mem_retreatingEdges_iff (nodup_order hg)).mp h
  rw [order_eq_postorder hg hentry] at ha hb hle
  obtain ⟨trail, htrail, hagainst⟩ := Graph.exists_trail_of_postorder ha
  obtain ⟨l, r, rfl⟩ := List.append_of_mem (hagainst b hab hb hle)
  rw [flow_eq hg]
  obtain ⟨hcircuit, hmem⟩ := Flow.circuit_of_trail (φ := ⟨entry, fun x y => y ∈ g.succs x⟩) htrail.head htrail.last
    htrail.linked hab
  exact hcircuit.closed.induction _ _ (fun _ _ hxy hx => hx.tail hxy) (fun _ => .refl) a (List.mem_append_left _ hmem)

end

/-- **Reverse post-order.** There is a flow graph exactly if no jump that control can come to leads nowhere. Its order
then lists the blocks that control reaches, each once and the entry first, and the positions invert it. Among these
blocks the successors are the blocks jumped to, each once; the predecessors are their converse, and no block is
repeated among them that the layout does not repeat. The edges that are reported are the jumps that do not go forward,
and each closes a circle. So if there are no circles, all jumps go forward. -/
theorem order_of_flowGraph (k : Kernel) :
    ((∃ g, k.flowGraph = .ok g) ↔ ∀ entry, k.entry? = some entry → ∀ a b, (k.flow entry).Reached a →
      (k.flow entry).next a b → (k.block? b).isSome = true) ∧
    ∀ g, k.flowGraph = .ok g →
      (g.order = [] ↔ k.entry? = none) ∧ (∀ b i, g.position? b = some i ↔ g.order[i]? = some b) ∧
      ∀ entry, k.entry? = some entry →
        (g.order.Nodup ∧ g.order.head? = some entry ∧ ∀ b, b ∈ g.order ↔ (k.flow entry).Reached b) ∧
        (∀ a, (k.flow entry).Reached a → (g.succs a).Nodup ∧ ∀ b, b ∈ g.succs a ↔ (k.flow entry).next a b) ∧
        (∀ b, (k.flow entry).Reached b → (∀ a, a ∈ g.preds b ↔ (k.flow entry).Reached a ∧ b ∈ g.succs a) ∧
          (∀ a ∈ g.preds b, (g.preds b).count a = k.layout.count a) ∧ (k.layout.Nodup → (g.preds b).Nodup)) ∧
        (∀ a b, (a, b) ∈ g.retreatingEdges ↔ (k.flow entry).Reached a ∧ (k.flow entry).next a b ∧
          ∃ i j, g.position? a = some i ∧ g.position? b = some j ∧ j ≤ i) ∧
        (∀ a b, (a, b) ∈ g.retreatingEdges → Relation.ReflTransGen (k.flow entry).next b a) ∧
        ((∀ b, (k.flow entry).Reached b → ¬Relation.TransGen (k.flow entry).next b b) →
          ∀ a b i j, (k.flow entry).Reached a → (k.flow entry).next a b → g.position? a = some i →
            g.position? b = some j → i < j) := by
  refine ⟨exists_flowGraph_iff, fun g hg => ⟨order_eq_nil_iff hg, fun b i => position?_eq_some_iff hg,
    fun entry hentry => ?_⟩⟩
  have horder : ∀ {b}, b ∈ g.order ↔ (k.flow entry).Reached b := mem_order_iff_reached hg hentry
  have hretreating : ∀ {a b}, (a, b) ∈ g.retreatingEdges ↔ _ := mem_retreatingEdges_iff_position? hg hentry
  refine ⟨⟨nodup_order hg, (orderly_order hg hentry).head, fun b => horder⟩,
    fun a _ => ⟨nodup_succs hg a, fun b => mem_succs_iff hg⟩, fun b hb => ⟨fun a => ?_, fun a => count_preds hg (horder.mpr hb),
      fun hlayout => ?_⟩, fun a b => hretreating, fun a b => walk_of_retreating hg hentry,
    fun hacyclic a b i j ha hab hi hj => ?_⟩
  · rw [mem_preds_iff hg (horder.mpr hb), horder]
  · rw [preds_eq hg (horder.mpr hb)]
    exact hlayout.filter _
  · -- a jump back closes a circle
    by_contra hle
    have hback := walk_of_retreating hg hentry (hretreating.mpr ⟨ha, hab, i, j, hi, hj, Nat.le_of_not_lt hle⟩)
    exact hacyclic a ha (.head' hab hback)

end Spmd.Kernel
