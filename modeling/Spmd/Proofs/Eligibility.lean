import Spmd.Proofs.FlowGraph.Reducible
import Spmd.Proofs.Kernel.Listing

/-!
# Kernels that are accepted for vectorizing

`Kernel.checkFlow` looks at a flow graph, which is there if no jump that control can come to leads nowhere
(`Kernel.exists_flowGraph_iff`). It accepts the kernels with an entry, without many-way branches that control can come
to, with a single exit, and with reducible control flow (**`Kernel.checkFlow_iff_eligible`**).
-/

namespace Spmd.Kernel

open List

variable {k : Kernel} {g : FlowGraph} {entry a b : BlockId}

/-- The block ends in a many-way branch. -/
def EndsInSwitch (k : Kernel) (b : BlockId) : Prop :=
  ∃ value cases default, k.terminatorInstr? b = some (.switch value cases default)

theorem reachableSwitch?_eq_none_iff : k.reachableSwitch? g = none ↔ ∀ b ∈ g.order, ¬k.EndsInSwitch b := by
  rw [reachableSwitch?, find?_eq_none]
  constructor
  · rintro hnone b hb ⟨value, cases, default, hend⟩
    obtain ⟨i, hi, hinstr⟩ := Option.bind_eq_some_iff.mp hend
    have := hnone i (mem_filterMap.mpr ⟨b, hb, hi⟩)
    rw [hinstr] at this
    exact this rfl
  · intro hall i hi hswitch
    obtain ⟨b, hb, hterm⟩ := mem_filterMap.mp hi
    split at hswitch
    next value cases default hinstr =>
      exact hall b hb ⟨value, cases, default, Option.bind_eq_some_iff.mpr ⟨i, hterm, hinstr⟩⟩
    · exact Bool.noConfusion hswitch

/-- The flow graph lists a single exit exactly if control can come to one block only that leaves the kernel. -/
theorem exits_eq_singleton_iff (hg : k.flowGraph = .ok g) (hentry : k.entry? = some entry) :
    (∃ e, g.exits = [e]) ↔ ∃! e, (k.flow entry).Reached e ∧ k.IsExit e := by
  have hmem : ∀ e, e ∈ g.exits ↔ (k.flow entry).Reached e ∧ k.IsExit e := by
    intro e
    rw [mem_exits_iff hg, mem_order_iff_reached hg hentry]
    rfl
  have hnodup : g.exits.Nodup := by
    have hexits : g.exits = g.order.filter fun b => (k.terminatorInstr? b).any Instr.isExit := by
      rw [(flowGraph_eq_ok hg).2]
    rw [hexits]
    exact (nodup_order hg).filter _
  constructor
  · rintro ⟨e, he⟩
    refine ⟨e, (hmem e).mp (he ▸ .head _), fun c hc => ?_⟩
    exact mem_singleton.mp (he ▸ (hmem c).mpr hc)
  · rintro ⟨e, he, honly⟩
    refine ⟨e, perm_singleton.mp ((perm_ext_iff_of_nodup hnodup (nodup_singleton e)).mpr fun c => ?_)⟩
    rw [mem_singleton]
    exact ⟨fun hc => honly c ((hmem c).mp hc), fun hc => hc ▸ (hmem e).mpr he⟩

theorem flowIssue?_eq_none_iff : k.flowIssue? g = none ↔
    g.order ≠ [] ∧ k.reachableSwitch? g = none ∧ (∃ e, g.exits = [e]) ∧ g.irreducibleEdge? g.dominators = none := by
  rw [flowIssue?]
  split
  next hempty =>
    simp [isEmpty_iff.mp hempty]
  next hempty =>
    have hne : g.order ≠ [] := fun heq => hempty (heq ▸ rfl)
    split
    next i hswitch =>
      simp [hswitch]
    next hexits =>
      simp [hexits]
    next e hswitch hexits =>
      simp [hne, hswitch, hexits]
    next hswitch _ hone =>
      exact ⟨fun h => absurd h (by simp), fun ⟨_, _, ⟨e, he⟩, _⟩ => absurd he (hone e)⟩

theorem checkFlow_eq_ok_iff : k.checkFlow = .ok () ↔ ∃ g, k.flowGraph = .ok g ∧ k.flowIssue? g = none := by
  rw [checkFlow, Success.bind_eq_ok]
  constructor
  · rintro ⟨g, hg, h⟩
    refine ⟨g, Attempt.liftM_eq_ok.mp hg, ?_⟩
    split at h
    · exact absurd h Success.throw_ne_ok
    · assumption
  · rintro ⟨g, hg, h⟩
    exact ⟨g, Attempt.liftM_eq_ok.mpr hg, by rw [h]; rfl⟩

theorem order_eq_nil_iff (hg : k.flowGraph = .ok g) : g.order = [] ↔ k.entry? = none := by
  cases hentry : k.entry? with
  | none =>
    have : g.order = k.blockOrder := by rw [(flowGraph_eq_ok hg).2]
    simp [this, blockOrder, hentry]
  | some entry =>
    have hmem := entry_mem_order hg hentry
    simp [ne_nil_of_mem hmem]

/-- There is a flow graph exactly if no jump that control can come to leads nowhere. -/
theorem exists_flowGraph_iff : (∃ g, k.flowGraph = .ok g) ↔
    ∀ entry, k.entry? = some entry → ∀ a b, (k.flow entry).Reached a → (k.flow entry).next a b →
      (k.block? b).isSome = true := by
  have hids : ∀ b : BlockId, b ∈ k.blocks.ids ↔ (k.block? b).isSome = true := by
    intro b
    rw [block?, Arena.isSome_get?_iff, Arena.mem_ids_iff]
  constructor
  · rintro ⟨g, hg⟩ entry hentry a b ha hab
    have horder : g.order = k.blockOrder := by rw [(flowGraph_eq_ok hg).2]
    have hao : a ∈ k.blockOrder := horder ▸ (mem_order_iff_reached hg hentry).mpr ha
    exact (hids b).mp (checkTargets_eq_ok.mp (flowGraph_eq_ok hg).1 a hao b (mem_targets_iff.mpr hab))
  · intro h
    refine exists_flowGraph fun a ha b hb => (hids b).mpr ?_
    cases hentry : k.entry? with
    | none => simp [blockOrder, hentry] at ha
    | some entry =>
      rw [blockOrder, hentry] at ha
      refine h entry hentry a b ?_ (mem_targets_iff.mp hb)
      refine Relation.ReflTransGen.mono (fun x y hxy => ?_) _ _ (Graph.mem_postorder_iff.mp ha)
      exact mem_targets_iff.mp (get_succTable k x ▸ hxy.1)

/-- **The kernels that are accepted for vectorizing.** There is a flow graph to look at exactly if no jump that control
can come to leads nowhere. A kernel is then accepted exactly if it has an entry, control comes to no many-way branch
and to one exit only, and control flow is reducible. Reducibility may be asked of circles without repetition alone, and
is found out by the jumps against the order of any depth-first search, in whatever order it tries the jumps of a
block. -/
theorem checkFlow_iff_eligible (k : Kernel) :
    ((∃ g, k.flowGraph = .ok g) ↔ ∀ entry, k.entry? = some entry → ∀ a b, (k.flow entry).Reached a →
      (k.flow entry).next a b → (k.block? b).isSome = true) ∧
    ∀ g, k.flowGraph = .ok g →
      (k.checkFlow = .ok () ↔ ∃ entry, k.entry? = some entry ∧ (∀ b, (k.flow entry).Reached b → ¬k.EndsInSwitch b) ∧
        (∃! e, (k.flow entry).Reached e ∧ k.IsExit e) ∧ (k.flow entry).Reducible) ∧
      ∀ entry, k.entry? = some entry →
        ((k.flow entry).Reducible ↔ ∀ b rest, (k.flow entry).Circuit b rest → (b :: rest).Nodup →
          ∃ d ∈ b :: rest, ∀ c ∈ b :: rest, (k.flow entry).Dominator d c) ∧
        (g.irreducibleEdge? g.dominators = none ↔ (k.flow entry).Reducible) ∧
        ∀ next : BlockId → List BlockId, (∀ a b, b ∈ next a ↔ b ∈ g.succs a) →
          ((g.reordered (Graph.postorder k.blocks.ids next entry)).irreducibleEdge?
            (g.reordered (Graph.postorder k.blocks.ids next entry)).dominators = none ↔ (k.flow entry).Reducible) := by
  refine ⟨exists_flowGraph_iff, fun g hg => ⟨?_, fun entry hentry => ⟨?_, irreducibleEdge?_iff hg hentry, fun next hnext =>
    irreducibleEdge?_eq_none_iff hg hentry hnext⟩⟩⟩
  · rw [checkFlow_eq_ok_iff]
    constructor
    · rintro ⟨g', hg', hissue⟩
      cases hg.symm.trans hg'
      obtain ⟨horder, hswitch, hexit, hedge⟩ := flowIssue?_eq_none_iff.mp hissue
      obtain ⟨entry, hentry⟩ := Option.ne_none_iff_exists'.mp fun hnone => horder ((order_eq_nil_iff hg).mpr hnone)
      refine ⟨entry, hentry, fun b hb => ?_, (exits_eq_singleton_iff hg hentry).mp hexit,
        (irreducibleEdge?_iff hg hentry).mp hedge⟩
      exact reachableSwitch?_eq_none_iff.mp hswitch b ((mem_order_iff_reached hg hentry).mpr hb)
    · rintro ⟨entry, hentry, hswitch, hexit, hreducible⟩
      refine ⟨g, hg, flowIssue?_eq_none_iff.mpr ⟨ne_nil_of_mem (entry_mem_order hg hentry), ?_,
        (exits_eq_singleton_iff hg hentry).mpr hexit, (irreducibleEdge?_iff hg hentry).mpr hreducible⟩⟩
      exact reachableSwitch?_eq_none_iff.mpr fun b hb => hswitch b ((mem_order_iff_reached hg hentry).mp hb)
  · refine ⟨fun h b rest hcircuit _ => h b rest hcircuit, fun h => ?_⟩
    have hnext : ∀ a b, b ∈ g.succs a ↔ b ∈ g.succs a := fun _ _ => Iff.rfl
    exact reducible_of_irreducibleEdge? hg hentry hnext (irreducibleEdge?_of_circuits hg hentry hnext h)

/-- A loop whose body goes back to the header in two ways. -/
def loopWithContinue : Kernel := .ofListing "loop_with_continue" .void [("c", .bool)] []
  [("entry", [(.br 1, .void)]), ("header", [(.condBr 0 2 4, .void)]),
    ("body", [(.condBr 0 1 3, .void)]), ("latch", [(.br 1, .void)]), ("exit", [(.ret none, .void)])]

/-- The loop is accepted, so its header dominates all it goes round; the search that tries the jumps of each block the
other way round finds nothing against it either. -/
theorem checkFlow_loopWithContinue : ∃ g, loopWithContinue.flowGraph = .ok g ∧ loopWithContinue.checkFlow = .ok () ∧
    (loopWithContinue.flow ⟨0⟩).Reducible ∧
    (g.reordered (Graph.postorder loopWithContinue.blocks.ids (fun b => (g.succs b).reverse) ⟨0⟩)).irreducibleEdge?
      (g.reordered (Graph.postorder loopWithContinue.blocks.ids (fun b => (g.succs b).reverse) ⟨0⟩)).dominators = none := by
  have hentry : loopWithContinue.entry? = some 0 := by decide
  have hcheck : loopWithContinue.checkFlow = .ok () := Success.eq_ok_of_toOption (by decide +kernel)
  obtain ⟨g, hg, -⟩ := Success.exists_of_any (show loopWithContinue.flowGraph.toOption.any (fun _ => true) = true by decide +kernel)
  obtain ⟨haccepted, horders⟩ := (checkFlow_iff_eligible loopWithContinue).2 g hg
  obtain ⟨entry, hentry', -, -, hreducible⟩ := haccepted.mp hcheck
  cases hentry.symm.trans hentry'
  exact ⟨g, hg, hcheck, hreducible, ((horders 0 hentry).2.2 _ fun _ _ => mem_reverse).mpr hreducible⟩

end Spmd.Kernel
