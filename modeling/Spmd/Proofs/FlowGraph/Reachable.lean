import Spmd.FlowGraph.Dominance
import Spmd.Proofs.Graph.Reach
import Spmd.Proofs.Place
import Spmd.Proofs.Success

/-!
# The blocks that control reaches

A flow graph is built only if every jump of a reachable block goes to a block that exists. What follows
from that:

* **`Kernel.flowGraph_eq_ok`** — the parts of a flow graph that was built.
* **`mem_order_iff`** — `order` lists exactly the blocks that a walk along jumps reaches from the entry,
  so it is closed under jumps (`succs_mem_order`).
* **`mem_preds_iff`** — a reachable block's predecessors are the reachable blocks that jump to it.
-/

namespace Spmd

open Success List

namespace Kernel

variable {k : Kernel} {g : FlowGraph} {a b : BlockId} {i : InstId}

theorem block?_of_mem_instsOf (h : i ∈ k.instsOf b) : ∃ blk, k.block? b = some blk ∧ i ∈ blk.insts := by
  rw [instsOf] at h
  cases hb : k.block? b with
  | none => simp [hb] at h
  | some blk => exact ⟨blk, rfl, by simpa [hb] using h⟩

theorem mem_instsOf_of_terminator? (h : k.terminator? b = some i) : i ∈ k.instsOf b :=
  mem_of_getLast? (Option.filter_eq_some_iff.mp h).1

theorem lt_size_of_block? {blk : Block} (h : k.block? b = some blk) : b.index < k.blocks.size := by
  by_contra hlt
  rw [block?, Arena.get?, Array.getElem?_eq_none (Nat.le_of_not_lt hlt)] at h
  exact Option.some_ne_none _ h.symm

/-- Only a block that is there, and in the layout, jumps anywhere. -/
theorem mem_targets_iff : b ∈ k.targets a ↔ a ∈ k.layout ∧ b ∈ k.successors a := by
  rw [targets]
  split
  next h =>
    rw [mem_eraseDups]
    exact ⟨fun hb => ⟨contains_iff_mem.mp h, hb⟩, fun hb => hb.2⟩
  next h =>
    exact ⟨fun hb => absurd hb not_mem_nil, fun hb => absurd (contains_iff_mem.mpr hb.1) h⟩

theorem nodup_targets (k : Kernel) (a : BlockId) : (k.targets a).Nodup := by
  rw [targets]
  split
  · exact Place.nodup_eraseDups _
  · exact nodup_nil

theorem exists_terminator_of_mem_successors (h : b ∈ k.successors a) :
    ∃ i instr, k.terminator? a = some i ∧ k.instr? i = some instr ∧ b ∈ instr.successors := by
  rw [successors, terminatorInstr?] at h
  cases ht : k.terminator? a with
  | none => simp [ht] at h
  | some i =>
    cases hi : k.instr? i with
    | none => simp [ht, hi] at h
    | some instr => exact ⟨i, instr, rfl, hi, by simpa [ht, hi] using h⟩

theorem get_succTable (k : Kernel) (a : BlockId) : k.succTable.get a = k.targets a := by
  rw [succTable, SideTable.get_tabulate]
  split
  · rfl
  next hsize =>
    -- a block past the end of the arena has no terminator
    refine (eq_nil_iff_forall_not_mem.mpr fun b hb => ?_).symm
    obtain ⟨i, _, hi, _⟩ := exists_terminator_of_mem_successors (mem_targets_iff.mp hb).2
    obtain ⟨_, hblk, _⟩ := block?_of_mem_instsOf (mem_instsOf_of_terminator? hi)
    exact hsize (lt_size_of_block? hblk)

theorem checkTargets_eq_ok {bs : List BlockId} :
    k.checkTargets bs = .ok () ↔ ∀ a ∈ bs, ∀ b ∈ k.targets a, b ∈ k.blocks.ids := by
  have hids : ∀ b : BlockId, b ∈ k.blocks.ids ↔ k.blocks.contains b = true := by
    intro b
    rw [Arena.mem_ids_iff, Arena.contains, decide_eq_true_iff]
  rw [checkTargets]
  split
  next t ht =>
    obtain ⟨a, ha, hta⟩ := mem_flatMap.mp (mem_of_find?_eq_some ht)
    refine ⟨fun h => absurd h throw_ne_ok, fun h => ?_⟩
    have := find?_some ht
    rw [(hids t).mp (h a ha t hta)] at this
    exact absurd this Bool.false_ne_true
  next hnone =>
    refine ⟨fun _ a ha b hb => (hids b).mpr ?_, fun _ => rfl⟩
    have := find?_eq_none.mp hnone b (mem_flatMap.mpr ⟨a, ha, hb⟩)
    simpa using this

/-- The parts of a flow graph that was built. -/
theorem flowGraph_eq_ok (h : k.flowGraph = .ok g) :
    k.checkTargets k.blockOrder = .ok () ∧
      g = { entry := k.entry?
            succTable := k.succTable
            predTable := k.predTable k.blockOrder
            order := k.blockOrder
            exits := k.blockOrder.filter fun b => (k.terminatorInstr? b).any Instr.isExit } := by
  obtain ⟨_, hcheck, hg⟩ := bind_eq_ok.mp h
  exact ⟨hcheck, (pure_eq_ok.mp hg).symm⟩

theorem exists_flowGraph (h : ∀ a ∈ k.blockOrder, ∀ b ∈ k.targets a, b ∈ k.blocks.ids) : ∃ g, k.flowGraph = .ok g :=
  ⟨_, bind_eq_ok.mpr ⟨(), checkTargets_eq_ok.mpr h, rfl⟩⟩

theorem succs_eq (h : k.flowGraph = .ok g) (a : BlockId) : g.succs a = k.targets a := by
  rw [(flowGraph_eq_ok h).2, FlowGraph.succs, get_succTable]

theorem mem_succs_iff (h : k.flowGraph = .ok g) : b ∈ g.succs a ↔ a ∈ k.layout ∧ b ∈ k.successors a := by
  rw [succs_eq h, mem_targets_iff]

/-! ## Reachable blocks -/

section

variable (h : k.flowGraph = .ok g)
include h

/-- **`order` lists the blocks that control reaches.** -/
theorem mem_order_iff :
    a ∈ g.order ↔
      ∃ entry, k.entry? = some entry ∧ Relation.ReflTransGen (fun x y => y ∈ g.succs x) entry a := by
  obtain ⟨hcheck, hg⟩ := flowGraph_eq_ok h
  have horder : g.order = k.blockOrder := by rw [hg]
  have hsuccs : ∀ x, k.succTable.get x = g.succs x := fun x => by rw [get_succTable, succs_eq h]
  rw [horder]
  cases hentry : k.entry? with
  | none => simp [blockOrder, hentry]
  | some entry =>
    have hmem : ∀ x, x ∈ k.blockOrder ↔
        Relation.ReflTransGen (fun x y => y ∈ k.succTable.get x ∧ (y ∈ k.blocks.ids ∨ y = entry)) entry x := by
      intro x
      rw [blockOrder, hentry]
      exact Graph.mem_postorder_iff
    rw [hmem]
    constructor
    · intro hwalk
      exact ⟨entry, rfl, Relation.ReflTransGen.mono (fun x y hxy => hsuccs x ▸ hxy.1) _ _ hwalk⟩
    · rintro ⟨_, heq, hwalk⟩
      cases heq
      -- every jump of a block found so far goes to a block of the arena, so the search may follow it
      induction hwalk with
      | refl => exact .refl
      | tail _ hstep ih =>
        refine ih.tail ⟨hsuccs _ ▸ hstep, .inl ?_⟩
        exact checkTargets_eq_ok.mp hcheck _ ((hmem _).mpr ih) _ (succs_eq h _ ▸ hstep)

theorem entry_mem_order {entry : BlockId} (hentry : k.entry? = some entry) : entry ∈ g.order :=
  (mem_order_iff h).mpr ⟨entry, hentry, .refl⟩

/-- Control stays among the reachable blocks. -/
theorem succs_mem_order (ha : a ∈ g.order) (hb : b ∈ g.succs a) : b ∈ g.order := by
  obtain ⟨entry, hentry, hwalk⟩ := (mem_order_iff h).mp ha
  exact (mem_order_iff h).mpr ⟨entry, hentry, hwalk.tail hb⟩

theorem mem_exits_iff : a ∈ g.exits ↔ a ∈ g.order ∧ (k.terminatorInstr? a).any Instr.isExit = true := by
  rw [(flowGraph_eq_ok h).2]
  exact mem_filter

theorem nodup_order : g.order.Nodup := by
  rw [(flowGraph_eq_ok h).2]
  rw [blockOrder]
  split
  · exact Graph.nodup_postorder _ _ _
  · exact nodup_nil

/-- The predecessors of a reachable block stand as in the layout. -/
theorem preds_eq (hb : b ∈ g.order) :
    g.preds b = k.layout.filter fun p => (g.succs p).contains b && g.order.contains p := by
  have hpreds : g.preds b = (k.predTable g.order).get b := by
    rw [(flowGraph_eq_ok h).2, FlowGraph.preds]
  rw [hpreds, predTable, SideTable.get_foldl_modify (nodup_order h), if_pos hb,
    SideTable.get_enlist k.nodup_targets, filter_filter]
  refine filter_congr fun p _ => ?_
  rw [succs_eq h, Bool.and_comm]

theorem mem_preds_iff (hb : b ∈ g.order) : a ∈ g.preds b ↔ a ∈ g.order ∧ b ∈ g.succs a := by
  rw [preds_eq h hb, mem_filter, Bool.and_eq_true, contains_iff_mem, contains_iff_mem]
  exact ⟨fun ha => ha.2.symm, fun ha => ⟨((mem_succs_iff h).mp ha.2).1, ha.symm⟩⟩

end

end Kernel

end Spmd
