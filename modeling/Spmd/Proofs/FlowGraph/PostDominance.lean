import Spmd.Proofs.FlowGraph.Closest
import Spmd.Proofs.Kernel.Listing

/-!
# Post-dominance in a flow graph

A way out of a kernel is a path from a block to any block that leaves the kernel. A block post-dominates another if
it lies on all ways out from there.

* **`DominatorTree.mem_ancestors_dropRoot`** — a tree without its root has the same nodes above each node, less the root.
* **`Kernel.avoiding_back_iff`** — walks back from beyond the exits that do not enter a block are ways out that do not
  contain it.
* **`Kernel.postDominatorTree_of_flowGraph`** — the tree of a flow graph decides post-dominance, and has above a block its
  closest strict post-dominator.
-/

namespace Spmd

open List FlowGraph Option

/-! ## Trees without their root -/

namespace Ascent

variable {t : Ascent} {i p : Nat} {a b : BlockId} {path : List BlockId}

theorem up?_dropRoot : t.dropRoot.up? i = some p ↔ t.up? (i + 1) = some (p + 1) := by
  rw [up?, up?, join_eq_some_iff, join_eq_some_iff, dropRoot, getElem?_toArray, getElem?_map,
    getElem?_tail, Array.getElem?_toList, map_eq_some_iff]
  constructor
  · rintro ⟨c, hc, hp⟩
    obtain ⟨r, rfl, hr⟩ := bind_eq_some_iff.mp hp
    cases r with
    | zero => cases hr
    | succ r =>
      cases hr
      exact hc
  · intro hc
    exact ⟨some (p + 1), hc, rfl⟩

/-- Without the root, a way up ends below it. -/
theorem mem_chain_dropRoot : p ∈ t.dropRoot.chain i ↔ p + 1 ∈ t.chain (i + 1) := by
  induction i using Nat.strong_induction_on with
  | _ i ih =>
    rw [mem_chain_iff, mem_chain_iff (b := i + 1)]
    constructor
    · rintro (rfl | ⟨q, hq, hp⟩)
      · exact .inl rfl
      · have hup := up?_dropRoot.mp hq
        exact .inr ⟨q + 1, hup, (ih q (up?_lt hq)).mp hp⟩
    · rintro (heq | ⟨q, hq, hp⟩)
      · exact .inl (Nat.succ.inj heq)
      · cases q with
        | zero => exact absurd (le_of_mem_chain hp) (by omega)
        | succ q =>
          have hup := up?_dropRoot.mpr hq
          exact .inr ⟨q, hup, (ih q (up?_lt hup)).mpr hp⟩

end Ascent

namespace DominatorTree

variable {t : DominatorTree} {root : BlockId}

/-- A tree without its root lists the same nodes above a node as before, but the root. -/
theorem mem_ancestors_dropRoot (ht : t.nodes.Nodup) (hroot : t.nodes.head? = some root) (hb : b ∈ t.nodes.tail) :
    a ∈ t.dropRoot.ancestors b ↔ a ∈ t.ancestors b ∧ a ≠ root := by
  obtain ⟨i, hi⟩ := mem_iff_getElem?.mp hb
  have hdrop : t.dropRoot.nodes.Nodup := ht.tail
  have hnode : t.nodes[i + 1]? = some b := getElem?_tail ▸ hi
  have hzero : t.nodes[0]? = some root := by rw [← head?_eq_getElem?, hroot]
  rw [mem_ancestors hdrop hi, mem_ancestors ht hnode]
  constructor
  · rintro ⟨p, hp, ha⟩
    have ha : t.nodes[p + 1]? = some a := getElem?_tail ▸ ha
    refine ⟨⟨p + 1, Ascent.mem_chain_dropRoot.mp hp, ha⟩, ?_⟩
    rintro rfl
    -- the root would stand at two positions
    have := ((idxOf?_eq_some_iff ht).mpr hzero).symm.trans ((idxOf?_eq_some_iff ht).mpr ha)
    exact absurd (some.inj this) (by omega)
  · rintro ⟨⟨p, hp, ha⟩, hne⟩
    cases p with
    | zero => exact absurd (mem_unique ha hzero) hne
    | succ p => exact ⟨p, Ascent.mem_chain_dropRoot.mpr hp, by rw [dropRoot, getElem?_tail]; exact ha⟩

theorem mem_nodes_of_mem_ancestors (ht : t.nodes.Nodup) (hb : b ∈ t.nodes) (h : a ∈ t.ancestors b) : a ∈ t.nodes := by
  obtain ⟨i, hi⟩ := mem_iff_getElem?.mp hb
  obtain ⟨p, _, ha⟩ := (mem_ancestors ht hi).mp h
  exact mem_of_getElem? ha

/-- No two nodes stand above each other. -/
theorem ancestors_antisymm (ht : t.nodes.Nodup) (hb : b ∈ t.nodes) (hab : a ∈ t.ancestors b) (hba : b ∈ t.ancestors a) :
    a = b := by
  obtain ⟨i, hi⟩ := mem_iff_getElem?.mp hb
  obtain ⟨p, hp, ha⟩ := (mem_ancestors ht hi).mp hab
  obtain ⟨q, hq, hbq⟩ := (mem_ancestors ht ha).mp hba
  have hqi : q = i := mem_unique ((idxOf?_eq_some_iff ht).mpr hbq) ((idxOf?_eq_some_iff ht).mpr hi)
  have hpi : p = i := Nat.le_antisymm (Ascent.le_of_mem_chain hp) (hqi ▸ Ascent.le_of_mem_chain hq)
  exact mem_unique ha (hpi ▸ hi)

end DominatorTree

/-! ## Ways out -/

namespace Flow

variable {φ : Flow}

theorem Path.end_mem (h : φ.Path b path) : b ∈ path := by
  cases h with
  | root => exact .head _
  | step _ _ => exact mem_append_right _ (.head _)

theorem Reached.exists_path (h : φ.Reached b) : ∃ path, φ.Path b path := by
  induction h with
  | refl => exact ⟨_, .root⟩
  | tail _ hstep ih =>
    obtain ⟨path, hpath⟩ := ih
    exact ⟨_, hpath.step hstep⟩

end Flow

namespace Kernel

variable {k : Kernel} {g : FlowGraph} {d e entry : BlockId}

/-- The block ends in an instruction that leaves the kernel. -/
def IsExit (k : Kernel) (e : BlockId) : Prop := (k.terminatorInstr? e).any Instr.isExit = true

/-- The blocks that control passes from a block to where it leaves the kernel, both included. -/
def WayOut (k : Kernel) (b : BlockId) (path : List BlockId) : Prop := ∃ e, k.IsExit e ∧ (k.flow b).Path e path

/-- Every way out from `b` contains `a`. -/
def PostDominator (k : Kernel) (a b : BlockId) : Prop := ∀ path, k.WayOut b path → a ∈ path

/-- A strict post-dominator of `b` that all others post-dominate. -/
structure ClosestBehind (k : Kernel) (d b : BlockId) : Prop where
  ne : d ≠ b
  postDominator : k.PostDominator d b
  behind : ∀ e, e ≠ b → k.PostDominator e b → e ≠ d → k.PostDominator e d

section

variable (hg : k.flowGraph = .ok g)
include hg

theorem mem_order_of_path (hb : b ∈ g.order) (h : (k.flow b).Path e path) : ∀ x ∈ path, x ∈ g.order := by
  induction h with
  | root =>
    intro x hx
    obtain rfl := mem_singleton.mp hx
    exact hb
  | step hpath hstep ih =>
    intro x hx
    rcases mem_append.mp hx with hx | hx
    · exact ih x hx
    · obtain rfl := mem_singleton.mp hx
      exact succs_mem_order hg (ih _ hpath.end_mem) ((mem_succs_iff hg).mpr hstep)

/-- A walk back from beyond the exits, through blocks of some kind only, is a walk through such blocks to an exit. -/
theorem exists_exit_of_back {P : BlockId → Prop}
    (h : Relation.ReflTransGen (fun x y => DominatorTree.Edge g.backOrder g.destinations x y ∧ P y) g.beyond b)
    (hb : b ≠ g.beyond) :
    P b ∧ ∃ e ∈ g.exits, Relation.ReflTransGen (fun x y => y ∈ g.succs x ∧ P y) b e := by
  induction h with
  | refl => exact absurd rfl hb
  | @tail x y _ hstep ih =>
    obtain ⟨⟨_, hy, hxy⟩, hPy⟩ := hstep
    have hyo : y ∈ g.order := leavingBlocks_subset_order (mem_leavingBlocks_iff.mpr ⟨hy, hb⟩)
    refine ⟨hPy, ?_⟩
    rcases mem_append.mp hxy with hsucc | hexit
    · have hx : x ≠ g.beyond := fun heq => g.beyond_notMem_order (heq ▸ succs_mem_order hg hyo hsucc)
      obtain ⟨hPx, e, he, hwalk⟩ := ih hx
      exact ⟨e, he, hwalk.head ⟨hsucc, hPx⟩⟩
    · split at hexit
      next hmem =>
        exact ⟨y, contains_iff_mem.mp hmem, .refl⟩
      · exact absurd hexit not_mem_nil

/-- A way out that does not contain a block is a walk back that does not enter it. -/
theorem back_of_wayOut (hb : b ∈ g.order) (h : k.WayOut b path) (ha : a ∉ path) :
    b ∈ g.backOrder ∧ Avoiding (DominatorTree.Edge g.backOrder g.destinations) a g.beyond b := by
  obtain ⟨e, he, hpath⟩ := h
  have hexit : e ∈ g.exits := (mem_exits_iff hg).mpr ⟨mem_order_of_path hg hb hpath e hpath.end_mem, he⟩
  have hea : e ≠ a := fun heq => ha (heq ▸ hpath.end_mem)
  have hba : b ≠ a := fun heq => ha (heq ▸ hpath.root_mem)
  have hwalk := (hpath.mem_or_avoiding a).resolve_left ha
  rw [flow_eq hg] at hwalk
  exact avoiding_back hg hexit hea hb hba hwalk

/-- **Walks back that do not enter a block are ways out that do not contain it.** -/
theorem avoiding_back_iff (hb : b ∈ g.order) :
    Avoiding (DominatorTree.Edge g.backOrder g.destinations) a g.beyond b ↔ ∃ path, k.WayOut b path ∧ a ∉ path := by
  constructor
  · intro hback
    have hbeyond : b ≠ g.beyond := fun heq => g.beyond_notMem_order (heq ▸ hb)
    obtain ⟨hne, e, he, hwalk⟩ := exists_exit_of_back hg (P := (· ≠ a)) hback hbeyond
    have hwalk : Avoiding (k.flow b).next a (k.flow b).root e := by
      rw [flow_eq hg]
      exact hwalk
    obtain ⟨path, hpath, ha⟩ := Flow.exists_path_of_avoiding hwalk hne.symm
    exact ⟨path, ⟨e, ((mem_exits_iff hg).mp he).2, hpath⟩, ha⟩
  · rintro ⟨path, hout, ha⟩
    exact (back_of_wayOut hg hb hout ha).2

theorem beyond_notMem_of_wayOut (hb : b ∈ g.order) (h : k.WayOut b path) : g.beyond ∉ path := by
  obtain ⟨e, _, hpath⟩ := h
  exact fun hmem => g.beyond_notMem_order (mem_order_of_path hg hb hpath _ hmem)

/-- The nodes of the tree are the blocks that have a way out. -/
theorem mem_leavingBlocks_iff_wayOut (hb : b ∈ g.order) : b ∈ g.leavingBlocks ↔ ∃ path, k.WayOut b path := by
  have hbeyond : b ≠ g.beyond := fun heq => g.beyond_notMem_order (heq ▸ hb)
  rw [mem_leavingBlocks_iff]
  constructor
  · rintro ⟨hback, _⟩
    have hback := (orderly_backOrder hg).reached hback
    obtain ⟨_, e, he, hwalk⟩ := exists_exit_of_back hg (P := fun _ => True)
      (Relation.ReflTransGen.mono (fun _ _ h => ⟨h, trivial⟩) _ _ hback) hbeyond
    have hreached : (k.flow b).Reached e := by
      rw [flow_eq hg]
      exact Relation.ReflTransGen.mono (fun _ _ h => h.1) _ _ hwalk
    obtain ⟨path, hpath⟩ := hreached.exists_path
    exact ⟨path, e, ((mem_exits_iff hg).mp he).2, hpath⟩
  · rintro ⟨path, hout⟩
    exact ⟨(back_of_wayOut hg hb hout (beyond_notMem_of_wayOut hg hb hout)).1, hbeyond⟩

/-! ## The tree -/

/-- Above a block that has a way out stand its post-dominators. -/
theorem mem_postAncestors_iff (hb : b ∈ g.leavingBlocks) : a ∈ g.postDominators.ancestors b ↔ k.PostDominator a b := by
  have horder := leavingBlocks_subset_order hb
  have hback := (mem_leavingBlocks_iff.mp hb).1
  have hpost : k.PostDominator a b ↔ ¬Avoiding (DominatorTree.Edge g.backOrder g.destinations) a g.beyond b := by
    rw [avoiding_back_iff hg horder]
    simp only [PostDominator, not_exists, not_and, not_not]
  have hbeyond : ¬k.PostDominator g.beyond b := by
    obtain ⟨path, hout⟩ := (mem_leavingBlocks_iff_wayOut hg horder).mp hb
    exact fun h => beyond_notMem_of_wayOut hg horder hout (h path hout)
  have hnodup : (DominatorTree.ofOrder g.backOrder g.destinations).nodes.Nodup := g.nodup_backOrder
  have hroot := (orderly_backOrder hg).head
  rw [postDominators, DominatorTree.mem_ancestors_dropRoot hnodup hroot hb,
    DominatorTree.mem_ancestors_ofOrder (orderly_backOrder hg) hback, Dominates, ← hpost]
  constructor
  · rintro ⟨heq | h, hne⟩
    · exact absurd heq hne
    · exact h
  · intro h
    exact ⟨.inr h, fun heq => hbeyond (heq ▸ h)⟩

/-- The node above a block is its closest strict post-dominator. -/
theorem closestBehind_of_immediate? (h : g.postDominators.immediate? b = some d) : k.ClosestBehind d b := by
  have hnodup : g.postDominators.nodes.Nodup := g.nodup_backOrder.tail
  have hanc := DominatorTree.ancestors_of_immediate? hnodup h
  obtain ⟨hd, hb⟩ := mem_leavingBlocks_of_immediate? h
  have hself := DominatorTree.self_mem_ancestors hnodup d
  refine ⟨(join_of_immediate? hg h).1, ?_, fun e hne he _ => ?_⟩
  · rw [← mem_postAncestors_iff hg hb, hanc]
    exact .tail _ hself
  · rw [← mem_postAncestors_iff hg hb, hanc] at he
    rw [← mem_postAncestors_iff hg hd]
    exact (mem_cons.mp he).resolve_left hne

/-- A block with nothing above it has no strict post-dominator. -/
theorem eq_of_immediate?_none (hb : b ∈ g.leavingBlocks) (h : g.postDominators.immediate? b = none)
    (ha : k.PostDominator a b) : a = b := by
  rw [← mem_postAncestors_iff hg hb, DominatorTree.ancestors_of_immediate?_none g.nodup_backOrder.tail h] at ha
  exact mem_singleton.mp ha

/-- Only the node above a block is its closest strict post-dominator. -/
theorem immediate?_of_closestBehind (hb : b ∈ g.leavingBlocks) (h : k.ClosestBehind d b) :
    g.postDominators.immediate? b = some d := by
  have hnodup : g.postDominators.nodes.Nodup := g.nodup_backOrder.tail
  cases himm : g.postDominators.immediate? b with
  | none => exact absurd (eq_of_immediate?_none hg hb himm h.postDominator) h.ne
  | some e =>
    have hclosest := closestBehind_of_immediate? hg himm
    by_cases heq : e = d
    · rw [heq]
    · -- otherwise each of the two would stand above the other
      have hd : d ∈ g.leavingBlocks := DominatorTree.mem_nodes_of_mem_ancestors hnodup hb
        ((mem_postAncestors_iff hg hb).mpr h.postDominator)
      have he := (mem_leavingBlocks_of_immediate? himm).1
      have hed := (mem_postAncestors_iff hg hd).mpr (h.behind e hclosest.ne hclosest.postDominator heq)
      have hde := (mem_postAncestors_iff hg he).mpr (hclosest.behind d h.ne h.postDominator (Ne.symm heq))
      exact absurd (DominatorTree.ancestors_antisymm hnodup hd hed hde) heq

end

/-- **The post-dominator tree of a flow graph is the right one**, also if there are several exits and blocks from
which none can be reached. A block stands in it if it has a way out. The tree decides which blocks are on all ways
out from a block, and has above the block its closest strict post-dominator; there is none above it exactly if it
has no strict post-dominator. -/
theorem postDominatorTree_of_flowGraph (hg : k.flowGraph = .ok g) (hentry : k.entry? = some entry) :
    ∀ b, (k.flow entry).Reached b →
      (∀ a, g.postDominators.covers a b = true ↔ (∃ path, k.WayOut b path) ∧ k.PostDominator a b) ∧
      ((∃ path, k.WayOut b path) →
        (∀ d, g.postDominators.immediate? b = some d ↔ k.ClosestBehind d b) ∧
        (g.postDominators.immediate? b = none ↔ ∀ d, k.PostDominator d b → d = b)) := by
  intro b hreached
  have horder : b ∈ g.order := (mem_order_iff_reached hg hentry).mpr hreached
  have hnodes : b ∈ g.postDominators.nodes ↔ ∃ path, k.WayOut b path := mem_leavingBlocks_iff_wayOut hg horder
  refine ⟨fun a => ?_, fun hout => ⟨fun d => ?_, ?_⟩⟩
  · rw [DominatorTree.covers, Bool.and_eq_true, contains_iff_mem, hnodes, DominatorTree.dominates,
      contains_iff_mem]
    refine and_congr_right fun hout => ?_
    exact mem_postAncestors_iff hg (hnodes.mpr hout)
  · exact ⟨closestBehind_of_immediate? hg, immediate?_of_closestBehind hg (hnodes.mpr hout)⟩
  · constructor
    · exact fun himm d hd => eq_of_immediate?_none hg (hnodes.mpr hout) himm hd
    · intro hnone
      cases himm : g.postDominators.immediate? b with
      | none => rfl
      | some d =>
        have hclosest := closestBehind_of_immediate? hg himm
        exact absurd (hnone d hclosest.postDominator) hclosest.ne

/-- The entry jumps to a block that goes round in circles for ever, and to one from which two exits can be reached. -/
def spinOrLeave : Kernel := .ofListing "spin_or_leave" .void [("c", .bool)] []
  [("entry", [(.condBr 0 1 2, .void)]), ("spin", [(.br 1, .void)]),
    ("leave", [(.condBr 0 3 4, .void)]), ("done", [(.ret none, .void)]),
    ("never", [(.unreachable, .void)])]

/-- The closest strict post-dominator of the entry is the block before the two exits, although the entry also jumps to
the block that never leaves. -/
theorem closestBehind_spinOrLeave : ∃ g, spinOrLeave.flowGraph = .ok g ∧ g.postDominators.immediate? ⟨0⟩ = some ⟨2⟩ ∧
    spinOrLeave.ClosestBehind ⟨2⟩ ⟨0⟩ := by
  have hsome : (spinOrLeave.flowGraph.toOption.bind fun g => g.postDominators.immediate? 0) = some 2 := by decide +kernel
  obtain ⟨g, hg, himm⟩ := Success.exists_of_bind hsome
  have hentry : spinOrLeave.entry? = some 0 := by decide
  have hfirst : (spinOrLeave.flow 0).next 0 2 := ⟨by decide, by decide⟩
  have hsecond : (spinOrLeave.flow 0).next 2 3 := ⟨by decide, by decide⟩
  have hout : spinOrLeave.WayOut 0 [0, 2, 3] :=
    ⟨3, by unfold IsExit; decide, (Flow.Path.root.step hfirst).step hsecond⟩
  obtain ⟨_, hclosest⟩ := postDominatorTree_of_flowGraph hg hentry 0 .refl
  exact ⟨g, hg, himm, ((hclosest ⟨_, hout⟩).1 2).mp himm⟩

end Kernel

end Spmd
