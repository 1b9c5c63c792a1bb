import Mathlib.Data.Set.Card
import Spmd.Proofs.FlowGraph.Dominance
import Spmd.Proofs.Kernel.Listing

/-!
# Closest dominators of a flow graph

Dominance is stated here by paths: lists of blocks, each of which jumps to the next. The iteration that builds the
dominator tree of a flow graph comes to an end, and the tree it ends with is the right one: it decides dominance,
the node above a block is its closest strict dominator, and the depth of a block is the number of its strict
dominators (**`Kernel.dominatorTree_of_flowGraph`**).
-/

namespace Spmd

open List

namespace Flow

variable {φ : Flow} {a b d e : BlockId} {path : List BlockId}

/-- The blocks that control passes from the root to a block, both included. -/
inductive Path (φ : Flow) : BlockId → List BlockId → Prop where
  | root : Path φ φ.root [φ.root]
  | step {a b : BlockId} {path : List BlockId} : Path φ a path → φ.next a b → Path φ b (path ++ [b])

/-- Every path to `b` contains `a`. -/
def Dominator (φ : Flow) (a b : BlockId) : Prop := ∀ path, φ.Path b path → a ∈ path

/-- A strict dominator of `b` that all others dominate. -/
structure Closest (φ : Flow) (d b : BlockId) : Prop where
  ne : d ≠ b
  dominator : φ.Dominator d b
  below : ∀ e, e ≠ b → φ.Dominator e b → e ≠ d → φ.Dominator e d

theorem Path.root_mem (h : φ.Path b path) : φ.root ∈ path := by
  induction h with
  | root => exact .head _
  | step _ _ ih => exact mem_append_left _ ih

theorem Path.mem_or_avoiding (h : φ.Path b path) (a : BlockId) : a ∈ path ∨ Avoiding φ.next a φ.root b := by
  induction h with
  | root => exact .inr .refl
  | @step x b path _ hstep ih =>
    by_cases hba : b = a
    · exact .inl (mem_append_right _ (mem_singleton.mpr hba.symm))
    · rcases ih with ih | ih
      · exact .inl (mem_append_left _ ih)
      · exact .inr (ih.tail ⟨hstep, hba⟩)

theorem exists_path_of_avoiding (h : Avoiding φ.next a φ.root b) (hroot : a ≠ φ.root) :
    ∃ path, φ.Path b path ∧ a ∉ path := by
  induction h with
  | refl => exact ⟨[φ.root], .root, by simpa using hroot⟩
  | @tail x y _ hstep ih =>
    obtain ⟨path, hpath, ha⟩ := ih
    refine ⟨path ++ [y], hpath.step hstep.1, fun hmem => ?_⟩
    rcases mem_append.mp hmem with hmem | hmem
    · exact ha hmem
    · exact hstep.2 (mem_singleton.mp hmem).symm

/-- The two ways to state dominance say the same. -/
theorem dominator_iff : φ.Dominator a b ↔ Dominates φ.next φ.root a b := by
  constructor
  · intro h
    by_cases hroot : a = φ.root
    · exact .inl hroot
    · refine .inr fun hwalk => ?_
      obtain ⟨path, hpath, ha⟩ := exists_path_of_avoiding hwalk hroot
      exact ha (h path hpath)
  · rintro (rfl | hnot) path hpath
    · exact hpath.root_mem
    · exact (hpath.mem_or_avoiding a).resolve_right hnot

/-- There is no second closest strict dominator. -/
theorem Closest.eq (h : φ.Closest d b) (h' : φ.Closest e b) (hb : φ.Reached b) : e = d := by
  by_contra hne
  have hed := dominator_iff.mp (h.below e h'.ne h'.dominator hne)
  have hde := dominator_iff.mp (h'.below d h.ne h.dominator (Ne.symm hne))
  have hd : φ.Reached d := by
    rcases dominator_iff.mp h.dominator with rfl | hnot
    · exact .refl
    · exact (avoiding_or_through d hb).resolve_left hnot
  exact hne (hed.antisymm hde hd)

end Flow

namespace Kernel

variable {k : Kernel} {g : FlowGraph} {entry a b d : BlockId}

/-- The sweeps over a flow graph come to an end. -/
theorem exists_sweeps (hg : k.flowGraph = .ok g) :
    ∃ r m, (· >>= Ascent.sweep (DominatorTree.positions g.order g.preds))^[m] (some (Ascent.start g.order.length)) = some r ∧
      Ascent.sweep (DominatorTree.positions g.order g.preds) r = some r ∧ g.dominators = ⟨g.order, r⟩ := by
  have hrow : Ascent.Row (DominatorTree.positions g.order g.preds) g.order.length := by
    cases hentry : k.entry? with
    | some entry => exact (orderly_order hg hentry).row
    | none =>
      have horder : g.order = [] := by
        rw [(flowGraph_eq_ok hg).2]
        rw [blockOrder, hentry]
      rw [horder]
      exact ⟨fun hp => absurd hp (by simp [DominatorTree.positions]), fun _ hn => absurd hn (Nat.not_lt_zero _)⟩
  obtain ⟨r, hr, _, m, _, hsweeps, hlast⟩ := (Ascent.Visiting.start _ g.order.length).settle hrow
  exact ⟨r, m, hsweeps, hlast, DominatorTree.ofOrder_of_settle hr⟩

section

variable (hg : k.flowGraph = .ok g) (hentry : k.entry? = some entry) (hb : b ∈ g.order)
include hg hentry hb

theorem mem_ancestors_iff : a ∈ g.dominators.ancestors b ↔ (k.flow entry).Dominator a b := by
  rw [Flow.dominator_iff, ← contains_iff_mem]
  exact dominates_iff_dominates hg hentry hb

/-- The node above a block is its closest strict dominator. -/
theorem closest_of_immediate? (h : g.dominators.immediate? b = some d) : (k.flow entry).Closest d b := by
  have hnodup : g.dominators.nodes.Nodup := nodup_order hg
  have hanc := DominatorTree.ancestors_of_immediate? hnodup h
  have hd : d ∈ g.order := (DominatorTree.mem_of_immediate? h).1
  have hself := DominatorTree.self_mem_ancestors hnodup d
  refine ⟨?_, ?_, fun e hne he _ => ?_⟩
  · rintro rfl
    have := DominatorTree.nodup_ancestors hnodup d
    rw [hanc, nodup_cons] at this
    exact this.1 hself
  · rw [← mem_ancestors_iff hg hentry hb, hanc]
    exact .tail _ hself
  · rw [← mem_ancestors_iff hg hentry hb, hanc] at he
    rw [← mem_ancestors_iff hg hentry hd]
    exact (mem_cons.mp he).resolve_left hne

/-- Above a block are its strict dominators, each once. -/
theorem depth_eq_ncard : g.dominators.depth b = {a | a ≠ b ∧ (k.flow entry).Dominator a b}.ncard := by
  have hnodup : g.dominators.nodes.Nodup := nodup_order hg
  have hset : {a | a ≠ b ∧ (k.flow entry).Dominator a b} = ((g.dominators.ancestors b).erase b).toFinset := by
    ext a
    rw [Set.mem_ofPred_eq, ← mem_ancestors_iff hg hentry hb, coe_toFinset, Set.mem_ofPred_eq,
      (DominatorTree.nodup_ancestors hnodup b).mem_erase_iff]
  rw [hset, Set.ncard_coe_finset, toFinset_card_of_nodup ((DominatorTree.nodup_ancestors hnodup b).erase b),
    length_erase_of_mem (DominatorTree.self_mem_ancestors hnodup b), ← DominatorTree.depth_eq hnodup hb]
  rfl

end

/-- **The iteration comes to an end with the dominator tree.** Sweeps from the start arrive at an ascent that another
sweep leaves alone, and in every meeting of two ways up the fingers come together. For a block that control reaches,
the tree decides which blocks are on all paths to it, has its closest strict dominator above it, and counts its
strict dominators. -/
theorem dominatorTree_of_flowGraph (hg : k.flowGraph = .ok g) :
    (∃ r m, (· >>= Ascent.sweep (DominatorTree.positions g.order g.preds))^[m] (some (Ascent.start g.order.length)) = some r ∧
      Ascent.sweep (DominatorTree.positions g.order g.preds) r = some r ∧ g.dominators = ⟨g.order, r⟩) ∧
    (∀ (t : Ascent) (x y : Nat), ∃ m ≤ x + y, t.move^[m] (x, y) = (t.meet x y, t.meet x y)) ∧
    ∀ entry, k.entry? = some entry → ∀ b, (k.flow entry).Reached b →
      (∀ a, g.dominators.dominates a b = true ↔ (k.flow entry).Dominator a b) ∧
      (b = entry → g.dominators.immediate? b = none) ∧
      (b ≠ entry → ∃ d, g.dominators.immediate? b = some d ∧ (k.flow entry).Closest d b ∧
        ∀ e, (k.flow entry).Closest e b → e = d) ∧
      g.dominators.depth b = {a | a ≠ b ∧ (k.flow entry).Dominator a b}.ncard := by
  refine ⟨exists_sweeps hg, Ascent.exists_iterate_move, fun entry hentry b hreached => ?_⟩
  have hb : b ∈ g.order := (mem_order_iff_reached hg hentry).mpr hreached
  have hsome := DominatorTree.immediate?_ofOrder_isSome (orderly_order hg hentry) hb
  refine ⟨fun a => ?_, fun hroot => ?_, fun hne => ?_, depth_eq_ncard hg hentry hb⟩
  · rw [Flow.dominator_iff]
    exact dominates_iff_dominates hg hentry hb
  · by_contra hnot
    exact hsome.mp (Option.isSome_iff_ne_none.mpr hnot) hroot
  · obtain ⟨d, hd⟩ := Option.isSome_iff_exists.mp (hsome.mpr hne)
    have hclosest := closest_of_immediate? hg hentry hb hd
    exact ⟨d, hd, hclosest, fun e he => hclosest.eq he hreached⟩

/-- Two blocks that jump to each other, and that the entry both jumps to. -/
def twoWayCycle : Kernel := .ofListing "two_way_cycle" .void [("c", .bool)] []
  [("entry", [(.condBr 0 1 2, .void)]), ("left", [(.condBr 0 2 3, .void)]),
    ("right", [(.condBr 0 1 3, .void)]), ("exit", [(.ret none, .void)])]

/-- Neither of the two blocks of the cycle dominates the exit, so the entry is its closest strict dominator. -/
theorem closest_twoWayCycle : ∃ g, twoWayCycle.flowGraph = .ok g ∧ g.dominators.immediate? ⟨3⟩ = some ⟨0⟩ ∧
    (twoWayCycle.flow ⟨0⟩).Closest ⟨0⟩ ⟨3⟩ := by
  have hsome : (twoWayCycle.flowGraph.toOption.bind fun g => g.dominators.immediate? 3) = some 0 := by decide +kernel
  obtain ⟨g, hg, himm⟩ := Success.exists_of_bind hsome
  have hjump : (twoWayCycle.flow 0).next 0 1 := ⟨by decide, by decide⟩
  have hleave : (twoWayCycle.flow 0).next 1 3 := ⟨by decide, by decide⟩
  obtain ⟨_, _, hblocks⟩ := dominatorTree_of_flowGraph hg
  obtain ⟨_, _, hclosest, _⟩ := hblocks 0 (by decide) 3 ((Relation.ReflTransGen.single hjump).tail hleave)
  obtain ⟨d, hd, hclosest, _⟩ := hclosest (by decide)
  cases himm.symm.trans hd
  exact ⟨g, hg, himm, hclosest⟩

end Kernel

end Spmd
