import Spmd.Proofs.Divergence.Settled
import Spmd.Proofs.FlowGraph.Dominance
import Spmd.Proofs.Kernel.Coherent
import Spmd.Proofs.Kernel.Listing

/-!
# Divergence and control

What the analysis says of the blocks behind a varying branch.

* **`Kernel.divergence_eq_ok`** — an answer of the analysis is what settled sweeps over the instructions of
  the reachable blocks have found.
* **`Between`** — the blocks that control can go through behind a block before it comes to the block's join.
* **`divergent_between_iff`** — all blocks between a varying branch and its join are divergent exactly if
  those of them are that are joins of varying branches themselves. Tainting stops at blocks that are
  tainted already, so it may miss a join that an earlier tainting stopped at, and only such a join.
-/

namespace Spmd

open Success Kernel

variable {k : Kernel} {classify : Classifier} {g : FlowGraph} {dimension : Nat} {site : Site} {sites : List Site}
  {b : BlockId}

namespace Kernel

variable {d : Divergence}

/-- The problem that the sweeps solve for a kernel. -/
def divergenceProblem (k : Kernel) (g : FlowGraph) (sites : List Site) (dimension : Nat) : DivergenceProblem :=
  { kernel := k, graph := g, post := g.postDominators, sites, dimension }

/-! ## The sites -/

theorem mem_sites (h : k.sites classify g = .ok sites) (hsite : site ∈ sites) :
    site.block ∈ g.order ∧ site.inst ∈ k.instsOf site.block ∧ k.instr? site.inst = some site.instr ∧
      k.callKind? classify site.inst = .ok site.call := by
  obtain ⟨⟨b, i⟩, hmem, hmake⟩ := exists_of_mem_mapM h hsite
  obtain ⟨c, hc, hmem⟩ := List.mem_flatMap.mp hmem
  obtain ⟨j, hj, heq⟩ := List.mem_map.mp hmem
  cases heq
  obtain ⟨def', hdef, hmake⟩ := bind_eq_ok.mp hmake
  obtain ⟨call, hcall, rfl⟩ := bind_pure_eq_ok.mp hmake
  exact ⟨hc, hj, by rw [instr?, some?_eq_ok.mp hdef]; rfl, hcall⟩

theorem exists_site (h : k.sites classify g = .ok sites) (hb : b ∈ g.order) {i : InstId} (hi : i ∈ k.instsOf b) :
    ∃ site ∈ sites, site.block = b ∧ site.inst = i := by
  have hmem : (b, i) ∈ g.order.flatMap fun b => (k.instsOf b).map (b, ·) :=
    List.mem_flatMap.mpr ⟨b, hb, List.mem_map.mpr ⟨i, hi, rfl⟩⟩
  obtain ⟨site, hsite, hmake⟩ := mem_mapM_of_mem h hmem
  obtain ⟨_, _, hmake⟩ := bind_eq_ok.mp hmake
  obtain ⟨_, _, rfl⟩ := bind_pure_eq_ok.mp hmake
  exact ⟨_, hsite, rfl, rfl⟩

/-- Where no instruction stands in two of the reachable blocks, each has one place among the sites. -/
theorem wellPosed (hg : k.flowGraph = .ok g) (h : k.sites classify g = .ok sites)
    (honce : ∀ b ∈ g.order, ∀ c ∈ g.order, ∀ i ∈ k.instsOf b, i ∈ k.instsOf c → b = c) :
    (k.divergenceProblem g sites dimension).WellPosed where
  closed a ha b hb := succs_mem_order hg ha hb
  placed site hsite := (mem_sites h hsite).1
  once := by
    rintro ⟨b, i, instr, call⟩ hsite ⟨c, j, instr', call'⟩ hother (rfl : i = j)
    obtain ⟨hb, hib, hinstr, hcall⟩ := mem_sites h hsite
    obtain ⟨hc, hic, hinstr', hcall'⟩ := mem_sites h hother
    have hbc : b = c := honce b hb c hc i hib hic
    have hin : instr = instr' := mem_unique hinstr hinstr'
    have hca : call = call' := ok_unique hcall hcall'
    rw [hbc, hin, hca]

/-- **The analysis answers with what settled sweeps have found.** -/
theorem divergence_eq_ok (hg : k.flowGraph = .ok g) (h : k.divergence classify dimension = .ok d)
    (honce : ∀ b ∈ g.order, ∀ c ∈ g.order, ∀ i ∈ k.instsOf b, i ∈ k.instsOf c → b = c) :
    ∃ sites s, k.sites classify g = .ok sites ∧
      (k.divergenceProblem g sites dimension).Consistent s ∧
      (k.divergenceProblem g sites dimension).Settled s ∧
      d.varying = s.varying ∧ d.tainted = s.tainted ∧
      d.branches = (g.order.filterMap k.terminator?).filter fun i => match k.instr? i with
        | some (.condBr ..) => s.varying.contains i.index
        | _ => false := by
  obtain ⟨g', hg', h⟩ := bind_eq_ok.mp h
  obtain rfl := ok_unique hg' hg
  obtain ⟨sites, hsites, h⟩ := bind_eq_ok.mp h
  obtain ⟨s, hs, rfl⟩ := bind_pure_eq_ok.mp h
  have hsettled := DivergenceProblem.settle_settled (wellPosed hg hsites honce)
    (DivergenceProblem.consistent_empty _) hs
  exact ⟨sites, s, hsites, hsettled.1, hsettled.2, rfl, rfl, rfl⟩

end Kernel

namespace FlowGraph

/-- `x` lies behind `b`, and control can come to it without going through `join`. -/
def Between (g : FlowGraph) (join : Option BlockId) (b x : BlockId) : Prop :=
  Relation.TransGen (DivergenceProblem.Onward g join) b x

end FlowGraph

/-! ## Behind a varying branch -/

section

variable {d : Divergence}

/-- Some branch of the block depends on a truth value that varies. -/
def Divergence.BranchesAt (d : Divergence) (k : Kernel) (a : BlockId) : Prop :=
  ∃ i ∈ k.instsOf a, d.isVaryingInst i = true ∧ ∃ c t e, k.instr? i = some (.condBr c t e)

theorem Site.isBranch_iff : site.isBranch = true ↔ ∃ c t e, site.instr = .condBr c t e := by
  unfold Site.isBranch
  split
  next c t e heq =>
    exact ⟨fun _ => ⟨c, t, e, heq⟩, fun _ => rfl⟩
  next hother =>
    exact ⟨fun h => absurd h Bool.false_ne_true, fun ⟨c, t, e, heq⟩ => absurd heq (hother c t e)⟩

/-- **Control dependence behind a varying branch.** The blocks between the branch and its join are all
divergent exactly if those among them are that are joins of varying branches. In a divergent block every
instruction varies, and so does every phi of the join. Of the kernel it is only asked what holds of every
linked one, that no instruction stands in two blocks. -/
theorem divergent_between_iff (honce : ∀ b c i, i ∈ k.instsOf b → i ∈ k.instsOf c → b = c)
    (hg : k.flowGraph = .ok g) (hd : k.divergence classify dimension = .ok d) {b : BlockId}
    (hb : b ∈ g.order) {i : InstId}
    (hi : k.terminator? b = some i) {c : ValueId} {t e : BlockId} (hbranch : k.instr? i = some (.condBr c t e))
    (hvaries : d.isVaryingInst i = true) :
    ((∀ x, g.Between (g.postDominators.immediate? b) b x → d.isDivergentBlock x = true) ↔
      ∀ a ∈ g.order, d.BranchesAt k a → ∀ j, g.postDominators.immediate? a = some j →
        g.Between (g.postDominators.immediate? b) b j → d.isDivergentBlock j = true) ∧
    (∀ x, d.isDivergentBlock x = true → ∀ j ∈ k.instsOf x, d.isVaryingInst j = true) ∧
    ∀ j, g.postDominators.immediate? b = some j → ∀ phi ∈ k.instsOf j, k.isPhi phi = true →
      d.isVaryingInst phi = true := by
  obtain ⟨sites, s, hsites, hs, hsettled, hvarying, htainted, _⟩ :=
    divergence_eq_ok hg hd fun b _ c _ i hb hc => honce b c i hb hc
  have hblock : ∀ x, d.isDivergentBlock x = s.tainted.contains x.index := fun x => by
    rw [Divergence.isDivergentBlock, htainted]
  have hinst : ∀ j, d.isVaryingInst j = s.varying.contains j.index := fun j => by
    rw [Divergence.isVaryingInst, hvarying]
  obtain ⟨site, hsite, rfl, rfl⟩ := exists_site hsites hb (mem_instsOf_of_terminator? hi)
  have hinstr : site.instr = .condBr c t e := mem_unique (mem_sites hsites hsite).2.2.1 hbranch
  have hisBranch : site.isBranch = true := Site.isBranch_iff.mpr ⟨c, t, e, hinstr⟩
  have hsvaries : s.varying.contains site.inst.index = true := hinst site.inst ▸ hvaries
  refine ⟨⟨fun h a _ _ j _ hj => h j hj, fun h x hx => ?_⟩, ?_, ?_⟩
  · -- along the walk, a block is tainted or it is the join of a varying branch
    rw [hblock]
    induction hx with
    | single hstep =>
      exact (hs.branch site hsite hisBranch hsvaries _ hstep.1).resolve_right fun hj => hstep.2 hj.symm
    | @tail y z hwalk hstep ih =>
      rcases hs.spread y ih z hstep.1 with hz | hz
      · exact hz
      · obtain ⟨other, hother, hotherBranch, hotherVaries, hj⟩ := (hs.joins z).mp hz
        obtain ⟨ha, hmem, hother', _⟩ := mem_sites hsites hother
        obtain ⟨c', t', e', heq⟩ := Site.isBranch_iff.mp hotherBranch
        rw [← hblock]
        refine h other.block ha ⟨other.inst, hmem, ?_, c', t', e', heq ▸ hother'⟩ z hj (hwalk.tail hstep)
        rwa [hinst]
  · intro x hx j hj
    rw [hblock] at hx
    rw [hinst]
    by_contra hnot
    obtain ⟨other, hother, rfl, rfl⟩ := exists_site hsites (hs.reachable x hx) hj
    have hquiet := hsettled other hother (by simpa using hnot)
    rw [DivergenceProblem.varies, if_pos hx] at hquiet
    exact Bool.noConfusion (Except.ok.inj hquiet)
  · intro j hj phi hphi hisPhi
    rw [hinst]
    by_contra hnot
    obtain ⟨other, hother, rfl, rfl⟩ := exists_site hsites (FlowGraph.join_mem_order hj) hphi
    have hquiet := hsettled other hother (by simpa using hnot)
    have hjoin : s.joins.contains other.block.index = true :=
      (hs.joins other.block).mpr ⟨site, hsite, hisBranch, hsvaries, hj⟩
    rw [isPhi, (mem_sites hsites hother).2.2.1] at hisPhi
    obtain ⟨incoming, hincoming⟩ := Instr.isPhi_iff.mp hisPhi
    rw [DivergenceProblem.varies, hincoming] at hquiet
    rw [if_pos hjoin, ite_self] at hquiet
    exact Bool.noConfusion (Except.ok.inj hquiet)

end

/-! ## A join that stays behind

The outer branch of `nestedBranches` is found to vary only in the second sweep, when the store behind its
join is known. By then the blocks of the inner branch are tainted, and the walk that taints for the outer
branch does not look behind them. -/

/-- A branch on a flag from memory around a branch that depends on the lane. -/
def nestedBranches : Kernel := .ofListing "nested" .void [("flag", .ptr)] []
  [("entry", [(.call "is_odd_lane" [] none, .bool), (.load 0 none 1, .bool), (.condBr 2 1 5, .void)]),
    ("then", [(.condBr 1 2 3, .void)]), ("odd", [(.br 4, .void)]), ("even", [(.br 4, .void)]),
    ("inner", [(.br 5, .void)]), ("outer", [(.store 0 1 none 1, .void), (.ret none, .void)])]

def nestedGraph : FlowGraph where
  entry := some 0
  succTable := ⟨#[[1, 5], [2, 3], [4], [4], [5], []], []⟩
  predTable := ⟨#[[], [0], [1], [1], [2, 3], [0, 4]], []⟩
  order := [0, 1, 3, 2, 4, 5]
  exits := [5]

/-- Every call asks for the lane. -/
def laneCalls : Classifier := fun _ => .laneIdentity .subGroup

set_option maxRecDepth 4000 in
theorem flowGraph_nestedBranches : nestedBranches.flowGraph = .ok nestedGraph := by
  cbv

theorem divergence_nestedBranches : ∃ d, nestedBranches.divergence laneCalls 0 = .ok d ∧
    d.isVaryingInst 2 = true ∧ d.isVaryingInst 3 = true ∧ d.isDivergentBlock 4 = false := by
  have h : (nestedBranches.divergence laneCalls 0).toOption.any
      (fun d => d.isVaryingInst 2 && (d.isVaryingInst 3 && !d.isDivergentBlock 4)) = true := by
    rw [divergence, flowGraph_nestedBranches]
    decide +kernel
  obtain ⟨d, hd, h⟩ := exists_of_any h
  exact ⟨d, hd, by simpa using h⟩

theorem join_nestedBranches : nestedGraph.postDominators.immediate? ⟨0⟩ = some ⟨5⟩ := by
  decide +kernel

theorem join_innerBranch : nestedGraph.postDominators.immediate? 1 = some 4 := by
  decide +kernel

/-- Both blocks behind the inner branch are divergent, for no branch has its join there. -/
theorem divergent_between_nestedBranches : ∃ d, nestedBranches.divergence laneCalls 0 = .ok d ∧
    nestedGraph.Between (nestedGraph.postDominators.immediate? 1) 1 2 ∧
    ∀ x, nestedGraph.Between (nestedGraph.postDominators.immediate? 1) 1 x → d.isDivergentBlock x = true := by
  obtain ⟨d, hd, _, hvaries, _⟩ := divergence_nestedBranches
  have honward : ∀ x y, DivergenceProblem.Onward nestedGraph (some 4) x y →
      x = 1 ∨ x = 2 ∨ x = 3 → y = 2 ∨ y = 3 := by
    rintro x y ⟨hy, hne⟩ (rfl | rfl | rfl)
    · exact List.mem_pair.mp hy
    all_goals exact absurd (congrArg some (List.mem_singleton.mp hy)) hne
  have hbetween : ∀ x, nestedGraph.Between (some 4) 1 x → x = 2 ∨ x = 3 := fun x hx => by
    induction hx with
    | single h => exact honward 1 _ h (.inl rfl)
    | tail _ h ih => exact honward _ _ h (.inr ih)
  refine ⟨d, hd, ?_, (divergent_between_iff (Coherent.once (by decide)) flowGraph_nestedBranches hd
    (by decide) (by decide) (by decide : nestedBranches.instr? 3 = some (.condBr 1 2 3)) hvaries).1.mpr ?_⟩
  · rw [join_innerBranch]
    exact .single (by decide)
  · -- the joins of all branches are blocks 4 and 5
    intro a ha _ j hj hx
    rw [join_innerBranch] at hx
    have hnot : ∀ a ∈ nestedGraph.order, nestedGraph.postDominators.immediate? a ≠ some 2 ∧
        nestedGraph.postDominators.immediate? a ≠ some 3 := by decide +kernel
    rcases hbetween j hx with rfl | rfl
    · exact absurd hj (hnot a ha).1
    · exact absurd hj (hnot a ha).2

/-- The join of the inner branch lies between the outer branch and its join, and is not divergent. -/
theorem inner_join_not_divergent : ∃ d, nestedBranches.divergence laneCalls 0 = .ok d ∧
    nestedBranches.flowGraph = .ok nestedGraph ∧ nestedBranches.terminator? ⟨0⟩ = some ⟨2⟩ ∧
    nestedBranches.instr? ⟨2⟩ = some (.condBr ⟨2⟩ ⟨1⟩ ⟨5⟩) ∧ d.isVaryingInst ⟨2⟩ = true ∧
    nestedGraph.Between (nestedGraph.postDominators.immediate? ⟨0⟩) ⟨0⟩ ⟨4⟩ ∧
    d.isDivergentBlock ⟨4⟩ = false := by
  obtain ⟨d, hd, hvaries, _, hdivergent⟩ := divergence_nestedBranches
  refine ⟨d, hd, flowGraph_nestedBranches, by decide, by decide, hvaries, ?_, hdivergent⟩
  rw [join_nestedBranches]
  have hentry : DivergenceProblem.Onward nestedGraph (some ⟨5⟩) ⟨0⟩ 1 := by decide
  have hthen : DivergenceProblem.Onward nestedGraph (some ⟨5⟩) 1 2 := by decide
  have hodd : DivergenceProblem.Onward nestedGraph (some ⟨5⟩) 2 ⟨4⟩ := by decide
  exact ((Relation.TransGen.single hentry).tail hthen).tail hodd

end Spmd
