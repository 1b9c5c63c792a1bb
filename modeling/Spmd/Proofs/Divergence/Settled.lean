import Spmd.Divergence
import Spmd.Proofs.FlowGraph.Reachable

/-!
# What the sweeps have found when they end

The sweeps only ever add to what they have found. Two things hold when they stop.

* **`Consistent`** — what was added together fits together: a varying branch has tainted what follows it
  up to its join, a tainted block's successors are tainted or are joins, every join belongs to a varying
  branch, and the object that a varying instruction writes is on record. Every visit keeps this
  (`Consistent.visit`), so every sweep does.
* **`Settled`** — nothing is left to add: an instruction that was not found to vary does not vary, judged
  by all that was found (`settle_settled`). A sweep that found something new left fewer instructions
  undecided (`remaining_lt_of_visits`), so the last one found nothing.
-/

namespace Spmd

open Success List

variable {root? : Option MemRoot} {x b : BlockId}

/-- Whether the instruction is a branch that depends on a truth value. -/
def Site.isBranch (site : Site) : Bool :=
  match site.instr with
  | .condBr .. => true
  | _ => false

namespace Spread

/-- The objects on record with one more. -/
def record (writes : List MemRoot) : Option MemRoot → List MemRoot
  | some root => if writes.contains root then writes else writes ++ [root]
  | none => writes

theorem mem_record {writes : List MemRoot} {root : MemRoot} (h : root ∈ writes ∨ root? = some root) :
    root ∈ record writes root? := by
  cases root? with
  | none => exact h.resolve_right (by simp)
  | some new =>
    rw [record]
    split
    next hin =>
      rcases h with h | h
      · exact h
      · exact Option.some.inj h ▸ contains_iff_mem.mp hin
    · rcases h with h | h
      · exact mem_append_left _ h
      · exact Option.some.inj h ▸ mem_append_right _ (.head _)

/-- The spread with an instruction added, and the object that it writes. -/
def mark (s : Spread) (site : Site) (root? : Option MemRoot) : Spread :=
  { s with varying := s.varying.insert site.inst.index, writes := record s.writes root? }

theorem contains_mark (s : Spread) (site : Site) (root? : Option MemRoot) (i : InstId) :
    (s.mark site root?).varying.contains i.index = true ↔ s.varying.contains i.index = true ∨ site.inst = i := by
  show (s.varying.insert site.inst.index).contains i.index = true ↔ _
  rw [IndexSet.contains_insert, Bool.or_eq_true, beq_iff_eq, Id.index_inj]

end Spread

namespace DivergenceProblem

variable {p : DivergenceProblem} {s t : Spread} {site : Site}

/-- The blocks that the sweeps look at are closed under jumps, and each instruction has one place there. -/
structure WellPosed (p : DivergenceProblem) : Prop where
  closed : ∀ a ∈ p.graph.order, ∀ b ∈ p.graph.succs a, b ∈ p.graph.order
  placed : ∀ site ∈ p.sites, site.block ∈ p.graph.order
  once : ∀ site ∈ p.sites, ∀ other ∈ p.sites, site.inst = other.inst → site = other

/-! ## One visit -/

/-- Noting an instruction marks it, and a branch taints besides. -/
theorem note_eq_ok (h : p.note s site = .ok t) :
    ∃ root?, p.written? site = .ok root? ∧
      t = if site.isBranch then p.taint (s.mark site root?) site.block else s.mark site root? := by
  obtain ⟨root?, hroot, h⟩ := bind_eq_ok.mp h
  refine ⟨root?, hroot, ?_⟩
  have hbranch : ∀ new : Spread, (match site.instr with
      | .condBr .. => pure (p.taint new site.block)
      | _ => pure new) = (.ok t : Checked Spread) →
      t = if site.isBranch then p.taint new site.block else new := by
    intro new hnew
    unfold Site.isBranch
    split at hnew <;> exact (pure_eq_ok.mp hnew).symm
  cases root? with
  | none => exact hbranch _ h
  | some root =>
    unfold Spread.mark Spread.record
    dsimp only at h ⊢
    by_cases hin : s.writes.contains root = true
    · rw [if_pos hin] at h ⊢
      exact hbranch _ h
    · rw [if_neg hin] at h ⊢
      exact hbranch _ h

/-- A visit leaves things as they are, or the instruction is new and is noted. -/
theorem visit_cases (h : p.visit s site = .ok t) :
    (t = s ∧ (s.varying.contains site.inst.index = true ∨ p.varies s site = .ok false)) ∨
      (s.varying.contains site.inst.index = false ∧ p.varies s site = .ok true ∧ p.note s site = .ok t) := by
  rw [visit] at h
  split at h
  next hin =>
    exact .inl ⟨(pure_eq_ok.mp h).symm, .inl hin⟩
  next hnot =>
    obtain ⟨b, hb, h⟩ := bind_eq_ok.mp h
    cases b with
    | true => exact .inr ⟨by simpa using hnot, hb, h⟩
    | false => exact .inl ⟨(pure_eq_ok.mp h).symm, .inr hb⟩

/-! ## Tainting -/

theorem contains_joins_taint (p : DivergenceProblem) (s : Spread) (b j : BlockId) :
    (p.taint s b).joins.contains j.index = true ↔
      s.joins.contains j.index = true ∨ p.post.immediate? b = some j := by
  rw [taint, IndexSet.contains_insertAll, Bool.or_eq_true, contains_iff_mem]
  cases p.post.immediate? b with
  | none => simp
  | some join =>
    show _ ∨ j.index ∈ [join.index] ↔ _
    rw [mem_singleton, Id.index_inj, Option.some.injEq]
    exact or_congr_right eq_comm

/-- A step between blocks that does not go to the join. -/
def Onward (g : FlowGraph) (join : Option BlockId) (a b : BlockId) : Prop := b ∈ g.succs a ∧ some b ≠ join

instance (g : FlowGraph) (join : Option BlockId) (a b : BlockId) : Decidable (Onward g join a b) :=
  inferInstanceAs (Decidable (b ∈ g.succs a ∧ some b ≠ join))

/-- Tainting adds what a walk from the branch reaches through new blocks without going to the join. -/
theorem contains_tainted_taint (hs : ∀ x : BlockId, s.tainted.contains x.index = true → x ∈ p.graph.order)
    (b x : BlockId) :
    (p.taint s b).tainted.contains x.index = true ↔
      s.tainted.contains x.index = true ∨
        ∃ y, Onward p.graph (p.post.immediate? b) b y ∧
          (y ∈ p.graph.order ∧ s.tainted.contains y.index = false) ∧
          Relation.ReflTransGen (fun u v => Onward p.graph (p.post.immediate? b) u v ∧
            v ∈ p.graph.order ∧ s.tainted.contains v.index = false) y x := by
  have hold : ∀ y : BlockId, y ∈ p.graph.order.filter (fun c => s.tainted.contains c.index) ↔
      s.tainted.contains y.index = true := by
    intro y
    rw [mem_filter]
    exact ⟨fun h => h.2, fun h => ⟨hs y h, h⟩⟩
  have hnext : ∀ u v : BlockId,
      v ∈ (p.graph.succs u).filter (fun c => some c ≠ p.post.immediate? b) ↔
        Onward p.graph (p.post.immediate? b) u v := by
    intro u v
    rw [mem_filter, decide_eq_true_iff, Onward]
  rw [taint, IndexSet.contains_insertAll, Bool.or_eq_true, contains_iff_mem, Id.mem_map_index,
    Graph.mem_discover_iff]
  simp only [hold, hnext, Bool.not_eq_true]
  tauto

/-- What tainting adds is closed: its successors are tainted too, or they are the join. -/
theorem taint_spreads (hp : p.WellPosed) (hs : ∀ x : BlockId, s.tainted.contains x.index = true → x ∈ p.graph.order)
    {y : BlockId} (hb : b ∈ p.graph.order)
    (hx : x = b ∨ (p.taint s b).tainted.contains x.index = true ∧ s.tainted.contains x.index = false)
    (hxy : y ∈ p.graph.succs x) : (p.taint s b).tainted.contains y.index = true ∨ p.post.immediate? b = some y := by
  by_cases hjoin : p.post.immediate? b = some y
  · exact .inr hjoin
  refine .inl ((contains_tainted_taint hs b y).mpr ?_)
  have hon : Onward p.graph (p.post.immediate? b) x y := ⟨hxy, fun h => hjoin h.symm⟩
  cases hy : s.tainted.contains y.index with
  | true => exact .inl rfl
  | false =>
    right
    rcases hx with rfl | ⟨hx, hnew⟩
    · exact ⟨y, hon, ⟨hp.closed x hb y hxy, hy⟩, .refl⟩
    · rcases (contains_tainted_taint hs b x).mp hx with hold | ⟨z, hz, hzin, hwalk⟩
      · cases hold.symm.trans hnew
      · have hxin : x ∈ p.graph.order := by
          rcases Relation.ReflTransGen.cases_tail hwalk with rfl | ⟨_, _, _, hxin, _⟩
          · exact hzin.1
          · exact hxin
        exact ⟨z, hz, hzin, hwalk.tail ⟨hon, hp.closed x hxin y hxy, hy⟩⟩

theorem taint_reachable (hs : ∀ x : BlockId, s.tainted.contains x.index = true → x ∈ p.graph.order)
    (hx : (p.taint s b).tainted.contains x.index = true) : x ∈ p.graph.order := by
  rcases (contains_tainted_taint hs b x).mp hx with hold | ⟨z, _, hzin, hwalk⟩
  · exact hs x hold
  · rcases Relation.ReflTransGen.cases_tail hwalk with rfl | ⟨_, _, _, hxin, _⟩
    · exact hzin.1
    · exact hxin

/-! ## What every visit keeps -/

/-- What was added together fits together. -/
structure Consistent (p : DivergenceProblem) (s : Spread) : Prop where
  reachable : ∀ b : BlockId, s.tainted.contains b.index = true → b ∈ p.graph.order
  /-- Control leaves a tainted block for a tainted block or for a join. -/
  spread : ∀ a : BlockId, s.tainted.contains a.index = true → ∀ b ∈ p.graph.succs a,
    s.tainted.contains b.index = true ∨ s.joins.contains b.index = true
  /-- Control leaves a varying branch for a tainted block or for the branch's own join. -/
  branch : ∀ site ∈ p.sites, site.isBranch = true → s.varying.contains site.inst.index = true →
    ∀ b ∈ p.graph.succs site.block,
      s.tainted.contains b.index = true ∨ p.post.immediate? site.block = some b
  /-- The joins are those of the varying branches. -/
  joins : ∀ j : BlockId, s.joins.contains j.index = true ↔
    ∃ site ∈ p.sites, site.isBranch = true ∧ s.varying.contains site.inst.index = true ∧
      p.post.immediate? site.block = some j
  /-- Nothing is tainted before there is a varying branch. -/
  cause : ∀ b : BlockId, s.tainted.contains b.index = true →
    ∃ site ∈ p.sites, site.isBranch = true ∧ s.varying.contains site.inst.index = true
  writes : ∀ site ∈ p.sites, s.varying.contains site.inst.index = true →
    ∃ root?, p.written? site = .ok root? ∧ ∀ root, root? = some root → root ∈ s.writes

theorem consistent_empty (p : DivergenceProblem) : p.Consistent {} where
  reachable b h := by cases h
  spread a h := by cases h
  branch site _ _ h := by cases h
  joins j := by simp
  cause b h := by cases h
  writes site _ h := by cases h

namespace Consistent

section

variable (hp : p.WellPosed) (hs : p.Consistent s) (hsite : site ∈ p.sites)
include hp hs hsite

theorem writes_mark (hroot : p.written? site = .ok root?) :
    ∀ other ∈ p.sites, (s.mark site root?).varying.contains other.inst.index = true →
      ∃ other?, p.written? other = .ok other? ∧ ∀ root, other? = some root → root ∈ (s.mark site root?).writes := by
  intro other hother h
  rcases (s.contains_mark site root? other.inst).mp h with h | heq
  · obtain ⟨other?, hwritten, hmem⟩ := hs.writes other hother h
    exact ⟨other?, hwritten, fun root hr => Spread.mem_record (.inl (hmem root hr))⟩
  · obtain rfl := hp.once site hsite other hother heq
    exact ⟨root?, hroot, fun root hr => Spread.mem_record (.inr hr)⟩

/-- Marking an instruction that is no branch changes nothing but the record of what is written. -/
theorem mark (hbranch : site.isBranch = false) (hroot : p.written? site = .ok root?) :
    p.Consistent (s.mark site root?) := by
  -- a varying branch after the marking varied before it
  have hold : ∀ other ∈ p.sites, other.isBranch = true →
      (s.mark site root?).varying.contains other.inst.index = true →
      s.varying.contains other.inst.index = true := by
    intro other hother hb h
    rcases (s.contains_mark site root? other.inst).mp h with h | heq
    · exact h
    · rw [hp.once site hsite other hother heq, hb] at hbranch
      exact Bool.noConfusion hbranch
  have hmono : ∀ i : InstId, s.varying.contains i.index = true →
      (s.mark site root?).varying.contains i.index = true :=
    fun i h => (s.contains_mark site root? i).mpr (.inl h)
  refine ⟨hs.reachable, hs.spread, ?_, ?_, ?_, ?_⟩
  · intro other hother hb h
    exact hs.branch other hother hb (hold other hother hb h)
  · intro j
    rw [show (s.mark site root?).joins = s.joins from rfl, hs.joins j]
    constructor
    · rintro ⟨other, hother, hb, h, hj⟩
      exact ⟨other, hother, hb, hmono _ h, hj⟩
    · rintro ⟨other, hother, hb, h, hj⟩
      exact ⟨other, hother, hb, hold other hother hb h, hj⟩
  · intro b hb
    obtain ⟨other, hother, hbr, h⟩ := hs.cause b hb
    exact ⟨other, hother, hbr, hmono _ h⟩
  · exact hs.writes_mark hp hsite hroot

/-- Marking a branch and tainting behind it. -/
theorem taint (hbranch : site.isBranch = true) (hroot : p.written? site = .ok root?) :
    p.Consistent (p.taint (s.mark site root?) site.block) := by
  have hmono : ∀ i : InstId, s.varying.contains i.index = true →
      (s.mark site root?).varying.contains i.index = true :=
    fun i h => (s.contains_mark site root? i).mpr (.inl h)
  have hself : (s.mark site root?).varying.contains site.inst.index = true :=
    (s.contains_mark site root? site.inst).mpr (.inr rfl)
  have hreach : ∀ x : BlockId, (s.mark site root?).tainted.contains x.index = true → x ∈ p.graph.order :=
    hs.reachable
  have hblock := hp.placed site hsite
  have hgrow : ∀ x : BlockId, s.tainted.contains x.index = true →
      (p.taint (s.mark site root?) site.block).tainted.contains x.index = true :=
    fun x h => (contains_tainted_taint hreach site.block x).mpr (.inl h)
  have hjoins := p.contains_joins_taint (s.mark site root?) site.block
  refine ⟨fun b => taint_reachable hreach, ?_, ?_, ?_, ?_, ?_⟩
  · intro a ha b hb
    cases hold : s.tainted.contains a.index with
    | true =>
      rcases hs.spread a hold b hb with h | h
      · exact .inl (hgrow b h)
      · exact .inr ((hjoins b).mpr (.inl h))
    | false =>
      rcases taint_spreads hp hreach hblock (.inr ⟨ha, hold⟩) hb with h | h
      · exact .inl h
      · exact .inr ((hjoins b).mpr (.inr h))
  · intro other hother hb h c hc
    rcases (s.contains_mark site root? other.inst).mp h with h | heq
    · exact (hs.branch other hother hb h c hc).imp_left (hgrow c)
    · obtain rfl := hp.once site hsite other hother heq
      exact taint_spreads hp hreach hblock (.inl rfl) hc
  · intro j
    rw [hjoins j, show (s.mark site root?).joins = s.joins from rfl, hs.joins j]
    constructor
    · rintro (⟨other, hother, hb, h, hj⟩ | hj)
      · exact ⟨other, hother, hb, hmono _ h, hj⟩
      · exact ⟨site, hsite, hbranch, hself, hj⟩
    · rintro ⟨other, hother, hb, h, hj⟩
      rcases (s.contains_mark site root? other.inst).mp h with h | heq
      · exact .inl ⟨other, hother, hb, h, hj⟩
      · obtain rfl := hp.once site hsite other hother heq
        exact .inr hj
  · intro _ _
    exact ⟨site, hsite, hbranch, hself⟩
  · exact hs.writes_mark hp hsite hroot

/-- **Every visit keeps what was found consistent.** -/
theorem visit (h : p.visit s site = .ok t) : p.Consistent t := by
  rcases visit_cases h with ⟨rfl, _⟩ | ⟨_, _, hnote⟩
  · exact hs
  · obtain ⟨root?, hroot, rfl⟩ := note_eq_ok hnote
    cases hbranch : site.isBranch with
    | true => exact hs.taint hp hsite hbranch hroot
    | false => exact hs.mark hp hsite hbranch hroot

end

theorem sweep (hp : p.WellPosed) (hs : p.Consistent s) (h : p.sweep s = .ok t) : p.Consistent t :=
  foldlM_invariant p.Consistent (fun _ _ _ hmem hs h => hs.visit hp hmem h) hs h

end Consistent

/-! ## The end of the sweeps -/

/-- Nothing is left to add. -/
def Settled (p : DivergenceProblem) (s : Spread) : Prop :=
  ∀ site ∈ p.sites, s.varying.contains site.inst.index = false → p.varies s site = .ok false

/-- An instruction that is noted is no longer undecided. -/
theorem remaining_note_lt (hsite : site ∈ p.sites) (hnew : s.varying.contains site.inst.index = false)
    (h : p.note s site = .ok t) : p.remaining t < p.remaining s := by
  obtain ⟨root?, _, ht⟩ := note_eq_ok h
  have hvarying : t.varying = (s.mark site root?).varying := by
    rw [ht]
    split <;> rfl
  rw [remaining, remaining, countP_eq_length_filter, countP_eq_length_filter]
  -- the undecided instructions afterwards are those from before that are not the one just noted
  have hfilter : (p.sites.filter fun other => !t.varying.contains other.inst.index) =
      (p.sites.filter fun other => !s.varying.contains other.inst.index).filter
        fun other => site.inst ≠ other.inst := by
    rw [filter_filter]
    refine filter_congr fun other _ => ?_
    have := s.contains_mark site root? other.inst
    rw [← hvarying] at this
    rw [Bool.eq_iff_iff]
    simp only [Bool.and_eq_true, Bool.not_eq_true', ← Bool.not_eq_true, decide_eq_true_iff, this, not_or]
    exact and_comm
  rw [hfilter]
  refine length_filter_lt_length_iff_exists.mpr ⟨site, ?_, by simp⟩
  exact mem_filter.mpr ⟨hsite, by rw [hnew]; rfl⟩

/-- Visits that find something new leave fewer instructions undecided. The others change nothing. -/
theorem remaining_lt_of_visits {sites : List Site} (hsub : ∀ site ∈ sites, site ∈ p.sites)
    (h : sites.foldlM p.visit s = .ok t) :
    p.remaining t < p.remaining s ∨
      (t = s ∧ ∀ site ∈ sites, s.varying.contains site.inst.index = true ∨ p.varies s site = .ok false) := by
  induction sites generalizing s with
  | nil =>
    rw [foldlM_nil, pure_eq_ok] at h
    exact .inr ⟨h.symm, fun _ hx => absurd hx not_mem_nil⟩
  | cons site sites ih =>
    obtain ⟨u, hu, h⟩ := bind_eq_ok.mp h
    have hrest := ih (fun x hx => hsub x (.tail _ hx)) h
    rcases visit_cases hu with ⟨rfl, hquiet⟩ | ⟨hnew, _, hnote⟩
    · refine hrest.imp_right fun ⟨heq, hall⟩ => ⟨heq, ?_⟩
      exact forall_mem_cons.mpr ⟨hquiet, hall⟩
    · left
      have hlt := remaining_note_lt (hsub site (.head _)) hnew hnote
      rcases hrest with hrest | ⟨rfl, _⟩
      · exact Nat.lt_trans hrest hlt
      · exact hlt

/-- **When the sweeps end, nothing is left to add and all that was found fits together.** -/
theorem settle_settled (hp : p.WellPosed) {s t : Spread} (hs : p.Consistent s) (h : p.settle s = .ok t) :
    p.Consistent t ∧ p.Settled t := by
  rw [settle] at h
  obtain ⟨u, hu, h⟩ := bind_eq_ok.mp h
  split at h
  · exact settle_settled hp (hs.sweep hp hu) h
  next hless =>
    obtain rfl := pure_eq_ok.mp h
    refine ⟨hs.sweep hp hu, fun site hsite hnot => ?_⟩
    rcases remaining_lt_of_visits (fun _ h => h) hu with hlt | ⟨rfl, hquiet⟩
    · exact absurd hlt hless
    · refine (hquiet site hsite).resolve_left fun hin => ?_
      rw [hin] at hnot
      exact Bool.noConfusion hnot
termination_by p.remaining s

end DivergenceProblem

end Spmd
