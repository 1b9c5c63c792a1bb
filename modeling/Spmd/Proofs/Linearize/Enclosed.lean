import Spmd.Proofs.FlowGraph.Reducible
import Spmd.Proofs.Kernel.Listing
import Spmd.Proofs.Kernel.Sound
import Spmd.Region

/-!
# Which branches have a region

The blocks between a branch and its join can be flattened if control comes to them through the branch alone, does not
come back to the branch before the join, and does not go round in circles among them (`Flow.Enclosed`).

* **`Flow.Enclosed.not_mem_trail`** — a jump between two such blocks never leads to a block of the trail that the
  search came on: up the trail from either block one comes to the head first, and the head is on the trail once.
* **`Kernel.regionObstacle?_iff`** — so a region is refused for a jump against the order only if the entry is one of its
  blocks, where the search starts in the middle of the region.
* **`Kernel.exists_region_iff`** — a branch has a region exactly if its blocks are enclosed and, in that one case, the
  order goes forward in them. The region then lists these blocks, each behind the blocks that jump to it.
-/

namespace Spmd

open Success List FlowGraph
open Relation (ReflTransGen TransGen)

variable {k : Kernel} {g : FlowGraph} {head b join a : BlockId} {l members : List BlockId} {post : DominatorTree}

/-! ## What is looked at -/

namespace FlowGraph

/-- The blocks between a head and a join: reached from the head without going through the join. -/
theorem mem_between_iff :
    b ∈ g.between head join ↔ ∃ s, s ∈ g.succs head ∧ s ≠ join ∧ s ∈ g.order ∧
      ReflTransGen (fun x y => (y ∈ g.succs x ∧ y ≠ join) ∧ y ∈ g.order) s b := by
  rw [between, Graph.mem_discover_iff]
  simp only [not_mem_nil, false_or, not_false_eq_true, and_true, mem_filter, decide_eq_true_eq, ne_eq]
  exact ⟨fun ⟨s, ⟨hs, hne⟩, ho, hwalk⟩ => ⟨s, hs, hne, ho, hwalk⟩, fun ⟨s, hs, hne, ho, hwalk⟩ => ⟨s, ⟨hs, hne⟩, ho, hwalk⟩⟩

theorem between_subset_order (h : b ∈ g.between head join) : b ∈ g.order := by
  obtain ⟨s, _, _, hs, hwalk⟩ := mem_between_iff.mp h
  rcases ReflTransGen.cases_tail hwalk with rfl | ⟨_, _, hstep⟩
  · exact hs
  · exact hstep.2

theorem avoiding_of_between (h : b ∈ g.between head join) : Avoiding (fun x y => y ∈ g.succs x) join head b := by
  obtain ⟨s, hs, hne, _, hwalk⟩ := mem_between_iff.mp h
  exact .head ⟨hs, hne⟩ (ReflTransGen.mono (fun _ _ h => h.1) _ _ hwalk)

theorem regionObstacle?_eq_none (h : g.regionObstacle? head members = none) :
    head ∉ members ∧ (∀ b ∈ members, ∀ p ∈ g.preds b, p = head ∨ p ∈ members) ∧
      ∀ e ∈ g.retreatingEdges, ¬(e.1 ∈ members ∧ e.2 ∈ members) := by
  rw [regionObstacle?] at h
  split at h
  · cases h
  rename_i hhead
  split at h
  · cases h
  rename_i hside
  split at h
  · cases h
  rename_i hinner
  refine ⟨by simpa using hhead, fun b hb p hp => ?_, fun e he hboth => hinner ?_⟩
  · by_contra hnot
    rw [not_or] at hnot
    exact hside (any_eq_true.mpr ⟨b, hb, any_eq_true.mpr ⟨p, hp, by simpa using hnot⟩⟩)
  · exact any_eq_true.mpr ⟨e, he, by simpa using hboth⟩

end FlowGraph

namespace Kernel

variable {r : Region} {branch : InstId}

theorem region_eq_ok (h : k.region g post branch = .ok r) :
    ∃ d, k.inst? branch = some d ∧ r.head = d.block ∧ post.immediate? r.head = some r.join ∧
      g.regionObstacle? r.head (g.between r.head r.join) = none ∧
      r.blocks = g.order.filter (g.between r.head r.join).contains := by
  rw [region] at h
  obtain ⟨d, hd, h⟩ := bind_eq_ok.mp h
  have hd' := some?_eq_ok.mp (Attempt.liftM_eq_ok.mp hd)
  dsimp only at h
  split at h
  · exact absurd h throw_ne_ok
  rename_i join hjoin
  split at h
  · exact absurd h throw_ne_ok
  rename_i hnone
  obtain rfl := pure_eq_ok.mp h
  exact ⟨d, hd', rfl, hjoin, hnone, rfl⟩

end Kernel

/-! ## Enclosed blocks -/

namespace Flow

variable {φ : Flow} {r rest : List BlockId}

/-- Control gets from `head` to `b` by one or more jumps, none of which goes to `join`. -/
def Between (φ : Flow) (head join b : BlockId) : Prop := TransGen (fun x y => φ.next x y ∧ y ≠ join) head b

/-- Control comes to the blocks between a head and a join through the head alone, and passes each of them at most once
before it comes to the join. -/
structure Enclosed (φ : Flow) (head join : BlockId) : Prop where
  notBack : ¬φ.Between head join head
  entered : ∀ p b, φ.Reached p → φ.next p b → φ.Between head join b → p = head ∨ φ.Between head join p
  acyclic : ∀ b rest, φ.Circuit b rest → ∃ c ∈ b :: rest, ¬φ.Between head join c

section

variable (h : φ.Enclosed head join)
include h

/-- Up a trail, the block behind a block between is the head or another block between. -/
theorem Enclosed.behind (hlinked : (a :: b :: rest).IsChain fun y x => φ.next x y)
    (hlast : (a :: b :: rest).getLast? = some φ.root) (ha : φ.Between head join a) : b = head ∨ φ.Between head join b := by
  obtain ⟨hba, hrest⟩ := isChain_cons_cons.mp hlinked
  have hpath := path_of_trail hrest (by simpa [getLast?_cons_cons] using hlast)
  exact h.entered b a hpath.reached hba ha

/-- Up a trail to a root that is not between, a block between has the head behind it. -/
theorem Enclosed.head_mem_trail (hroot : ¬φ.Between head join φ.root)
    (hlinked : (b :: r).IsChain fun y x => φ.next x y) (hlast : (b :: r).getLast? = some φ.root)
    (hb : φ.Between head join b) : head ∈ r := by
  induction r generalizing b with
  | nil =>
    obtain rfl : b = φ.root := by simpa using hlast
    exact absurd hb hroot
  | cons c r ih =>
    rcases h.behind hlinked hlast hb with rfl | hc
    · exact .head _
    · exact .tail _ (ih hlinked.tail (by simpa [getLast?_cons_cons] using hlast) hc)

/-- Up a trail from a block between, one comes to the head or stays between. -/
theorem Enclosed.head_mem_or_between
    (hlinked : (l ++ b :: r).IsChain fun y x => φ.next x y) (hlast : (l ++ b :: r).getLast? = some φ.root)
    (hhead : (l ++ b :: r).head? = some a) (ha : φ.Between head join a) : head ∈ l ∨ ∀ c ∈ l, φ.Between head join c := by
  induction l generalizing a with
  | nil => exact .inr nofun
  | cons x l ih =>
    obtain rfl : x = a := by simpa using hhead
    cases l with
    | nil =>
      refine .inr fun c hc => ?_
      exact mem_singleton.mp hc ▸ ha
    | cons y l =>
      rcases h.behind hlinked hlast ha with rfl | hy
      · exact .inl (by simp)
      · rcases ih hlinked.tail (by simpa [getLast?_cons_cons] using hlast) rfl hy with hmem | hall
        · exact .inl (.tail _ hmem)
        · exact .inr (forall_mem_cons.mpr ⟨ha, hall⟩)

/-- **A jump between two blocks between leads off the trail**, if the root is not one of them. -/
theorem Enclosed.not_mem_trail {trail : List BlockId} (hroot : ¬φ.Between head join φ.root)
    (hhead : trail.head? = some a) (hlast : trail.getLast? = some φ.root) (hlinked : trail.IsChain fun y x => φ.next x y)
    (hnodup : trail.Nodup) (ha : φ.Between head join a) (hb : φ.Between head join b) (hab : φ.next a b) : b ∉ trail := by
  intro hmem
  obtain ⟨l, r, rfl⟩ := append_of_mem hmem
  have hlast' : (b :: r).getLast? = some φ.root := by rwa [getLast?_append_cons] at hlast
  have hright : head ∈ r := h.head_mem_trail hroot hlinked.right_of_append hlast' hb
  rcases h.head_mem_or_between hlinked hlast hhead ha with hleft | hall
  · -- the head would be on the trail twice
    exact (nodup_append.mp hnodup).2.2 head hleft head (.tail _ hright) rfl
  · -- the trail from `a` up to `b` and the jump back would be a circle
    obtain ⟨hcircuit, _⟩ := circuit_of_trail hhead hlast hlinked hab
    obtain ⟨c, hc, hnot⟩ := h.acyclic b l.reverse hcircuit
    rcases mem_cons.mp hc with rfl | hc
    · exact hnot hb
    · exact hnot (hall c (mem_reverse.mp hc))

end

/-- If jumps between the blocks between go up in rank, there is no circle of such blocks. -/
theorem exists_not_between_of_rank (rank : BlockId → Nat)
    (h : ∀ a b, φ.Between head join a → φ.Between head join b → φ.next a b → rank a < rank b)
    (hcircuit : φ.Circuit b rest) : ∃ c ∈ b :: rest, ¬φ.Between head join c := by
  by_contra hall
  simp only [not_exists, not_and, not_not] at hall
  have hchain : (b :: rest ++ [b]).IsChain fun x y => rank x < rank y := by
    refine IsChain.imp_of_mem_imp (fun x y hx hy hxy => h x y ?_ ?_ hxy) hcircuit.closed
    · rcases mem_append.mp hx with hx | hx
      · exact hall x hx
      · exact hall x (mem_singleton.mp hx ▸ (.head _))
    · rcases mem_append.mp hy with hy | hy
      · exact hall y hy
      · exact hall y (mem_singleton.mp hy ▸ (.head _))
  have hsorted := isChain_iff_pairwise.mp hchain
  exact absurd ((pairwise_cons.mp hsorted).1 b (by simp)) (Nat.lt_irrefl _)

end Flow

/-! ## Recognition -/

namespace FlowGraph

theorem regionObstacle?_eq_none_of (hhead : head ∉ members) (hside : ∀ b ∈ members, ∀ p ∈ g.preds b, p = head ∨ p ∈ members)
    (hinner : ∀ e ∈ g.retreatingEdges, ¬(e.1 ∈ members ∧ e.2 ∈ members)) : g.regionObstacle? head members = none := by
  rw [regionObstacle?, if_neg (by simpa using hhead), if_neg, if_neg]
  · rw [any_eq_true]
    rintro ⟨e, he, hboth⟩
    exact hinner e he (by simpa using hboth)
  · rw [any_eq_true]
    rintro ⟨b, hb, hany⟩
    obtain ⟨p, hp, hboth⟩ := any_eq_true.mp hany
    have hboth : p ≠ head ∧ p ∉ members := by simpa using hboth
    exact (hside b hb p hp).elim hboth.1 hboth.2

end FlowGraph

namespace Kernel

variable {entry : BlockId} {branch : InstId} {r : Region}

section

variable (hg : k.flowGraph = .ok g)
include hg

/-- The search from the head finds the blocks between. -/
theorem mem_between_iff_between (hhead : head ∈ g.order) : b ∈ g.between head join ↔ (k.flow entry).Between head join b := by
  have hnext : ∀ {x y}, (k.flow entry).next x y ↔ y ∈ g.succs x := (mem_succs_iff hg).symm
  rw [mem_between_iff, Flow.Between, TransGen.head'_iff]
  constructor
  · rintro ⟨s, hs, hne, _, hwalk⟩
    exact ⟨s, ⟨hnext.mpr hs, hne⟩, ReflTransGen.mono (fun _ _ h => ⟨hnext.mpr h.1.1, h.1.2⟩) _ _ hwalk⟩
  · rintro ⟨s, ⟨hs, hne⟩, hwalk⟩
    have hso : s ∈ g.order := succs_mem_order hg hhead (hnext.mp hs)
    refine ⟨s, hnext.mp hs, hne, hso, ?_⟩
    -- the walk stays among the blocks that control reaches
    have hstay : b ∈ g.order ∧
        ReflTransGen (fun x y => (y ∈ g.succs x ∧ y ≠ join) ∧ y ∈ g.order) s b := by
      induction hwalk with
      | refl => exact ⟨hso, .refl⟩
      | tail _ hstep ih =>
        have hmem := succs_mem_order hg ih.1 (hnext.mp hstep.1)
        exact ⟨hmem, ih.2.tail ⟨⟨hnext.mp hstep.1, hstep.2⟩, hmem⟩⟩
    exact hstay.2

/-- Where nothing keeps the blocks between from being flattened, the order goes forward in them. -/
theorem idxOf_lt_of_regionObstacle? (hhead : head ∈ g.order) (h : g.regionObstacle? head (g.between head join) = none)
    (ha : (k.flow entry).Between head join a) (hb : (k.flow entry).Between head join b) (hab : (k.flow entry).next a b) :
    g.order.idxOf a < g.order.idxOf b := by
  have hmem : ∀ {b}, b ∈ g.between head join ↔ (k.flow entry).Between head join b :=
    fun {b} => mem_between_iff_between hg hhead
  have hao := between_subset_order (hmem.mpr ha)
  have hsucc : b ∈ g.succs a := (mem_succs_iff hg).mpr hab
  by_contra hnot
  refine (regionObstacle?_eq_none h).2.2 (a, b) ?_ ⟨hmem.mpr ha, hmem.mpr hb⟩
  exact (mem_retreatingEdges_iff (nodup_order hg)).mpr
    ⟨hao, hsucc, succs_mem_order hg hao hsucc, Nat.le_of_not_lt hnot⟩

variable (hentry : k.entry? = some entry)
include hentry

/-- **Where the entry is not between, nothing but a circle makes a jump go against the order.** -/
theorem idxOf_lt_of_enclosed (h : (k.flow entry).Enclosed head join) (hroot : ¬(k.flow entry).Between head join entry)
    (ha : (k.flow entry).Between head join a) (hb : (k.flow entry).Between head join b) (hao : a ∈ g.order)
    (hab : (k.flow entry).next a b) : g.order.idxOf a < g.order.idxOf b := by
  by_contra hnot
  have hsucc : b ∈ g.succs a := (mem_succs_iff hg).mpr hab
  have hbo := succs_mem_order hg hao hsucc
  rw [order_eq_postorder hg hentry] at hao hbo hnot
  obtain ⟨trail, htrail, hagainst⟩ := Graph.exists_trail_of_postorder hao
  have hmem : b ∈ trail := hagainst b hsucc hbo (Nat.le_of_not_lt hnot)
  refine h.not_mem_trail hroot htrail.head htrail.last ?_ htrail.nodup ha hb hab hmem
  exact htrail.linked.imp fun _ _ hyx => (mem_succs_iff hg).mp hyx

/-- **Nothing keeps the blocks between from being flattened** exactly if they are enclosed and, where the entry is one of
them, jumps between them go forward in the order. -/
theorem regionObstacle?_iff (hhead : head ∈ g.order) :
    g.regionObstacle? head (g.between head join) = none ↔
      (k.flow entry).Enclosed head join ∧
      ((k.flow entry).Between head join entry → ∀ a b, (k.flow entry).Between head join a →
        (k.flow entry).Between head join b → (k.flow entry).next a b → g.order.idxOf a < g.order.idxOf b) := by
  have hmem : ∀ {b}, b ∈ g.between head join ↔ (k.flow entry).Between head join b :=
    fun {b} => mem_between_iff_between hg hhead
  have hnext : ∀ {x y}, (k.flow entry).next x y ↔ y ∈ g.succs x := (mem_succs_iff hg).symm
  have horder : ∀ {b}, (k.flow entry).Between head join b → b ∈ g.order :=
    fun hb => between_subset_order (hmem.mpr hb)
  constructor
  · intro h
    obtain ⟨hback, hside, _⟩ := regionObstacle?_eq_none h
    have hforward : ∀ a b, (k.flow entry).Between head join a → (k.flow entry).Between head join b →
        (k.flow entry).next a b → g.order.idxOf a < g.order.idxOf b := fun a b => idxOf_lt_of_regionObstacle? hg hhead h
    refine ⟨⟨fun hb => hback (hmem.mpr hb), fun p b hp hpb hb => ?_, fun b rest hcircuit => ?_⟩, fun _ => hforward⟩
    · have hpred := (mem_preds_iff hg (horder hb)).mpr ⟨(mem_order_iff_reached hg hentry).mpr hp, hnext.mp hpb⟩
      exact (hside b (hmem.mpr hb) p hpred).imp_right hmem.mp
    · exact Flow.exists_not_between_of_rank g.order.idxOf hforward hcircuit
  · rintro ⟨henclosed, hforward⟩
    refine regionObstacle?_eq_none_of (fun hb => henclosed.notBack (hmem.mp hb)) (fun b hb p hp => ?_)
      fun e he hboth => ?_
    · obtain ⟨hpo, hpb⟩ := (mem_preds_iff hg (horder (hmem.mp hb))).mp hp
      exact (henclosed.entered p b ((mem_order_iff_reached hg hentry).mp hpo) (hnext.mpr hpb) (hmem.mp hb)).imp_right hmem.mpr
    · obtain ⟨hao, hab, _, hle⟩ := (mem_retreatingEdges_iff (nodup_order hg)).mp he
      obtain ⟨ha, hb⟩ := And.imp hmem.mp hmem.mp hboth
      refine absurd hle (Nat.not_le_of_lt ?_)
      by_cases hroot : (k.flow entry).Between head join entry
      · exact hforward hroot e.1 e.2 ha hb (hnext.mpr hab)
      · exact idxOf_lt_of_enclosed hg hentry henclosed hroot ha hb hao (hnext.mpr hab)

end

section

variable {d : InstDef} (hd : k.inst? branch = some d) (himm : post.immediate? d.block = some join)
include hd himm

/-- The region of a branch whose blocks nothing keeps from being flattened. -/
theorem region_of_obstacle?_none (h : g.regionObstacle? d.block (g.between d.block join) = none) :
    k.region g post branch = .ok ⟨branch, d.block, join, g.order.filter (g.between d.block join).contains⟩ := by
  have hinst : (liftM (k.inst branch) : Attempt InstDef) = .ok d := Attempt.liftM_eq_ok.mpr (some?_eq_ok.mpr hd)
  rw [region, hinst, ok_bind]
  simp only [himm, h]
  rfl

theorem region_of_obstacle?_some {o : Obstacle} (h : g.regionObstacle? d.block (g.between d.block join) = some o) :
    k.region g post branch = .error (.rejected (.unsupported (some branch) o)) := by
  have hinst : (liftM (k.inst branch) : Attempt InstDef) = .ok d := Attempt.liftM_eq_ok.mpr (some?_eq_ok.mpr hd)
  rw [region, hinst, ok_bind]
  simp only [himm, h]
  rfl

end

/-! ## What is in a region -/

/-- A block that leads to an exit has a way out. -/
theorem exists_wayOut_iff : (∃ path, k.WayOut b path) ↔ ∃ e, k.IsExit e ∧ (k.flow b).Reached e := by
  constructor
  · rintro ⟨path, e, he, hpath⟩
    exact ⟨e, he, hpath.reached⟩
  · rintro ⟨e, he, hreached⟩
    obtain ⟨path, hpath⟩ := hreached.exists_path
    exact ⟨path, e, he, hpath⟩

/-- A block that jumps to a block with a way out has one too. -/
theorem exists_wayOut_of_next (hab : (k.flow entry).next a b) (h : ∃ path, k.WayOut b path) : ∃ path, k.WayOut a path := by
  obtain ⟨e, he, hreached⟩ := exists_wayOut_iff.mp h
  exact exists_wayOut_iff.mpr ⟨e, he, ReflTransGen.head hab hreached⟩

section

variable (hv : k.verify = .ok ()) (hg : k.flowGraph = .ok g)
include hv hg

/-- A block that does not leave the kernel jumps somewhere. -/
theorem exists_next_of_not_exit (hb : b ∈ g.order) (hexit : ¬k.IsExit b) : ∃ s, (k.flow entry).next b s := by
  have hlayout := order_subset_layout hv hg hb
  obtain ⟨phis, body, last, heq, _, _, _, hlast, _⟩ := shape_of_verify hv hlayout
  have hterm : k.terminator? b = some last := terminator?_of_verify hv (order_subset_layout hv hg hb) (by simp [heq]) hlast
  obtain ⟨instr, hinstr, hisTerm⟩ := (Option.any_eq_true _ _).mp hlast
  have hsuccs : k.successors b = instr.successors := by
    rw [successors, terminatorInstr?, hterm, Option.bind_some, hinstr]
    rfl
  have hnotExit : instr.isExit = false := by
    rw [IsExit, terminatorInstr?, hterm, Option.bind_some, hinstr] at hexit
    simpa using hexit
  obtain ⟨s, hs⟩ : ∃ s, s ∈ instr.successors := by
    cases instr with
    | br t => exact ⟨t, .head _⟩
    | condBr c t e => exact ⟨t, .head _⟩
    | switch v cases d => exact ⟨d, .head _⟩
    | ret _ | unreachable => exact absurd hnotExit (by simp [Instr.isExit])
    | _ => exact absurd hisTerm (by simp [Instr.isTerminator])
  exact ⟨s, hlayout, hsuccs ▸ hs⟩

variable (hhead : head ∈ g.order) (himm : g.postDominators.immediate? head = some join)
include hhead himm

omit hv in
/-- The join lies on all ways out from the blocks between. -/
theorem postDominator_of_between (hb : (k.flow entry).Between head join b) : k.PostDominator join b := by
  intro path hout
  obtain ⟨e, he, hpath⟩ := hout
  have hbo := between_subset_order ((mem_between_iff_between hg hhead).mpr hb)
  rcases hpath.mem_or_avoiding join with hmem | hwalk
  · exact hmem
  · by_cases hej : e = join
    · exact hej ▸ hpath.end_mem
    -- otherwise control could leave the kernel from the head without going through the join
    have hexit : e ∈ g.exits := (mem_exits_iff hg).mpr ⟨mem_order_of_path hg hbo hpath e hpath.end_mem, he⟩
    refine absurd ?_ ((join_of_immediate? hg himm).2.2 e hexit hej)
    have hfirst := avoiding_of_between ((mem_between_iff_between hg hhead).mpr hb)
    rw [flow_eq hg] at hwalk
    exact hfirst.trans hwalk

/-- From every block between there is a way out, since the order goes forward up to the join. -/
theorem exists_wayOut_of_between (h : g.regionObstacle? head (g.between head join) = none)
    (hb : (k.flow entry).Between head join b) : ∃ path, k.WayOut b path := by
  obtain ⟨hjoin, _⟩ := mem_leavingBlocks_of_immediate? himm
  have hjoinOut := (mem_leavingBlocks_iff_wayOut hg (leavingBlocks_subset_order hjoin)).mp hjoin
  have hlt : ∀ {x : BlockId}, x ∈ g.order → g.order.idxOf x < g.order.length := idxOf_lt_length_of_mem
  -- induction on the number of blocks behind
  induction hn : g.order.length - g.order.idxOf b using Nat.strong_induction_on generalizing b with
  | _ n ih =>
    have hbo := between_subset_order ((mem_between_iff_between hg hhead).mpr hb)
    by_cases hexit : k.IsExit b
    · exact ⟨_, b, hexit, .root⟩
    obtain ⟨s, hs⟩ : ∃ s, (k.flow entry).next b s := exists_next_of_not_exit hv hg hbo hexit
    refine exists_wayOut_of_next hs ?_
    by_cases hsj : s = join
    · exact hsj ▸ hjoinOut
    have hbetween : (k.flow entry).Between head join s := TransGen.tail hb ⟨hs, hsj⟩
    have hforward := idxOf_lt_of_regionObstacle? hg hhead h hb hbetween hs
    exact ih _ (by have := hlt hbo; omega) hbetween rfl

end

/-- A region that is recognised, in terms of the flow of control. -/
theorem region_iff (hv : k.verify = .ok ()) (hg : k.flowGraph = .ok g) (hhead : head ∈ g.order)
    (hbranch : k.terminator? head = some branch) :
    k.region g g.postDominators branch = .ok r ↔
      g.postDominators.immediate? head = some r.join ∧ g.regionObstacle? head (g.between head r.join) = none ∧
        r = ⟨branch, head, r.join, g.order.filter (g.between head r.join).contains⟩ := by
  obtain ⟨d, hd, _, rfl, _⟩ :=
    linked_of_verify hv hg (order_subset_layout hv hg hhead) (mem_instsOf_of_terminator? hbranch)
  constructor
  · intro h
    obtain ⟨d', hd', hblock, himm, hobstacle, _⟩ := region_eq_ok h
    obtain rfl := mem_unique hd hd'
    rw [hblock] at himm hobstacle
    exact ⟨himm, hobstacle, ok_unique h (region_of_obstacle?_none hd himm hobstacle)⟩
  · rintro ⟨himm, hobstacle, heq⟩
    rw [region_of_obstacle?_none hd himm hobstacle, ← heq]

/-- Two blocks that the order lists one behind the other. -/
theorem pair_sublist_of_idxOf_lt (hb : b ∈ l) (h : l.idxOf a < l.idxOf b) : [a, b].Sublist l := by
  have ha : a ∈ l := idxOf_lt_length_iff.mp (Nat.lt_trans h (idxOf_lt_length_of_mem hb))
  obtain ⟨pre, post, rfl, hpre⟩ := eq_append_cons_of_mem ha
  have hpost : b ∈ post := by
    rw [idxOf_append_of_notMem hpre, idxOf_cons_self] at h
    rcases mem_append.mp hb with hmem | hmem
    · have := idxOf_lt_length_of_mem hmem
      rw [idxOf_append_of_mem hmem] at h
      omega
    · rcases mem_cons.mp hmem with rfl | hmem
      · rw [idxOf_append_of_notMem hpre, idxOf_cons_self] at h
        omega
      · exact hmem
  exact ((singleton_sublist.mpr hpost).cons_cons a).trans (sublist_append_right pre _)

/-- **Regions are recognised exactly.** The branch at the end of a block that control reaches has a region if and only if
the block has a closest strict post-dominator, the blocks between the two are enclosed and, should the entry be one of
them, jumps between them go forward in the order. The region then holds these blocks, each once and each behind those
that jump to it, and from each of them all ways out go through the join. -/
theorem exists_region_iff (hv : k.verify = .ok ()) (hg : k.flowGraph = .ok g) (hentry : k.entry? = some entry)
    (hhead : (k.flow entry).Reached head) (hbranch : k.terminator? head = some branch) :
    ((∃ r, k.region g g.postDominators branch = .ok r) ↔
      ∃ join, (∃ path, k.WayOut head path) ∧ k.ClosestBehind join head ∧ (k.flow entry).Enclosed head join ∧
        ((k.flow entry).Between head join entry → ∀ a b, (k.flow entry).Between head join a →
          (k.flow entry).Between head join b → (k.flow entry).next a b → g.order.idxOf a < g.order.idxOf b)) ∧
    ∀ r, k.region g g.postDominators branch = .ok r →
      r.branch = branch ∧ r.head = head ∧ k.ClosestBehind r.join head ∧
      (∀ b, b ∈ r.blocks ↔ (k.flow entry).Between head r.join b) ∧ r.blocks.Nodup ∧
      (∀ a ∈ r.blocks, ∀ b ∈ r.blocks, (k.flow entry).next a b → [a, b].Sublist r.blocks) ∧
      ∀ b ∈ r.blocks, (∃ path, k.WayOut b path) ∧ k.PostDominator r.join b := by
  have horder : head ∈ g.order := (mem_order_iff_reached hg hentry).mpr hhead
  have hregion := fun {r : Region} => region_iff (r := r) hv hg horder hbranch
  have hclosest : ∀ {join}, g.postDominators.immediate? head = some join ↔
      (∃ path, k.WayOut head path) ∧ k.ClosestBehind join head := by
    intro join
    rw [← mem_leavingBlocks_iff_wayOut hg horder]
    constructor
    · exact fun himm => ⟨(join_of_immediate? hg himm).2.1, closestBehind_of_immediate? hg himm⟩
    · exact fun h => immediate?_of_closestBehind hg h.1 h.2
  refine ⟨⟨?_, ?_⟩, fun r hr => ?_⟩
  · rintro ⟨r, hr⟩
    obtain ⟨himm, hobstacle, _⟩ := hregion.mp hr
    obtain ⟨hout, hbehind⟩ := hclosest.mp himm
    exact ⟨r.join, hout, hbehind, (regionObstacle?_iff hg hentry horder).mp hobstacle⟩
  · rintro ⟨join, hout, hbehind, henclosed⟩
    have hobstacle := (regionObstacle?_iff hg hentry horder).mpr henclosed
    exact ⟨⟨branch, head, join, g.order.filter (g.between head join).contains⟩,
      hregion.mpr ⟨hclosest.mpr ⟨hout, hbehind⟩, hobstacle, rfl⟩⟩
  · obtain ⟨himm, hobstacle, heq⟩ := hregion.mp hr
    have hblocks : r.blocks = g.order.filter (g.between head r.join).contains := by rw [heq]
    have hmem : ∀ b, b ∈ r.blocks ↔ (k.flow entry).Between head r.join b := by
      intro b
      rw [hblocks, mem_filter, contains_iff_mem, ← mem_between_iff_between hg horder]
      exact ⟨And.right, fun h => ⟨between_subset_order h, h⟩⟩
    refine ⟨by rw [heq], by rw [heq], (hclosest.mp himm).2, hmem, ?_, fun a ha b hb hab => ?_, fun b hb => ⟨?_, ?_⟩⟩
    · rw [hblocks]
      exact (nodup_order hg).filter _
    · have hlt := idxOf_lt_of_regionObstacle? hg horder hobstacle ((hmem a).mp ha) ((hmem b).mp hb) hab
      rw [hblocks, mem_filter] at ha hb
      have hpair := (pair_sublist_of_idxOf_lt hb.1 hlt).filter (g.between head r.join).contains
      rwa [filter_cons_of_pos ha.2, filter_cons_of_pos hb.2, filter_nil, ← hblocks] at hpair
    · exact exists_wayOut_of_between hv hg horder himm hobstacle ((hmem b).mp hb)
    · exact postDominator_of_between hg horder himm ((hmem b).mp hb)

/-- The join leads back to the head, and the head jumps to the entry or to the join. -/
def backToEntry : Kernel := .ofListing "back_to_entry" .void [("c", .bool)] []
  [("entry", [(.br 1, .void)]), ("join", [(.condBr 0 2 3, .void)]),
    ("head", [(.condBr 0 0 1, .void)]), ("exit", [(.ret none, .void)])]

/-- The entry alone is a region of the block that jumps back to it. -/
theorem region_backToEntry : ∃ g r, backToEntry.verify = .ok () ∧ backToEntry.flowGraph = .ok g ∧
    (backToEntry.flow ⟨0⟩).Reached ⟨2⟩ ∧ backToEntry.terminator? ⟨2⟩ = some ⟨2⟩ ∧
    backToEntry.region g g.postDominators ⟨2⟩ = .ok r ∧ r.blocks = [⟨0⟩] ∧
    (∃ join, backToEntry.ClosestBehind join ⟨2⟩ ∧ (backToEntry.flow ⟨0⟩).Enclosed ⟨2⟩ join) ∧
    backToEntry.PostDominator r.join ⟨0⟩ := by
  have hsome : (backToEntry.flowGraph.toOption.bind fun g =>
      (backToEntry.region g g.postDominators ⟨2⟩).toOption.map (·.blocks)) = some [⟨0⟩] := by decide +kernel
  have hv : backToEntry.verify = .ok () := by decide +kernel
  have hterm : backToEntry.terminator? ⟨2⟩ = some ⟨2⟩ := by decide
  have hfirst : (backToEntry.flow ⟨0⟩).next ⟨0⟩ ⟨1⟩ := ⟨by decide, by decide⟩
  have hsecond : (backToEntry.flow ⟨0⟩).next ⟨1⟩ ⟨2⟩ := ⟨by decide, by decide⟩
  have hreached : (backToEntry.flow ⟨0⟩).Reached ⟨2⟩ := (ReflTransGen.single hfirst).tail hsecond
  obtain ⟨g, hg, hsome⟩ := exists_of_bind hsome
  obtain ⟨r, hr, hblocks⟩ := exists_of_map hsome
  obtain ⟨hiff, hall⟩ := exists_region_iff hv hg (by decide) hreached hterm
  obtain ⟨join, _, hclosest, henclosed, _⟩ := hiff.mp ⟨r, hr⟩
  obtain ⟨_, _, _, _, _, _, hpost⟩ := hall r hr
  exact ⟨g, r, hv, hg, hreached, hterm, hr, hblocks, ⟨join, hclosest, henclosed⟩, (hpost ⟨0⟩ (by simp [hblocks])).2⟩

/-- The same with a block on each way from the head: one leads to the entry, the other to the join. -/
def enteredInside : Kernel := .ofListing "entered_inside" .void [("c", .bool)] []
  [("entry", [(.br 1, .void)]), ("join", [(.condBr 0 2 5, .void)]),
    ("head", [(.condBr 0 3 4, .void)]), ("left", [(.br 0, .void)]), ("right", [(.br 1, .void)]),
    ("exit", [(.ret none, .void)])]

/-- **Blocks that are enclosed but have no region.** The order starts with the entry, so the jump to it goes back, and that
is taken for a loop. -/
theorem no_region_enteredInside : ∃ g, enteredInside.verify = .ok () ∧ enteredInside.flowGraph = .ok g ∧
    (∃ path, enteredInside.WayOut ⟨2⟩ path) ∧ enteredInside.ClosestBehind ⟨1⟩ ⟨2⟩ ∧
    (enteredInside.flow ⟨0⟩).Enclosed ⟨2⟩ ⟨1⟩ ∧
    enteredInside.region g g.postDominators ⟨2⟩ = .error (.rejected (.unsupported (some ⟨2⟩) .innerLoop)) := by
  have hsome : (enteredInside.flowGraph.toOption.map fun g =>
      (g.postDominators.immediate? ⟨2⟩, g.between ⟨2⟩ ⟨1⟩, g.order.contains ⟨2⟩, g.regionObstacle? ⟨2⟩ [⟨3⟩, ⟨4⟩, ⟨0⟩])) =
      some (some ⟨1⟩, [⟨3⟩, ⟨4⟩, ⟨0⟩], true, some .innerLoop) := by decide +kernel
  obtain ⟨g, hg, hsome⟩ := exists_of_map hsome
  simp only [Prod.mk.injEq] at hsome
  obtain ⟨himm, hbetween, horder, hobstacle⟩ := hsome
  rw [contains_iff_mem] at horder
  have hmem : ∀ b, (enteredInside.flow ⟨0⟩).Between ⟨2⟩ ⟨1⟩ b ↔ b ∈ [⟨3⟩, ⟨4⟩, ⟨0⟩] := by
    intro b
    rw [← mem_between_iff_between hg horder, hbetween]
  refine ⟨g, by decide +kernel, hg, (mem_leavingBlocks_iff_wayOut hg horder).mp (join_of_immediate? hg himm).2.1,
    closestBehind_of_immediate? hg himm, ⟨?_, ?_, ?_⟩, ?_⟩
  · rw [hmem]
    decide
  · intro p b _ hpb hb
    rw [hmem] at hb ⊢
    have hall : ∀ p ∈ enteredInside.layout, ∀ b ∈ enteredInside.successors p, b ∈ [⟨3⟩, ⟨4⟩, ⟨0⟩] →
      p = ⟨2⟩ ∨ p ∈ [⟨3⟩, ⟨4⟩, ⟨0⟩] := by decide
    exact hall p hpb.1 b hpb.2 hb
  · intro b rest hcircuit
    refine Flow.exists_not_between_of_rank (fun b => if b = ⟨0⟩ then 1 else 0) (fun x y hx hy hxy => ?_) hcircuit
    rw [hmem] at hx hy
    have hall : ∀ x ∈ enteredInside.layout, ∀ y ∈ enteredInside.successors x, x ∈ [⟨3⟩, ⟨4⟩, ⟨0⟩] →
      y ∈ [⟨3⟩, ⟨4⟩, ⟨0⟩] → (if x = ⟨0⟩ then 1 else 0) < if y = ⟨0⟩ then 1 else 0 := by decide
    exact hall x hxy.1 y hxy.2 hx hy
  · exact region_of_obstacle?_some (d := ⟨.condBr ⟨0⟩ ⟨3⟩ ⟨4⟩, none, ⟨2⟩, false⟩) rfl himm (hbetween ▸ hobstacle)

end Kernel

end Spmd
