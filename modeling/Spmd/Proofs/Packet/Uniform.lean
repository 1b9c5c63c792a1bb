import Spmd.Proofs.Divergence.Control
import Spmd.Proofs.Kernel.Listing
import Spmd.Proofs.Packet.Lower
import Spmd.Proofs.Stride

/-!
# Uniform code is left alone

Widening goes through the instructions of a kernel in the order of its control flow, so an instruction finds all that its
operands left behind (`Kernel.InTurn`). What holds of the instructions looked at so far (`Widening.Done`) is carried from
one instruction to the next, through the phis that are filled in behind them, and to the kernel without the instructions
that others stand for:

* **`Widen.done_forM`** — all instructions of a list, one after the other;
* **`Widen.proceeds_fillPhis`** — the phis;
* **`Kernel.uniform_kept`** — an instruction that does the same in all lanes stays where it is and does what it did, with
  what stands for its operands.
-/

namespace Spmd

open Success List Builtins

variable {k : Kernel} {i : InstId} {entry : BlockId} {avoid : Option ValueId} {t : WidenTask}
  {seen pre is : List InstId} {σ : ValueId → ValueId} {a : Unit}

namespace Kernel

variable {g : FlowGraph} {j : InstId}

theorem Linked.eq_of_result? (hk : k.Linked) {v : ValueId} (hi : k.result? i = some v) (hj : k.result? j = some v) : i = j :=
  ValueKind.inst.inj (mem_unique ((hk.defines_iff i v).mp hi) ((hk.defines_iff j v).mp hj))

/-- The instructions are listed so that, phis apart, none reads what it defines itself or what a later one defines. -/
def InTurn (k : Kernel) (is : List InstId) : Prop :=
  ∀ front i back, is = front ++ i :: back → ∀ instr, k.instr? i = some instr → instr.isPhi = false →
    ∀ v ∈ instr.operands, ∀ j ∈ i :: back, k.result? j ≠ some v

theorem visited_subset (hv : k.verify = .ok ()) (hg : k.flowGraph = .ok g) (hi : i ∈ g.order.flatMap k.instsOf) :
    i ∈ k.instsInOrder := by
  obtain ⟨b, hb, hi⟩ := mem_flatMap.mp hi
  exact mem_flatMap.mpr ⟨b, order_subset_layout hv hg hb, hi⟩

theorem inTurn_visited (hs : k.Sound (k.flow entry)) (hg : k.flowGraph = .ok g) (hentry : k.entry? = some entry) :
    k.InTurn (g.order.flatMap k.instsOf) := by
  intro front i back hvisited instr hinstr hphi v hv j hj
  have hi : i ∈ g.order.flatMap k.instsOf := hvisited ▸ mem_append_right _ (.head _)
  obtain ⟨b, hb, hib⟩ := mem_flatMap.mp hi
  obtain ⟨bs1, bs2, horder⟩ := append_of_mem hb
  obtain ⟨pre, post, hsplit⟩ := append_of_mem hib
  have hready := hs.ordered b ((mem_order_iff_reached hg hentry).mp hb) pre i post hsplit instr hinstr hphi v hv
  refine not_result_behind hs hg hentry horder hsplit hready j ?_
  -- an instruction is listed once, so there is one way to split the list at it
  have hnodup := nodup_visited hs.coherent hg
  rw [hvisited, nodup_append, nodup_cons] at hnodup
  have hsame := hvisited.symm.trans (visited_split horder hsplit)
  obtain ⟨-, -, heq⟩ := (append_cons_inj_of_notMem
    (fun hi => hnodup.2.2 i hi i (.head _) rfl) hnodup.2.1.1).mp hsame
  exact heq ▸ hj

end Kernel

namespace Widening

variable {σ' : ValueId → ValueId} {s s' : Widening}

theorem Keeps.dropPending (hs : s.Keeps k t σ seen) {rest : List PendingPhi} (hrest : ∀ p ∈ rest, p ∈ s.pending) :
    s.Proceeds k t seen avoid σ σ { s with pending := rest } :=
  ⟨⟨hs.linked, hs.solid, hs.layout, hs.value, hs.inst, hs.sublist, hs.source, hs.sources, hs.returned, hs.replaced,
    fun p hp => hs.pending p (hrest p hp), hs.stand, hs.packets, hs.instances, ⟨hs.tailed.tails, hs.tailed.entryTail⟩⟩,
    fun _ _ => rfl, fun _ _ h _ _ => h, fun _ _ h _ => h, fun _ h => h⟩

/-- What an instruction left behind stays, as long as neither its result nor its arguments are replaced. -/
theorem Handles.proceeds (h : s.Handles k t i σ) (hs : s.Keeps k t σ seen) (hstep : s.Proceeds k t seen avoid σ σ' s')
    (havoid : ∀ v, k.value? v = none → some v ≠ avoid) (hresult : ∀ r, k.result? i = some r → some r ≠ avoid)
    (hargs : ∀ callee args mask, k.instr? i = some (.call callee args mask) → ∀ u ∈ args, some u ≠ avoid) :
    s'.Handles k t i σ' where
  stands c callee args mask r hlowers hinstr hr hnot := by
    have hne := hargs callee args mask hinstr
    have hmap : args.map σ' = args.map σ := map_congr_left fun u hu => hstep.agree u (hne u hu)
    rw [hmap, hstep.agree r (hresult r hr)]
    refine (h.stands c callee args mask r hlowers hinstr hr hnot).proceeds hs hstep havoid fun u hu => ?_
    obtain ⟨u0, hu0, rfl⟩ := mem_map.mp hu
    by_cases hσ : σ u0 = u0
    · rw [hσ]
      exact hne u0 hu0
    · exact havoid _ (hs.stand u0 hσ).1
  packet r hr hplan hvarying hret hops := by
    obtain ⟨p, hp⟩ := isSome_iff_exists.mp (h.packet r hr hplan hvarying hret hops)
    exact isSome_iff_exists.mpr ⟨p, hstep.packets r p hp (hresult r hr)⟩
  source r hr hplan hvarying hnot := hstep.sources i (h.source r hr hplan hvarying hnot)

/-- The instructions `seen` have been looked at, and those of `pre` have been widened. -/
structure Done (k : Kernel) (t : WidenTask) (σ : ValueId → ValueId) (seen pre : List InstId) (s : Widening) : Prop where
  keeps : s.Keeps k t σ seen
  handles : ∀ i ∈ pre, s.Handles k t i σ

/-- What has been widened stays so while nothing is replaced. -/
theorem Done.proceeds (h : s.Done k t σ seen pre) (hstep : s.Proceeds k t seen none σ σ' s') : s'.Done k t σ' seen pre :=
  ⟨hstep.keeps, fun i hi => (h.handles i hi).proceeds h.keeps hstep (fun _ _ => by simp) (fun _ _ => by simp)
    fun _ _ _ _ _ _ => by simp⟩

/-- Nothing has been widened yet. -/
theorem done_nil (hk : k.Linked) (hsolid : k.Solid) (t : WidenTask) : Done k t id [] [] { kernel := k } where
  keeps := by
    refine ⟨hk, hsolid, rfl, fun _ _ h => h, fun _ d h => ⟨d.instr, h, rfl⟩, fun _ => .refl _, fun i _ instr h _ => ?_,
      fun i h => ?_, fun _ _ v h => ⟨v, h, .inl rfl⟩, nofun,
      nofun, fun _ h => absurd rfl h,
      fun v p h => ?_, fun v lane x h => ?_, fun i j h => ?_, fun _ h => ?_⟩
    · rw [Std.TreeMap.getElem?_emptyc, Option.none_or, h]
      exact congrArg some (Instr.mapOperands_id fun _ _ => rfl).symm
    all_goals simp at h
  handles _ h := absurd h not_mem_nil

end Widening

namespace Widen

variable {s s' : Widening}

/-- One more instruction is widened. -/
theorem done_widenInst (hk : k.Linked) (hs : s.Done k t σ pre pre) (hi : i ∈ k.instsInOrder) (hnew : i ∉ pre)
    (hturn : k.InTurn (pre ++ i :: is)) (h : widenInst t i s = .ok a s') : ∃ σ', s'.Done k t σ' (pre ++ [i]) (pre ++ [i]) := by
  obtain ⟨σ', hstep, hhandles⟩ := proceeds_widenInst hk hs.keeps hi hnew h
  refine ⟨σ', hstep.keeps, fun j hj => ?_⟩
  rcases mem_append.mp hj with hj | hj
  · obtain ⟨front, back, rfl⟩ := append_of_mem hj
    refine (hs.handles j hj).proceeds (hs.keeps.mono fun l hl => mem_append_left _ hl) hstep
      (fun v => Widening.ne_result_of_new hk) (fun r hr heq => hnew ?_) fun callee args mask hinstr u hu heq => ?_
    · exact hk.eq_of_result? heq.symm hr ▸ hj
    · refine hturn front j (back ++ i :: is) (by simp) _ hinstr rfl u ?_ i (by simp) heq.symm
      exact mem_append_left _ hu
  · exact mem_singleton.mp hj ▸ hhandles

/-- **All instructions of a list** are widened, one after the other. -/
theorem done_forM (hk : k.Linked) (hs : s.Done k t σ pre pre) (hmem : ∀ i ∈ is, i ∈ k.instsInOrder) (hnodup : (pre ++ is).Nodup)
    (hturn : k.InTurn (pre ++ is)) (h : is.forM (widenInst t) s = .ok a s') : ∃ σ', s'.Done k t σ' (pre ++ is) (pre ++ is) := by
  induction is generalizing pre s σ with
  | nil =>
    obtain ⟨-, rfl⟩ := pure_eq_ok.mp h
    exact ⟨σ, by rwa [append_nil]⟩
  | cons i is ih =>
    obtain ⟨_, s1, hi, h⟩ := bind_eq_ok.mp h
    have hnew : i ∉ pre := fun hi => (nodup_append.mp hnodup).2.2 i hi i (.head _) rfl
    obtain ⟨σ1, hs1⟩ := done_widenInst hk hs (hmem i (.head _)) hnew hturn hi
    rw [append_cons] at hnodup hturn ⊢
    exact ih hs1 (fun j hj => hmem j (mem_cons_of_mem i hj)) hnodup hturn h

/-! ## Phis -/

theorem extends_phiInput {form : PhiForm} (hform : ∀ n, form = .lane n → n < max t.group.lanes 1) (v : ValueId) :
    (phiInput t form v).Extends t := by
  cases form with
  | packet => exact extends_packetOf t v
  | lane n => exact extends_laneOf (hform n rfl) v

/-- Filling in the inputs of a phi. -/
theorem proceeds_fillPhi (hs : s.Keeps k t σ seen) {p : PendingPhi} (hphi : s.kernel.isPhi p.phi = true)
    (hplace : k.inst? p.phi = none ∨ (s.sources[p.phi]?).isSome = true)
    (hform : ∀ n, p.form = .lane n → n < max t.group.lanes 1) (h : fillPhi t p s = .ok a s') :
    s.Proceeds k t seen avoid σ σ s' := by
  obtain ⟨instr, _, hsource, h⟩ := bind_eq_ok.mp h
  obtain ⟨rfl, -⟩ := source_eq_ok hsource
  cases instr with
  | phi incoming =>
    obtain ⟨inputs, s1, hinputs, h⟩ := bind_eq_ok.mp h
    have hext : s.Extends t s1 :=
      Extends.run (.mapM fun (x : BlockId × ValueId) _ => .bind (extends_phiInput hform x.2) fun _ => .pure _)
        hinputs hs.solid
    obtain ⟨k', hk', rfl⟩ := editKernel_eq_ok.mp h
    obtain rfl := Success.pure_eq_ok.mp hk'
    have hphi1 := hext.kernel.isPhi hphi
    refine (hs.proceeds hext).trans ((hs.convert hext).modifyInst (fun _ => rfl) (fun d hd => ?_) (.inl hphi1)
      (hplace.imp_right fun h => .inl (hext.sources ▸ h)))
    rw [Kernel.isPhi, Kernel.instr?, hd] at hphi1
    exact hphi1.symm
  | _ =>
    obtain ⟨-, rfl⟩ := pure_eq_ok.mp h
    exact .refl hs

/-- **Filling in all phis**, by induction on how many there may be. -/
theorem proceeds_fillPhis (hs : s.Keeps k t σ seen) {fuel : Nat} (h : fillPhis t fuel s = .ok a s') :
    s.Proceeds k t seen avoid σ σ s' := by
  induction fuel generalizing s with
  | zero => exact absurd h throw_ne_ok
  | succ fuel ih =>
    rw [fillPhis, get_bind] at h
    cases hpending : s.pending with
    | nil =>
      simp only [hpending] at h
      obtain ⟨-, rfl⟩ := pure_eq_ok.mp h
      exact .refl hs
    | cons p rest =>
      simp only [hpending] at h
      rw [modify_bind] at h
      obtain ⟨_, s1, hfill, h⟩ := bind_eq_ok.mp h
      obtain ⟨hphi, hplace, hform, -⟩ := hs.pending p (hpending ▸ (.head _))
      have hpop : s.Proceeds k t seen avoid σ σ { s with pending := rest } :=
        hs.dropPending fun q hq => hpending ▸ mem_cons_of_mem p hq
      have hstep := hpop.trans (proceeds_fillPhi hpop.keeps hphi hplace hform hfill)
      exact hstep.trans (ih hstep.keeps h)

end Widen

/-! ## What is removed -/

namespace Kernel

variable {k' : Kernel}

/-- Removing an instruction takes it out of its block and leaves all others alone. -/
theorem Linked.removeInst_spec (hk : k.Linked) (h : k.removeInst i = .ok k') :
    k'.Linked ∧ k'.values = k.values ∧ (∀ j, j ≠ i → k'.inst? j = k.inst? j) ∧
      ∀ b, k'.instsOf b = (k.instsOf b).filter (· ≠ i) := by
  obtain ⟨d, hd, -⟩ := bind_eq_ok.mp h
  have hd := some?_eq_ok.mp hd
  have hout : ∀ b, i ∉ k.instsOf b → (k.instsOf b).filter (· ≠ i) = k.instsOf b := fun b hb =>
    filter_eq_self.mpr fun j hj => decide_eq_true fun heq => hb (heq ▸ hj)
  cases hdead : d.dead with
  | true =>
    rw [Kernel.removeInst, show k.inst i = .ok d from some?_eq_ok.mpr hd] at h
    replace h : (if d.dead then pure k else _ : Checked Kernel) = .ok k' := h
    rw [if_pos hdead] at h
    obtain rfl := pure_eq_ok.mp h
    refine ⟨hk, rfl, fun _ _ => rfl, fun b => (hout b fun hi => ?_).symm⟩
    obtain ⟨d', hd', halive, -⟩ := (hk.mem_iff b i).mp hi
    obtain rfl := mem_unique hd hd'
    cases hdead.symm.trans halive
  | false =>
    have hremoved := removeInst_eq_ok hd hdead h
    refine ⟨(hk.removed hremoved).linked, hremoved.values, hremoved.inst_ne, fun b => ?_⟩
    by_cases hb : b = d.block
    · rw [hb, hremoved.instsOf_home]
    · rw [hremoved.instsOf_ne b hb, hout b fun hi => ?_]
      obtain ⟨d', hd', -, hblock⟩ := (hk.mem_iff b i).mp hi
      obtain rfl := mem_unique hd hd'
      exact hb hblock.symm

end Kernel

namespace Widen

variable {s s' : Widening}

/-- Removing one instruction after the other. -/
theorem forM_removeInst_eq_ok (hk : s.kernel.Linked) (h : is.forM (fun i => editKernel (·.removeInst i)) s = .ok a s') :
    ∃ k', s' = { s with kernel := k' } ∧ k'.values = s.kernel.values ∧ (∀ i, i ∉ is → k'.inst? i = s.kernel.inst? i) ∧
      ∀ b, k'.instsOf b = (s.kernel.instsOf b).filter (· ∉ is) := by
  induction is generalizing s with
  | nil =>
    obtain ⟨-, rfl⟩ := pure_eq_ok.mp h
    exact ⟨s.kernel, rfl, rfl, fun _ _ => rfl, fun b => by simp⟩
  | cons i is ih =>
    obtain ⟨_, s1, hedit, h⟩ := bind_eq_ok.mp h
    obtain ⟨k1, hk1, rfl⟩ := editKernel_eq_ok.mp hedit
    obtain ⟨hlinked, hvalues, hinst, hinsts⟩ := hk.removeInst_spec hk1
    obtain ⟨k', rfl, hvalues', hinst', hinsts'⟩ := ih hlinked h
    refine ⟨k', rfl, hvalues'.trans hvalues, fun j hj => ?_, fun b => ?_⟩
    · rw [mem_cons, not_or] at hj
      exact (hinst' j hj.2).trans (hinst j hj.1)
    · rw [hinsts', hinsts, filter_filter]
      refine filter_congr fun j _ => ?_
      simp only [mem_cons, not_or, Bool.decide_and, Bool.and_comm]

end Widen

/-! ## The whole kernel -/

/-- All instructions are widened and all phis filled in; then the instructions that others stand for are taken out. -/
theorem Widen.widenAll_spec {s : Widening} (hk : k.Linked) (hsolid : k.Solid) (hmem : ∀ i ∈ is, i ∈ k.instsInOrder)
    (hnodup : is.Nodup) (hturn : k.InTurn is) (h : widenAll t is { kernel := k } = .ok a s) :
    ∃ σ s1, Widening.Done k t σ is is s1 ∧ s.packets = s1.packets ∧ s.kernel.values = s1.kernel.values ∧
      (∀ i, i ∉ s1.replaced → s.kernel.inst? i = s1.kernel.inst? i) ∧
      ∀ b, s.kernel.instsOf b = (s1.kernel.instsOf b).filter (· ∉ s1.replaced) := by
  obtain ⟨_, s1, hforM, h⟩ := bind_eq_ok.mp h
  obtain ⟨σ, hs1⟩ := done_forM hk (Widening.done_nil hk hsolid t) hmem hnodup hturn hforM
  rw [get_bind] at h
  obtain ⟨_, s2, hfill, h⟩ := bind_eq_ok.mp h
  have hphis : s1.Proceeds k t is none σ σ s2 := proceeds_fillPhis hs1.keeps hfill
  have hs2 : s2.Done k t σ is is := hs1.proceeds hphis
  rw [get_bind] at h
  obtain ⟨_, s3, hremove, h⟩ := bind_eq_ok.mp h
  obtain ⟨k3, rfl, hvalues, hinst, hinsts⟩ := forM_removeInst_eq_ok hs2.keeps.linked hremove
  obtain ⟨k4, hk4, rfl⟩ := editKernel_eq_ok.mp h
  obtain rfl := Success.pure_eq_ok.mp hk4
  exact ⟨σ, s2, hs2, rfl, hvalues, hinst, hinsts⟩

namespace Kernel

/-- What stays the same while a kernel is widened. -/
def widenTask (divergence : Divergence) (plan : LanePlan) (options : Options) (group : LaneGroup) (entry : BlockId)
    (sites : List Site) : WidenTask :=
  { divergence, plan, options, group, entry, calls := .ofList (sites.filterMap fun s => s.call.map (s.inst, ·)) }

variable {classify : Classifier} {d : Divergence} {plan : LanePlan} {options : Options} {group : LaneGroup}
  {g : FlowGraph} {sites : List Site} {s : Widening}

theorem widen_eq (hentry : k.entry? = some entry) (hg : k.flowGraph = .ok g) (hsites : k.sites classify g = .ok sites) :
    k.widen classify d plan options group =
      Widen.widenAll (widenTask d plan options group entry sites) (sites.map (·.inst)) { kernel := k } := by
  have htask : (do
      let sites ← k.sites classify (← k.flowGraph)
      let calls := Std.TreeMap.ofList (sites.filterMap fun s => s.call.map (s.inst, ·))
      return (WidenTask.mk d plan options group entry calls, sites.map (·.inst)) : Attempt _) =
      .ok (widenTask d plan options group entry sites, sites.map (·.inst)) := by
    refine bind_eq_ok.mpr ⟨g, Attempt.liftM_eq_ok.mpr hg, ?_⟩
    exact bind_eq_ok.mpr ⟨sites, Attempt.liftM_eq_ok.mpr hsites, rfl⟩
  unfold widen
  simp only [hentry, htask]
  rfl

theorem map_inst_sites (h : k.sites classify g = .ok sites) : sites.map (·.inst) = g.order.flatMap k.instsOf := by
  have hzip := mapM_eq_ok.mp h
  have hmap : ∀ (xs : List (BlockId × InstId)) (ys : List Site), List.Forall₂ (fun x y => (do
      return ⟨x.1, x.2, (← k.inst x.2).instr, ← k.callKind? classify x.2⟩ : Checked Site) = .ok y) xs ys →
      ys.map (·.inst) = xs.map (·.2) := by
    intro xs ys hxy
    induction hxy with
    | nil => rfl
    | cons hmake _ ih =>
      obtain ⟨_, -, hmake⟩ := bind_eq_ok.mp hmake
      obtain ⟨_, -, rfl⟩ := bind_pure_eq_ok.mp hmake
      rw [map_cons, map_cons, ih]
  rw [hmap _ sites hzip, map_flatMap]
  simp only [map_map, Function.comp_def, map_id']

/-- The calls are classified as the kernel has them. -/
theorem callKind?_eq (hk : k.Coherent) (hg : k.flowGraph = .ok g) (hsites : k.sites classify g = .ok sites)
    (hi : i ∈ g.order.flatMap k.instsOf) :
    k.callKind? classify i = .ok (widenTask d plan options group entry sites).calls[i]? := by
  have hnodup := nodup_visited hk hg
  rw [← map_inst_sites hsites] at hi hnodup
  obtain ⟨site, hsite, rfl⟩ := mem_map.mp hi
  rw [(mem_sites hsites hsite).2.2.2]
  have honce : ∀ other ∈ sites, other.inst = site.inst → other = site := fun other hother heq =>
    inj_on_of_nodup_map hnodup hother hsite heq
  cases hcall : site.call with
  | some kind =>
    refine congrArg Except.ok (Eq.symm (Std.TreeMap.getElem?_ofList_of_mem Std.ReflOrd.compare_self ?_
      (mem_filterMap.mpr ⟨site, hsite, by rw [hcall]; rfl⟩)))
    refine (pairwise_map.mp hnodup).filterMap _ fun x y hne b hb c hc heq => hne ?_
    obtain ⟨_, -, rfl⟩ := map_eq_some_iff.mp hb
    obtain ⟨_, -, rfl⟩ := map_eq_some_iff.mp hc
    exact Std.LawfulEqOrd.compare_eq_iff_eq.mp heq
  | none =>
    refine congrArg Except.ok (Eq.symm (Std.TreeMap.getElem?_ofList_of_contains_eq_false ?_))
    rw [← Bool.not_eq_true, contains_iff_mem]
    intro hmem
    obtain ⟨x, hx, hfst⟩ := mem_map.mp hmem
    obtain ⟨other, hother, hx⟩ := mem_filterMap.mp hx
    obtain ⟨kind, hkind, rfl⟩ := map_eq_some_iff.mp hx
    rw [honce other hother hfst, hcall] at hkind
    cases hkind

/-- The call computes one value for all lanes of the group, out of what the lanes have. -/
def Lowers (k : Kernel) (classify : Classifier) (i : InstId) (c : Collective) : Prop :=
  k.callKind? classify i = .ok (some (.collective c)) ∧ c.scope = .subGroup ∧ c.op ≠ .scanInclusive ∧
    c.op ≠ .scanExclusive

/-- The instruction does the same in all lanes. It neither returns a value nor lets lanes work together. -/
def IsPlain (k : Kernel) (classify : Classifier) (d : Divergence) (i : InstId) : Prop :=
  d.isVaryingInst i = false ∧ (∀ v, k.instr? i ≠ some (.ret (some v))) ∧
    ∀ c, k.callKind? classify i ≠ .ok (some (.collective c))

/-- A kernel is widened along the sites of its instructions. -/
theorem widen_eq_ok (hentry : k.entry? = some entry) (hg : k.flowGraph = .ok g)
    (h : k.widen classify d plan options group = .ok a s) : ∃ sites, k.sites classify g = .ok sites ∧
      Widen.widenAll (widenTask d plan options group entry sites) (sites.map (·.inst)) { kernel := k } = .ok a s := by
  cases hsites : k.sites classify g with
  | ok sites => exact ⟨sites, rfl, widen_eq hentry hg hsites ▸ h⟩
  | error f =>
    have htask : (do
        let sites ← k.sites classify (← k.flowGraph)
        let calls := Std.TreeMap.ofList (sites.filterMap fun s => s.call.map (s.inst, ·))
        return (WidenTask.mk d plan options group entry calls, sites.map (·.inst)) : Attempt _) = .error (.fault f) := by
      rw [hg]
      show (liftM (k.sites classify g) >>= _ : Attempt _) = _
      rw [hsites]
      rfl
    unfold widen at h
    simp only [hentry, htask] at h
    cases h

/-- **Uniform code is left alone.** `σ` tells what stands for the values of the kernel: it replaces the results of calls
that compute one value for all lanes, by what is computed for them now, and nothing else. An instruction that does the same
in all lanes stays in its block with its result, and does what it did with what stands for its operands. Such instructions
keep their order. -/
theorem uniform_kept (hk : k.Coherent) (hlinked : k.Linked) (hv : k.verify = .ok ()) (hsolid : k.Solid)
    (hg : k.flowGraph = .ok g) (h : k.widen classify d plan options group = .ok () s) :
    ∃ σ : ValueId → ValueId,
      (∀ v, σ v ≠ v → ∃ b ∈ g.order, ∃ i ∈ k.instsOf b, ∃ c, k.Lowers classify i c ∧ k.result? i = some v) ∧
      (∀ b ∈ g.order, ∀ i ∈ k.instsOf b, ∀ c callee args mask r, k.Lowers classify i c →
        k.instr? i = some (.call callee args mask) → k.result? i = some r → s.StandsFor k c (args.map σ) (σ r)) ∧
      ∀ b ∈ g.order,
        (∀ i ∈ k.instsOf b, k.IsPlain classify d i → i ∈ s.kernel.instsOf b ∧ ∀ e, k.inst? i = some e →
          s.kernel.inst? i = some { e with instr := e.instr.mapOperands σ } ∧
          ∀ v, e.result = some v → s.kernel.value? v = k.value? v) ∧
        ∀ is : List InstId, is.Sublist (k.instsOf b) → (∀ i ∈ is, k.IsPlain classify d i) → is.Sublist (s.kernel.instsOf b) := by
  obtain ⟨entry, hentry⟩ := exists_entry?_of_verify hv
  have hsound := sound_of_verify hentry hk hv
  obtain ⟨sites, hsites, h⟩ := widen_eq_ok hentry hg h
  have hvisited := map_inst_sites hsites
  rw [hvisited] at h
  have horder : ∀ b ∈ g.order, ∀ i ∈ k.instsOf b, i ∈ g.order.flatMap k.instsOf := fun b hb i hi =>
    mem_flatMap.mpr ⟨b, hb, hi⟩
  have hmem : ∀ i ∈ g.order.flatMap k.instsOf, i ∈ k.instsInOrder := fun i => visited_subset hv hg
  have hturn := inTurn_visited hsound hg hentry
  obtain ⟨σ, s1, hs1, hpackets, hvalues, hinst, hinsts⟩ :=
    Widen.widenAll_spec hlinked hsolid hmem (nodup_visited hk hg) hturn h
  have hcall : ∀ i ∈ g.order.flatMap k.instsOf,
      k.callKind? classify i = .ok (widenTask d plan options group entry sites).calls[i]? := fun i => callKind?_eq hk hg hsites
  have hkept : ∀ i ∈ g.order.flatMap k.instsOf, k.IsPlain classify d i →
      ¬(widenTask d plan options group entry sites).Touches k i := by
    rintro i hi ⟨huniform, hret, hcollective⟩ (hvarying | ⟨v, hv⟩ | ⟨c, hc⟩)
    · cases huniform.symm.trans hvarying
    · exact hret v hv
    · exact hcollective c (hc ▸ hcall i hi)
  have hstay : ∀ i ∈ g.order.flatMap k.instsOf, k.IsPlain classify d i → i ∉ s1.replaced := fun i hi hplain hmem =>
    hkept i hi hplain (hs1.keeps.replaced i hmem).2
  refine ⟨σ, fun v hv => ?_, fun b hb i hi c callee args mask r hlowers hinstr hr => ?_, fun b hb =>
    ⟨fun i hi hplain => ⟨?_, fun e he => ⟨?_, fun v hv => ?_⟩⟩, fun is hsub hplain => ?_⟩⟩
  · obtain ⟨-, -, i, c, hi, hlowers, hresult⟩ := hs1.keeps.stand v hv
    obtain ⟨b, hb, hib⟩ := mem_flatMap.mp hi
    exact ⟨b, hb, i, hib, c, ⟨hlowers.1 ▸ hcall i hi, hlowers.2⟩, hresult⟩
  · have hlowers' : (widenTask d plan options group entry sites).Lowers i c := by
      refine ⟨?_, hlowers.2⟩
      exact Except.ok.inj ((hcall i (horder b hb i hi)).symm.trans hlowers.1)
    have hargs : r ∉ args := by
      obtain ⟨front, back, hsplit⟩ := append_of_mem (horder b hb i hi)
      exact fun hmem => hturn front i back hsplit _ hinstr rfl r (mem_append_left _ hmem) i mem_cons_self hr
    refine ((hs1.handles i (horder b hb i hi)).stands c callee args mask r hlowers' hinstr hr hargs).imp
      (fun x p hp => (hs1.keeps.packets x p hp).1) (fun x _ p hp => hpackets ▸ hp) fun v instr hmade _ _ => ?_
    obtain ⟨hnew, j, ty, b', hj, hvalue, hdef⟩ := hmade
    refine ⟨hnew, j, ty, b', hj, ?_, ?_⟩
    · rw [value?, hvalues]
      exact hvalue
    · rw [hinst j, hdef]
      intro hmem
      -- only instructions of the old kernel are replaced
      obtain ⟨b'', -, hj'⟩ := mem_flatMap.mp (hs1.keeps.replaced j hmem).1
      obtain ⟨e, he, -⟩ := hlinked.inst?_of_mem hj'
      cases hj.symm.trans he
  · rw [hinsts, mem_filter]
    exact ⟨(hs1.keeps.sublist b).subset hi, decide_eq_true (hstay i (horder b hb i hi) hplain)⟩
  · have hi' := horder b hb i hi
    have hinstr := hs1.keeps.instr? (hmem i hi') (show k.instr? i = some e.instr by rw [instr?, he]; rfl)
      fun h => hkept i hi' hplain h.2
    obtain ⟨instr, hdef, -⟩ := hs1.keeps.inst i e he
    rw [instr?, hdef] at hinstr
    rw [hinst i (hstay i hi' hplain), hdef, ← Option.some.inj hinstr]
  · obtain ⟨dv, hdv⟩ := isSome_iff_exists.mp
      (hlinked.has_of_result? (show k.result? i = some v by rw [result?, he]; exact hv))
    rw [value?, hvalues, hdv]
    exact hs1.keeps.value v dv hdv
  · rw [hinsts, ← filter_eq_self.mpr fun i hi => decide_eq_true (hstay i (horder b hb i (hsub.subset hi)) (hplain i hi))]
    exact (hsub.trans (hs1.keeps.sublist b)).filter _

end Kernel

/-- The widened kernel, unless widening was given up. -/
def Widening.finished? : EStateM.Result Failure Widening Unit → Option Widening
  | .ok _ s => some s
  | .error .. => none

theorem Widening.eq_ok_of_finished? {r : EStateM.Result Failure Widening Unit} {s : Widening} (h : finished? r = some s) :
    r = .ok () s := by
  cases r with
  | ok _ s' => exact congrArg _ (Option.some.inj h)
  | error e s' => exact absurd h (by simp [finished?])

namespace Kernel

/-- Squares the sum over the lanes of their index, and waits. -/
def sumThenWait : Kernel := .ofListing "sum_then_wait" .void []
  [(.int 0, .scalar .i32)]
  [("entry", [(.call "get_global_id" [0] none, .scalar .i32),
      (.call "sub_group_reduce_add" [1] none, .scalar .i32), (.binary .mul 2 2, .scalar .i32),
      (.call "barrier" [3] none, .void), (.ret none, .void)])]

/-- The square is taken of the sum that the lanes of the group have together. -/
theorem uniform_kept_sumThenWait : ∃ d strides plan s,
    sumThenWait.divergence (classify {}) 0 = .ok d ∧
    sumThenWait.strides (classify {}) d 0 = .ok strides ∧
    sumThenWait.lanePlan (classify {}) d strides .generic128 {} ⟨4, false⟩ = .ok plan ∧
    sumThenWait.widen (classify {}) d plan {} ⟨4, false⟩ = .ok () s ∧
    (∃ p v, sumThenWait.MadeBy s.kernel v (.reduce .add p) ∧
      s.kernel.inst? ⟨2⟩ = some ⟨.binary .mul v v, some ⟨3⟩, ⟨0⟩, false⟩) ∧
    [⟨2⟩, ⟨3⟩, ⟨4⟩].Sublist (s.kernel.instsOf ⟨0⟩) := by
  have h : (sumThenWait.divergence (classify {}) 0).toOption.any (fun d =>
      (sumThenWait.strides (classify {}) d 0).toOption.any fun strides =>
        (sumThenWait.lanePlan (classify {}) d strides .generic128 {} ⟨4, false⟩).toOption.any fun plan =>
          (Widening.finished? (sumThenWait.widen (classify {}) d plan {} ⟨4, false⟩)).any fun _ =>
            !d.isVaryingInst 2 && !d.isVaryingInst 3 && !d.isVaryingInst 4) = true := by
    decide +kernel
  obtain ⟨d, hd, h⟩ := exists_of_any h
  obtain ⟨strides, hstrides, h⟩ := exists_of_any h
  obtain ⟨plan, hplan, h⟩ := exists_of_any h
  obtain ⟨s, hs, h⟩ := (Option.any_eq_true _ _).mp h
  have hs := Widening.eq_ok_of_finished? hs
  refine ⟨d, strides, plan, s, hd, hstrides, hplan, hs, ?_⟩
  simp only [Bool.and_eq_true, Bool.not_eq_true'] at h
  obtain ⟨⟨h2, h3⟩, h4⟩ := h
  have hlinked : sumThenWait.Linked := linked_of_coherent (by decide +kernel) (by decide +kernel) (by decide +kernel)
  obtain ⟨g, hg, horder⟩ := exists_of_any
    (show sumThenWait.flowGraph.toOption.any (fun g => decide (0 ∈ g.order)) = true by decide +kernel)
  obtain ⟨σ, -, hstands, hkept⟩ := uniform_kept (by decide +kernel) hlinked (by decide +kernel) (by decide +kernel)
    hg hs
  have horder := of_decide_eq_true horder
  obtain ⟨hkept, hsublist⟩ := hkept 0 horder
  have hsum : sumThenWait.callKind? (classify {}) 1 = .ok (some (.collective ⟨.reduce, .subGroup, .add, .i32⟩)) :=
    rfl
  have hmul : sumThenWait.IsPlain (classify {}) d 2 := ⟨h2, nofun, nofun⟩
  have hwait : sumThenWait.IsPlain (classify {}) d 3 := ⟨h3, nofun, nofun⟩
  have hret : sumThenWait.IsPlain (classify {}) d 4 := ⟨h4, nofun, nofun⟩
  obtain ⟨x, rest, p, -, -, hmade⟩ := hstands 0 horder 1 (by decide +kernel) _ _ _ _ 2
    ⟨hsum, rfl, by decide, by decide⟩ rfl rfl
  refine ⟨⟨p, σ 2, hmade, ((hkept 2 (by decide +kernel) hmul).2 _ rfl).1⟩, hsublist _ (by decide +kernel) fun i hi => ?_⟩
  simp only [mem_cons, not_mem_nil, or_false] at hi
  rcases hi with rfl | rfl | rfl
  · exact hmul
  · exact hwait
  · exact hret

/-- Waits with what the lanes before have together. -/
def waitBehind : Kernel := .ofListing "wait_behind" .void []
  [(.int 0, .scalar .i32)]
  [("entry", [(.call "get_global_id" [0] none, .scalar .i32),
      (.call "sub_group_scan_inclusive_add" [1] none, .scalar .i32),
      (.call "barrier" [2] none, .void), (.ret none, .void)])]

/-- The lanes of a scan are in a packet, and nothing else stands for its result. An instruction that does the same in all
lanes still reads the result, though the call that defines it is gone. -/
theorem reads_removed_waitBehind : waitBehind.Coherent ∧ waitBehind.Linked ∧ waitBehind.verify = .ok () ∧ waitBehind.Solid ∧
    waitBehind.callKind? (classify {}) ⟨1⟩ = .ok (some (.collective ⟨.scanInclusive, .subGroup, .add, .i32⟩)) ∧
    ∃ d strides plan s, waitBehind.divergence (classify {}) 0 = .ok d ∧ d.branches = [] ∧
      waitBehind.strides (classify {}) d 0 = .ok strides ∧
      waitBehind.lanePlan (classify {}) d strides .generic128 {} ⟨4, false⟩ = .ok plan ∧
      waitBehind.widen (classify {}) d plan {} ⟨4, false⟩ = .ok () s ∧
      waitBehind.IsPlain (classify {}) d ⟨2⟩ ∧ (s.packets[(⟨2⟩ : ValueId)]?).isSome = true ∧
      s.kernel.instr? ⟨2⟩ = some (.call "barrier" [⟨2⟩] none) ∧ s.kernel.IsDead ⟨1⟩ := by
  have h : (waitBehind.divergence (classify {}) 0).toOption.any (fun d =>
      (waitBehind.strides (classify {}) d 0).toOption.any fun strides =>
        (waitBehind.lanePlan (classify {}) d strides .generic128 {} ⟨4, false⟩).toOption.any fun plan =>
          (Widening.finished? (waitBehind.widen (classify {}) d plan {} ⟨4, false⟩)).any fun s =>
            d.branches.isEmpty && !d.isVaryingInst 2 && (s.packets[(2 : ValueId)]?).isSome &&
              decide (s.kernel.instr? 2 = some (.call "barrier" [2] none)) &&
              (s.kernel.inst? 1).any (·.dead)) = true := by
    decide +kernel
  obtain ⟨d, hd, h⟩ := exists_of_any h
  obtain ⟨strides, hstrides, h⟩ := exists_of_any h
  obtain ⟨plan, hplan, h⟩ := exists_of_any h
  obtain ⟨s, hs, h⟩ := (Option.any_eq_true _ _).mp h
  simp only [Bool.and_eq_true, Bool.not_eq_true', List.isEmpty_iff, decide_eq_true_eq] at h
  obtain ⟨⟨⟨⟨hbranches, huniform⟩, hpacket⟩, hreads⟩, hdead⟩ := h
  obtain ⟨e, he, hdead⟩ := (Option.any_eq_true _ _).mp hdead
  exact ⟨by decide +kernel, linked_of_coherent (by decide +kernel) (by decide +kernel) (by decide +kernel),
    by decide +kernel, by decide +kernel, rfl, d, strides, plan, s, hd, hbranches, hstrides, hplan,
    Widening.eq_ok_of_finished? hs, ⟨huniform, nofun, nofun⟩, hpacket, hreads, e, he, hdead⟩

end Kernel

end Spmd
