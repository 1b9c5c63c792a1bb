import Spmd.Proofs.Eligibility
import Spmd.Proofs.Kernel.Listing
import Spmd.Proofs.Packet.Agree
import Spmd.Vectorizer

/-!
# Plans can be carried out

A plan is made from what the divergence analysis says, and widening does what the plan says. The two agree:

* **`DivergenceProblem.Founded`** — an instruction that varies was found to vary from what had been found before. Where no
  branch varies it does so by its operands, by what it reads from memory or by itself (`Kernel.exists_cause`);
* **`Kernel.fits_widenTask`** — the plan has a form for every value that varies and no other, and what varies without
  defining a value is a store, a call or a return;
* **`Kernel.widen_excused`** — so every value that is asked for while the kernel is widened is there or can be made, and
  widening ends. What it gives up for is listed in `Kernel.Excuse`.
-/

namespace Spmd

open Success List Machine
open Bool (noConfusion not_eq_true)

variable {k : Kernel} {classify : Classifier} {dimension : Nat} {d : Divergence} {site : Site} {g : FlowGraph}
  {sites : List Site}

/-! ## Why an instruction varies -/

namespace DivergenceProblem

variable {p : DivergenceProblem} {s t : Spread}

/-- Every instruction that varies was found to vary from what had been found before. -/
def Founded (p : DivergenceProblem) (s : Spread) : Prop :=
  ∀ site ∈ p.sites, s.varying.contains site.inst.index = true →
    ∃ u, p.Consistent u ∧ p.varies u site = .ok true ∧
      ∀ i : InstId, u.varying.contains i.index = true → s.varying.contains i.index = true

theorem contains_varying_note (h : p.note s site = .ok t) (i : InstId) :
    t.varying.contains i.index = true ↔ s.varying.contains i.index = true ∨ site.inst = i := by
  obtain ⟨root?, -, rfl⟩ := note_eq_ok h
  rw [← s.contains_mark site root? i]
  split <;> rfl

theorem Founded.visit (hp : p.WellPosed) (hc : p.Consistent s) (hs : p.Founded s) (hsite : site ∈ p.sites)
    (h : p.visit s site = .ok t) : p.Founded t := by
  rcases visit_cases h with ⟨rfl, -⟩ | ⟨-, hvaries, hnote⟩
  · exact hs
  intro other hother hvarying
  rcases (contains_varying_note hnote other.inst).mp hvarying with hold | heq
  · obtain ⟨u, hu, hcause, hmono⟩ := hs other hother hold
    exact ⟨u, hu, hcause, fun i hi => (contains_varying_note hnote i).mpr (.inl (hmono i hi))⟩
  · obtain rfl := hp.once site hsite other hother heq
    exact ⟨s, hc, hvaries, fun i hi => (contains_varying_note hnote i).mpr (.inl hi)⟩

/-- What every visit keeps holds when the sweeps end. -/
theorem settle_invariant (P : Spread → Prop)
    (hvisit : ∀ s t, ∀ site ∈ p.sites, P s → p.visit s site = .ok t → P t) {s t : Spread} (hs : P s)
    (h : p.settle s = .ok t) : P t := by
  rw [settle] at h
  obtain ⟨u, hu, h⟩ := bind_eq_ok.mp h
  have hu : P u := foldlM_invariant P (fun s site t hsite hs h => hvisit s t site hsite hs h) hs hu
  split at h
  · exact settle_invariant P hvisit hu h
  · exact pure_eq_ok.mp h ▸ hu
termination_by p.remaining s

theorem settle_founded (hp : p.WellPosed) (h : p.settle {} = .ok t) : p.Founded t := by
  have hboth : p.Consistent t ∧ p.Founded t := by
    refine settle_invariant (fun s => p.Consistent s ∧ p.Founded s) (fun s t site hsite hs hvisit => ?_)
      ⟨consistent_empty p, fun site _ hvarying => by cases hvarying⟩ h
    exact ⟨hs.1.visit hp hsite hvisit, hs.2.visit hp hs.1 hsite hvisit⟩
  exact hboth.2

variable (htainted : s.tainted.contains site.block.index = false)
include htainted

/-- Away from varying branches, jumps and phis vary by their operands. -/
theorem varies_of_joint
    (hjoin : s.joins.contains site.block.index = false) (h : site.instr.isTerminator = true ∨ site.instr.isPhi = true) :
    p.varies s site = s.anyVarying p.kernel site.instr.operands := by
  rw [varies, if_neg (by rw [htainted]; decide)]
  cases hinstr : site.instr with
  | phi incoming =>
    rw [if_neg (by rw [hjoin]; decide)]
  | alloca | load | strideLoad | gather | call =>
    rw [hinstr] at h
    exact absurd h (by simp [Instr.isTerminator, Instr.isPhi])
  | _ => rfl

/-- Away from varying branches, what lanes compute together varies only if every lane gets its own part. -/
theorem scan_of_varies {c : Collective}
    {callee : String} {args : List ValueId} {mask : Option ValueId} (hinstr : site.instr = .call callee args mask)
    (hcall : site.call = some (.collective c)) (h : p.varies s site = .ok true) :
    c.op = .scanInclusive ∨ c.op = .scanExclusive := by
  rw [varies, if_neg (by rw [htainted]; decide), hinstr] at h
  rw [hcall] at h
  have h := pure_eq_ok.mp h
  simpa using h

end DivergenceProblem

namespace Kernel

section

variable (hk : k.Coherent) (hv : k.verify = .ok ()) (hg : k.flowGraph = .ok g) (hsites : k.sites classify g = .ok sites)
  (hd : k.divergence classify dimension = .ok d) (hbranches : d.branches = []) (hsite : site ∈ sites)
  (hvaries : d.isVaryingInst site.inst = true)
include hk hv hg hsites hd hbranches hsite hvaries

/-- Where no branch at the end of a block varies, none does. -/
theorem isBranch_eq_false : site.isBranch = false := by
  rw [← not_eq_true, Site.isBranch_iff]
  rintro ⟨c, t, e, hinstr⟩
  obtain ⟨_, s, -, -, -, hvarying, -, hlist⟩ := divergence_eq_ok hg hd fun b _ c _ i hb hc => hk.once b c i hb hc
  obtain ⟨hblock, hmem, hinstr', -⟩ := mem_sites hsites hsite
  rw [hinstr] at hinstr'
  have hterm : k.terminator? site.block = some site.inst :=
    terminator?_of_verify hv (order_subset_layout hv hg hblock) hmem (by rw [hinstr']; rfl)
  have hmem : site.inst ∈ d.branches := by
    rw [hlist, mem_filter, hinstr']
    exact ⟨mem_filterMap.mpr ⟨_, hblock, hterm⟩, hvarying ▸ hvaries⟩
  rw [hbranches] at hmem
  exact absurd hmem not_mem_nil

/-- Where no branch varies, an instruction varies for another reason than control. -/
theorem exists_cause :
    ∃ u : Spread, u.tainted.contains site.block.index = false ∧ u.joins.contains site.block.index = false ∧
      (k.divergenceProblem g sites dimension).varies u site = .ok true := by
  have hquiet : ∀ other ∈ sites, d.isVaryingInst other.inst = true → other.isBranch = false := fun other hother =>
    isBranch_eq_false hk hv hg hsites hd hbranches hother
  rw [divergence] at hd
  obtain ⟨g', hg', hd⟩ := bind_eq_ok.mp hd
  obtain rfl := ok_unique hg hg'
  obtain ⟨sites', hsites', hd⟩ := bind_eq_ok.mp hd
  obtain rfl := ok_unique hsites hsites'
  obtain ⟨s, hs, rfl⟩ := bind_pure_eq_ok.mp hd
  have hfounded := DivergenceProblem.settle_founded
    (wellPosed hg hsites fun b _ c _ i hb hc => hk.once b c i hb hc) hs
  obtain ⟨u, hu, hcause, hmono⟩ := hfounded site hsite hvaries
  have hnone : ¬∃ other ∈ sites, other.isBranch = true ∧ u.varying.contains other.inst.index = true := by
    rintro ⟨other, hother, hbranch, hvarying⟩
    rw [hquiet other hother (hmono _ hvarying)] at hbranch
    exact noConfusion hbranch
  refine ⟨u, ?_, ?_, hcause⟩
  · rw [← not_eq_true]
    exact fun htainted => hnone (hu.cause _ htainted)
  · rw [← not_eq_true, hu.joins]
    rintro ⟨other, hother, hbranch, hvarying, -⟩
    exact hnone ⟨other, hother, hbranch, hvarying⟩

end

end Kernel

/-! ## What a plan says -/

namespace PlanProblem

variable {p : PlanProblem} {plan : LanePlan} {group : LaneGroup} {forms : Std.TreeMap InstId MemoryForm} {v : ValueId}
  {needed : Bool}

theorem mem_definitions {x : ValueId × Site} : x ∈ p.definitions ↔
    x.2 ∈ p.sites ∧ p.divergence.isVaryingInst x.2.inst = true ∧ p.kernel.result? x.2.inst = some x.1 := by
  rw [definitions, mem_filterMap]
  constructor
  · rintro ⟨site, hsite, hx⟩
    obtain ⟨v, hv, rfl⟩ := map_eq_some_iff.mp hx
    obtain ⟨hsite, hvaries⟩ := mem_filter.mp hsite
    exact ⟨hsite, hvaries, hv⟩
  · rintro ⟨hsite, hvaries, hv⟩
    exact ⟨x.2, mem_filter.mpr ⟨hsite, hvaries⟩, map_eq_some_iff.mpr ⟨x.1, hv, rfl⟩⟩

/-- No value is defined twice. -/
theorem nodup_definitions (hk : p.kernel.Linked) (hsites : (p.sites.map (·.inst)).Nodup) :
    (p.definitions.map (·.1)).Nodup := by
  rw [definitions, map_filterMap]
  refine (pairwise_map.mp hsites).filter _ |>.filterMap _ fun x y hne v hv w hw heq => hne ?_
  simp only [Option.map_map, Function.comp_def, Option.map_id'] at hv hw
  exact hk.eq_of_result? hv (heq ▸ hw)

/-- A plan says nothing but what becomes of the values that vary, and does so with its own memory forms. -/
theorem exists_definition (hk : p.kernel.Linked) (hsites : (p.sites.map (·.inst)).Nodup)
    (h : p.solve group = .ok plan) (hplan : plan.get v ≠ .uniform) :
    ∃ site ∈ p.sites, p.divergence.isVaryingInst site.inst = true ∧ p.kernel.result? site.inst = some v ∧
      ∃ needed, plan.get v = planOf plan.memory group site needed := by
  rw [solve] at h
  obtain ⟨forms, -, h⟩ := bind_eq_ok.mp h
  obtain ⟨needed, -, rfl⟩ := bind_pure_eq_ok.mp h
  have hkeys : (p.definitions.map fun x => (x.1, planOf forms group x.2 (needed.contains x.1))).map (·.1) =
      p.definitions.map (·.1) := by
    rw [map_map]
    rfl
  by_cases hmem : v ∈ p.definitions.map (·.1)
  · obtain ⟨x, hx, rfl⟩ := mem_map.mp hmem
    obtain ⟨hsite, hvaries, hresult⟩ := mem_definitions.mp hx
    refine ⟨x.2, hsite, hvaries, hresult, needed.contains x.1, ?_⟩
    refine Std.TreeMap.getD_ofList_of_mem Std.ReflOrd.compare_self ?_ (mem_map.mpr ⟨x, hx, rfl⟩)
    have hnodup := nodup_definitions hk hsites
    rw [← hkeys] at hnodup
    exact (pairwise_map.mp hnodup).imp fun hne heq => hne (Std.LawfulEqOrd.compare_eq_iff_eq.mp heq)
  · refine absurd (Std.TreeMap.getD_ofList_of_contains_eq_false ?_) hplan
    rw [← not_eq_true, contains_iff_mem]
    exact fun h => hmem (hkeys ▸ h)

theorem packet_of_planOf (h : planOf forms group site needed = .packet) :
    (∃ c, site.call = some (.collective c)) ∨ isPacketizable forms site = true := by
  unfold planOf at h
  split at h
  · cases h
  · cases h
  next c hcall =>
    exact .inl ⟨c, hcall⟩
  · right
    by_contra hnot
    rw [if_neg (by simp [hnot])] at h
    cases h

theorem not_collective_of_planOf (h : planOf forms group site needed = .perLane) (c : Collective) :
    site.call ≠ some (.collective c) := by
  intro hcall
  rw [planOf, hcall] at h
  cases h

/-- What a plan makes a packet has a vector form. -/
theorem hasPacket_of_isPacketizable {t : WidenTask} (h : isPacketizable t.plan.memory site = true) :
    t.HasPacket site.inst site.instr := by
  unfold isPacketizable at h
  cases hinstr : site.instr with
  | load =>
    rw [hinstr] at h
    obtain ⟨form, hform, hvector⟩ := (Option.any_eq_true _ _).mp h
    exact ⟨form, hform, of_decide_eq_true hvector⟩
  | binary | unary | compare | cast | select | elementPtr | phi | call => trivial
  | _ =>
    rw [hinstr] at h
    exact absurd h Bool.false_ne_true

end PlanProblem

/-! ## Kernels for one lane -/

namespace Instr

def isLoad : Instr → Bool
  | load .. => true
  | _ => false

/-- The types of a store, a call or a load do not tell what it gives back. Any other instruction on scalars that gives
nothing back is one for several lanes, ends its block or is a phi without inputs. -/
theorem cases_of_void {instr : Instr} {ret : Ty} {elems : List ScalarTy}
    (hlength : instr.operands.length = elems.length) (h : instr.typeFlaw? ret .void (elems.map .scalar) = .ok none) :
    instr.Acts ∨ instr.isLoad = true ∨ Vectorizer.isLaneAccess instr = true ∨
      instr.isTerminator = true ∨ instr = .phi [] := by
  cases instr with
  | store | call => exact .inl trivial
  | load => exact .inr (.inl rfl)
  | strideLoad | strideStore | gather | scatter | shuffle => exact .inr (.inr (.inl rfl))
  | br | condBr | switch | ret | unreachable => exact .inr (.inr (.inr (.inl rfl)))
  | phi incoming =>
    cases incoming with
    | nil => exact .inr (.inr (.inr (.inr rfl)))
    | cons x rest =>
      obtain ⟨a, elems, rfl⟩ := exists_cons_of_length_eq_add_one hlength.symm
      cases rules_of_firstBroken h _ (.head _)
  -- the others are lane by lane, so that they give back as much as they take, or make a vector or an address
  | binary | compare | elementPtr | extract =>
    obtain ⟨a, b, rfl⟩ := length_eq_two.mp hlength.symm
    have hrules := rules_of_firstBroken h
    simp [Ty.withElement, Ty.hasElement, Ty.element?, Ty.isVector] at hrules
  | unary | cast | splat | reduce =>
    obtain ⟨a, rfl⟩ := length_eq_one_iff.mp hlength.symm
    have hrules := rules_of_firstBroken h
    simp [Ty.sameShape, Ty.withElement, Ty.isVector] at hrules
  | select | insert =>
    obtain ⟨a, b, c, rfl⟩ := length_eq_three.mp hlength.symm
    have hrules := rules_of_firstBroken h
    simp at hrules
  | alloca | stepVector =>
    have hrules := rules_of_firstBroken h
    simp [Ty.isPtr, Ty.isVector] at hrules

end Instr

namespace Kernel

variable {strides : Strides} {target : Target} {options : Options} {group : LaneGroup} {plan : LanePlan}
  {entry b : BlockId} {i : InstId}

/-- The kernel works on one lane: all values are scalars, and among them are the results of all loads. -/
structure OneLane (k : Kernel) : Prop where
  scalar : ∀ v d, k.value? v = some d → d.ty.isScalar = true
  loads : ∀ i ∈ k.instsInOrder, (k.instr? i).any Instr.isLoad = true → (k.result? i).isSome = true
  plain : ∀ i ∈ k.instsInOrder, (k.instr? i).any Vectorizer.isLaneAccess = false

instance (k : Kernel) : Decidable k.OneLane :=
  decidable_of_iff ((∀ v ∈ k.values.ids, (k.value? v).all (·.ty.isScalar) = true) ∧
      (∀ i ∈ k.instsInOrder, (k.instr? i).any Instr.isLoad = true → (k.result? i).isSome = true) ∧
      ∀ i ∈ k.instsInOrder, (k.instr? i).any Vectorizer.isLaneAccess = false) (by
    refine ⟨fun h => ⟨fun v d hd => ?_, h.2.1, h.2.2⟩, fun h => ⟨fun v _ => ?_, h.loads, h.plain⟩⟩
    · simpa [hd] using h.1 v (mem_ids_of_value? hd)
    · cases hd : k.value? v with
      | none => rfl
      | some d => simpa using h.scalar v d hd)

theorem OneLane.solid (h : k.OneLane) : k.Solid := by
  intro v d hd
  have hscalar := h.scalar v d hd
  cases hty : d.ty with
  | void =>
    rw [hty] at hscalar
    exact noConfusion hscalar
  | _ => rfl

theorem OneLane.exists_elems (h : k.OneLane) {vs : List ValueId} {tys : List Ty} (htys : List.Forall₂ k.Typed vs tys) :
    ∃ elems : List ScalarTy, vs.length = elems.length ∧ tys = elems.map .scalar := by
  induction htys with
  | nil => exact ⟨[], rfl, rfl⟩
  | @cons v ty vs tys hty _ ih =>
    obtain ⟨elems, hlength, rfl⟩ := ih
    obtain ⟨d, hd, rfl, -⟩ := hty
    have hscalar := h.scalar v d hd
    cases hty : d.ty with
    | scalar elem => exact ⟨elem :: elems, by rw [length_cons, length_cons, hlength], rfl⟩
    | _ =>
      rw [hty] at hscalar
      exact noConfusion hscalar

theorem not_switch_of_checkFlow (hv : k.verify = .ok ()) (hg : k.flowGraph = .ok g) (hflow : k.checkFlow = .ok ())
    (hb : b ∈ g.order) (hi : i ∈ k.instsOf b) (value : ValueId) (cases : List (Int64 × BlockId)) (default : BlockId) :
    k.instr? i ≠ some (.switch value cases default) := by
  intro hinstr
  obtain ⟨g', hg', hissue⟩ := checkFlow_eq_ok_iff.mp hflow
  obtain rfl := ok_unique hg hg'
  have hnone := reachableSwitch?_eq_none_iff.mp (flowIssue?_eq_none_iff.mp hissue).2.1
  have hterm : k.terminator? b = some i := terminator?_of_verify hv (order_subset_layout hv hg hb) hi (by rw [hinstr]; rfl)
  exact hnone b hb ⟨value, cases, default, by rw [terminatorInstr?, hterm]; exact hinstr⟩

/-- Where no branch varies, what varies and gives nothing back is a store, a call or a return. -/
theorem acts_of_varying (hk : k.Coherent) (hv : k.verify = .ok ()) (hflow : k.checkFlow = .ok ()) (hlane : k.OneLane)
    (hg : k.flowGraph = .ok g) (hsites : k.sites classify g = .ok sites) (hd : k.divergence classify dimension = .ok d)
    (hbranches : d.branches = []) (hsite : site ∈ sites) (hvaries : d.isVaryingInst site.inst = true)
    (hresult : k.result? site.inst = none) (hret : ∀ v, site.instr ≠ .ret (some v)) : site.instr.Acts := by
  obtain ⟨hblock, hmem, hinstr, -⟩ := mem_sites hsites hsite
  have hlayout := order_subset_layout hv hg hblock
  have horder : site.inst ∈ k.instsInOrder := mem_flatMap.mpr ⟨_, hlayout, hmem⟩
  obtain ⟨u, htainted, hjoin, hcause⟩ := exists_cause hk hv hg hsites hd hbranches hsite hvaries
  -- a jump or a phi that reads nothing does not vary
  have hreads : site.instr.isTerminator = true ∨ site.instr.isPhi = true → site.instr.operands ≠ [] := by
    intro hjoint hnil
    rw [DivergenceProblem.varies_of_joint htainted hjoin hjoint, hnil] at hcause
    exact noConfusion (pure_eq_ok.mp hcause)
  obtain ⟨e, he, -, -, htypes, -⟩ := linked_of_verify hv hg hlayout hmem
  rw [show e.instr = site.instr from Option.some.inj (by rw [← hinstr, instr?, he]; rfl)] at htypes
  obtain ⟨tys, htys, hflaw⟩ := verifyTypes_iff.mp htypes
  obtain ⟨elems, hlength, rfl⟩ := hlane.exists_elems htys
  rw [show k.resultTy site.inst = .void by rw [resultTy, hresult]; rfl] at hflaw
  rcases Instr.cases_of_void hlength hflaw with hacts | hload | haccess | hterm | heq
  · exact hacts
  · have hsome := hlane.loads _ horder (by rw [hinstr]; exact hload)
    rw [hresult] at hsome
    exact noConfusion hsome
  · have hplain := hlane.plain _ horder
    rw [hinstr] at hplain
    exact absurd haccess (by rw [show Vectorizer.isLaneAccess site.instr = false from hplain]; decide)
  · have hreads := hreads (.inl hterm)
    cases heq : site.instr with
    | br | unreachable =>
      rw [heq] at hreads
      exact absurd rfl hreads
    | condBr c t e =>
      have hbranch := isBranch_eq_false hk hv hg hsites hd hbranches hsite hvaries
      rw [Site.isBranch_iff.mpr ⟨c, t, e, heq⟩] at hbranch
      exact noConfusion hbranch
    | switch value cases default =>
      exact absurd (heq ▸ hinstr) (not_switch_of_checkFlow hv hg hflow hblock hmem value cases default)
    | ret value =>
      cases value with
      | none =>
        rw [heq] at hreads
        exact absurd rfl hreads
      | some v => exact absurd heq (hret v)
    | _ =>
      rw [heq] at hterm
      exact noConfusion hterm
  · exact absurd (by rw [heq]; rfl) (hreads (.inr (by rw [heq]; rfl)))

/-- The calls of the task are those of the sites. -/
theorem calls_widenTask (hk : k.Coherent) (hg : k.flowGraph = .ok g) (hsites : k.sites classify g = .ok sites)
    (hsite : site ∈ sites) : (widenTask d plan options group entry sites).calls[site.inst]? = site.call := by
  obtain ⟨hblock, hmem, -, hcall⟩ := mem_sites hsites hsite
  exact ok_unique (callKind?_eq hk hg hsites (mem_flatMap.mpr ⟨_, hblock, hmem⟩)) hcall

/-- The plan that is made for a kernel without varying branches fits it. -/
theorem fits_widenTask (hk : k.Coherent) (hlinked : k.Linked) (hv : k.verify = .ok ()) (hflow : k.checkFlow = .ok ())
    (hlane : k.OneLane) (hentry : k.entry? = some entry) (hg : k.flowGraph = .ok g) (hsites : k.sites classify g = .ok sites)
    (hd : k.divergence classify dimension = .ok d) (hbranches : d.branches = [])
    (hplan : (PlanProblem.mk k d strides target options sites).solve group = .ok plan) :
    (widenTask d plan options group entry sites).Fits k classify (g.order.flatMap k.instsOf) := by
  have hnodup := nodup_visited hk hg
  have hsite : ∀ i ∈ g.order.flatMap k.instsOf, ∃ site ∈ sites, site.inst = i := by
    intro i hi
    rw [← map_inst_sites hsites] at hi
    exact mem_map.mp hi
  have hcalls : ∀ site ∈ sites, (widenTask d plan options group entry sites).calls[site.inst]? = site.call :=
    fun site => calls_widenTask hk hg hsites
  -- there are plans for definitions only, and each comes from the site of its definition
  have hdefined : ∀ v, plan.get v ≠ .uniform → ∃ site ∈ sites, d.isVaryingInst site.inst = true ∧
      k.result? site.inst = some v ∧ ∃ needed, plan.get v = PlanProblem.planOf plan.memory group site needed :=
    fun v => PlanProblem.exists_definition hlinked (by rw [map_inst_sites hsites]; exact hnodup) hplan
  refine {
    linked := hlinked
    solid := hlane.solid
    entry := mem_of_head? hentry
    nodup := hnodup
    mem := fun i => visited_subset hv hg
    turn := inTurn_visited (sound_of_verify hentry hk hv) hg hentry
    operands := fun i hi instr hinstr v hmem => ?_
    calls := fun i => callKind?_eq hk hg hsites
    planned := fun v hget => ?_
    packet := fun i hi v instr hresult hget hinstr => ?_
    perLane := fun i hi v hresult hget c hcall => ?_
    scans := fun i hi hvaries c hcall => ?_
    effects := fun i hi hvaries hresult instr hinstr hret => ?_ }
  · obtain ⟨b, hb, hib⟩ := mem_flatMap.mp hi
    obtain ⟨e, he, halive, -⟩ := linked_of_verify hv hg (order_subset_layout hv hg hb) hib
    rw [instr?, he] at hinstr
    cases hinstr
    obtain ⟨ty, dv, hdv, -⟩ := (sound_of_verify hentry hk hv).typed_operand he halive hmem
    exact isSome_iff_exists.mpr ⟨dv, hdv⟩
  · obtain ⟨site, hsite, hvaries, hresult, -⟩ := hdefined v hget
    refine ⟨site.inst, ?_, hresult, hvaries⟩
    rw [← map_inst_sites hsites]
    exact mem_map_of_mem hsite
  · obtain ⟨site, hmem, -, hresult', needed, hneeded⟩ := hdefined v fun huniform =>
      by cases huniform.symm.trans hget
    obtain rfl := hlinked.eq_of_result? hresult' hresult
    cases (mem_sites hsites hmem).2.2.1.symm.trans hinstr
    rcases PlanProblem.packet_of_planOf (hneeded.symm.trans hget) with ⟨c, hcall⟩ | hform
    · obtain ⟨callee, args, mask, heq⟩ := Widen.exists_call_of_callKind? (hcall ▸ (mem_sites hsites hmem).2.2.2) hinstr
      rw [heq]
      trivial
    · exact PlanProblem.hasPacket_of_isPacketizable hform
  · obtain ⟨site, hmem, -, hresult', needed, hneeded⟩ := hdefined v fun huniform =>
      by cases huniform.symm.trans hget
    obtain rfl := hlinked.eq_of_result? hresult' hresult
    exact PlanProblem.not_collective_of_planOf (hneeded.symm.trans hget) c ((hcalls site hmem).symm.trans hcall)
  · obtain ⟨site, hmem, rfl⟩ := hsite i hi
    obtain ⟨u, htainted, -, hcause⟩ := exists_cause hk hv hg hsites hd hbranches hmem hvaries
    have hcall := (hcalls site hmem).symm.trans hcall
    obtain ⟨-, -, hinstr, hkind⟩ := mem_sites hsites hmem
    obtain ⟨callee, args, mask, heq⟩ := Widen.exists_call_of_callKind? (hcall ▸ hkind) hinstr
    exact DivergenceProblem.scan_of_varies htainted heq hcall hcause
  · obtain ⟨site, hmem, rfl⟩ := hsite i hi
    cases (mem_sites hsites hmem).2.2.1.symm.trans hinstr
    exact acts_of_varying hk hv hflow hlane hg hsites hd hbranches hmem hvaries hresult hret

/-- **Plans can be carried out.** When a kernel without varying branches is widened as planned, every packet and every
scalar of a lane that is asked for is there or can be made, and all inputs of phis are filled in at the end. If widening
fails, it is because a number of lanes has to be known that is not, or is too large for copies; because a lane index is
asked for in an unknown dimension; or because lanes work together in a way that is not supported. -/
theorem widen_excused (hk : k.Coherent) (hlinked : k.Linked) (hv : k.verify = .ok ()) (hflow : k.checkFlow = .ok ())
    (hlane : k.OneLane) (hd : k.divergence classify dimension = .ok d) (hbranches : d.branches = [])
    (hplan : k.lanePlan classify d strides target options group = .ok plan) :
    (∃ s, k.widen classify d plan options group = .ok () s) ∨
      ∃ e s, k.widen classify d plan options group = .error e s ∧ k.Excuse classify options group e := by
  obtain ⟨entry, hentry⟩ := exists_entry?_of_verify hv
  rw [lanePlan] at hplan
  obtain ⟨g, hg, hplan⟩ := bind_eq_ok.mp hplan
  obtain ⟨sites, hsites, hplan⟩ := bind_eq_ok.mp hplan
  have hfails := Widen.fails_widenAll (fits_widenTask hk hlinked hv hflow hlane hentry hg hsites hd hbranches hplan)
  rw [widen_eq hentry hg hsites, map_inst_sites hsites]
  cases hrun : Widen.widenAll (widenTask d plan options group entry sites) (g.order.flatMap k.instsOf) { kernel := k } with
  | ok a s => exact .inl ⟨s, rfl⟩
  | error e s => exact .inr ⟨e, s, rfl, hfails e s hrun⟩

/-- Adds up what every lane reads at its own place, four times in a loop that all lanes go through together. -/
def addInLoop : Kernel := .ofListing "add_in_loop" .void [("data", .ptr)]
  [(.int 0, .scalar .i32), (.int 1, .scalar .i32), (.int 4, .scalar .i32)]
  [("entry", [(.call "get_global_id" [1] none, .scalar .i32), (.elementPtr 0 4 .i32, .ptr),
      (.br 1, .void)]),
    ("loop", [(.phi [(0, 1), (1, 10)], .scalar .i32), (.phi [(0, 1), (1, 9)], .scalar .i32),
      (.load 5 none 4, .scalar .i32), (.binary .add 7 8, .scalar .i32),
      (.binary .add 6 2, .scalar .i32), (.compare .slt 10 3, .bool), (.condBr 11 1 2, .void)]),
    ("exit", [(.store 5 9 none 4, .void), (.ret none, .void)])]

/-- The sum is a packet, and is read by the phi of the loop before it is made. -/
theorem widen_excused_addInLoop : ∃ d strides plan, addInLoop.divergence (Builtins.classify {}) 0 = .ok d ∧
    addInLoop.strides (Builtins.classify {}) d 0 = .ok strides ∧
    addInLoop.lanePlan (Builtins.classify {}) d strides .generic128 {} ⟨4, false⟩ = .ok plan ∧
    plan.get ⟨7⟩ = .packet ∧ plan.get ⟨9⟩ = .packet ∧
    ((∃ s, addInLoop.widen (Builtins.classify {}) d plan {} ⟨4, false⟩ = .ok () s) ∨
      ∃ e s, addInLoop.widen (Builtins.classify {}) d plan {} ⟨4, false⟩ = .error e s ∧
        addInLoop.Excuse (Builtins.classify {}) {} ⟨4, false⟩ e) := by
  have h : (addInLoop.divergence (Builtins.classify {}) 0).toOption.any (fun d =>
      (addInLoop.strides (Builtins.classify {}) d 0).toOption.any fun strides =>
        (addInLoop.lanePlan (Builtins.classify {}) d strides .generic128 {} ⟨4, false⟩).toOption.any fun plan =>
          d.branches.isEmpty && decide (plan.get 7 = .packet) && decide (plan.get 9 = .packet)) = true := by
    decide +kernel
  obtain ⟨d, hd, h⟩ := exists_of_any h
  obtain ⟨strides, hstrides, h⟩ := exists_of_any h
  obtain ⟨plan, hplan, h⟩ := exists_of_any h
  simp only [Bool.and_eq_true, decide_eq_true_iff, List.isEmpty_iff] at h
  obtain ⟨⟨hbranches, hphi⟩, hsum⟩ := h
  have hlinked : addInLoop.Linked := linked_of_coherent (by decide +kernel) (by decide +kernel) (by decide +kernel)
  have hflow : addInLoop.checkFlow = .ok () := eq_ok_of_toOption (by decide +kernel)
  exact ⟨d, strides, plan, hd, hstrides, hplan, hphi, hsum,
    widen_excused (by decide +kernel) hlinked (by decide +kernel) hflow (by decide +kernel) hd hbranches hplan⟩

end Kernel

end Spmd
