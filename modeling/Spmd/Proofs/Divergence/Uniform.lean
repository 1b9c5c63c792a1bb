import Spmd.Proofs.Divergence.Control
import Spmd.Proofs.Kernel.Verified

/-!
# What it takes not to vary

An instruction that the settled sweeps did not find to vary has been judged by all that they found. So its
operands do not vary, except for a call whose kind alone decides, and a load stays away from whatever
varying instructions write.

`ConvergentKernel` collects what is asked of a kernel whose lanes all go the same way. For its reachable
instructions the facts are `operands_uniform`, `call_uniform`, `branch_uniform` and `apart`.
-/

namespace Spmd

open Success List Kernel

variable {mask : Option ValueId} {args : List ValueId} {callee : String}

namespace DivergenceProblem

variable {p : DivergenceProblem} {s : Spread} {site : Site}

theorem isVarying_of_quiet (h : p.varies s site = .ok false)
    (hcall : ∀ callee args mask, site.instr ≠ .call callee args mask) :
    ∀ v ∈ site.instr.operands, s.isVarying p.kernel v = .ok false := by
  refine anyM_eq_ok_false.mp ?_
  rw [varies] at h
  split at h
  · cases Except.ok.inj h
  split at h
  · split at h
    · cases Except.ok.inj h
    · exact h
  next heq =>
    exact absurd heq (hcall _ _ _)
  · cases Except.ok.inj h
  all_goals first
    | exact h
    | obtain ⟨o, ho, h⟩ := bind_eq_ok.mp h
      cases o with
      | true => cases Except.ok.inj h
      | false => exact ho

theorem call_of_quiet (h : p.varies s site = .ok false) (hinstr : site.instr = .call callee args mask) :
    site.call.bind (CallKind.varies? p.dimension) = some false ∨
      (site.call.bind (CallKind.varies? p.dimension) = none ∧
        ∀ v ∈ site.instr.operands, s.isVarying p.kernel v = .ok false) := by
  rw [varies] at h
  split at h
  · cases Except.ok.inj h
  rw [hinstr] at h ⊢
  cases hkind : site.call.bind (CallKind.varies? p.dimension) with
  | none =>
    rw [hkind] at h
    exact .inr ⟨rfl, anyM_eq_ok_false.mp h⟩
  | some answer =>
    rw [hkind] at h
    exact .inl (congrArg some (Except.ok.inj h))

/-- The object that a load reads, as far as the sweeps look: a gather may read anything. -/
def loaded? : Instr → Option (Option ValueId)
  | .load ptr .. | .strideLoad ptr .. => some (some ptr)
  | .gather .. => some none
  | _ => none

/-- A load that does not vary reads no object that is written varyingly. -/
theorem load_of_quiet (h : p.varies s site = .ok false) {ptr : ValueId}
    (hinstr : loaded? site.instr = some (some ptr)) :
    ∃ root, p.kernel.memoryRoot ptr = .ok root ∧ ∀ w ∈ s.writes, p.kernel.rootsMayAlias w root = false := by
  have hparts : ∀ operands : Checked Bool, (do
      if ← operands then return true
      let root ← p.kernel.memoryRoot ptr
      return s.writes.any (p.kernel.rootsMayAlias · root)) = .ok false →
      ∃ root, p.kernel.memoryRoot ptr = .ok root ∧ ∀ w ∈ s.writes, p.kernel.rootsMayAlias w root = false := by
    intro operands h
    obtain ⟨o, _, h⟩ := bind_eq_ok.mp h
    cases o with
    | true => cases Except.ok.inj h
    | false =>
      obtain ⟨root, hroot, h⟩ := bind_eq_ok.mp h
      exact ⟨root, hroot, by simpa using pure_eq_ok.mp h⟩
  rw [varies] at h
  split at h
  · cases Except.ok.inj h
  unfold loaded? at hinstr
  split at hinstr
  next heq =>
    rw [heq] at h
    cases hinstr
    exact hparts _ h
  next heq =>
    rw [heq] at h
    cases hinstr
    exact hparts _ h
  · cases hinstr
  · cases hinstr

/-- A gather varies as soon as anything is written varyingly. -/
theorem gather_of_quiet (h : p.varies s site = .ok false) {ptrs : ValueId} (hinstr : site.instr = .gather ptrs mask) :
    s.writes = [] := by
  rw [varies, hinstr] at h
  split at h
  · cases Except.ok.inj h
  · obtain ⟨o, _, h⟩ := bind_eq_ok.mp h
    cases o with
    | true => cases Except.ok.inj h
    | false => simpa using pure_eq_ok.mp h

end DivergenceProblem

namespace CallKind

/-- Whether the answer may depend on the lane that asks, when lanes are spread over a dimension. -/
def asksLane (dimension : Nat) : CallKind → Bool
  | laneIdentity (.index d) => d = dimension
  | laneIdentity _ => true
  | _ => false

end CallKind

/-- A kernel that was analysed and in which no branch varies. Its calls ask for the lane or answer by their
arguments alone. -/
structure ConvergentKernel (k : Kernel) (classify : Classifier) (dimension : Nat) (d : Divergence) : Prop where
  coherent : k.Coherent
  verified : k.verify = .ok ()
  analysed : k.divergence classify dimension = .ok d
  noBranch : d.branches = []
  noSwitch : ∀ i ∈ k.instsInOrder, ∀ v cases default, k.instr? i ≠ some (.switch v cases default)
  calls : ∀ i ∈ k.instsInOrder, ∀ callee args mask, k.instr? i = some (.call callee args mask) →
    mask = none ∧ ∃ kind, k.callKind? classify i = .ok (some kind) ∧ kind.isRemovable = true

/-- A convergent kernel whose calls for an index in another dimension have no varying argument. The analysis
takes such a call to be uniform without looking at its arguments. -/
structure LaneBlindKernel (k : Kernel) (classify : Classifier) (dimension : Nat) (d : Divergence) : Prop
    extends ConvergentKernel k classify dimension d where
  otherLanes : ∀ i ∈ k.instsInOrder, ∀ callee args mask, k.instr? i = some (.call callee args mask) →
    ∀ n, k.callKind? classify i = .ok (some (.laneIdentity (.index n))) → n ≠ dimension →
      ∀ v ∈ args, d.isVarying k v = .ok false

variable {k : Kernel} {classify : Classifier} {dimension : Nat} {d : Divergence} {g : FlowGraph} {b : BlockId}
  {i j : InstId} {instr : Instr}

namespace ConvergentKernel

section

variable (h : ConvergentKernel k classify dimension d) (hg : k.flowGraph = .ok g)
include h hg

/-- The spread that the analysis settled on. -/
theorem exists_spread :
    ∃ sites s, k.sites classify g = .ok sites ∧
      (k.divergenceProblem g sites dimension).Consistent s ∧ (k.divergenceProblem g sites dimension).Settled s ∧
      d.varying = s.varying := by
  obtain ⟨sites, s, hsites, hs, hsettled, hvarying, _⟩ := divergence_eq_ok hg h.analysed
    fun b hb c hc i hib hic => listedOnce_of_verify h.verified hg hb hc hib hic
  exact ⟨sites, s, hsites, hs, hsettled, hvarying⟩

variable (hb : b ∈ g.order) (hi : i ∈ k.instsOf b)
include hb hi

theorem mem_instsInOrder : i ∈ k.instsInOrder :=
  mem_flatMap.mpr ⟨b, order_subset_layout h.verified hg hb, hi⟩

/-- A call that does not vary does not ask for the lane. -/
theorem call_uniform (hinstr : k.instr? i = some (.call callee args mask))
    (huniform : d.isVaryingInst i = false) :
    mask = none ∧ ∃ kind, k.callKind? classify i = .ok (some kind) ∧ kind.asksLane dimension = false := by
  obtain ⟨sites, s, hsites, hs, hsettled, hvarying⟩ := h.exists_spread hg
  obtain ⟨site, hsite, rfl, rfl⟩ := exists_site hsites hb hi
  obtain ⟨_, _, hsinstr, hscall⟩ := mem_sites hsites hsite
  have heq : site.instr = .call callee args mask := mem_unique hsinstr hinstr
  rw [Divergence.isVaryingInst, hvarying] at huniform
  have hquiet := hsettled site hsite huniform
  obtain ⟨rfl, kind, hk, hremovable⟩ := h.calls site.inst (h.mem_instsInOrder hg hb hi) callee args mask hinstr
  refine ⟨rfl, kind, hk, ?_⟩
  obtain hcall : site.call = some kind := ok_unique hscall hk
  have hvaries : kind.varies? dimension ≠ some true := by
    intro htrue
    rcases DivergenceProblem.call_of_quiet hquiet heq with hkind | ⟨hkind, _⟩
    · rw [hcall] at hkind
      cases htrue.symm.trans hkind
    · rw [hcall] at hkind
      cases htrue.symm.trans hkind
  cases kind with
  | laneIdentity dim =>
    cases dim with
    | index n => simpa [CallKind.asksLane, CallKind.varies?] using hvaries
    | subGroup | dynamic => exact absurd rfl hvaries
  | _ => rfl

/-- No branch varies. -/
theorem branch_uniform {c : ValueId} {t e : BlockId}
    (hinstr : k.instr? i = some (.condBr c t e)) : d.isVaryingInst i = false := by
  obtain ⟨_, s, _, _, _, hvarying, _, hbranches⟩ := divergence_eq_ok hg h.analysed
    fun b hb c hc i hib hic => listedOnce_of_verify h.verified hg hb hc hib hic
  by_contra hvaries
  have hterm : k.terminator? b = some i :=
    terminator?_of_verify h.verified (order_subset_layout h.verified hg hb) hi (by rw [hinstr]; rfl)
  have hmem : i ∈ d.branches := by
    rw [hbranches, mem_filter]
    refine ⟨mem_filterMap.mpr ⟨b, hb, hterm⟩, ?_⟩
    rw [hinstr]
    simpa [Divergence.isVaryingInst, hvarying] using hvaries
  rw [h.noBranch] at hmem
  exact absurd hmem not_mem_nil

/-- **A load that does not vary and a store that does have different objects.** -/
theorem apart (hload : k.instr? i = some instr) {ptr? : Option ValueId}
    (hptr : DivergenceProblem.loaded? instr = some ptr?) (huniform : d.isVaryingInst i = false) {c : BlockId}
    (hc : c ∈ g.order) (hj : j ∈ k.instsOf c) {store : Instr} (hstore : k.instr? j = some store)
    (hwrites : store.mayWrite = true) (hnocall : ∀ callee args mask, store ≠ .call callee args mask)
    (hvaries : d.isVaryingInst j = true) :
    ∃ r r', k.accessRoot? j = .ok (some r) ∧ k.accessRoot? i = .ok (some r') ∧ k.rootsMayAlias r r' = false := by
  obtain ⟨sites, s, hsites, hs, hsettled, hvarying⟩ := h.exists_spread hg
  obtain ⟨site, hsite, rfl, rfl⟩ := exists_site hsites hb hi
  obtain ⟨other, hother, rfl, rfl⟩ := exists_site hsites hc hj
  have heq : site.instr = instr := mem_unique (mem_sites hsites hsite).2.2.1 hload
  have heq' : other.instr = store := mem_unique (mem_sites hsites hother).2.2.1 hstore
  rw [Divergence.isVaryingInst, hvarying] at huniform hvaries
  -- the object that the store writes is on record
  obtain ⟨root?, hwritten, hrecord⟩ := hs.writes other hother hvaries
  obtain ⟨def', hdef⟩ : ∃ def', k.inst? other.inst = some def' ∧ def'.instr = store := by
    exact map_eq_some_iff.mp hstore
  have hroot : k.accessRoot? other.inst = .ok root? := by
    rw [DivergenceProblem.written?, heq'] at hwritten
    cases store with
    | call callee args mask => exact absurd rfl (hnocall callee args mask)
    | _ => exact (if_pos hwrites).symm.trans hwritten
  obtain ⟨r, rfl⟩ : ∃ r, root? = some r := by
    rw [accessRoot?, inst, hdef.1] at hroot
    obtain ⟨_, hsome, hroot⟩ := bind_eq_ok.mp hroot
    cases some?_eq_ok.mp hsome
    rw [hdef.2] at hroot
    cases store with
    | store ptr _ _ _ | strideStore ptr _ _ _ =>
      obtain ⟨r, _, hroot⟩ := bind_eq_ok.mp hroot
      exact ⟨r, (pure_eq_ok.mp hroot).symm⟩
    | scatter _ _ _ | call _ _ _ => exact ⟨_, (pure_eq_ok.mp hroot).symm⟩
    | _ => exact absurd hwrites (by simp [Instr.mayWrite])
  have hmem := hrecord r rfl
  have hquiet := hsettled site hsite huniform
  cases ptr? with
  | none =>
    have hgather : ∃ ptrs mask, site.instr = .gather ptrs mask := by
      rw [heq]
      unfold DivergenceProblem.loaded? at hptr
      split at hptr
      · cases hptr
      · cases hptr
      · exact ⟨_, _, rfl⟩
      · cases hptr
    obtain ⟨ptrs, mask, hgather⟩ := hgather
    rw [DivergenceProblem.gather_of_quiet hquiet hgather] at hmem
    exact absurd hmem not_mem_nil
  | some ptr =>
    obtain ⟨r', hr', halias⟩ := DivergenceProblem.load_of_quiet hquiet (heq ▸ hptr)
    refine ⟨r, r', hroot, ?_, halias r hmem⟩
    obtain ⟨ldef, hldef⟩ : ∃ ldef, k.inst? site.inst = some ldef ∧ ldef.instr = instr := by
      exact map_eq_some_iff.mp hload
    rw [accessRoot?, inst, hldef.1]
    refine bind_eq_ok.mpr ⟨ldef, rfl, ?_⟩
    rw [hldef.2]
    have hmemory : k.memoryRoot ptr = .ok r' := hr'
    unfold DivergenceProblem.loaded? at hptr
    split at hptr
    · cases hptr
      exact bind_eq_ok.mpr ⟨r', hmemory, rfl⟩
    · cases hptr
      exact bind_eq_ok.mpr ⟨r', hmemory, rfl⟩
    · cases hptr
    · cases hptr

end

end ConvergentKernel

/-- **The operands of an instruction that does not vary do not vary.** -/
theorem LaneBlindKernel.operands_uniform (h : LaneBlindKernel k classify dimension d) (hg : k.flowGraph = .ok g)
    (hb : b ∈ g.order) (hi : i ∈ k.instsOf b) (hinstr : k.instr? i = some instr)
    (huniform : d.isVaryingInst i = false) : ∀ v ∈ instr.operands, d.isVarying k v = .ok false := by
  obtain ⟨sites, s, hsites, hs, hsettled, hvarying⟩ := h.exists_spread hg
  have hvalue : ∀ v, s.isVarying k v = d.isVarying k v := fun v => by
    simp only [Spread.isVarying, Divergence.isVarying, Divergence.isVaryingInst, hvarying]
  obtain ⟨site, hsite, rfl, rfl⟩ := exists_site hsites hb hi
  obtain ⟨_, _, hsinstr, hscall⟩ := mem_sites hsites hsite
  obtain rfl := mem_unique hsinstr hinstr
  rw [Divergence.isVaryingInst, hvarying] at huniform
  have hquiet := hsettled site hsite huniform
  simp only [← hvalue]
  by_cases hcall : ∃ callee args mask, site.instr = .call callee args mask
  · obtain ⟨callee, args, mask, heq⟩ := hcall
    rcases DivergenceProblem.call_of_quiet hquiet heq with hkind | ⟨_, hoperands⟩
    · -- the kind alone decided: an index in another dimension
      have hmem := h.mem_instsInOrder hg hb hi
      rw [heq] at hinstr
      obtain ⟨rfl, kind, hk, hremovable⟩ := h.calls site.inst hmem callee args mask hinstr
      have hcall : site.call = some kind := ok_unique hscall hk
      rw [hcall] at hkind
      intro v hv
      rw [heq, Instr.operands, Option.toList_none, append_nil] at hv
      rw [hvalue]
      cases kind with
      | laneIdentity dim =>
        cases dim with
        | index n =>
          have hne : n ≠ dimension := by
            intro heq'
            subst heq'
            exact absurd hkind (by simp [CallKind.varies?, divergenceProblem])
          exact h.otherLanes site.inst hmem callee args none hinstr n hk hne v hv
        | subGroup | dynamic => exact absurd hkind (by simp [CallKind.varies?])
      | groupInvariant | pure => exact absurd hkind (by simp [CallKind.varies?])
      | _ => exact absurd hremovable (by simp [CallKind.isRemovable])
    · exact hoperands
  · refine DivergenceProblem.isVarying_of_quiet hquiet fun callee args mask heq => hcall ⟨callee, args, mask, heq⟩

end Spmd
