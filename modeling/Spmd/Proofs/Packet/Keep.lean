import Spmd.Packet.Widen
import Spmd.Proofs.Kernel.SoundEdit
import Spmd.Proofs.Packet.Extend

/-!
# What widening leaves alone

While a kernel is widened its instructions are changed in place, replaced by others and moved apart by what is inserted
between them. What holds all the while (`Widening.Keeps`):

* every instruction stays in its block, in the old order, and keeps its result;
* it does what it did before, with the results of lowered calls replaced by the values that stand for them. Only where an
  instruction became that of lane 0 this is told by the note that was taken of it.

One lemma per change says so (`Widening.Proceeds`); conversions are covered by `Widening.Extends`.
-/

namespace Spmd

open Success List Kernel Build Option

variable {instr : Instr} {j i : InstId} {r v : ValueId} {k : Kernel} {seen : List InstId} {t : WidenTask}
  {σ : ValueId → ValueId} {s s' : Widening} {avoid : Option ValueId}

namespace WidenTask

/-- The instruction returns a value or is a call in which lanes work together. -/
def Recasts (t : WidenTask) (k : Kernel) (i : InstId) : Prop :=
  (∃ v, k.instr? i = some (.ret (some v))) ∨ ∃ c, t.calls[i]? = some (.collective c)

/-- Widening may change the instruction or replace it. -/
def Touches (t : WidenTask) (k : Kernel) (i : InstId) : Prop :=
  t.divergence.isVaryingInst i = true ∨ t.Recasts k i

/-- Another value comes to stand for the result of the call: what the lanes of the group compute together is one value. -/
def Lowers (t : WidenTask) (i : InstId) (c : Collective) : Prop :=
  t.calls[i]? = some (.collective c) ∧ c.scope = .subGroup ∧ c.op ≠ .scanInclusive ∧ c.op ≠ .scanExclusive

end WidenTask

/-! ## Changes to one instruction and to all uses of a value -/

namespace Kernel

variable {k' : Kernel} {x : ValueId} {f : InstDef → InstDef}

theorem Linked.exists_inst (hk : k.Linked) (hi : i ∈ k.instsInOrder) : ∃ d, k.inst? i = some d ∧ d.dead = false := by
  obtain ⟨b, -, hi⟩ := mem_flatMap.mp hi
  exact hk.inst?_of_mem hi

theorem instr?_modifyInst_of_ne (hij : i ≠ j) : (k.modifyInst j f).instr? i = k.instr? i := by
  rw [instr?, inst?_modifyInst, if_neg hij]
  rfl

theorem isPhi_modifyInst (hphi : ∀ d, k.inst? j = some d → (f d).instr.isPhi = d.instr.isPhi) (hi : k.isPhi i = true) :
    (k.modifyInst j f).isPhi i = true := by
  by_cases hij : i = j
  · obtain ⟨instr, hinstr, hi⟩ := (any_eq_true _ _).mp hi
    obtain ⟨d, hd, rfl⟩ := map_eq_some_iff.mp hinstr
    rw [isPhi, instr?, inst?_modifyInst, if_pos hij, hd]
    exact (hphi d (hij ▸ hd)).trans hi
  · rwa [isPhi, instr?_modifyInst_of_ne hij]

/-- What was made stays when a phi or an old instruction is changed. -/
theorem MadeBy.modifyInst (h : k.MadeBy k' v instr) (hphi : instr.isPhi = false)
    (hold : k'.isPhi j = true ∨ (k.inst? j).isSome = true) : k.MadeBy (k'.modifyInst j f) v instr := by
  obtain ⟨hnew, l, ty, b, hl, hv, hinst⟩ := h
  refine ⟨hnew, l, ty, b, hl, hv, ?_⟩
  rw [inst?_modifyInst, if_neg, hinst]
  rintro rfl
  rcases hold with hphi' | hsome
  · rw [isPhi, instr?, hinst] at hphi'
    cases hphi'.symm.trans hphi
  · rw [hl] at hsome
    cases hsome

theorem instr?_replaceUses_of_mem (hj : j ∈ k.instsInOrder) :
    (k.replaceUses r x).instr? j = (k.instr? j).map (·.replaceOperand r x) := by
  obtain ⟨b, hb, hj⟩ := mem_flatMap.mp hj
  exact instr?_replaceUses hb hj

theorem isPhi_replaceUses : (k.replaceUses r x).isPhi j = k.isPhi j := by
  rw [isPhi, isPhi, instr?, instr?, inst?_replaceUses]
  cases k.inst? j with
  | none => rfl
  | some d =>
    split
    · exact Instr.isPhi_mapOperands _ _
    · rfl

theorem def?_replaceUses : (k.replaceUses r x).def? v = k.def? v := by
  obtain ⟨insts, -, heq⟩ := replaceUses_eq k r x
  rw [heq]
  rfl

/-- What was made from other values stays when one is replaced. -/
theorem MadeBy.replaceUses (h : k.MadeBy k' v instr) (hops : ∀ u ∈ instr.operands, u ≠ r) :
    k.MadeBy (k'.replaceUses r x) v instr := by
  obtain ⟨hnew, l, ty, b, hl, hv, hinst⟩ := h
  refine ⟨hnew, l, ty, b, hl, (value?_replaceUses k' r x v).trans hv, ?_⟩
  have hid : instr.replaceOperand r x = instr := Instr.mapOperands_id fun u hu => if_neg (hops u hu)
  rw [inst?_replaceUses, hinst]
  split
  · exact congrArg (fun instr => some (InstDef.mk instr (some v) b false)) hid
  · rfl

end Kernel

/-! ## While a kernel is widened -/

namespace Widening

/-- What holds while `k` is widened and the instructions `seen` have been looked at. `σ` tells what stands for the values
of `k`. -/
structure Keeps (k : Kernel) (t : WidenTask) (σ : ValueId → ValueId) (seen : List InstId) (s : Widening) : Prop where
  linked : s.kernel.Linked
  solid : s.kernel.Solid
  layout : s.kernel.layout = k.layout
  value : ∀ v d, k.value? v = some d → s.kernel.value? v = some d
  inst : ∀ i d, k.inst? i = some d → ∃ instr, s.kernel.inst? i = some { d with instr } ∧ instr.isPhi = d.instr.isPhi
  sublist : ∀ b, (k.instsOf b).Sublist (s.kernel.instsOf b)
  /-- An instruction as it was before it became lane 0 is the old one with what stands for its operands. -/
  source : ∀ i ∈ k.instsInOrder, ∀ instr, k.instr? i = some instr → ¬(i ∈ seen ∧ t.Recasts k i) →
    (s.sources[i]?).or (s.kernel.instr? i) = some (instr.mapOperands σ)
  sources : ∀ i : InstId, (s.sources[i]?).isSome = true → i ∈ seen ∧ t.divergence.isVaryingInst i = true ∧ ¬t.Recasts k i
  /-- A return returns what it did, or something new. -/
  returned : ∀ i ∈ k.instsInOrder, ∀ v, k.instr? i = some (.ret (some v)) →
    ∃ w, s.kernel.instr? i = some (.ret (some w)) ∧ (w = σ v ∨ k.value? w = none)
  replaced : ∀ i ∈ s.replaced, i ∈ seen ∧ t.Touches k i
  /-- A phi that is to be filled in is new, or it became lane 0 itself. -/
  pending : ∀ p ∈ s.pending, s.kernel.isPhi p.phi = true ∧ (k.inst? p.phi = none ∨ (s.sources[p.phi]?).isSome = true) ∧
    (∀ n, p.form = .lane n → n < max t.group.lanes 1) ∧
    ∃ v, t.plan.get v ≠ .uniform ∧ s.kernel.def? v = .ok (some p.source)
  /-- Only results of lowered calls are replaced, and by new values. -/
  stand : ∀ v, σ v ≠ v → k.value? (σ v) = none ∧ s.kernel.Has (.value (σ v)) ∧
    ∃ i c, i ∈ seen ∧ t.Lowers i c ∧ k.result? i = some v
  packets : ∀ v p : ValueId, s.packets[v]? = some p → k.value? p = none ∧ s.kernel.Has (.value p)
  instances : ∀ (v : ValueId) (lane : Nat) (x : ValueId), s.instances[(v, lane)]? = some x →
    x = v ∨ s.kernel.Has (.value x)
  tailed : s.Tailed

/-- From `s` to `s'` the kernel `k` is widened further. What was made stays, but for one value at most: `avoid` may be
replaced by another, or get a packet. -/
structure Proceeds (k : Kernel) (t : WidenTask) (seen : List InstId) (avoid : Option ValueId) (σ : ValueId → ValueId)
    (s : Widening) (σ' : ValueId → ValueId) (s' : Widening) : Prop where
  keeps : s'.Keeps k t σ' seen
  agree : ∀ v, some v ≠ avoid → σ' v = σ v
  made : ∀ v instr, k.MadeBy s.kernel v instr → instr.isPhi = false → (∀ u ∈ instr.operands, some u ≠ avoid) →
    k.MadeBy s'.kernel v instr
  packets : ∀ v p : ValueId, s.packets[v]? = some p → some v ≠ avoid → s'.packets[v]? = some p
  sources : ∀ i : InstId, (s.sources[i]?).isSome = true → (s'.sources[i]?).isSome = true

variable {σ1 σ' : ValueId → ValueId} {s1 : Widening}

namespace Proceeds

theorem refl (h : s.Keeps k t σ seen) : Proceeds k t seen avoid σ s σ s :=
  ⟨h, fun _ _ => rfl, fun _ _ h _ _ => h, fun _ _ h _ => h, fun _ h => h⟩

theorem trans (h : Proceeds k t seen avoid σ s σ1 s1) (h' : Proceeds k t seen avoid σ1 s1 σ' s') :
    Proceeds k t seen avoid σ s σ' s' where
  keeps := h'.keeps
  agree v hv := (h'.agree v hv).trans (h.agree v hv)
  made v instr hmade hphi hops := h'.made v instr (h.made v instr hmade hphi hops) hphi hops
  packets v p hp hv := h'.packets v p (h.packets v p hp hv) hv
  sources i hi := h'.sources i (h.sources i hi)

end Proceeds

namespace Keeps

section

variable (h : s.Keeps k t σ seen)
include h

theorem mono {seen' : List InstId} (hsub : ∀ i ∈ seen, i ∈ seen') : s.Keeps k t σ seen' where
  linked := h.linked
  solid := h.solid
  layout := h.layout
  value := h.value
  inst := h.inst
  sublist := h.sublist
  source i hi instr hinstr hnot := h.source i hi instr hinstr fun hseen => hnot ⟨hsub i hseen.1, hseen.2⟩
  sources i hi := ⟨hsub i (h.sources i hi).1, (h.sources i hi).2⟩
  returned := h.returned
  replaced i hi := ⟨hsub i (h.replaced i hi).1, (h.replaced i hi).2⟩
  pending := h.pending
  stand v hv := by
    obtain ⟨hnew, hhas, i, c, hi, hlowers, hresult⟩ := h.stand v hv
    exact ⟨hnew, hhas, i, c, hsub i hi, hlowers, hresult⟩
  packets := h.packets
  instances := h.instances
  tailed := h.tailed

/-- What is new later was not there in the beginning. -/
theorem value?_eq_none (hv : s.kernel.value? v = none) : k.value? v = none := by
  cases hd : k.value? v with
  | none => rfl
  | some d => cases (h.value v d hd).symm.trans hv

theorem inst?_eq_none (hi : s.kernel.inst? i = none) : k.inst? i = none := by
  cases hd : k.inst? i with
  | none => rfl
  | some d =>
    obtain ⟨instr, hinst, -⟩ := h.inst i d hd
    cases hinst.symm.trans hi

theorem mem_instsInOrder (hi : i ∈ k.instsInOrder) : i ∈ s.kernel.instsInOrder := by
  obtain ⟨b, hb, hi⟩ := mem_flatMap.mp hi
  exact mem_flatMap.mpr ⟨b, h.layout ▸ hb, (h.sublist b).subset hi⟩

/-- No note is taken of an instruction that was not looked at, or that becomes no lane. -/
theorem sources_eq_none (hi : i ∈ seen → t.Recasts k i) : s.sources[i]? = none := by
  by_contra hsome
  obtain ⟨hseen, -, hplain⟩ := h.sources i (isSome_iff_ne_none.mpr hsome)
  exact hplain (hi hseen)

/-- An instruction that was not looked at, or that is not to be changed, is the old one with what stands for its
operands. -/
theorem instr? (hi : i ∈ k.instsInOrder) (hinstr : k.instr? i = some instr) (hnot : ¬(i ∈ seen ∧ t.Touches k i)) :
    s.kernel.instr? i = some (instr.mapOperands σ) := by
  have hsource := h.source i hi instr hinstr fun hseen => hnot ⟨hseen.1, .inr hseen.2⟩
  cases hnote : s.sources[i]? with
  | none => rwa [hnote] at hsource
  | some _ =>
    obtain ⟨hseen, hvarying, -⟩ := h.sources i (by rw [hnote]; rfl)
    exact absurd ⟨hseen, .inl hvarying⟩ hnot

theorem stand_eq (hv : σ v ≠ v) {u : ValueId} {d : ValueDef} (hu : k.value? u = some d) : σ v ≠ u := by
  rintro rfl
  cases (h.stand v hv).1.symm.trans hu

end

/-! ## Conversions -/

/-- **Conversions** leave everything as it is. -/
theorem convert (h : s.Keeps k t σ seen) (hext : s.Extends t s') : s'.Keeps k t σ seen where
  linked := hext.kernel.linked h.linked
  solid := hext.kernel.solid h.solid
  layout := hext.kernel.layout.trans h.layout
  value v d hd := hext.kernel.value v d (h.value v d hd)
  inst i d hd := by
    obtain ⟨instr, hinst, hphi⟩ := h.inst i d hd
    exact ⟨instr, hext.kernel.inst i _ hinst, hphi⟩
  sublist b := (h.sublist b).trans (hext.kernel.sublist b)
  source i hi instr hinstr hnot := by
    obtain ⟨d, hd, -⟩ := map_eq_some_iff.mp hinstr
    obtain ⟨instr', hinst, -⟩ := h.inst i d hd
    have hsource := h.source i hi instr hinstr hnot
    rw [Kernel.instr?, hinst] at hsource
    rw [hext.sources, Kernel.instr?, hext.kernel.inst i _ hinst]
    exact hsource
  sources i hi := h.sources i (hext.sources ▸ hi)
  returned i hi v hv := by
    obtain ⟨w, hw, hsame⟩ := h.returned i hi v hv
    exact ⟨w, hext.kernel.instr? hw, hsame⟩
  replaced i hi := h.replaced i (hext.replaced ▸ hi)
  pending p hp := by
    obtain ⟨new, heq, hnew⟩ := hext.pending
    rw [heq] at hp
    rcases mem_append.mp hp with hp | hp
    · obtain ⟨v, n, hplan, hn, hform, hdef⟩ := (hnew p hp).lane
      refine ⟨(hnew p hp).isPhi, .inl (h.inst?_eq_none (hnew p hp).fresh), fun m hm => ?_, v, by simp [hplan], hdef⟩
      rw [hform] at hm
      exact PhiForm.lane.inj hm ▸ hn
    · obtain ⟨hphi, hplace, hlane, v, hplan, hdef⟩ := h.pending p hp
      exact ⟨hext.kernel.isPhi hphi, hext.sources ▸ hplace, hlane, v, hplan, hext.kernel.def? hdef⟩
  stand v hv := by
    obtain ⟨hnew, hhas, hlowered⟩ := h.stand v hv
    exact ⟨hnew, hext.kernel.has_value hhas, hlowered⟩
  packets v p hp := by
    rcases hext.newPackets v p hp with hp | ⟨hnew, hhas⟩
    · exact ⟨(h.packets v p hp).1, hext.kernel.has_value (h.packets v p hp).2⟩
    · exact ⟨h.value?_eq_none hnew, hhas⟩
  instances v lane x hx := by
    rcases hext.newInstances v lane x hx with hx | hx
    · exact (h.instances v lane x hx).imp_right hext.kernel.has_value
    · exact hx
  tailed := hext.tailed h.tailed

theorem proceeds (h : s.Keeps k t σ seen) (hext : s.Extends t s') : Proceeds k t seen avoid σ s σ s' where
  keeps := h.convert hext
  agree _ _ := rfl
  made _ _ hmade _ _ := hmade.after hext.kernel
  packets v p hp _ := hext.packets v p hp
  sources _ hi := hext.sources ▸ hi

/-! ## Changes in place -/

section

variable (h : s.Keeps k t σ seen)
include h

/-- An instruction is changed in place. A note was taken of it, or it is new; its result and its block stay. A return may
come to return something new. -/
theorem modifyInst {f : InstDef → InstDef} (hsame : ∀ d, f d = { d with instr := (f d).instr })
    (hphi : ∀ d, s.kernel.inst? j = some d → (f d).instr.isPhi = d.instr.isPhi)
    (hold : s.kernel.isPhi j = true ∨ (k.inst? j).isSome = true)
    (hnote : k.inst? j = none ∨ (s.sources[j]?).isSome = true ∨ j ∈ seen ∧ t.Recasts k j ∧ ∀ d w,
      d.instr = .ret (some w) → ∃ w', (f d).instr = .ret (some w') ∧ (w' = w ∨ k.value? w' = none)) :
    Proceeds k t seen avoid σ s σ { s with kernel := s.kernel.modifyInst j f } := by
  have hevolves : s.kernel.Evolves [] (s.kernel.modifyInst j f) :=
    h.linked.modifyInst j (fun d => by rw [hsame]) (fun d => by rw [hsame]) fun d => by rw [hsame]
  have hinst := inst?_modifyInst s.kernel j
  refine ⟨?_, fun _ _ => rfl, fun v instr hmade hnot _ => hmade.modifyInst hnot hold, fun _ _ hp _ => hp, fun _ hi => hi⟩
  refine ⟨hevolves.linked, h.solid, h.layout, h.value, fun i d hd => ?_, h.sublist, fun i hi instr hinstr hnot => ?_,
    h.sources, fun i hi v hv => ?_, h.replaced, fun p hp => ?_, h.stand, h.packets, h.instances,
    ⟨fun i l hl => hevolves.persists.has (h.tailed.tails i l hl), fun l hl => hevolves.persists.has (h.tailed.entryTail l hl)⟩⟩
  · obtain ⟨instr, hinstr, hsamePhi⟩ := h.inst i d hd
    rw [hinst, hinstr]
    split
    next hij =>
      exact ⟨_, congrArg some (hsame _), (hphi _ (hij ▸ hinstr)).trans hsamePhi⟩
    · exact ⟨instr, rfl, hsamePhi⟩
  -- the instruction that is changed is new, or a note tells what it was, or it is not asked for any more
  · have hsource := h.source i hi instr hinstr hnot
    by_cases hij : i = j
    · subst hij
      rcases hnote with hnone | hsome | hseen
      · rw [Kernel.instr?, hnone] at hinstr
        cases hinstr
      · obtain ⟨instr', hinstr'⟩ := isSome_iff_exists.mp hsome
        rw [hinstr'] at hsource ⊢
        exact hsource
      · exact absurd ⟨hseen.1, hseen.2.1⟩ hnot
    · rw [instr?_modifyInst_of_ne hij]
      exact hsource
  · obtain ⟨w, hw, hsame⟩ := h.returned i hi v hv
    by_cases hij : i = j
    · subst hij
      rcases hnote with hnone | hsome | ⟨-, -, hret⟩
      · rw [Kernel.instr?, hnone] at hv
        cases hv
      · exact absurd (.inl ⟨v, hv⟩) (h.sources i hsome).2.2
      · obtain ⟨d, hd, hw⟩ := map_eq_some_iff.mp hw
        obtain ⟨w', hw', hnew⟩ := hret d w hw
        refine ⟨w', ?_, ?_⟩
        · rw [Kernel.instr?, hinst, if_pos rfl, hd]
          exact congrArg some hw'
        · rcases hnew with rfl | hnew
          · exact hsame
          · exact .inr hnew
    · exact ⟨w, (instr?_modifyInst_of_ne hij).trans hw, hsame⟩
  · obtain ⟨hp, hrest⟩ := h.pending p hp
    exact ⟨isPhi_modifyInst hphi hp, hrest⟩

/-- A note is taken of an instruction that is about to become lane 0. -/
theorem setSource (hi : i ∈ seen) (hvarying : t.divergence.isVaryingInst i = true) (hplain : ¬t.Recasts k i)
    (hinstr : (s.sources[i]?).or (s.kernel.instr? i) = some instr) :
    Proceeds k t seen avoid σ s σ { s with sources := s.sources.insert i instr } := by
  have hlook : ∀ j : InstId, (s.sources.insert i instr)[j]? = if i = j then some instr else s.sources[j]? := fun j => by
    simp only [Std.TreeMap.getElem?_insert, Std.LawfulEqOrd.compare_eq_iff_eq]
  have hmore : ∀ j : InstId, (s.sources[j]?).isSome = true → ((s.sources.insert i instr)[j]?).isSome = true := by
    intro j hj
    rw [hlook]
    split
    · rfl
    · exact hj
  refine ⟨⟨h.linked, h.solid, h.layout, h.value, h.inst, h.sublist, fun j hj instr' hinstr' hnot => ?_, fun j hj => ?_,
    h.returned, h.replaced, fun p hp => ?_, h.stand, h.packets, h.instances,
    ⟨h.tailed.tails, h.tailed.entryTail⟩⟩, fun _ _ => rfl,
    fun _ _ hmade _ _ => hmade, fun _ _ hp _ => hp, hmore⟩
  · have hsource := h.source j hj instr' hinstr' hnot
    rw [hlook]
    split
    next hij =>
      subst hij
      exact (hinstr.symm.trans hsource : some instr = _)
    · exact hsource
  · have hj : ((s.sources.insert i instr)[j]?).isSome = true := hj
    rw [hlook] at hj
    split at hj
    next hij =>
      exact hij ▸ ⟨hi, hvarying, hplain⟩
    · exact h.sources j hj
  · obtain ⟨hphi, hplace, hrest⟩ := h.pending p hp
    exact ⟨hphi, hplace.imp_right (hmore p.phi), hrest⟩

/-- A phi is left to be filled in. -/
theorem addPending {p : PendingPhi} (hphi : s.kernel.isPhi p.phi = true)
    (hplace : k.inst? p.phi = none ∨ (s.sources[p.phi]?).isSome = true)
    (hlane : ∀ n, p.form = .lane n → n < max t.group.lanes 1) (hplan : t.plan.get v ≠ .uniform)
    (hdef : s.kernel.def? v = .ok (some p.source)) :
    Proceeds k t seen avoid σ s σ { s with pending := p :: s.pending } := by
  refine ⟨⟨h.linked, h.solid, h.layout, h.value, h.inst, h.sublist, h.source, h.sources, h.returned, h.replaced, fun q hq => ?_,
    h.stand, h.packets, h.instances, ⟨h.tailed.tails, h.tailed.entryTail⟩⟩, fun _ _ => rfl,
    fun _ _ hmade _ _ => hmade, fun _ _ hp _ => hp, fun _ hi => hi⟩
  rcases mem_cons.mp hq with rfl | hq
  · exact ⟨hphi, hplace, hlane, v, hplan, hdef⟩
  · exact h.pending q hq

theorem replace (hi : i ∈ seen) (htouches : t.Touches k i) :
    Proceeds k t seen avoid σ s σ { s with replaced := s.replaced ++ [i] } := by
  refine ⟨⟨h.linked, h.solid, h.layout, h.value, h.inst, h.sublist, h.source, h.sources, h.returned, fun j hj => ?_, h.pending,
    h.stand, h.packets, h.instances, ⟨h.tailed.tails, h.tailed.entryTail⟩⟩, fun _ _ => rfl,
    fun _ _ hmade _ _ => hmade, fun _ _ hp _ => hp, fun _ hi => hi⟩
  rcases mem_append.mp hj with hj | hj
  · exact h.replaced j hj
  · exact mem_singleton.mp hj ▸ ⟨hi, htouches⟩

theorem setPacket {p : ValueId} (hnew : k.value? p = none) (hhas : s.kernel.Has (.value p)) :
    Proceeds k t seen (some r) σ s σ { s with packets := s.packets.insert r p } := by
  have hlook : ∀ v : ValueId, (s.packets.insert r p)[v]? = if r = v then some p else s.packets[v]? := fun v => by
    simp only [Std.TreeMap.getElem?_insert, Std.LawfulEqOrd.compare_eq_iff_eq]
  refine ⟨⟨h.linked, h.solid, h.layout, h.value, h.inst, h.sublist, h.source, h.sources, h.returned, h.replaced, h.pending,
    h.stand, fun v q hq => ?_, h.instances, ⟨h.tailed.tails, h.tailed.entryTail⟩⟩, fun _ _ => rfl,
    fun _ _ hmade _ _ => hmade, fun v q hq hne => ?_, fun _ hi => hi⟩
  · have hq : (s.packets.insert r p)[v]? = some q := hq
    rw [hlook] at hq
    split at hq
    · exact some.inj hq ▸ ⟨hnew, hhas⟩
    · exact h.packets v q hq
  · rw [hlook, if_neg, hq]
    rintro rfl
    exact hne rfl

/-- Counting changes nothing else. -/
theorem count (packetCount instanceCount collectiveCount : Nat) :
    Proceeds k t seen avoid σ s σ { s with packetCount, instanceCount, collectiveCount } :=
  h.proceeds (.of_kernel (.refl _) rfl rfl rfl rfl rfl fun ht => ⟨ht.tails, ht.entryTail⟩)

/-- The kernel returns something else, or works on a group of lanes. -/
theorem setHead (ret : Ty) (group : Option LaneGroup) :
    Proceeds k t seen avoid σ s σ { s with kernel := { s.kernel with ret := ret, laneGroup := group } } := by
  refine ⟨⟨?_, h.solid, h.layout, h.value, h.inst, h.sublist, h.source, h.sources, h.returned, h.replaced, h.pending, h.stand,
    h.packets, h.instances, ⟨h.tailed.tails, h.tailed.entryTail⟩⟩, fun _ _ => rfl, fun _ _ hmade _ _ => hmade,
    fun _ _ hp _ => hp, fun _ hi => hi⟩
  have hk := h.linked
  exact ⟨hk.layout, hk.blocks, hk.mem_iff, hk.nodup, hk.home, hk.defines_iff⟩

/-- A value stands for the result of a call from now on. -/
theorem replaceUses {c : Collective} {x : ValueId} (hi : i ∈ seen) (hlowers : t.Lowers i c)
    (hresult : k.result? i = some r) (hr : k.Has (.value r)) (hnew : k.value? x = none) (hhas : s.kernel.Has (.value x)) :
    Proceeds k t seen (some r) σ s (fun v => if σ v = r then x else σ v) { s with
      kernel := s.kernel.replaceUses r x
      sources := s.sources.map fun _ instr => instr.replaceOperand r x } := by
  obtain ⟨dr, hdr⟩ := isSome_iff_exists.mp hr
  -- only the value itself was represented by it
  have hself : ∀ v, σ v = r → v = r := by
    intro v hv
    by_contra hne
    exact h.stand_eq (fun heq => hne (heq.symm.trans hv)) hdr hv
  have hevolves : s.kernel.Evolves [] (s.kernel.replaceUses r x) :=
    h.linked.foldl_modifyInst _ (fun _ => rfl) (fun _ => rfl) fun _ => rfl
  have hmap : ∀ instr : Instr, (instr.mapOperands σ).replaceOperand r x =
      instr.mapOperands fun v => if σ v = r then x else σ v := fun instr => Instr.mapOperands_mapOperands _ _ instr
  have hlook : ∀ j : InstId, (s.sources.map fun _ instr => instr.replaceOperand r x)[j]? =
      (s.sources[j]?).map (·.replaceOperand r x) := fun j => Std.TreeMap.getElem?_map
  have hsome : ∀ j : InstId, ((s.sources.map fun _ instr => instr.replaceOperand r x)[j]?).isSome = (s.sources[j]?).isSome :=
    fun j => by rw [hlook, isSome_map]
  have hvalue := value?_replaceUses s.kernel r x
  refine ⟨⟨hevolves.linked, fun v d hd => h.solid v d (hvalue v ▸ hd), ?_, fun v d hd => (hvalue v).trans (h.value v d hd),
    fun j d hd => ?_, fun b => ?_, fun j hj instr hj' hnot => ?_, fun j hj => h.sources j (hsome j ▸ hj),
    fun j hj v hv => ?_, h.replaced, fun p hp => ?_, fun v hv => ?_, fun v p hp => ?_, fun v lane y hy => ?_, ?_⟩,
    fun v hv => ?_, fun v instr hmade _ hops => hmade.replaceUses fun u hu heq => hops u hu (congrArg some heq),
    fun _ _ hp _ => hp, fun j hj => (hsome j).symm ▸ hj⟩
  · exact (layout_replaceUses _ _ _).trans h.layout
  · obtain ⟨instr, hinst, hsamePhi⟩ := h.inst j d hd
    rw [inst?_replaceUses, hinst]
    split
    · exact ⟨_, rfl, (Instr.isPhi_mapOperands _ _).trans hsamePhi⟩
    · exact ⟨_, rfl, hsamePhi⟩
  · rw [instsOf_replaceUses]
    exact h.sublist b
  · have hsource := h.source j hj instr hj' hnot
    rw [hlook, instr?_replaceUses_of_mem (h.mem_instsInOrder hj), ← map_or, hsource, map_some, hmap]
  · obtain ⟨w, hw, hsame⟩ := h.returned j hj v hv
    refine ⟨if w = r then x else w, ?_, ?_⟩
    · rw [instr?_replaceUses_of_mem (h.mem_instsInOrder hj), hw]
      rfl
    · rcases hsame with rfl | hnone
      · exact .inl rfl
      · refine .inr ((congrArg k.value? (if_neg ?_)).trans hnone)
        rintro rfl
        cases hdr.symm.trans hnone
  · obtain ⟨hp', hplace, hlane, v, hplan, hdef⟩ := h.pending p hp
    exact ⟨isPhi_replaceUses.trans hp', hplace.imp_right (hsome p.phi).trans, hlane, v, hplan,
      def?_replaceUses.trans hdef⟩
  · split
    next hv' =>
      obtain rfl := hself v hv'
      exact ⟨hnew, hevolves.persists.has hhas, i, c, hi, hlowers, hresult⟩
    next hv' =>
      rw [if_neg hv'] at hv
      obtain ⟨hnone, hstand, hlowered⟩ := h.stand v hv
      exact ⟨hnone, hevolves.persists.has hstand, hlowered⟩
  · exact ⟨(h.packets v p hp).1, hevolves.persists.has (h.packets v p hp).2⟩
  · exact (h.instances v lane y hy).imp_right hevolves.persists.has
  · exact ⟨fun j l hl => hevolves.persists.has (h.tailed.tails j l hl),
      fun l hl => hevolves.persists.has (h.tailed.entryTail l hl)⟩
  · refine if_neg fun heq => hv ?_
    rw [hself v heq]

end

end Keeps

end Widening

/-! ## Per lane -/

namespace Widen

variable {α : Type} {a : Unit} {ty : Ty} {prev : InstId} {result : ValueId}

theorem editKernel_eq_ok {f : Kernel → Checked Kernel} :
    editKernel f s = .ok a s' ↔ ∃ k', f s.kernel = .ok k' ∧ s' = { s with kernel := k' } := by
  constructor
  · intro h
    obtain ⟨k', hk', h⟩ := lift_bind_eq_ok.mp h
    cases h
    exact ⟨k', hk', rfl⟩
  · rintro ⟨k', hk', rfl⟩
    refine bind_eq_ok.mpr ⟨s.kernel, s, rfl, bind_eq_ok.mpr ⟨k', s, lift_eq_ok.mpr ⟨hk', rfl⟩, rfl⟩⟩

/-- Making an instruction that of lane 0. -/
theorem proceeds_makeLaneZero (hs : s.Keeps k t σ seen) (hi : i ∈ seen) (hvarying : t.divergence.isVaryingInst i = true)
    (hplain : ¬t.Recasts k i) (hold : (k.inst? i).isSome = true) (hinstr : s.kernel.instr? i = some instr)
    (hnone : s.sources[i]? = none) (h : makeLaneZero t i instr s = .ok a s') :
    s.Proceeds k t seen avoid σ σ s' ∧ (s'.sources[i]?).isSome = true := by
  obtain ⟨operands, s1, hoperands, h⟩ := bind_eq_ok.mp h
  have hzero : 0 < max t.group.lanes 1 := by omega
  have hext := extends_laneOperands (extends_laneOf hzero) instr s operands s1 hoperands hs.solid
  obtain ⟨_, _, hedit, h⟩ := bind_eq_ok.mp h
  obtain ⟨k', hk', rfl⟩ := editKernel_eq_ok.mp hedit
  obtain rfl := Success.pure_eq_ok.mp hk'
  cases h
  have hinstr1 := hext.kernel.instr? hinstr
  have hnoted : (s1.sources[i]?).or (s1.kernel.instr? i) = some instr := by
    rw [hext.sources, hnone, hinstr1]
    rfl
  have hsource : s1.Proceeds k t seen avoid σ σ _ := (hs.convert hext).setSource hi hvarying hplain hnoted
  have hsome : (((s1.sources.insert i instr))[i]?).isSome = true := by
    rw [Std.TreeMap.getElem?_insert_self]
    rfl
  refine ⟨((hs.proceeds hext).trans hsource).trans (hsource.keeps.modifyInst (fun d => rfl) (fun d hd => ?_)
    (.inr hold) (.inr (.inl hsome))), hsome⟩
  obtain ⟨d', hd', rfl⟩ := map_eq_some_iff.mp hinstr1
  obtain rfl := mem_unique hd' hd
  exact Instr.isPhi_mapOperands _ _

/-- What is inserted is there, and so is the value that it defines. -/
theorem has_of_insert {c c' : Cursor} (h : insert instr ty c = .ok (j, c')) :
    c'.kernel.Has (.inst j) ∧ ∀ v, c'.kernel.result? j = some v → c'.kernel.Has (.value v) := by
  obtain ⟨b, index, -, hinst, -⟩ := insert_eq_ok h
  obtain ⟨pre, post, -, hins⟩ := insertInst_eq_ok hinst
  constructor
  · rw [Has, hins.inst_new]
    rfl
  · intro v hv
    cases hvoid : ty.isVoid with
    | true => rw [hins.result?_eq, hvoid] at hv; cases hv
    | false =>
      rw [hins.result?_eq, hvoid] at hv
      rw [← some.inj hv, Has, hins.value_new hvoid]
      rfl

/-- Repeating an instruction for a lane only adds to the kernel. -/
theorem repeatFor_spec {result : Option ValueId} {lane : Nat} (hlane : lane < max t.group.lanes 1)
    (hsolid : s.kernel.Solid) (h : repeatFor t instr ty result prev lane s = .ok j s') :
    s.Extends t s' ∧ s'.kernel.Has (.inst j) := by
  obtain ⟨operands, s1, hoperands, h⟩ := bind_eq_ok.mp h
  have hext := extends_laneOperands (extends_laneOf hlane) instr s operands s1 hoperands hsolid
  obtain ⟨r, s2, hbuild, h⟩ := bind_eq_ok.mp h
  have hext2 := (converts_buildAt t _ (grows_insert _ _)).extends s1 r s2 hbuild (hext.kernel.solid hsolid)
  obtain ⟨c, haction, -, rfl⟩ := buildAt_eq_ok.mp hbuild
  obtain ⟨hhas, hvalue⟩ := has_of_insert haction
  obtain ⟨_, _, hkernel, h⟩ := bind_eq_ok.mp h
  obtain ⟨rfl, rfl⟩ := kernel_eq_ok.mp hkernel
  cases result with
  | none =>
    obtain ⟨rfl, rfl⟩ := pure_eq_ok.mp h
    exact ⟨hext.trans hext2, hhas⟩
  | some v =>
    cases hx : c.kernel.result? r.1 with
    | none =>
      simp only [hx] at h
      obtain ⟨rfl, rfl⟩ := pure_eq_ok.mp h
      exact ⟨hext.trans hext2, hhas⟩
    | some x =>
      simp only [hx] at h
      obtain ⟨rfl, rfl⟩ := pure_eq_ok.mp h
      exact ⟨(hext.trans hext2).trans (.setInstance t _ lane (.inr (hvalue x hx))), hhas⟩

/-- One instruction per lane, each behind the one before. -/
theorem foldlM_repeatFor_spec {result : Option ValueId} {lanes : List Nat}
    (hlanes : ∀ lane ∈ lanes, lane < max t.group.lanes 1) {last : InstId} (hsolid : s.kernel.Solid)
    (hprev : s.kernel.Has (.inst prev)) (h : lanes.foldlM (repeatFor t instr ty result) prev s = .ok last s') :
    s.Extends t s' ∧ s'.kernel.Has (.inst last) := by
  induction lanes generalizing s prev with
  | nil =>
    obtain ⟨rfl, rfl⟩ := pure_eq_ok.mp h
    exact ⟨.refl _, hprev⟩
  | cons lane lanes ih =>
    rw [foldlM_cons] at h
    obtain ⟨j, s1, hj, h⟩ := bind_eq_ok.mp h
    obtain ⟨hext, hhas⟩ := repeatFor_spec (hlanes lane (.head _)) hsolid hj
    obtain ⟨hrest, hlast⟩ := ih (fun l hl => hlanes l (.tail _ hl)) (hext.kernel.solid hsolid) hhas h
    exact ⟨hext.trans hrest, hlast⟩

section

variable (hs : s.Keeps k t σ seen) (hi : i ∈ seen) (hvarying : t.divergence.isVaryingInst i = true)
  (hplain : ¬t.Recasts k i) (hold : (k.inst? i).isSome = true) (hnone : s.sources[i]? = none)
include hs hi hvarying hplain hold hnone

/-- Repeating an instruction with effects for every lane. -/
theorem proceeds_repeatEffect (h : repeatEffect t i s = .ok a s') :
    s.Proceeds k t seen avoid σ σ s' ∧ (s'.sources[i]?).isSome = true := by
  obtain ⟨lanes, s1, hcheck, h⟩ := bind_eq_ok.mp h
  obtain ⟨rfl, rfl, -⟩ := checkCopies_eq_ok hcheck
  rw [kernel_bind] at h
  obtain ⟨d, hd, h⟩ := lift_bind_eq_ok.mp h
  have hinst := some?_eq_ok.mp hd
  have hinstr : s.kernel.instr? i = some d.instr := by
    rw [instr?, hinst]
    rfl
  obtain ⟨_, s1, hzero, h⟩ := bind_eq_ok.mp h
  obtain ⟨hstep, hsome⟩ : s.Proceeds k t seen avoid σ σ s1 ∧ _ :=
    proceeds_makeLaneZero hs hi hvarying hplain hold hinstr hnone hzero
  obtain ⟨last, s2, hrepeat, h⟩ := bind_eq_ok.mp h
  have hlanes : ∀ lane ∈ (range t.group.lanes).drop 1, lane < max t.group.lanes 1 := fun lane hlane =>
    Nat.lt_of_lt_of_le (mem_range.mp (mem_of_mem_drop hlane)) (Nat.le_max_left _ _)
  have hhas : s1.kernel.Has (.inst i) := by
    obtain ⟨e, he⟩ := isSome_iff_exists.mp hold
    obtain ⟨instr, he', -⟩ := hstep.keeps.inst i e he
    exact isSome_iff_exists.mpr ⟨_, he'⟩
  obtain ⟨hext, hlast⟩ := foldlM_repeatFor_spec hlanes hstep.keeps.solid hhas hrepeat
  have hdone : ∀ s3 : Widening, s1.Extends t s3 → s3.kernel.Has (.inst last) →
      s1.Extends t { s3 with tails := s3.tails.insert i last, instanceCount := s3.instanceCount + 1 } := by
    intro s3 hext3 hlast3
    refine hext3.trans (.of_kernel (.refl _) rfl rfl rfl rfl rfl fun ht => ⟨fun j l hl => ?_, ht.entryTail⟩)
    rw [Std.TreeMap.getElem?_insert] at hl
    split at hl
    · exact some.inj hl ▸ hlast3
    · exact ht.tails j l hl
  cases hresult : s.kernel.result? i with
  | none =>
    simp only [hresult] at h
    cases h
    have hall := hdone s2 hext hlast
    exact ⟨hstep.trans (hstep.keeps.proceeds hall), hall.sources ▸ hsome⟩
  | some r =>
    simp only [hresult] at h
    cases h
    have hall := hdone _ (hext.trans (.setInstance t s2 (v := r) 0 (.inl rfl))) hlast
    exact ⟨hstep.trans (hstep.keeps.proceeds hall), hall.sources ▸ hsome⟩

/-- Keeping a value per lane. -/
theorem proceeds_keepPerLane (hplan : t.plan.get result ≠ .uniform) (hdef : s.kernel.def? result = .ok (some i))
    (h : keepPerLane t i result s = .ok a s') : s.Proceeds k t seen avoid σ σ s' ∧ (s'.sources[i]?).isSome = true := by
  have hlast : ∀ s1 : Widening, s.Proceeds k t seen avoid σ σ s1 ∧ (s1.sources[i]?).isSome = true →
      setInstance result 0 result s1 = .ok a s' →
      s.Proceeds k t seen avoid σ σ s' ∧ (s'.sources[i]?).isSome = true := by
    rintro s1 ⟨hstep, hsome⟩ hset
    cases hset
    have hext : s1.Extends t _ := .setInstance t s1 (v := result) 0 (.inl rfl)
    exact ⟨hstep.trans (hstep.keeps.proceeds hext), hext.sources ▸ hsome⟩
  have hother : (do
      let instr := (← (← kernel).inst i).instr
      if instr.isPhi then
        setSource i instr
        addPending ⟨i, i, .lane 0⟩
      else makeLaneZero t i instr
      setInstance result 0 result : Widen Unit) s = .ok a s' →
      s.Proceeds k t seen avoid σ σ s' ∧ (s'.sources[i]?).isSome = true := by
    intro h
    rw [kernel_bind] at h
    obtain ⟨d, hd, h⟩ := lift_bind_eq_ok.mp h
    have hinstr : s.kernel.instr? i = some d.instr := by
      rw [instr?, some?_eq_ok.mp hd]
      rfl
    split at h
    next hphi =>
      have hnote : s.Proceeds k t seen avoid σ σ _ := hs.setSource hi hvarying hplain (by rw [hnone, hinstr]; rfl)
      have hsome : (((s.sources.insert i d.instr))[i]?).isSome = true := by
        rw [Std.TreeMap.getElem?_insert_self]
        rfl
      refine hlast _ ⟨hnote.trans (hnote.keeps.addPending ?_ (.inr hsome) (fun n hn => ?_) hplan hdef), hsome⟩ h
      · rw [isPhi, hinstr]
        exact hphi
      · rw [← PhiForm.lane.inj hn]
        omega
    · obtain ⟨_, s1, hzero, h⟩ := bind_eq_ok.mp h
      exact hlast s1 (proceeds_makeLaneZero hs hi hvarying hplain hold hinstr hnone hzero) h
  rw [keepPerLane] at h
  cases hcall : t.calls[i]? with
  | none =>
    simp only [hcall] at h
    exact hother h
  | some kind =>
    simp only [hcall] at h
    cases kind with
    | laneIdentity identity =>
      cases identity with
      | dynamic => exact absurd h unsupported_ne_ok
      | _ => exact hother h
    | unknown | neverConvergent | inherentlyVarying => exact proceeds_repeatEffect hs hi hvarying hplain hold hnone h
    | _ => exact hother h

end

/-! ## Packets -/

/-- An action that makes conversions and gives a new value. -/
def Adds (t : WidenTask) (x : Widen ValueId) : Prop := x.Extends t ∧ x.Fresh

theorem Adds.bind {x : Widen α} {f : α → Widen ValueId} (hx : x.Extends t) (hf : ∀ a, (f a).Adds t) :
    (x >>= f).Adds t := by
  refine ⟨.bind hx fun a => (hf a).1, fun s v s' hsolid h => ?_⟩
  obtain ⟨a, s1, h1, h2⟩ := bind_eq_ok.mp h
  have hext := hx s a s1 h1 hsolid
  obtain ⟨hnew, hhas⟩ := (hf a).2 s1 v s' (hext.kernel.solid hsolid) h2
  exact ⟨hext.kernel.value?_eq_none hnew, hhas⟩

theorem Adds.unsupported (i : Option InstId) (o : Obstacle) : (unsupported i o : Widen ValueId).Adds t :=
  ⟨.unsupported i o, fun _ _ _ _ h => absurd h unsupported_ne_ok⟩

theorem adds_before (i : InstId) {action : Build ValueId} (haccrues : action.Grows) (hfresh : action.Fresh) :
    (before i action).Adds t := by
  refine ⟨extends_before t i haccrues, fun s v s' hsolid h => ?_⟩
  obtain ⟨c, haction, rfl⟩ := before_eq_ok.mp h
  exact hfresh _ v c hsolid haction

/-- One new instruction in front of another one. -/
theorem adds_emitValue (i : InstId) {given : Ty} (hgives : instr.givesValue given = true) :
    (before i (emitValue instr given)).Adds t :=
  adds_before i (grows_emitValue instr given) (fresh_emitValue hgives)

theorem adds_packetLoad (i : InstId) (hty : ty.isVoid = false) (ptr : ValueId) (mask : Option ValueId) (align : Nat) :
    (packetLoad t i ty ptr mask align).Adds t := by
  have hzero : 0 < max t.group.lanes 1 := by omega
  have hgiven : (!ty.isVoid) = true := by rw [hty]; rfl
  refine .bind (extends_maskOf t mask) fun mask => ?_
  cases t.plan.memoryForm? i with
  | none => exact .unsupported _ _
  | some form =>
    cases form with
    | contiguous | interleaved => exact .bind (extends_laneOf hzero ptr) fun base => adds_emitValue i hgiven
    | gatherScatter => exact .bind (extends_packetOf t ptr) fun ptrs => adds_emitValue i hgiven
    | perLane => exact .unsupported _ _

theorem not_void_widenTy (h : ty.isVoid = false) : (widenTy t ty).isVoid = false := by
  cases ty with
  | void => cases h
  | scalar _ | vector _ => rfl

/-- A call for all lanes, for its value. -/
theorem adds_call (i : InstId) (callee : String) (args : List ValueId) (mask : Option ValueId) (ty : Ty) : (do
    let call ← before i (call callee args mask ty)
    match (← kernel).result? call with
    | some v => return v
    | none => unsupported (some i) .lostResult : Widen ValueId).Adds t := by
  constructor
  · refine .bind (extends_before t i (grows_emit _ _)) fun call => .bind ((converts_kernel t).extends) fun k => ?_
    cases k.result? call with
    | none => exact .unsupported _ _
    | some v => exact .pure v
  · intro s v s' hsolid h
    obtain ⟨call, s1, hcall, h⟩ := bind_eq_ok.mp h
    obtain ⟨c, haction, rfl⟩ := before_eq_ok.mp hcall
    rw [kernel_bind] at h
    cases hresult : c.kernel.result? call with
    | none =>
      simp only [hresult] at h
      exact absurd h unsupported_ne_ok
    | some x =>
      simp only [hresult] at h
      obtain ⟨rfl, rfl⟩ := pure_eq_ok.mp h
      obtain ⟨ty', hinsert⟩ := emit_eq_ok haction
      refine ⟨?_, (has_of_insert hinsert).2 x hresult⟩
      obtain ⟨b, index, -, hinst, -⟩ := insert_eq_ok hinsert
      obtain ⟨pre, post, -, hins⟩ := insertInst_eq_ok hinst
      rw [hins.result?_eq] at hresult
      cases hvoid : ty'.isVoid with
      | true => rw [hvoid] at hresult; cases hresult
      | false =>
        rw [hvoid] at hresult
        exact some.inj hresult ▸ value?_nextId _

section

variable (hs : s.Keeps k t σ seen)
include hs

/-- A packet of what an instruction defines is new. A phi is left to be filled in. -/
theorem proceeds_buildPacket {p : ValueId} (hplan : t.plan.get result ≠ .uniform)
    (hdef : s.kernel.def? result = .ok (some i)) (h : buildPacket t i result s = .ok p s') :
    s.Proceeds k t seen avoid σ σ s' ∧ k.value? p = none ∧ s'.kernel.Has (.value p) := by
  obtain ⟨ty, hty, h⟩ := valueTy_bind_eq_ok.mp h
  have hvoid := hs.solid.valueTy hty
  rw [kernel_bind] at h
  obtain ⟨d, hd, h⟩ := lift_bind_eq_ok.mp h
  have hadds : ∀ x : Widen ValueId, x.Adds t → x s = .ok p s' →
      s.Proceeds k t seen avoid σ σ s' ∧ k.value? p = none ∧ s'.kernel.Has (.value p) := by
    rintro x ⟨hext, hfresh⟩ hx
    obtain ⟨hnew, hhas⟩ := hfresh s p s' hs.solid hx
    exact ⟨hs.proceeds (hext s p s' hx hs.solid), hs.value?_eq_none hnew, hhas⟩
  cases hinstr : d.instr with
  | binary op lhs rhs | compare op lhs rhs =>
    simp only [hinstr] at h
    exact hadds _ (.bind (extends_packetOf t lhs) fun l => .bind (extends_packetOf t rhs) fun r => adds_emitValue i rfl) h
  | unary op x | cast op x =>
    simp only [hinstr] at h
    exact hadds _ (.bind (extends_packetOf t x) fun x => adds_emitValue i rfl) h
  | select cond thenValue elseValue =>
    simp only [hinstr] at h
    exact hadds _ (.bind (extends_packetUnlessUniform t cond) fun c => .bind (extends_packetOf t thenValue) fun a =>
      .bind (extends_packetOf t elseValue) fun b => adds_emitValue i rfl) h
  | elementPtr base index elem =>
    simp only [hinstr] at h
    exact hadds _ (.bind (extends_packetUnlessUniform t base) fun b => .bind (extends_packetUnlessUniform t index) fun n =>
      adds_emitValue i rfl) h
  | load ptr mask align =>
    simp only [hinstr] at h
    exact hadds _ (adds_packetLoad i (not_void_widenTy hvoid) ptr mask align) h
  | phi incoming =>
    simp only [hinstr] at h
    obtain ⟨phi, s1, hphi, h⟩ := bind_eq_ok.mp h
    have hext := extends_before t i (grows_emitValue _ _) s phi s1 hphi hs.solid
    obtain ⟨c, haction, rfl⟩ := before_eq_ok.mp hphi
    have hgives : (Instr.phi []).givesValue (widenTy t ty) = true := (Bool.not_eq_true' _).mpr (not_void_widenTy hvoid)
    have hmade := emitValue_madeBy hs.solid hgives haction
    have hhas := hmade.has
    obtain ⟨hnew, j, ty', b, hj, hvalue, hinstr'⟩ := hmade
    rw [kernel_bind] at h
    obtain ⟨definition, hask, h⟩ := lift_bind_eq_ok.mp h
    have hphi' : c.kernel.def? phi = .ok (some j) :=
      Success.bind_eq_ok.mpr ⟨_, some?_eq_ok.mpr hvalue, rfl⟩
    obtain rfl := ok_unique hphi' hask
    obtain ⟨rfl, rfl⟩ := pure_eq_ok.mp h
    refine ⟨(hs.proceeds hext).trans ((hs.convert hext).addPending ?_ (.inl (hs.inst?_eq_none hj)) (fun n hn => ?_) hplan
      (hext.kernel.def? hdef)), hs.value?_eq_none hnew, hhas⟩
    · show c.kernel.isPhi j = true
      rw [isPhi, instr?, hinstr']
      rfl
    · cases hn
  | call callee args mask =>
    simp only [hinstr] at h
    exact hadds _ (.bind (.mapM fun v _ => extends_packetOf t v) fun args => .bind (extends_maskOf t mask) fun mask =>
      adds_call i callee args mask _) h
  | _ =>
    simp only [hinstr] at h
    exact absurd h unsupported_ne_ok

section

variable (hi : i ∈ seen) (hvarying : t.divergence.isVaryingInst i = true)
include hi hvarying

/-- Widening an instruction that defines a varying value. -/
theorem proceeds_widenValue (hplain : ¬t.Recasts k i)
    (hold : (k.inst? i).isSome = true) (hnone : s.sources[i]? = none) (hdef : s.kernel.def? result = .ok (some i))
    (h : widenValue t i result s = .ok a s') :
    s.Proceeds k t seen (some result) σ σ s' ∧ (t.plan.get result = .packet → (s'.packets[result]?).isSome = true) ∧
      (t.plan.get result = .perLane → (s'.sources[i]?).isSome = true) := by
  rw [widenValue] at h
  cases hplan : t.plan.get result with
  | uniform | laneId =>
    simp only [hplan] at h
    obtain ⟨-, rfl⟩ := pure_eq_ok.mp h
    exact ⟨.refl hs, fun h => absurd h (by simp), fun h => by cases h⟩
  | packet =>
    simp only [hplan] at h
    obtain ⟨p, s1, hpacket, h⟩ := bind_eq_ok.mp h
    obtain ⟨hstep, hnew, hhas⟩ : s.Proceeds k t seen (some result) σ σ s1 ∧ _ :=
      proceeds_buildPacket hs (by simp [hplan]) hdef hpacket
    cases h
    have hset := hstep.trans (hstep.keeps.setPacket hnew hhas)
    have hreplace := hset.trans (hset.keeps.replace hi (.inl hvarying))
    refine ⟨hreplace.trans (hreplace.keeps.count _ _ _), fun _ => ?_, fun h => by cases h⟩
    rw [Std.TreeMap.getElem?_insert_self]
    rfl
  | perLane =>
    simp only [hplan] at h
    obtain ⟨hstep, hsome⟩ := proceeds_keepPerLane hs hi hvarying hplain hold hnone (by simp [hplan]) hdef h
    exact ⟨hstep, fun h => absurd h (by simp), fun _ => hsome⟩

/-- A store of all lanes. -/
theorem proceeds_packetStore {form : MemoryForm}
    {ptr value : ValueId} {mask : Option ValueId} {align : Nat}
    (h : packetStore t i form ptr value mask align s = .ok a s') : s.Proceeds k t seen avoid σ σ s' := by
  have hzero : 0 < max t.group.lanes 1 := by omega
  -- whatever the form, all but the last two steps are conversions
  have hlast : ∀ s1 : Widening, s.Extends t s1 →
      (replace i >>= fun _ => modify fun s => { s with packetCount := s.packetCount + 1 }) s1 = .ok a s' →
      s.Proceeds k t seen avoid σ σ s' := by
    intro s1 hext h
    cases h
    have hreplace : s.Proceeds k t seen avoid σ σ _ :=
      (hs.proceeds hext).trans ((hs.convert hext).replace hi (.inl hvarying))
    exact hreplace.trans (hreplace.keeps.count _ _ _)
  have hstore : ∀ (s1 : Widening) (addr : Widen ValueId) (store : ValueId → Build InstId), s.Extends t s1 → addr.Extends t →
      (∀ v, (store v).Grows) → (addr >>= fun v => discard (before i (store v)) >>= fun _ => replace i >>= fun _ =>
        modify fun s => { s with packetCount := s.packetCount + 1 }) s1 = .ok a s' →
      s.Proceeds k t seen avoid σ σ s' := by
    intro s1 addr store hext haddr hacc h
    obtain ⟨v, s2, hv, h⟩ := bind_eq_ok.mp h
    have hext2 := hext.trans (haddr s1 v s2 hv (hext.kernel.solid hs.solid))
    obtain ⟨_, s3, hrun, h⟩ := bind_eq_ok.mp h
    have hstore : (discard (before i (store v)) : Widen Unit).Extends t := .map _ (extends_before t i (hacc v))
    exact hlast s3 (hext2.trans (hstore s2 _ s3 hrun (hext2.kernel.solid hs.solid))) h
  rw [packetStore] at h
  obtain ⟨data, s1, hdata, h⟩ := bind_eq_ok.mp h
  have hext1 := extends_packetOf t value s data s1 hdata hs.solid
  obtain ⟨mask', s2, hmask, h⟩ := bind_eq_ok.mp h
  have hext2 := hext1.trans (extends_maskOf t mask s1 mask' s2 hmask (hext1.kernel.solid hs.solid))
  cases form with
  | contiguous | interleaved => exact hstore s2 _ _ hext2 (extends_laneOf hzero ptr) (fun _ => grows_emit _ _) h
  | gatherScatter | perLane => exact hstore s2 _ _ hext2 (extends_packetOf t ptr) (fun _ => grows_emit _ _) h

/-- Widening a varying instruction that defines nothing. -/
theorem proceeds_widenEffect (hplain : ¬t.Recasts k i)
    (hold : (k.inst? i).isSome = true) (hnone : s.sources[i]? = none) (h : widenEffect t i s = .ok a s') :
    s.Proceeds k t seen avoid σ σ s' := by
  obtain ⟨d, hd, h⟩ := lift_bind_eq_ok.mp h
  cases hinstr : d.instr with
  | store ptr value mask align =>
    simp only [hinstr] at h
    cases hform : (t.plan.memoryForm? i).getD .perLane with
    | perLane =>
      simp only [hform] at h
      exact (proceeds_repeatEffect hs hi hvarying hplain hold hnone h).1
    | contiguous | interleaved | gatherScatter =>
      simp only [hform] at h
      exact proceeds_packetStore hs hi hvarying h
  | call callee args mask =>
    simp only [hinstr] at h
    exact (proceeds_repeatEffect hs hi hvarying hplain hold hnone h).1
  | _ =>
    simp only [hinstr] at h
    exact absurd h unsupported_ne_ok

end

/-- Returning the values of all lanes. -/
theorem proceeds_widenReturn (hi : i ∈ seen) (hrecasts : t.Recasts k i) (hold : (k.inst? i).isSome = true)
    (hinstr : s.kernel.instr? i = some (.ret (some v))) (h : widenReturn t i v s = .ok a s') :
    s.Proceeds k t seen avoid σ σ s' := by
  obtain ⟨packet, s1, hpacket, h⟩ := bind_eq_ok.mp h
  have hext := extends_packetOf t v s packet s1 hpacket hs.solid
  have hnew := ((hs.convert hext).packets v packet (packets_of_packetOf hpacket)).1
  obtain ⟨k', hk', rfl⟩ := editKernel_eq_ok.mp h
  obtain rfl := Success.pure_eq_ok.mp hk'
  have hset : s1.Proceeds k t seen avoid σ σ _ := (hs.convert hext).modifyInst
    (f := fun d => { d with instr := .ret (some packet) })
    (fun d => rfl) (fun d hd => ?_) (.inr hold) (.inr (.inr ⟨hi, hrecasts, fun _ _ _ => ⟨packet, rfl, .inr hnew⟩⟩))
  · exact ((hs.proceeds hext).trans hset).trans (hset.keeps.setHead _ _)
  · obtain ⟨d', hd', hret⟩ := map_eq_some_iff.mp (hext.kernel.instr? hinstr)
    obtain rfl := mem_unique hd' hd
    rw [hret]
    rfl

end

end Widen

end Spmd
