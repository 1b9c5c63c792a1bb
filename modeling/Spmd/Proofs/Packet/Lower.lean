import Spmd.Proofs.Packet.Collective
import Spmd.Proofs.Packet.Keep

/-!
# What stands for a call

A call in which the lanes of a group work together is spelled out in front of it. Where all lanes get the same, one new
value stands for the result from then on (`Widening.StandsFor`); the lanes of a scan are in a packet. With this, what one
instruction leaves behind when it is widened is said for all of them at once (`Widen.proceeds_widenInst`,
`Widening.Handles`).
-/

namespace Spmd

open Success List Kernel Build

variable {kind : RecurKind} {k : Kernel} {v p zero x r : ValueId} {c' : Cursor} {elem : ScalarTy}
  {shape : VectorTy} {seen pre : List InstId} {t : WidenTask} {i : InstId}
  {avoid result : Option ValueId} {σ : ValueId → ValueId} {args : List ValueId} {a : Unit}
  {s s' : Widening} {c : Collective}

namespace Kernel

variable {k0 k' : Kernel}

theorem Linked.def?_of_result? (hk : k.Linked) (h : k.result? i = some v) : k.def? v = .ok (some i) := by
  obtain ⟨d, hd, hkind⟩ := map_eq_some_iff.mp ((hk.defines_iff i v).mp h)
  refine bind_eq_ok.mpr ⟨d, some?_eq_ok.mpr hd, ?_⟩
  rw [hkind]
  rfl

/-- The value tells whether some lanes of a packet, or all lanes, are not zero. All that is built for it is new. -/
def Votes (k k' : Kernel) (kind : RecurKind) (p v : ValueId) : Prop :=
  ∃ truth vote, (truth = p ∨ ∃ op zeros, k.value? zeros = none ∧ k.MadeBy k' truth (.compare op p zeros)) ∧
    k.MadeBy k' vote (.reduce kind truth) ∧ (v = vote ∨ k.MadeBy k' v (.cast .zext vote))

namespace Votes

variable (h : k.Votes k' kind p v)
include h

theorem before (hvalue : ∀ v, k.value? v = none → k0.value? v = none)
    (hinst : ∀ j, k.inst? j = none → k0.inst? j = none) : k0.Votes k' kind p v := by
  obtain ⟨truth, vote, htruth, hvote, hv⟩ := h
  refine ⟨truth, vote, htruth.imp_right ?_, hvote.before hvalue hinst, hv.imp_right (·.before hvalue hinst)⟩
  rintro ⟨op, zeros, hzeros, hmade⟩
  exact ⟨op, zeros, hvalue zeros hzeros, hmade.before hvalue hinst⟩

theorem value?_eq_none : k.value? v = none := by
  obtain ⟨truth, vote, -, hvote, rfl | hv⟩ := h
  · exact hvote.1
  · exact hv.1

theorem has : k'.Has (.value v) := by
  obtain ⟨truth, vote, -, hvote, rfl | hv⟩ := h
  · exact hvote.has
  · exact hv.has

/-- A vote stays if what was made from new values does. -/
theorem imp {k'' : Kernel} (hp : k.value? p = none)
    (hmade : ∀ v instr, k.MadeBy k' v instr → instr.isPhi = false → (∀ u ∈ instr.operands, k.value? u = none) →
      k.MadeBy k'' v instr) : k.Votes k'' kind p v := by
  obtain ⟨truth, vote, htruth, hvote, hv⟩ := h
  have hnew : k.value? truth = none := by
    rcases htruth with rfl | ⟨op, zeros, -, hcompare⟩
    · exact hp
    · exact hcompare.1
  refine ⟨truth, vote, htruth.imp_right ?_, ?_, hv.imp_right fun hv => ?_⟩
  · rintro ⟨op, zeros, hzeros, hcompare⟩
    refine ⟨op, zeros, hzeros, hmade _ _ hcompare rfl fun u hu => ?_⟩
    rcases mem_pair.mp hu with rfl | rfl
    · exact hp
    · exact hzeros
  · exact hmade _ _ hvote rfl fun u hu => mem_singleton.mp hu ▸ hnew
  · exact hmade _ _ hv rfl fun u hu => mem_singleton.mp hu ▸ hvote.1

end Votes

end Kernel

/-- What is built for a vote. -/
theorem Build.vote_spec {c : Cursor} (hsolid : c.kernel.Solid) (h : vote kind elem shape p zero c = .ok (v, c')) :
    c.kernel.Grows c'.kernel ∧
      ∃ truth, (truth = p ∨ ∃ op zeros, c.kernel.value? zeros = none ∧ c.kernel.MadeBy c'.kernel truth (.compare op p zeros)) ∧
        c.kernel.MadeBy c'.kernel v (.reduce kind truth) := by
  rw [vote] at h
  split at h
  · rw [pure_bind] at h
    exact ⟨(grows_emitValue _ _).kernel c v c' h, p, .inl rfl, emitValue_madeBy hsolid rfl h⟩
  · obtain ⟨zeros, c1, hzeros, h⟩ := stateBind_eq_ok.mp h
    obtain ⟨truth, c2, hcompare, hreduce⟩ := stateBind_eq_ok.mp h
    have hacc1 := (grows_emitValue _ _).kernel c zeros c1 hzeros
    have hacc2 := (grows_emitValue _ _).kernel c1 truth c2 hcompare
    have hacc3 := (grows_emitValue _ _).kernel c2 v c' hreduce
    have hsplat := emitValue_madeBy hsolid rfl hzeros
    have hmade := emitValue_madeBy (hacc1.solid hsolid) rfl hcompare
    have hmade := (hmade.before (fun _ => hacc1.value?_eq_none) fun _ => hacc1.inst?_eq_none).after hacc3
    have hvote := emitValue_madeBy ((hacc1.trans hacc2).solid hsolid) rfl hreduce
    refine ⟨(hacc1.trans hacc2).trans hacc3, truth, .inr ⟨_, zeros, hsplat.1, hmade⟩, ?_⟩
    exact hvote.before (fun _ => (hacc1.trans hacc2).value?_eq_none) fun _ => (hacc1.trans hacc2).inst?_eq_none

namespace Widen

variable {α : Type} {instr : Instr}

theorem voteCode_spec {c : Cursor} {ret : ScalarTy} (hsolid : c.kernel.Solid)
    (h : voteCode kind elem ret shape zero p c = .ok (v, c')) :
    c.kernel.Grows c'.kernel ∧ c.kernel.Votes c'.kernel kind p v := by
  rw [voteCode] at h
  obtain ⟨vote, c1, hvote, h⟩ := stateBind_eq_ok.mp h
  obtain ⟨hacc1, truth, htruth, hmade⟩ := vote_spec hsolid hvote
  split at h
  · obtain ⟨rfl, rfl⟩ := statePure_eq_ok.mp h
    exact ⟨hacc1, truth, _, htruth, hmade, .inl rfl⟩
  · have hacc2 := (grows_emitValue _ _).kernel c1 v c' h
    have hcast := emitValue_madeBy (hacc1.solid hsolid) rfl h
    refine ⟨hacc1.trans hacc2, truth, vote, htruth.imp_right ?_, hmade.after hacc2, .inr ?_⟩
    · rintro ⟨op, zeros, hzeros, hcompare⟩
      exact ⟨op, zeros, hzeros, hcompare.after hacc2⟩
    · exact hcast.before (fun _ => hacc1.value?_eq_none) fun _ => hacc1.inst?_eq_none

theorem extends_addConst (t : WidenTask) (elem : ScalarTy) (x : Constant) : (addConst (.scalar elem) x).Extends t := by
  intro s v s' h _
  cases h
  exact .setKernel (.addValue s.kernel (fun _ => by simp) rfl)

/-- A vote is built in front of the call, from a packet of the operand. -/
theorem lowerVote_spec (hsolid : s.kernel.Solid) (h : lowerVote t i kind x result s = .ok v s') :
    s.Extends t s' ∧ ∃ p, s'.packets[x]? = some p ∧ s.kernel.Votes s'.kernel kind p v := by
  have hlast : ∀ (elem ret : ScalarTy), (do
      let zero ← addConst (.scalar elem) (if elem.isFloat then .posZero else .int 0)
      let packet ← packetOf t x
      before i (voteCode kind elem ret (shape t elem) zero packet) : Widen ValueId) s = .ok v s' →
      s.Extends t s' ∧ ∃ p, s'.packets[x]? = some p ∧ s.kernel.Votes s'.kernel kind p v := by
    intro elem ret h
    obtain ⟨zero, s1, hzero, h⟩ := bind_eq_ok.mp h
    have hext1 := extends_addConst t elem _ s zero s1 hzero hsolid
    obtain ⟨p, s2, hp, h⟩ := bind_eq_ok.mp h
    have hext2 := hext1.trans (extends_packetOf t x s1 p s2 hp (hext1.kernel.solid hsolid))
    have hpacket := packets_of_packetOf hp
    obtain ⟨c, haction, rfl⟩ := before_eq_ok.mp h
    obtain ⟨haccrues, hvotes⟩ := voteCode_spec (hext2.kernel.solid hsolid) haction
    refine ⟨hext2.trans (.setKernel haccrues), p, hpacket, ?_⟩
    exact hvotes.before (fun _ => hext2.kernel.value?_eq_none) fun _ => hext2.kernel.inst?_eq_none
  obtain ⟨ty, -, h⟩ := valueTy_bind_eq_ok.mp h
  cases result with
  | none =>
    simp only [pure_bind] at h
    exact hlast _ _ h
  | some r =>
    obtain ⟨ty', -, h⟩ := valueTy_bind_eq_ok.mp h
    simp only [pure_bind] at h
    exact hlast _ _ h

/-- A scan of a group of one lane is the packet that it scans. -/
theorem scanCode_spec {cur cur' : Cursor} {N : Nat} {neutral identity : ValueId} (hsolid : cur.kernel.Solid)
    (h : scanCode c N shape neutral identity p cur = .ok (v, cur')) :
    cur.kernel.Grows cur'.kernel ∧ (v = p ∨ cur.kernel.value? v = none ∧ cur'.kernel.Has (.value v)) := by
  rw [scanCode] at h
  obtain ⟨pad, c1, hpad, h⟩ := stateBind_eq_ok.mp h
  have hacc1 := (grows_emitValue _ _).kernel cur pad c1 hpad
  have haction : ∀ (acc : ValueId) (n : Nat), (do
      binary c.recurrence.binaryOp acc (← shuffle [acc, pad] (shiftLanes N n)) : Build ValueId).Grows :=
    fun acc n => .bind (grows_emitValue _ _) fun _ => grows_emitValue _ _
  have hfresh : ∀ (acc : ValueId) (n : Nat), (do
      binary c.recurrence.binaryOp acc (← shuffle [acc, pad] (shiftLanes N n)) : Build ValueId).Fresh :=
    fun acc n => .bind (grows_emitValue _ _) fun _ => fresh_emitValue rfl
  obtain ⟨inclusive, c2, hscan, h⟩ := stateBind_eq_ok.mp h
  have hacc2 := hacc1.trans ((Grows.foldlM haction _ _).kernel c1 inclusive c2 hscan)
  split at h
  · obtain ⟨first, c3, hfirst, h⟩ := stateBind_eq_ok.mp h
    have hacc3 := hacc2.trans ((grows_emitValue _ _).kernel c2 first c3 hfirst)
    have hmade := emitValue_madeBy (hacc3.solid hsolid) rfl h
    exact ⟨hacc3.trans ((grows_emitValue _ _).kernel c3 v cur' h),
      .inr ⟨hacc3.value?_eq_none hmade.1, hmade.has⟩⟩
  · obtain ⟨rfl, rfl⟩ := statePure_eq_ok.mp h
    refine ⟨hacc2, ?_⟩
    rcases Fresh.foldlM haction hfresh (hacc1.solid hsolid) hscan with ⟨rfl, -⟩ | ⟨hnew, hhas⟩
    · exact .inl rfl
    · exact .inr ⟨hacc1.value?_eq_none hnew, hhas⟩

/-- A scan is built in front of the call. What it gives is no value of the kernel that is widened. -/
theorem lowerScan_spec (hs : s.Keeps k t σ seen) (h : lowerScan t i c x s = .ok v s') :
    s.Extends t s' ∧ k.value? v = none ∧ s'.kernel.Has (.value v) := by
  rw [lowerScan] at h
  obtain ⟨lanes, s1, hlanes, h⟩ := bind_eq_ok.mp h
  obtain ⟨rfl, rfl, -⟩ := fixedLanes_eq_ok hlanes
  obtain ⟨ty, -, h⟩ := valueTy_bind_eq_ok.mp h
  obtain ⟨neutral, s1, hneutral, h⟩ := bind_eq_ok.mp h
  have hext1 := extends_addConst t _ _ s neutral s1 hneutral hs.solid
  obtain ⟨identity, s2, hidentity, h⟩ := bind_eq_ok.mp h
  have hext2 := hext1.trans (extends_addConst t _ _ s1 identity s2 hidentity (hext1.kernel.solid hs.solid))
  obtain ⟨p, s3, hp, h⟩ := bind_eq_ok.mp h
  have hext3 := hext2.trans (extends_packetOf t x s2 p s3 hp (hext2.kernel.solid hs.solid))
  have hpacket := packets_of_packetOf hp
  obtain ⟨scanned, s4, hscan, h⟩ := bind_eq_ok.mp h
  obtain ⟨cur, haction, rfl⟩ := before_eq_ok.mp hscan
  obtain ⟨haccrues, hscanned⟩ := scanCode_spec (hext3.kernel.solid hs.solid) haction
  have hext4 := hext3.trans (.setKernel (t := t) haccrues)
  cases hscope : c.scope with
  | subGroup =>
    simp only [hscope] at h
    obtain ⟨rfl, rfl⟩ := pure_eq_ok.mp h
    refine ⟨hext4, ?_⟩
    rcases hscanned with rfl | ⟨hnew, hhas⟩
    · exact (hs.convert hext4).packets x _ hpacket
    · exact ⟨(hs.convert hext3).value?_eq_none hnew, hhas⟩
  | workGroup =>
    simp only [hscope] at h
    have hask : (askCode c (ty.element?.getD .i32) p).Grows :=
      .bind (grows_emitValue _ _) fun _ => grows_emitValue _ _
    have hoffset : ∀ earlier,
        (before i (offsetCode c.recurrence.binaryOp (shape t (ty.element?.getD .i32)) scanned earlier)).Adds t :=
      fun earlier => adds_before i (.bind (grows_emitValue _ _) fun _ => grows_emitValue _ _)
        (.bind (grows_emitValue _ _) fun _ => fresh_emitValue rfl)
    obtain ⟨hext5, hfresh⟩ := Adds.bind (extends_before t i hask) hoffset
    obtain ⟨hnew, hhas⟩ := hfresh _ v s' (hext4.kernel.solid hs.solid) h
    exact ⟨hext4.trans (hext5 _ v s' h (hext4.kernel.solid hs.solid)), (hs.convert hext4).value?_eq_none hnew, hhas⟩

end Widen

/-! ## What stands for a call -/

namespace Widening

variable {σ' : ValueId → ValueId} {u : ValueId}

/-- The value is what the lanes compute together from the arguments of the call, out of a packet of the first one. It is
new, and so is all that was built for it. -/
def StandsFor (k : Kernel) (s : Widening) (c : Collective) (args : List ValueId) (v : ValueId) : Prop :=
  ∃ x rest p, args = x :: rest ∧ s.packets[x]? = some p ∧
    match c.op with
    | .broadcast => ∃ lane, rest.head? = some lane ∧ k.MadeBy s.kernel v (.extract p lane)
    | .reduce => k.MadeBy s.kernel v (.reduce c.recurrence p)
    | .any | .all => k.Votes s.kernel (Collective.ballot c.op) p v
    | .scanInclusive | .scanExclusive => False

/-- What stands for a call is new, and a scan has no one value that could. -/
theorem StandsFor.new (h : s.StandsFor k c args v) : (c.op ≠ .scanInclusive ∧ c.op ≠ .scanExclusive) ∧
    k.value? v = none ∧ s.kernel.Has (.value v) := by
  obtain ⟨x, rest, p, -, -, h⟩ := h
  cases hop : c.op with
  | broadcast =>
    simp only [hop] at h
    obtain ⟨lane, -, hmade⟩ := h
    exact ⟨by simp, hmade.1, hmade.has⟩
  | reduce =>
    simp only [hop] at h
    exact ⟨by simp, h.1, h.has⟩
  | any | all =>
    simp only [hop] at h
    exact ⟨by simp, h.value?_eq_none, h.has⟩
  | scanInclusive | scanExclusive =>
    simp only [hop] at h

/-- What stands for a call stays if what was made from new values and from the arguments of the call does. -/
theorem StandsFor.imp (h : s.StandsFor k c args v) (hnew : ∀ x p : ValueId, s.packets[x]? = some p → k.value? p = none)
    (hpackets : ∀ x ∈ args, ∀ p : ValueId, s.packets[x]? = some p → s'.packets[x]? = some p)
    (hmade : ∀ v instr, k.MadeBy s.kernel v instr → instr.isPhi = false →
      (∀ u ∈ instr.operands, k.value? u = none ∨ u ∈ args) → k.MadeBy s'.kernel v instr) : s'.StandsFor k c args v := by
  obtain ⟨x, rest, p, rfl, hpacket, h⟩ := h
  have hp := hnew x p hpacket
  refine ⟨x, rest, p, rfl, hpackets x (.head _) p hpacket, ?_⟩
  cases hop : c.op with
  | broadcast =>
    simp only [hop] at h ⊢
    obtain ⟨lane, hlane, h⟩ := h
    refine ⟨lane, hlane, hmade _ _ h rfl fun u hu => ?_⟩
    rcases mem_pair.mp hu with rfl | rfl
    · exact .inl hp
    · exact .inr (.tail _ (mem_of_head? hlane))
  | reduce =>
    simp only [hop] at h ⊢
    exact hmade _ _ h rfl fun u hu => .inl (mem_singleton.mp hu ▸ hp)
  | any | all =>
    simp only [hop] at h ⊢
    exact h.imp hp fun v instr hv hphi hops => hmade v instr hv hphi fun u hu => .inl (hops u hu)
  | scanInclusive | scanExclusive =>
    simp only [hop] at h

/-- What stands for a call stays, as long as the arguments of the call are not replaced. -/
theorem StandsFor.proceeds (h : s.StandsFor k c args v) (hs : s.Keeps k t σ seen)
    (hstep : s.Proceeds k t seen avoid σ σ' s') (havoid : ∀ v, k.value? v = none → some v ≠ avoid)
    (hargs : ∀ u ∈ args, some u ≠ avoid) : s'.StandsFor k c args v := by
  refine h.imp (fun x p hp => (hs.packets x p hp).1) (fun x hx p hp => hstep.packets x p hp (hargs x hx))
    fun v instr hv hphi hops => hstep.made v instr hv hphi fun u hu => ?_
  rcases hops u hu with hnew | hu
  · exact havoid u hnew
  · exact hargs u hu

/-- What is new is not the result of an instruction of the kernel. -/
theorem ne_result_of_new (hk : k.Linked) (hu : k.value? u = none) : some u ≠ k.result? i := by
  intro heq
  have := hk.has_of_result? heq.symm
  rw [Kernel.Has, hu] at this
  cases this

variable (hs : s.Keeps k t σ seen)
include hs

/-- What stands for a value that an instruction does not define is not defined by it either. -/
theorem Keeps.ne_result (hk : k.Linked) (hu : k.result? i ≠ some u) : some (σ u) ≠ k.result? i := by
  by_cases hσ : σ u = u
  · rw [hσ]
    exact hu.symm
  · exact ne_result_of_new hk (hs.stand u hσ).1

/-- Nothing stands for the result of an instruction that has not been looked at. -/
theorem Keeps.eq_self (hk : k.Linked) (hi : i ∉ seen) (hr : k.result? i = some r) : σ r = r := by
  by_contra hne
  obtain ⟨-, -, j, c, hj, -, hresult⟩ := hs.stand r hne
  have hkind := ((hk.defines_iff j r).mp hresult).symm.trans ((hk.defines_iff i r).mp hr)
  cases hkind
  exact hi hj

theorem Keeps.result? (hi : (k.inst? i).isSome = true) : s.kernel.result? i = k.result? i := by
  obtain ⟨d, hd⟩ := isSome_iff_exists.mp hi
  obtain ⟨instr, hinst, -⟩ := hs.inst i d hd
  rw [Kernel.result?, Kernel.result?, hinst, hd]
  rfl

end Widening

namespace Widen

section

variable (hs : s.Keeps k t σ seen) (hk : k.Linked) (hi : i ∈ seen)
include hs hk hi

/-- A value stands for the result of the call from now on. -/
theorem proceeds_substitute (hlowers : t.Lowers i c) (hnew : k.value? v = none) (hhas : s.kernel.Has (.value v))
    (h : substitute i (k.result? i) v s = .ok a s') :
    ∃ σ', s.Proceeds k t seen (k.result? i) σ σ' s' ∧ ∀ r, k.result? i = some r → σ r = r → σ' r = v := by
  have htouches : t.Touches k i := .inr (.inr ⟨c, hlowers.1⟩)
  cases hresult : k.result? i with
  | none =>
    rw [hresult] at h
    cases h
    exact ⟨σ, hs.replace hi htouches, fun r hr => by cases hr⟩
  | some r =>
    rw [hresult] at h
    obtain ⟨_, _, huses, h⟩ := bind_eq_ok (x := replaceUses r v) (f := fun _ => replace i) |>.mp h
    cases huses
    cases h
    have hstep := hs.replaceUses hi hlowers hresult (hk.has_of_result? hresult) hnew hhas
    refine ⟨_, hstep.trans (hstep.keeps.replace hi htouches), fun r' hr' hσ => ?_⟩
    cases hr'
    exact if_pos hσ

variable (hold : (k.inst? i).isSome = true) (hcall : t.calls[i]? = some (.collective c))
include hold hcall

/-- What the lanes of the group have computed together is handed on. -/
theorem proceeds_finishReduction
    (hop : c.op ≠ .scanInclusive ∧ c.op ≠ .scanExclusive) (hnew : k.value? v = none) (hhas : s.kernel.Has (.value v))
    (h : finishReduction i c.scope (k.result? i) v s = .ok a s') :
    ∃ σ', s.Proceeds k t seen (k.result? i) σ σ' s' ∧
      (c.scope = .subGroup → ∀ r, k.result? i = some r → σ r = r → σ' r = v) := by
  cases hscope : c.scope with
  | subGroup =>
    rw [hscope] at h
    obtain ⟨σ', hstep, hv⟩ := proceeds_substitute hs hk hi ⟨hcall, hscope, hop⟩ hnew hhas h
    exact ⟨σ', hstep, fun _ => hv⟩
  | workGroup =>
    rw [hscope] at h
    obtain ⟨k', hk', rfl⟩ := editKernel_eq_ok.mp h
    obtain rfl := Success.pure_eq_ok.mp hk'
    refine ⟨σ, hs.modifyInst (fun d => ?_) (fun d _ => ?_) (.inr hold)
      (.inr (.inr ⟨hi, .inr ⟨c, hcall⟩, fun d w hw => ⟨w, by simp only [hw], .inl rfl⟩⟩)), fun h => by cases h⟩
    · cases d.instr with
      | call callee args mask => cases args <;> rfl
      | _ => rfl
    · cases hinstr : d.instr with
      | call callee args mask =>
        cases args with
        | nil => simp only [hinstr]
        | cons => rfl
      | _ => simp only [hinstr]

/-- A value that was built for the lanes together is handed on and counted. -/
theorem proceeds_finish {s1 : Widening}
    (hself : ∀ r, k.result? i = some r → σ r = r) (hext : s.Extends t s1) (hstands : s1.StandsFor k c args v)
    (h : (finishReduction i c.scope (k.result? i) v >>= fun _ => counted) s1 = .ok a s') :
    ∃ σ', s.Proceeds k t seen (k.result? i) σ σ' s' ∧ ((∀ u ∈ args, some u ≠ k.result? i) →
      c.scope = .subGroup → ∀ r, k.result? i = some r → s'.StandsFor k c args (σ' r)) := by
  obtain ⟨hop, hnew, hhas⟩ := hstands.new
  obtain ⟨_, s2, hfinish, h⟩ := bind_eq_ok.mp h
  cases h
  have hs1 := hs.convert hext
  obtain ⟨σ', hstep, hv⟩ := proceeds_finishReduction hs1 hk hi hold hcall hop hnew hhas hfinish
  have hstep := hstep.trans (hstep.keeps.count s2.packetCount s2.instanceCount (s2.collectiveCount + 1))
  refine ⟨σ', (hs.proceeds hext).trans hstep, fun hargs hscope r hr => ?_⟩
  rw [hv hscope r hr (hself r hr)]
  exact hstands.proceeds hs1 hstep (fun u => Widening.ne_result_of_new hk) hargs

end

/-- One instruction in front of the call makes the value from a packet of the operand. -/
theorem before_packetOf_spec (hs : s.Keeps k t σ seen) {instr : ValueId → Instr}
    (hgives : ∀ p, (instr p).givesValue .void = true)
    (h : (packetOf t x >>= fun p => before i (emitValue (instr p) .void)) s = .ok v s') :
    s.Extends t s' ∧ ∃ p, s'.packets[x]? = some p ∧ k.MadeBy s'.kernel v (instr p) := by
  obtain ⟨p, s1, hp, h⟩ := bind_eq_ok.mp h
  have hext := extends_packetOf t x s p s1 hp hs.solid
  have hpacket := packets_of_packetOf hp
  obtain ⟨cur, haction, rfl⟩ := before_eq_ok.mp h
  have hs1 := hs.convert hext
  have hmade := emitValue_madeBy hs1.solid (hgives p) haction
  refine ⟨hext.trans (.setKernel ((grows_emitValue _ _).kernel _ v cur haction)), p, hpacket, ?_⟩
  exact hmade.before (fun _ => hs1.value?_eq_none) fun _ => hs1.inst?_eq_none

/-- A lane of the packet of the operand is handed on. -/
theorem lowerBroadcast_eq_ok {scope : CollectiveScope} {index : Option ValueId}
    (h : lowerBroadcast t i scope x index result s = .ok a s') : scope = .subGroup ∧ ∃ lane, index = some lane ∧
      ((packetOf t x >>= fun p => before i (extract p lane)) >>= fun v => substitute i result v) s = .ok a s' := by
  cases index with
  | none => exact absurd h unsupported_ne_ok
  | some lane =>
    cases scope with
    | workGroup =>
      obtain ⟨_, _, hthrow, -⟩ := bind_eq_ok.mp h
      exact absurd hthrow unsupported_ne_ok
    | subGroup =>
      refine ⟨rfl, lane, rfl, ?_⟩
      obtain ⟨uniform, s1, hask, h⟩ := bind_eq_ok.mp h
      rw [isUniform, kernel_bind] at hask
      obtain ⟨_, -, hask⟩ := lift_bind_eq_ok.mp hask
      obtain ⟨-, rfl⟩ := pure_eq_ok.mp hask
      split at h
      · obtain ⟨_, _, hthrow, -⟩ := bind_eq_ok.mp h
        exact absurd hthrow unsupported_ne_ok
      · rw [bind_assoc]
        exact h

end Widen

/-- A call in which lanes work together has been spelled out. One value stands for the result, or the lanes of the result
are in a packet. -/
def Widening.Lowered (k : Kernel) (t : WidenTask) (seen : List InstId) (i : InstId) (c : Collective) (args : List ValueId)
    (σ : ValueId → ValueId) (s s' : Widening) : Prop :=
  ∃ σ', s.Proceeds k t seen (k.result? i) σ σ' s' ∧
    ((∀ u ∈ args, some u ≠ k.result? i) → t.Lowers i c → ∀ r, k.result? i = some r → s'.StandsFor k c args (σ' r)) ∧
    (c.op = .scanInclusive ∨ c.op = .scanExclusive → ∀ r, k.result? i = some r → (s'.packets[r]?).isSome = true)

namespace Widen

variable {s1 : Widening}

section

variable (hs : s.Keeps k t σ seen)
include hs

/-- The lanes of a scan are in a packet. -/
theorem lowered_scan (hi : i ∈ seen) (hcall : t.calls[i]? = some (.collective c)) (hext : s.Extends t s1)
    (hresult : k.result? i = some r) (hnew : k.value? v = none) (hhas : s1.kernel.Has (.value v))
    (hop : c.op = .scanInclusive ∨ c.op = .scanExclusive)
    (h : (setPacket r v >>= fun _ => replace i >>= fun _ => counted) s1 = .ok a s') :
    Widening.Lowered k t seen i c args σ s s' := by
  rw [setPacket, modify_bind, replace, modify_bind] at h
  cases h
  have hset := (hs.proceeds hext).trans ((hs.convert hext).setPacket (r := r) hnew hhas)
  have hreplace := hset.trans (hset.keeps.replace hi (.inr (.inr ⟨c, hcall⟩)))
  refine ⟨σ, hresult ▸ hreplace.trans (hreplace.keeps.count _ _ _), fun _ hlowers => ?_, fun _ r' hr' => ?_⟩
  · rcases hop with hop | hop
    · exact absurd hop hlowers.2.2.1
    · exact absurd hop hlowers.2.2.2
  · obtain rfl := mem_unique hresult hr'
    rw [Std.TreeMap.getElem?_insert_self]
    rfl

/-- Where one value stands for the call, it is handed on. -/
theorem lowered_of_value {y : Widen ValueId} (hk : k.Linked) (hi : i ∈ seen) (hold : (k.inst? i).isSome = true)
    (hcall : t.calls[i]? = some (.collective c)) (hself : ∀ r, k.result? i = some r → σ r = r)
    (hy : ∀ v s1, y s = .ok v s1 → s.Extends t s1 ∧ s1.StandsFor k c args v)
    (h : (y >>= fun v => finishReduction i c.scope (k.result? i) v >>= fun _ => counted) s = .ok a s') :
    Widening.Lowered k t seen i c args σ s s' := by
  obtain ⟨v, s1, hv, h⟩ := bind_eq_ok.mp h
  obtain ⟨hext, hstands⟩ := hy v s1 hv
  obtain ⟨σ', hstep, hlowered⟩ := proceeds_finish hs hk hi hold hcall hself hext hstands h
  refine ⟨σ', hstep, fun hargs hlowers => hlowered hargs hlowers.2.1, fun hop => ?_⟩
  exact absurd hstands.new.1 (by rcases hop with hop | hop <;> simp [hop])

theorem stands_lowerVote (hop : c.op = .any ∨ c.op = .all)
    (h : lowerVote t i (Collective.ballot c.op) x result s = .ok v s1) (rest : List ValueId) :
    s.Extends t s1 ∧ s1.StandsFor k c (x :: rest) v := by
  obtain ⟨hext, p, hp, hvotes⟩ := lowerVote_spec hs.solid h
  have hvotes := hvotes.before (fun _ => hs.value?_eq_none) fun _ => hs.inst?_eq_none
  refine ⟨hext, x, rest, p, rfl, hp, ?_⟩
  rcases hop with hop | hop <;> simpa only [hop] using hvotes

/-- **Spelling out a call** in which lanes work together: a scan leaves a packet, all else one value. -/
theorem lowered_lowerCollective (hk : k.Linked) (hi : i ∈ seen) (hold : (k.inst? i).isSome = true)
    (hcall : t.calls[i]? = some (.collective c)) (hself : ∀ r, k.result? i = some r → σ r = r)
    (h : lowerCollective t i c s = .ok a s') :
    ∃ callee args mask, s.kernel.instr? i = some (.call callee args mask) ∧
      Widening.Lowered k t seen i c args σ s s' := by
  rw [lowerCollective, kernel_bind] at h
  obtain ⟨d, hd, h⟩ := lift_bind_eq_ok.mp h
  have hinstr : s.kernel.instr? i = some d.instr := by
    rw [instr?, some?_eq_ok.mp hd]
    rfl
  rw [hs.result? hold] at h
  cases hd' : d.instr with
  | call callee args mask =>
    cases args with
    | nil =>
      simp only [hd'] at h
      exact absurd h unsupported_ne_ok
    | cons x rest =>
      simp only [hd'] at h
      refine ⟨callee, x :: rest, mask, hd' ▸ hinstr, ?_⟩
      cases hop : c.op with
      | broadcast =>
        simp only [hop] at h
        obtain ⟨_, s1, hlower, h⟩ := bind_eq_ok.mp h
        obtain ⟨hscope, lane, hlane, hlower⟩ := lowerBroadcast_eq_ok hlower
        -- in a group of lanes the value is handed on as that of a reduction
        refine lowered_of_value (y := packetOf t x >>= fun p => before i (extract p lane)) (a := a) hs hk hi hold hcall
          hself (fun v s1 hv => ?_) ?_
        · obtain ⟨hext, p, hp, hmade⟩ := before_packetOf_spec hs (fun _ => rfl) hv
          refine ⟨hext, x, rest, p, rfl, hp, ?_⟩
          simp only [hop]
          exact ⟨lane, hlane, hmade⟩
        · rw [hscope, ← bind_assoc]
          exact bind_eq_ok.mpr ⟨_, s1, hlower, h⟩
      | reduce =>
        simp only [hop] at h
        refine lowered_of_value (y := packetOf t x >>= fun p => before i (reduce c.recurrence p)) (a := a) hs hk hi hold
          hcall hself (fun v s1 hv => ?_) ?_
        · obtain ⟨hext, p, hp, hmade⟩ := before_packetOf_spec hs (fun _ => rfl) hv
          refine ⟨hext, x, rest, p, rfl, hp, ?_⟩
          simp only [hop]
          exact hmade
        · rw [bind_assoc]
          exact h
      | any | all =>
        simp only [hop] at h
        exact lowered_of_value hs hk hi hold hcall hself (fun v s1 hv => stands_lowerVote hs (by simp [hop]) hv rest)
          (by rw [hop]; exact h)
      | scanInclusive | scanExclusive =>
        simp only [hop] at h
        obtain ⟨v, s1, hv, h⟩ := bind_eq_ok.mp h
        obtain ⟨hext, hnew, hhas⟩ := lowerScan_spec hs hv
        cases hresult : k.result? i with
        | none =>
          simp only [hresult] at h
          obtain ⟨_, _, hthrow, -⟩ := bind_eq_ok.mp h
          exact absurd hthrow unsupported_ne_ok
        | some r =>
          simp only [hresult] at h
          exact lowered_scan hs hi hcall hext hresult hnew hhas (by simp [hop]) h
  | _ =>
    simp only [hd'] at h
    exact absurd h unsupported_ne_ok

end

end Widen

/-! ## Instruction by instruction -/

/-- What one instruction leaves behind: a value that stands for it, or what later instructions ask for. -/
structure Widening.Handles (k : Kernel) (t : WidenTask) (i : InstId) (σ : ValueId → ValueId) (s : Widening) : Prop where
  stands : ∀ c callee args mask r, t.Lowers i c → k.instr? i = some (.call callee args mask) → k.result? i = some r →
    r ∉ args → s.StandsFor k c (args.map σ) (σ r)
  packet : ∀ r, k.result? i = some r → t.plan.get r = .packet → t.divergence.isVaryingInst i = true →
    (∀ v, k.instr? i ≠ some (.ret (some v))) →
    (∀ c, t.calls[i]? = some (.collective c) → c.op = .scanInclusive ∨ c.op = .scanExclusive) → (s.packets[r]?).isSome = true
  source : ∀ r, k.result? i = some r → t.plan.get r = .perLane → t.divergence.isVaryingInst i = true → ¬t.Recasts k i →
    (s.sources[i]?).isSome = true

namespace Widening

/-- A call that is spelled out leaves behind what is asked for later. -/
theorem Lowered.handles (h : Lowered k t seen i c args σ s s') (hk : k.Linked) (hs : s.Keeps k t σ pre)
    (hcall : t.calls[i]? = some (.collective c))
    (hargs : ∀ callee args0 mask, k.instr? i = some (.call callee args0 mask) → args = args0.map σ) :
    ∃ σ', s.Proceeds k t seen (k.result? i) σ σ' s' ∧ s'.Handles k t i σ' := by
  obtain ⟨σ', hstep, hstands, hscan⟩ := h
  refine ⟨σ', hstep, fun c' callee args0 mask r hlowers hinstr hr hnot => ?_, fun r hr _ _ _ hops => hscan (hops c hcall) r hr,
    fun _ _ _ _ hnot => absurd (.inr ⟨c, hcall⟩) hnot⟩
  obtain rfl := CallKind.collective.inj (mem_unique hlowers.1 hcall)
  obtain rfl := hargs callee args0 mask hinstr
  have hne : ∀ u ∈ args0, k.result? i ≠ some u := fun u hu heq => hnot (mem_unique hr heq ▸ hu)
  have hmap : args0.map σ' = args0.map σ := map_congr_left fun u hu => hstep.agree u (hne u hu).symm
  rw [hmap]
  refine hstands (fun u hu => ?_) hlowers r hr
  obtain ⟨u0, hu0, rfl⟩ := mem_map.mp hu
  exact hs.ne_result hk (hne u0 hu0)

/-- For any other instruction only packets and notes are asked for. -/
theorem Handles.of_plain (hplain : ¬t.Recasts k i)
    (hpacket : ∀ r, k.result? i = some r → t.divergence.isVaryingInst i = true → t.plan.get r = .packet →
      (s.packets[r]?).isSome = true)
    (hsource : ∀ r, k.result? i = some r → t.divergence.isVaryingInst i = true → t.plan.get r = .perLane →
      (s.sources[i]?).isSome = true) : s.Handles k t i σ where
  stands c _ _ _ _ hlowers := absurd (.inr ⟨c, hlowers.1⟩) hplain
  packet r hr hplan hvarying _ _ := hpacket r hr hvarying hplan
  source r hr hplan hvarying _ := hsource r hr hvarying hplan

end Widening

namespace Widen

/-- **One instruction** is widened. -/
theorem proceeds_widenInst (hk : k.Linked) (hs : s.Keeps k t σ pre) (hi : i ∈ k.instsInOrder) (hnew : i ∉ pre)
    (h : widenInst t i s = .ok a s') :
    ∃ σ', s.Proceeds k t (pre ++ [i]) (k.result? i) σ σ' s' ∧ s'.Handles k t i σ' := by
  obtain ⟨e, he, halive⟩ := hk.exists_inst hi
  have hseen : i ∈ pre ++ [i] := mem_append_right _ (.head _)
  have hold : (k.inst? i).isSome = true := by rw [he]; rfl
  have hold' : k.instr? i = some e.instr := by rw [instr?, he]; rfl
  have hs' := hs.mono fun j hj => mem_append_left [i] hj
  rw [widenInst, kernel_bind] at h
  obtain ⟨d, hd, h⟩ := lift_bind_eq_ok.mp h
  obtain ⟨instr, hinst, -⟩ := hs.inst i e he
  obtain rfl := mem_unique hinst (some?_eq_ok.mp hd)
  -- nothing has changed in it so far but its operands
  have hinstr : instr = e.instr.mapOperands σ := by
    have hkept := hs.instr? hi hold' fun h => hnew h.1
    rw [instr?, hinst] at hkept
    exact Option.some.inj hkept
  have hresult : k.result? i = e.result := by rw [result?, he]; rfl
  have hnone : s.sources[i]? = none := hs.sources_eq_none fun hi => absurd hi hnew
  split at h
  next hdead =>
    cases halive.symm.trans hdead
  next hdead =>
    generalize hcall : t.calls[i]? = call at h
    dsimp only at h
    split at h
    next c =>
      obtain ⟨callee, args, mask, hargs, hlowered⟩ := lowered_lowerCollective hs' hk hseen hold hcall
        (fun r hr => hs.eq_self hk hnew hr) h
      refine hlowered.handles hk hs hcall fun callee0 args0 mask0 hinstr0 => ?_
      rw [instr?, hinst] at hargs
      have hsame : instr = .call callee0 (args0.map σ) (mask0.map σ) := by
        rw [hinstr, mem_unique hold' hinstr0]
        rfl
      exact (Instr.call.inj ((Option.some.inj hargs).symm.trans hsame)).2.1
    next v hcalls =>
      have hret : ∃ v0, k.instr? i = some (.ret (some v0)) := by
        rw [hold']
        cases hdone : e.instr with
        | ret w =>
          cases w with
          | none => rw [hdone] at hinstr; cases hinstr
          | some v0 => exact ⟨v0, rfl⟩
        | _ => rw [hdone] at hinstr; cases hinstr
      have hstep : s.Proceeds k t _ (k.result? i) σ σ s' :=
        proceeds_widenReturn hs' hseen (.inl hret) hold (by rw [instr?, hinst]; rfl) h
      obtain ⟨v0, hret⟩ := hret
      refine ⟨σ, hstep, fun c _ _ _ _ hlowers => ?_, fun _ _ _ _ hnot => absurd hret (hnot v0), fun _ _ _ _ hnot => ?_⟩
      · exact absurd (hcall.symm.trans hlowers.1) (hcalls c)
      · exact absurd (.inl ⟨v0, hret⟩) hnot
    next hcalls hrets =>
      have hplain : ¬t.Recasts k i := by
        rintro (⟨v, hv⟩ | ⟨c, hc⟩)
        · exact hrets (σ v) (by rw [hinstr, mem_unique hold' hv]; rfl)
        · exact hcalls c (hcall.symm.trans hc)
      split at h
      next hvarying =>
        cases hr : e.result with
        | some r =>
          simp only [hr] at h
          have hdef := hs.linked.def?_of_result? ((hs.result? hold).trans (hresult.trans hr))
          obtain ⟨hstep, hpacket, hsource⟩ := proceeds_widenValue hs' hseen hvarying hplain hold hnone hdef h
          rw [hresult, hr]
          refine ⟨σ, hstep, .of_plain hplain (fun r' hr' _ => ?_) fun r' hr' _ => ?_⟩
          · obtain rfl := mem_unique hr (hresult.symm.trans hr')
            exact hpacket
          · obtain rfl := mem_unique hr (hresult.symm.trans hr')
            exact hsource
        | none =>
          simp only [hr] at h
          have hnoResult : ∀ r, k.result? i ≠ some r := fun r => by rw [hresult, hr]; simp
          exact ⟨σ, proceeds_widenEffect hs' hseen hvarying hplain hold hnone h,
            .of_plain hplain (fun r hr' => absurd hr' (hnoResult r)) fun r hr' => absurd hr' (hnoResult r)⟩
      next hvarying =>
        obtain ⟨-, rfl⟩ := pure_eq_ok.mp h
        exact ⟨σ, .refl hs', .of_plain hplain (fun _ _ h => absurd h hvarying) fun _ _ h => absurd h hvarying⟩

end Widen

end Spmd
