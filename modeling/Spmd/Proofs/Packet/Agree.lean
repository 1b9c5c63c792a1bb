import Spmd.Proofs.Packet.Supply

/-!
# The plan and widening agree

A plan promises a form for every value and every access. Widening keeps each promise: an instruction is reached when all
that it asks for can be had, and the form that the plan has chosen for it exists. What makes widening fail is never the
plan (`Kernel.Excuse`):

* **`Widen.fails_widenInst`** — one instruction;
* **`Widen.fails_forM`** — all of them, in the order of control flow;
* **`Widen.fails_fillPhis`** — the phis, with as many steps as there can be lanes of values.
-/

namespace Spmd

open Success List Kernel Instr
open Option (isSome_iff_exists map_eq_some_iff mem_unique some)

variable {instr : Instr} {is pre seen : List InstId} {mask : Option ValueId} {s s' : Widening} {σ : ValueId → ValueId}
  {v zero neutral identity : ValueId} {t : WidenTask} {classify : Classifier} {i : InstId} {k : Kernel}
  {args ops : List ValueId}

variable {f : ValueId → ValueId}

theorem WidenTask.hasPacket_mapOperands : t.HasPacket i (instr.mapOperands f) ↔ t.HasPacket i instr := by
  cases instr <;> rfl

theorem Instr.acts_mapOperands : (instr.mapOperands f).Acts ↔ instr.Acts := by
  cases instr <;> rfl

namespace Widen

variable {lane : Nat} {prev : InstId} {E : Failure → Prop} {given ty : Ty} {ptr : ValueId}

/-! ## Per lane -/

theorem fails_makeLaneZero (h : s.OnTrack k classify t is σ seen pre) (hripe : ∀ o ∈ instr.operands, t.Ripe k σ pre o)
    (i : InstId) : (makeLaneZero t i instr).Fails (t.Excuse k classify) s := by
  have hzero : 0 < max t.group.lanes 1 := by omega
  refine .bind (fails_laneOperands (extends_laneOf hzero) h fun o ho s' hs' _ => ?_) fun _ _ _ => .of_ok rfl
  exact fails_laneOf hzero hs' (hripe o ho)

theorem fails_repeatFor (hlane : lane < max t.group.lanes 1) (h : s.OnTrack k classify t is σ seen pre)
    (hripe : ∀ o ∈ instr.operands, t.Ripe k σ pre o) (hprev : s.kernel.Has (.inst prev)) (ty : Ty)
    (result : Option ValueId) :
    (repeatFor t instr ty result prev lane).Fails (t.Excuse k classify) s := by
  refine .bind (fails_laneOperands (extends_laneOf hlane) h fun o ho s' hs' _ => fails_laneOf hlane hs' (hripe o ho))
    fun operands s1 hoperands => ?_
  have hext := extends_laneOperands (extends_laneOf hlane) instr s operands s1 hoperands h.done.keeps.solid
  obtain ⟨⟨j, point⟩, s2, hbuild⟩ := (h.of_extends hext).exists_buildAt
    (show InsertPoint.Fits s1.kernel (.after prev) from hext.kernel.has hprev)
    (Build.goes_insert [] (withOperands instr operands) ty) (by simp)
  refine .bind_of_ok hbuild (.bind_of_ok rfl ?_)
  cases result with
  | none => exact .of_ok rfl
  | some r =>
    cases s2.kernel.result? j with
    | none => exact .of_ok rfl
    | some x => exact .of_ok rfl

theorem fails_foldlM_repeatFor {lanes : List Nat} (hlanes : ∀ lane ∈ lanes, lane < max t.group.lanes 1)
    (h : s.OnTrack k classify t is σ seen pre) (hripe : ∀ o ∈ instr.operands, t.Ripe k σ pre o)
    (hprev : s.kernel.Has (.inst prev)) (ty : Ty) (result : Option ValueId) :
    (lanes.foldlM (repeatFor t instr ty result) prev).Fails (t.Excuse k classify) s := by
  induction lanes generalizing s prev with
  | nil => exact .pure _
  | cons lane lanes ih =>
    rw [foldlM_cons]
    have hlane := hlanes lane (.head _)
    refine .bind (fails_repeatFor hlane h hripe hprev ty result) fun j s1 hj => ?_
    obtain ⟨hext, hhas⟩ := repeatFor_spec hlane h.done.keeps.solid hj
    exact ih (fun l hl => hlanes l (.tail _ hl)) (h.of_extends hext) hhas

theorem fails_repeatEffect (h : s.OnTrack k classify t is σ seen pre) (hi : i ∈ seen)
    (hvarying : t.divergence.isVaryingInst i = true) (hplain : ¬t.Recasts k i) (hold : k.Has (.inst i))
    (hnone : s.sources[i]? = none) (hinstr : s.kernel.instr? i = some instr)
    (hripe : ∀ o ∈ instr.operands, t.Ripe k σ pre o) :
    (repeatEffect t i).Fails (t.Excuse k classify) s := by
  obtain ⟨d, hd, rfl⟩ := map_eq_some_iff.mp hinstr
  refine .bind (fails_checkCopies i) fun lanes s1 hcheck => ?_
  obtain ⟨rfl, rfl, -⟩ := checkCopies_eq_ok hcheck
  refine .bind_of_ok rfl (.bind_of_ok (lift_eq_ok.mpr ⟨some?_eq_ok.mpr hd, rfl⟩) ?_)
  refine .bind (fails_makeLaneZero h hripe i) fun _ s1 hzero => ?_
  have hstep : s.Proceeds k t seen none σ σ s1 :=
    (proceeds_makeLaneZero h.done.keeps hi hvarying hplain hold hinstr hnone hzero).1
  have h1 := h.proceeds hstep
  have hlanes : ∀ lane ∈ (range t.group.lanes).drop 1, lane < max t.group.lanes 1 := fun lane hlane =>
    Nat.lt_of_lt_of_le (mem_range.mp (mem_of_mem_drop hlane)) (Nat.le_max_left _ _)
  refine .bind (fails_foldlM_repeatFor hlanes h1 hripe (h1.has_inst hold) _ _) fun last s2 _ => ?_
  cases s.kernel.result? i with
  | none => exact .of_ok rfl
  | some r => exact .of_ok rfl

theorem fails_keepPerLane (h : s.OnTrack k classify t is σ seen pre) (hi : i ∈ seen) (hmem : i ∈ is)
    (hvarying : t.divergence.isVaryingInst i = true) (hplain : ¬t.Recasts k i) (hold : k.Has (.inst i))
    (hnone : s.sources[i]? = none) (hinstr : s.kernel.instr? i = some instr)
    (hripe : instr.isPhi = false → ∀ o ∈ instr.operands, t.Ripe k σ pre o)
    (hcalls : ∀ kind, t.calls[i]? = some kind → instr.isPhi = false) (result : ValueId) :
    (keepPerLane t i result).Fails (t.Excuse k classify) s := by
  obtain ⟨d, hd, rfl⟩ := map_eq_some_iff.mp hinstr
  have hother : (do
      let instr := (← (← kernel).inst i).instr
      if instr.isPhi then
        setSource i instr
        addPending ⟨i, i, .lane 0⟩
      else makeLaneZero t i instr
      setInstance result 0 result : Widen Unit).Fails (t.Excuse k classify) s := by
    refine .bind_of_ok rfl (.bind_of_ok (lift_eq_ok.mpr ⟨some?_eq_ok.mpr hd, rfl⟩) ?_)
    dsimp only
    split
    · exact .of_ok rfl
    next hphi =>
      exact .bind (fails_makeLaneZero h (hripe (by simpa using hphi)) i) fun _ _ _ => .of_ok rfl
  have hrepeat : d.instr.isPhi = false → (repeatEffect t i).Fails (t.Excuse k classify) s := fun hphi =>
    fails_repeatEffect h hi hvarying hplain hold hnone hinstr (hripe hphi)
  rw [keepPerLane]
  cases hcall : t.calls[i]? with
  | none => exact hother
  | some kind =>
    cases kind with
    | laneIdentity identity =>
      cases identity with
      | dynamic => exact .throw (.dynamicLane ((h.fits.calls i hmem).trans (congrArg Except.ok hcall)))
      | _ => exact hother
    | unknown | neverConvergent | inherentlyVarying => exact hrepeat (hcalls _ hcall)
    | _ => exact hother

/-! ## Packets -/

section

variable (h : s.OnTrack k classify t is σ seen pre) (hold : k.Has (.inst i))
include h hold

/-- One instruction in front of another, from what is there. -/
theorem fails_before {α : Type} {action : Build α} (haction : action.Goes ops)
    (hops : ∀ u ∈ ops, s.kernel.Has (.value u)) : (before i action).Fails E s := by
  obtain ⟨a, s', hrun⟩ := h.exists_before (h.has_inst hold) haction hops
  exact .of_ok hrun

theorem fails_emitValue (hgives : instr.givesValue given = true) (hops : ∀ u ∈ instr.operands, s.kernel.Has (.value u)) :
    (before i (Build.emitValue instr given)).Fails E s :=
  fails_before h hold (Build.yields_emitValue (fun _ hu => hu) hgives).goes hops

theorem fails_packetLoad (hty : ty.isVoid = false) (hptr : t.Ripe k σ pre ptr)
    (hmask : ∀ m ∈ mask.toList, t.Ripe k σ pre m) {form : MemoryForm} (hform : t.plan.memoryForm? i = some form)
    (hvector : form ≠ .perLane) (align : Nat) :
    (packetLoad t i ty ptr mask align).Fails (t.Excuse k classify) s := by
  have hzero : 0 < max t.group.lanes 1 := by omega
  have hgives : (!ty.isVoid) = true := (Bool.not_eq_true' _).mpr hty
  have hops : ∀ (s' : Widening) (x : ValueId) (m : Option ValueId), (∀ v ∈ [x], s'.kernel.Has (.value v)) →
      (∀ v ∈ m.toList, s'.kernel.Has (.value v)) → ∀ u ∈ x :: m.toList, s'.kernel.Has (.value u) := by
    intro s' x m hx hm u hu
    rcases mem_cons.mp hu with rfl | hu
    · exact hx u (.head _)
    · exact hm u hu
  refine (serves_maskOf h hmask).bind fun mask' s1 h1 hmask' _ => ?_
  rw [hform]
  cases form with
  | contiguous | interleaved =>
    refine (serves_laneOf hzero h1 hptr).bind fun base s2 h2 hbase hkeep => ?_
    exact fails_emitValue h2 hold hgives (hops s2 base mask' hbase fun m hm => hkeep m (hmask' m hm))
  | gatherScatter =>
    refine (serves_packetOf h1 hptr).bind fun ptrs s2 h2 hptrs hkeep => ?_
    exact fails_emitValue h2 hold hgives (hops s2 ptrs mask' hptrs fun m hm => hkeep m (hmask' m hm))
  | perLane => exact absurd rfl hvector

end

/-- Two requests and an instruction that reads what they gave. -/
theorem fails_two (hold : k.Has (.inst i)) {x y : Widen ValueId} (hx : Serves k classify t is σ seen pre x ([·]) s)
    (hy : ∀ s' : Widening, s'.OnTrack k classify t is σ seen pre → Serves k classify t is σ seen pre y ([·]) s')
    {make : ValueId → ValueId → Instr} (hgives : ∀ a b, (make a b).givesValue given = true)
    (hops : ∀ a b, (make a b).operands = [a, b]) :
    (do let a ← x; let b ← y; before i (Build.emitValue (make a b) given) : Widen ValueId).Fails
      (t.Excuse k classify) s := by
  refine hx.bind fun a s1 h1 ha _ => ?_
  refine (hy s1 h1).bind fun b s2 h2 hb hkeep => ?_
  refine fails_emitValue h2 hold (hgives a b) fun u hu => ?_
  rw [hops] at hu
  rcases mem_pair.mp hu with rfl | rfl
  · exact hkeep u (ha u (.head _))
  · exact hb u (.head _)

section

variable (h : s.OnTrack k classify t is σ seen pre) (hold : k.Has (.inst i))
include h hold

/-- A call for all lanes has a result. -/
theorem exists_call (callee : String) (hty : ty.isVoid = false) (hargs : ∀ u ∈ args, s.kernel.Has (.value u))
    (hmask : ∀ m ∈ mask.toList, s.kernel.Has (.value m)) :
    ∃ call s' v, before i (Build.call callee args mask ty) s = .ok call s' ∧ s'.kernel.result? call = some v := by
  have hops : ∀ u ∈ (call callee args mask).operands, s.kernel.Has (.value u) := fun u hu =>
    (mem_append.mp hu).elim (hargs u) (hmask u)
  obtain ⟨call, s1, hcall⟩ := h.exists_before (h.has_inst hold) (Build.goes_emit (fun _ hu => hu) ty) hops
  obtain ⟨c, haction, rfl⟩ := before_eq_ok.mp hcall
  obtain ⟨ty', _, hty', hinsert⟩ := stateBind_eq_ok.mp haction
  obtain rfl := Build.resultTy_unchanged hty'
  have hgives : (Instr.call callee args mask).givesValue ty = true := (Bool.not_eq_true' _).mpr hty
  have hvoid := Build.not_void_resultTy h.done.keeps.solid hgives hty'
  obtain ⟨b, index, -, hinst, -⟩ := Build.insert_eq_ok hinsert
  obtain ⟨_, _, -, hins⟩ := insertInst_eq_ok hinst
  exact ⟨call, _, _, hcall, by rw [hins.result?_eq, hvoid]; rfl⟩

theorem fails_buildPacket (hv : k.result? i = some v) (hinstr : s.kernel.instr? i = some instr)
    (hform : t.HasPacket i instr) (hripe : instr.isPhi = false → ∀ o ∈ instr.operands, t.Ripe k σ pre o) :
    (buildPacket t i v).Fails (t.Excuse k classify) s := by
  obtain ⟨d, hd, rfl⟩ := map_eq_some_iff.mp hinstr
  obtain ⟨dv, hdv⟩ := isSome_iff_exists.mp (h.fits.linked.has_of_result? hv)
  have hvalue := h.done.keeps.value v dv hdv
  obtain ⟨_, hsame, -, hty⟩ := valueTy_of_has (isSome_iff_exists.mpr ⟨dv, hvalue⟩)
  obtain rfl := mem_unique hvalue hsame
  have hvoid : (widenTy t dv.ty).isVoid = false := not_void_widenTy (h.done.keeps.solid v dv hvalue)
  refine .bind_of_ok hty (.bind_of_ok rfl (.bind_of_ok (lift_eq_ok.mpr ⟨some?_eq_ok.mpr hd, rfl⟩) ?_))
  cases hinstr' : d.instr with
  | binary op lhs rhs | compare op lhs rhs =>
    rw [hinstr'] at hripe
    have hripe := hripe rfl
    exact fails_two hold (serves_packetOf h (hripe lhs (by simp [operands])))
      (fun s' hs' => serves_packetOf hs' (hripe rhs (by simp [operands]))) (fun _ _ => rfl) fun _ _ => rfl
  | unary op x | cast op x =>
    rw [hinstr'] at hripe
    refine (serves_packetOf h (hripe rfl x (by simp [operands]))).bind fun p s1 h1 hp _ => ?_
    exact fails_emitValue h1 hold rfl hp
  | select cond thenValue elseValue =>
    rw [hinstr'] at hripe
    have hripe := hripe rfl
    refine (serves_packetUnlessUniform h (hripe cond (by simp [operands]))).bind fun c s1 h1 hc _ => ?_
    refine (serves_packetOf h1 (hripe thenValue (by simp [operands]))).bind fun a s2 h2 ha hkeep2 => ?_
    refine (serves_packetOf h2 (hripe elseValue (by simp [operands]))).bind fun b s3 h3 hb hkeep3 => ?_
    refine fails_emitValue h3 hold rfl fun u hu => ?_
    simp only [operands, mem_cons, not_mem_nil, or_false] at hu hc ha hb
    rcases hu with rfl | rfl | rfl
    · exact hkeep3 u (hkeep2 u (hc u rfl))
    · exact hkeep3 u (ha u rfl)
    · exact hb u rfl
  | elementPtr base index elem =>
    rw [hinstr'] at hripe
    have hripe := hripe rfl
    exact fails_two hold (serves_packetUnlessUniform h (hripe base (by simp [operands])))
      (fun s' hs' => serves_packetUnlessUniform hs' (hripe index (by simp [operands]))) (fun _ _ => rfl) fun _ _ => rfl
  | load ptr mask align =>
    rw [hinstr'] at hripe hform
    obtain ⟨form, hform, hvector⟩ := hform
    exact fails_packetLoad h hold hvoid (hripe rfl ptr (.head _))
      (fun m hm => hripe rfl m (.tail _ hm)) hform hvector align
  | phi incoming =>
    have hgives : (phi []).givesValue (widenTy t dv.ty) = true := (Bool.not_eq_true' _).mpr hvoid
    have hyields : Build.Yields [] (Build.phi (widenTy t dv.ty) []) := Build.yields_emitValue (fun _ hu => hu) hgives
    obtain ⟨phi, s1, hphi⟩ := h.exists_before (h.has_inst hold) hyields.goes (by simp)
    have h1 := h.convert (extends_before t i (Build.grows_emitValue _ _)) hphi
    obtain ⟨c, haction, rfl⟩ := before_eq_ok.mp hphi
    obtain ⟨definition, hdef, -⟩ := h1.exists_def? (Build.emitValue_madeBy h.done.keeps.solid hgives haction).has
    exact .bind_of_ok hphi (.bind_of_ok rfl (.bind_of_ok (lift_eq_ok.mpr ⟨hdef, rfl⟩) (.of_ok rfl)))
  | call callee args mask =>
    rw [hinstr'] at hripe
    have hripe := hripe rfl
    refine (serves_packets h fun u hu => hripe u (mem_append_left _ hu)).bind fun ps s1 h1 hps _ => ?_
    refine (serves_maskOf h1 fun m hm => hripe m (mem_append_right _ hm)).bind fun mask' s2 h2 hmask hkeep => ?_
    obtain ⟨call, s3, r, hcall, hresult⟩ := exists_call h2 hold callee hvoid (fun u hu => hkeep u (hps u hu)) hmask
    refine .bind_of_ok hcall (.bind_of_ok rfl ?_)
    simp only [hresult]
    exact .pure _
  | _ =>
    rw [hinstr'] at hform
    exact hform.elim

theorem fails_packetStore {value : ValueId} (hptr : t.Ripe k σ pre ptr) (hvalue : t.Ripe k σ pre value)
    (hmask : ∀ m ∈ mask.toList, t.Ripe k σ pre m) (form : MemoryForm) (align : Nat) :
    (packetStore t i form ptr value mask align).Fails (t.Excuse k classify) s := by
  have hzero : 0 < max t.group.lanes 1 := by omega
  rw [packetStore]
  refine (serves_packetOf h hvalue).bind fun data s1 h1 hdata _ => ?_
  refine (serves_maskOf h1 hmask).bind fun mask' s2 h2 hmask' hkeep => ?_
  -- whatever the form, a store is made from an address and what has been asked for
  have hstore : ∀ (addr : Widen ValueId) (store : ValueId → Build InstId), Serves k classify t is σ seen pre addr ([·]) s2 →
      (∀ base, (store base).Goes (base :: data :: mask'.toList)) →
      (do
        let base ← addr
        discard (before i (store base))
        replace i
        modify fun s => { s with packetCount := s.packetCount + 1 } : Widen Unit).Fails
        (t.Excuse k classify) s2 := by
    intro addr store haddr hgoes
    refine haddr.bind fun base s3 h3 hbase hkeep' => ?_
    refine .bind (.map _ (fails_before h3 hold (hgoes base) fun u hu => ?_)) fun _ _ _ => .of_ok rfl
    rcases mem_cons.mp hu with rfl | hu
    · exact hbase u (.head _)
    · rcases mem_cons.mp hu with rfl | hu
      · exact hkeep' u (hkeep u (hdata u (.head _)))
      · exact hkeep' u (hmask' u hu)
  cases form with
  | contiguous | interleaved =>
    exact hstore _ _ (serves_laneOf hzero h2 hptr) fun base => Build.goes_emit (by exact fun _ hu => hu) _
  | gatherScatter | perLane => exact hstore _ _ (serves_packetOf h2 hptr) fun ptrs => Build.goes_emit (by exact fun _ hu => hu) _

end

/-! ## Instruction by instruction -/

section

variable (h : s.OnTrack k classify t is σ seen pre)
include h

theorem fails_widenValue (hi : i ∈ seen) (hmem : i ∈ is) (hvarying : t.divergence.isVaryingInst i = true)
    (hplain : ¬t.Recasts k i) (hold : k.Has (.inst i)) (hnone : s.sources[i]? = none)
    (hinstr : s.kernel.instr? i = some instr) (hv : k.result? i = some v)
    (hform : t.plan.get v = .packet → t.HasPacket i instr)
    (hripe : instr.isPhi = false → ∀ o ∈ instr.operands, t.Ripe k σ pre o)
    (hcalls : ∀ kind, t.calls[i]? = some kind → instr.isPhi = false) :
    (widenValue t i v).Fails (t.Excuse k classify) s := by
  rw [widenValue]
  cases hplan : t.plan.get v with
  | uniform | laneId => exact .pure _
  | packet => exact .bind (fails_buildPacket h hold hv hinstr (hform hplan) hripe) fun _ _ _ => .of_ok rfl
  | perLane => exact fails_keepPerLane h hi hmem hvarying hplain hold hnone hinstr hripe hcalls v

theorem fails_widenEffect (hi : i ∈ seen) (hvarying : t.divergence.isVaryingInst i = true) (hplain : ¬t.Recasts k i)
    (hold : k.Has (.inst i)) (hnone : s.sources[i]? = none) (hinstr : s.kernel.instr? i = some instr)
    (hacts : instr.Acts) (hripe : ∀ o ∈ instr.operands, t.Ripe k σ pre o) :
    (widenEffect t i).Fails (t.Excuse k classify) s := by
  have hrepeat := fails_repeatEffect h hi hvarying hplain hold hnone hinstr hripe
  obtain ⟨d, hd, rfl⟩ := map_eq_some_iff.mp hinstr
  refine .bind_of_ok rfl (.bind_of_ok (lift_eq_ok.mpr ⟨some?_eq_ok.mpr hd, rfl⟩) ?_)
  cases hinstr' : d.instr with
  | store ptr value mask align =>
    rw [hinstr'] at hripe
    cases (t.plan.memoryForm? i).getD .perLane with
    | perLane => exact hrepeat
    | contiguous | interleaved | gatherScatter =>
      exact fails_packetStore h hold (hripe ptr (by simp [operands])) (hripe value (by simp [operands]))
        (fun m hm => hripe m (by simp [operands, Option.mem_toList.mp hm])) _ align
  | call callee args mask => exact hrepeat
  | _ =>
    rw [hinstr'] at hacts
    exact hacts.elim

theorem fails_widenReturn (hv : t.Ripe k σ pre v) (i : InstId) :
    (widenReturn t i v).Fails (t.Excuse k classify) s :=
  .bind (fails_packetOf h hv) fun _ _ _ => .of_ok rfl

end

end Widen

/-! ## What lanes compute together -/

namespace Build

variable {p : ValueId} {shape : VectorTy} {N : Nat}

theorem yields_vote (kind : RecurKind) (elem : ScalarTy) (shape : VectorTy) (hp : p ∈ ops) (hzero : zero ∈ ops) :
    Yields ops (vote kind elem shape p zero) := by
  have hreduce : ∀ {ops : List ValueId} {x : ValueId}, x ∈ ops → Yields ops (reduce kind x) := fun hx =>
    yields_emitValue (fun u hu => mem_singleton.mp hu ▸ hx) rfl
  unfold vote
  split
  · rw [pure_bind]
    exact hreduce hp
  · refine .bind (yields_emitValue (by simpa [operands] using hzero) rfl) fun zeros => ?_
    refine .bind (yields_emitValue (fun u hu => ?_) rfl) fun truth => hreduce (.head _)
    rcases mem_pair.mp hu with rfl | rfl
    · exact .tail _ hp
    · exact .head _

theorem yields_scan (op : BinaryOp) (N : Nat) {pad : ValueId} (hp : p ∈ ops) (hpad : pad ∈ ops) :
    Yields ops (scan op N pad p) := by
  refine .foldlM (fun acc n _ => .bind (yields_emitValue (fun u hu => ?_) rfl) fun moved =>
    yields_emitValue (fun u hu => ?_) rfl) hp
  · rcases mem_pair.mp hu with rfl | rfl
    · exact .head _
    · exact .tail _ hpad
  · rcases mem_pair.mp hu with rfl | rfl <;> simp

end Build

namespace Widen

variable {x : ValueId} {c : Collective} {p : PendingPhi} {kind : CallKind} {rest : List InstId}

theorem yields_voteCode {p : ValueId} (kind : RecurKind) (elem ret : ScalarTy) (shape : VectorTy) (hp : p ∈ ops)
    (hzero : zero ∈ ops) : Build.Yields ops (voteCode kind elem ret shape zero p) := by
  refine .bind (Build.yields_vote kind elem shape hp hzero) fun vote => ?_
  split
  · exact .pure (.head _)
  · exact Build.yields_emitValue (fun u hu => mem_singleton.mp hu ▸ (.head _)) rfl

theorem yields_scanCode {p : ValueId} (c : Collective) (N : Nat) (shape : VectorTy) (hp : p ∈ ops)
    (hneutral : neutral ∈ ops) (hidentity : identity ∈ ops) :
    Build.Yields ops (scanCode c N shape neutral identity p) := by
  have hsplat : ∀ {ops : List ValueId} {u : ValueId}, u ∈ ops → Build.Yields ops (Build.splat u shape) := fun hu =>
    Build.yields_emitValue (fun _ hw => mem_singleton.mp hw ▸ hu) rfl
  refine .bind (hsplat hneutral) fun pad => .bind (Build.yields_scan _ N (.tail _ hp) (.head _))
    fun inclusive => ?_
  split
  · refine .bind (hsplat (by simp [hidentity])) fun first => Build.yields_emitValue (fun u hu => ?_) rfl
    rcases mem_pair.mp hu with rfl | rfl <;> simp
  · exact .pure (.head _)

/-- What is built in front of an instruction from what is there. -/
theorem serves_before (h : s.OnTrack k classify t is σ seen pre) (hold : k.Has (.inst i)) {action : Build ValueId}
    (haction : action.Yields ops) (hops : ∀ u ∈ ops, s.kernel.Has (.value u)) :
    Serves k classify t is σ seen pre (before i action) ([·]) s := by
  refine ⟨fails_before h hold haction.goes hops, fun a s' hrun => ?_⟩
  obtain ⟨cur, hcur, rfl⟩ := before_eq_ok.mp hrun
  obtain ⟨a', cur', hcur', -, haccrues, hhas⟩ := haction ⟨s.kernel, .before i⟩
    ⟨h.done.keeps.linked, h.done.keeps.solid, h.has_inst hold⟩ hops
  cases ok_unique hcur hcur'
  exact ⟨h.of_extends (.setKernel haccrues), fun u hu => mem_singleton.mp hu ▸ hhas, fun _ => haccrues.has_value⟩

theorem serves_addConst (h : s.OnTrack k classify t is σ seen pre) (elem : ScalarTy) (x : Constant) :
    Serves k classify t is σ seen pre (addConst (.scalar elem) x) ([·]) s := by
  refine .of_extends h (.of_ok rfl) (extends_addConst t elem x) fun v s' hrun u hu => ?_
  cases hrun
  rw [mem_singleton.mp hu]
  exact isSome_iff_exists.mpr ⟨_, (value?_addValue s.kernel (.const x) (.scalar elem) _).trans (if_pos rfl)⟩

theorem exists_finishReduction (i : InstId) (scope : CollectiveScope) (result : Option ValueId) (v : ValueId) (s : Widening) :
    ∃ u s', finishReduction i scope result v s = .ok u s' := by
  cases scope with
  | subGroup => cases result <;> exact ⟨_, _, rfl⟩
  | workGroup => exact ⟨_, _, rfl⟩

section

variable (h : s.OnTrack k classify t is σ seen pre) (hold : k.Has (.inst i))
include h hold

theorem fails_lowerVote (hx : t.Ripe k σ pre x) {result : Option ValueId}
    (hresult : ∀ r ∈ result, s.kernel.Has (.value r)) (kind : RecurKind) :
    (lowerVote t i kind x result).Fails (t.Excuse k classify) s := by
  obtain ⟨d, -, -, hty⟩ := valueTy_of_has (h.has hx)
  -- the type of the result is looked up before anything is built
  have hrest : ∀ ret : ScalarTy, (do
      let zero ← addConst (.scalar (d.ty.element?.getD .i32)) (if (d.ty.element?.getD .i32).isFloat then .posZero else .int 0)
      let packet ← packetOf t x
      before i (voteCode kind (d.ty.element?.getD .i32) ret (shape t (d.ty.element?.getD .i32)) zero packet) :
      Widen ValueId).Fails (t.Excuse k classify) s := by
    intro ret
    refine (serves_addConst h _ _).bind fun zero s1 h1 hzero _ => ?_
    refine (serves_packetOf h1 hx).bind fun p s2 h2 hp hkeep => ?_
    have hvote : Build.Yields [zero, p]
        (voteCode kind (d.ty.element?.getD .i32) ret (shape t (d.ty.element?.getD .i32)) zero p) :=
      yields_voteCode kind _ ret _ (by simp) (by simp)
    refine fails_before h2 hold hvote.goes fun u hu => ?_
    rcases mem_pair.mp hu with rfl | rfl
    · exact hkeep u (hzero u (.head _))
    · exact hp u (.head _)
  refine .bind_of_ok hty ?_
  cases result with
  | none => exact .bind_of_ok rfl (hrest _)
  | some r =>
    obtain ⟨dr, -, -, htyr⟩ := valueTy_of_has (hresult r rfl)
    exact .bind_of_ok htyr (.bind_of_ok rfl (hrest _))

theorem fails_lowerScan (hx : t.Ripe k σ pre x) (c : Collective) :
    (lowerScan t i c x).Fails (t.Excuse k classify) s := by
  obtain ⟨d, -, -, hty⟩ := valueTy_of_has (h.has hx)
  refine .bind (fails_fixedLanes i _) fun lanes s1 hlanes => ?_
  obtain ⟨rfl, rfl, -⟩ := fixedLanes_eq_ok hlanes
  refine .bind_of_ok hty ((serves_addConst h _ _).bind fun neutral s1 h1 hneutral _ => ?_)
  refine (serves_addConst h1 _ _).bind fun identity s2 h2 hidentity hkeep2 => ?_
  refine (serves_packetOf h2 hx).bind fun p s3 h3 hp hkeep3 => ?_
  have hscan : Build.Yields [p, neutral, identity]
      (scanCode c t.group.lanes (shape t (d.ty.element?.getD .i32)) neutral identity p) :=
    yields_scanCode c _ _ (by simp) (by simp) (by simp)
  refine (serves_before h3 hold hscan fun u hu => ?_).bind fun scanned s4 h4 hscanned hkeep4 => ?_
  · simp only [mem_cons, not_mem_nil, or_false] at hu hp hneutral hidentity
    rcases hu with rfl | rfl | rfl
    · exact hp u rfl
    · exact hkeep3 u (hkeep2 u (hneutral u rfl))
    · exact hkeep3 u (hidentity u rfl)
  cases hscope : c.scope with
  | subGroup => exact .pure _
  | workGroup =>
    have hask : Build.Yields [p] (askCode c (d.ty.element?.getD .i32) p) :=
      .bind (Build.yields_emitValue (fun _ hu => hu) rfl) fun total => Build.yields_emitValue (by simp [operands]) rfl
    refine (serves_before h4 hold hask fun u hu => hkeep4 u (hp u hu)).bind fun earlier s5 h5 hearlier hkeep5 => ?_
    have hoffset : Build.Yields [earlier, scanned]
        (offsetCode c.recurrence.binaryOp (shape t (d.ty.element?.getD .i32)) scanned earlier) :=
      .bind (Build.yields_emitValue (by simp [operands]) rfl) fun offset =>
        Build.yields_emitValue (by simp [operands]) rfl
    refine fails_before h5 hold hoffset.goes fun u hu => ?_
    rcases mem_pair.mp hu with rfl | rfl
    · exact hearlier u (.head _)
    · exact hkeep5 u (hscanned u (.head _))

theorem fails_lowerBroadcast (hx : t.Ripe k σ pre x) (hcall : k.callKind? classify i = .ok (some (.collective c)))
    (hop : c.op = .broadcast) {index : Option ValueId} (hindex : ∀ n ∈ index, t.Ripe k σ pre n)
    (hone : index = none → ∃ callee x0 mask, k.instr? i = some (.call callee [x0] mask)) (result : Option ValueId) :
    (lowerBroadcast t i c.scope x index result).Fails (t.Excuse k classify) s := by
  cases index with
  | none =>
    obtain ⟨callee, x0, mask, hinstr⟩ := hone rfl
    exact .throw (.broadcastLane hcall hop hinstr)
  | some n =>
    obtain ⟨uniform, hask⟩ := exists_isUniform (t := t) (h.has (hindex n rfl))
    have hrest : (do
        let packet ← packetOf t x
        substitute i result (← before i (Build.extract packet n)) : Widen Unit).Fails (t.Excuse k classify) s := by
      refine (serves_packetOf h hx).bind fun p s1 h1 hp hkeep => ?_
      refine .bind (fails_emitValue h1 hold rfl fun u hu => ?_) fun v s2 _ => ?_
      · rcases mem_pair.mp hu with rfl | rfl
        · exact hp u (.head _)
        · exact hkeep u (h.has (hindex u rfl))
      · cases result <;> exact .of_ok rfl
    unfold lowerBroadcast
    dsimp only
    split
    next hscope =>
      exact .bind (.throw (.workGroupBroadcast hcall hop hscope)) fun _ _ hrun => absurd hrun throw_ne_ok
    · refine .bind_of_ok hask ?_
      cases uniform with
      | true => exact hrest
      | false => exact .bind (.throw (.varyingBroadcastLane hcall hop)) fun _ _ hrun => absurd hrun throw_ne_ok

theorem fails_lowerCollective (hcall : k.callKind? classify i = .ok (some (.collective c))) {callee : String}
    (hold' : k.instr? i = some (.call callee args mask))
    (hinstr : s.kernel.instr? i = some (.call callee (args.map σ) (mask.map σ)))
    (hripe : ∀ o ∈ args, t.Ripe k σ pre (σ o)) :
    (lowerCollective t i c).Fails (t.Excuse k classify) s := by
  obtain ⟨d, hd, hd'⟩ := map_eq_some_iff.mp hinstr
  have hresult : s.kernel.result? i = k.result? i := h.done.keeps.result? hold
  refine .bind_of_ok rfl (.bind_of_ok (lift_eq_ok.mpr ⟨some?_eq_ok.mpr hd, rfl⟩) ?_)
  rw [hd', hresult]
  cases args with
  | nil => exact .throw (.collectiveOperand hcall hold')
  | cons x rest =>
    have hx := hripe x (.head _)
    cases hop : c.op with
    | broadcast =>
      refine .bind (fails_lowerBroadcast h hold hx hcall hop (fun n hn => ?_) (fun hnone => ?_) _) fun _ _ _ => .of_ok rfl
      · obtain ⟨n0, hn0, rfl⟩ := mem_map.mp (mem_of_head? hn)
        exact hripe n0 (.tail _ hn0)
      · obtain rfl := map_eq_nil_iff.mp (head?_eq_none_iff.mp hnone)
        exact ⟨callee, x, mask, hold'⟩
    | reduce =>
      refine (serves_packetOf h hx).bind fun p s1 h1 hp _ => ?_
      refine .bind (fails_emitValue h1 hold rfl hp) fun v s2 _ => ?_
      obtain ⟨u, s3, hfinish⟩ := exists_finishReduction i c.scope (k.result? i) v s2
      exact .bind_of_ok hfinish (.of_ok rfl)
    | any | all =>
      refine .bind (fails_lowerVote h hold hx (fun r hr => ?_) _) fun v s1 _ => ?_
      · exact h.has_value (h.fits.linked.has_of_result? hr)
      · obtain ⟨u, s2, hfinish⟩ := exists_finishReduction i c.scope (k.result? i) v s1
        exact .bind_of_ok hfinish (.of_ok rfl)
    | scanInclusive | scanExclusive =>
      refine .bind (fails_lowerScan h hold hx c) fun v s1 _ => ?_
      cases hr : k.result? i with
      | none => exact .bind (.throw (.scanResult hcall (by simp [hop]) hr)) fun _ _ hrun => absurd hrun throw_ne_ok
      | some r => exact .of_ok rfl

end

/-! ## All instructions -/

/-- Only calls are classified. -/
theorem exists_call_of_callKind? (hkind : k.callKind? classify i = .ok (some kind)) (hinstr : k.instr? i = some instr) :
    ∃ callee args mask, instr = .call callee args mask := by
  by_contra hnot
  have hnone := k.callKind?_of_not_call hinstr (fun callee args mask heq => hnot ⟨callee, args, mask, heq⟩) classify
  cases hkind.symm.trans hnone

theorem exists_call_of_calls (h : t.Fits k classify is) (hi : i ∈ is) (hkind : t.calls[i]? = some kind)
    (hinstr : k.instr? i = some instr) : ∃ callee args mask, instr = .call callee args mask :=
  exists_call_of_callKind? ((h.calls i hi).trans (congrArg _ hkind)) hinstr

/-- **One instruction** is widened, or there is a good reason why it is not. -/
theorem fails_widenInst (h : s.OnTrack k classify t is σ pre pre) (his : is = pre ++ i :: rest) :
    (widenInst t i).Fails (t.Excuse k classify) s := by
  have hmem : i ∈ is := by rw [his]; simp
  have hnew : i ∉ pre := h.fits.not_mem_front his
  have horder := h.fits.mem i hmem
  obtain ⟨e, he, halive⟩ := h.fits.linked.exists_inst horder
  have hold := h.fits.has_inst hmem
  have hold' : k.instr? i = some e.instr := by rw [instr?, he]; rfl
  have hresult : k.result? i = e.result := by rw [result?, he]; rfl
  have hinstr := h.done.keeps.instr? horder hold' fun h => hnew h.1
  have hnone : s.sources[i]? = none := h.done.keeps.sources_eq_none fun hi => absurd hi hnew
  -- what it reads was defined by the instructions before, which have been widened
  have hripe : (e.instr.mapOperands σ).isPhi = false → ∀ o ∈ (e.instr.mapOperands σ).operands, t.Ripe k σ pre o := by
    intro hphi o ho
    rw [isPhi_mapOperands] at hphi
    rw [operands_mapOperands] at ho
    obtain ⟨o0, ho0, rfl⟩ := mem_map.mp ho
    exact (h.ripe_operand his hold' ho0).2 hphi
  have h' : s.OnTrack k classify t is σ (pre ++ [i]) pre :=
    ⟨h.fits, ⟨h.done.keeps.mono fun j hj => mem_append_left _ hj, h.done.handles⟩, h.front⟩
  have hseen : i ∈ pre ++ [i] := mem_append_right _ (.head _)
  obtain ⟨instr, hinst, -⟩ := h.done.keeps.inst i e he
  obtain rfl : instr = e.instr.mapOperands σ := by
    rw [instr?, hinst] at hinstr
    exact some.inj hinstr
  refine .bind_of_ok rfl (.bind_of_ok (lift_eq_ok.mpr ⟨some?_eq_ok.mpr hinst, rfl⟩) ?_)
  rw [if_neg (show ¬(e.dead = true) by simp [halive])]
  generalize hcall : t.calls[i]? = call
  dsimp only
  split
  next c =>
    obtain ⟨callee, args, mask, hargs⟩ := exists_call_of_calls h.fits hmem hcall hold'
    rw [hargs] at hinstr hold'
    refine fails_lowerCollective h hold ((h.fits.calls i hmem).trans (congrArg Except.ok hcall)) hold' hinstr fun o ho => ?_
    exact (h.ripe_operand his hold' (mem_append_left _ ho)).2 rfl
  next v _ hret =>
    rw [hret] at hripe
    exact fails_widenReturn h (hripe rfl v (.head _)) i
  next hcalls hrets =>
    have hplain : ¬t.Recasts k i := by
      rintro (⟨v, hv⟩ | ⟨c, hc⟩)
      · exact hrets (σ v) (by rw [mem_unique hold' hv]; rfl)
      · exact hcalls c (hcall.symm.trans hc)
    split
    next hvarying =>
      cases hr : e.result with
      | some r =>
        refine fails_widenValue h' hseen hmem hvarying hplain hold hnone hinstr (hresult.trans hr) (fun hplan => ?_) hripe
          fun kind hkind => ?_
        · exact WidenTask.hasPacket_mapOperands.mpr (h.fits.packet i hmem r e.instr (hresult.trans hr) hplan hold')
        · obtain ⟨callee, args, mask, hargs⟩ := exists_call_of_calls h.fits hmem hkind hold'
          rw [hargs]
          rfl
      | none =>
        have hacts : e.instr.Acts := h.fits.effects i hmem hvarying (hresult.trans hr) e.instr hold' fun v hv =>
          hplain (.inl ⟨v, hv ▸ hold'⟩)
        refine fails_widenEffect h' hseen hvarying hplain hold hnone hinstr (acts_mapOperands.mpr hacts) (hripe ?_)
        cases hinstr' : e.instr with
        | store | call => rfl
        | _ =>
          rw [hinstr'] at hacts
          exact hacts.elim
    · exact .pure _

/-- **All instructions**, in the order of control flow. -/
theorem fails_forM (h : s.OnTrack k classify t is σ pre pre) (his : is = pre ++ rest) :
    (rest.forM (widenInst t)).Fails (t.Excuse k classify) s := by
  induction rest generalizing pre s σ with
  | nil => exact .pure _
  | cons i rest ih =>
    refine .bind (fails_widenInst h his) fun _ s1 hi => ?_
    obtain ⟨σ1, hs1⟩ := done_widenInst h.fits.linked h.done (h.fits.mem i (by rw [his]; simp)) (h.fits.not_mem_front his)
      (his ▸ h.fits.turn) hi
    exact ih ⟨h.fits, hs1, ⟨rest, by rw [his]; simp⟩⟩ (by rw [his]; simp)

/-! ## Phis -/

section

variable (h : s.OnTrack k classify t is σ seen is)
include h

/-- A phi that is to be filled in comes from an instruction of the task. -/
theorem mem_of_pending (hp : p ∈ s.pending) : p.source ∈ is ∧ (∀ n, p.form = .lane n → n < max t.group.lanes 1) := by
  obtain ⟨-, -, hlane, v, hplan, hdef⟩ := h.done.keeps.pending p hp
  obtain ⟨i, hi, hresult, -⟩ := h.fits.planned v hplan
  cases ok_unique (h.def? hresult) hdef
  exact ⟨hi, hlane⟩

/-- The inputs of a phi may be asked for at the end. -/
theorem ripe_incoming (hi : i ∈ is) {incoming : List (BlockId × ValueId)}
    (hsource : source i s = .ok (.phi incoming) s') : ∀ x ∈ incoming, t.Ripe k σ is x.2 := by
  obtain ⟨-, hsource⟩ := source_eq_ok hsource
  obtain ⟨e, he, -⟩ := h.fits.linked.exists_inst (h.fits.mem i hi)
  have hinstr : k.instr? i = some e.instr := by rw [instr?, he]; rfl
  -- what returns a value or is spelled out is no phi and does not become one
  have hplain : ¬t.Recasts k i := by
    intro hrecasts
    have hnone : s.sources[i]? = none := h.done.keeps.sources_eq_none fun _ => hrecasts
    obtain ⟨instr, hinst, hphi⟩ := h.done.keeps.inst i e he
    rw [hnone, Option.none_or, instr?, hinst] at hsource
    rw [show instr = .phi incoming from some.inj hsource] at hphi
    rcases hrecasts with ⟨v, hv⟩ | ⟨c, hc⟩
    · rw [mem_unique hinstr hv] at hphi
      exact absurd hphi (by simp [Instr.isPhi])
    · obtain ⟨callee, args, mask, hargs⟩ := exists_call_of_calls h.fits hi hc hinstr
      rw [hargs] at hphi
      exact absurd hphi (by simp [Instr.isPhi])
  have hkept := h.done.keeps.source i (h.fits.mem i hi) e.instr hinstr fun hseen => hplain hseen.2
  have heq := mem_unique hkept hsource
  intro x hx
  have hop : x.2 ∈ (e.instr.mapOperands σ).operands := by
    rw [heq]
    exact mem_map.mpr ⟨x, hx, rfl⟩
  rw [operands_mapOperands] at hop
  obtain ⟨o, ho, hσ⟩ := mem_map.mp hop
  obtain ⟨front, back, his⟩ := append_of_mem hi
  exact hσ ▸ (h.ripe_operand his hinstr ho).1

theorem fails_fillPhi (hi : p.source ∈ is) (hform : ∀ n, p.form = .lane n → n < max t.group.lanes 1) :
    (fillPhi t p).Fails (t.Excuse k classify) s := by
  obtain ⟨d, hd⟩ := isSome_iff_exists.mp (h.has_inst (h.fits.has_inst hi))
  refine .bind ?_ fun instr s1 hsource => ?_
  · refine .bind_of_ok rfl ?_
    cases s.sources[p.source]? with
    | some instr => exact .pure _
    | none => exact .bind (Fails.lift ⟨d, some?_eq_ok.mpr hd⟩) fun _ _ _ => .pure _
  · obtain ⟨rfl, -⟩ := source_eq_ok hsource
    cases instr with
    | phi incoming =>
      have hripe := ripe_incoming h hi hsource
      refine .bind (.mapM (P := fun s => s.OnTrack k classify t is σ seen is) (fun x hx s hs => .bind ?_ fun _ _ _ => .pure _)
        (fun x hx s y s' hs hrun => ?_) h) fun _ _ _ => .of_ok rfl
      · cases hp : p.form with
        | packet => exact fails_packetOf hs (hripe x hx)
        | lane n => exact fails_laneOf (hform n hp) hs (hripe x hx)
      · exact hs.convert (.bind (extends_phiInput hform x.2) fun _ => .pure _) hrun
    | _ => exact .pure _

end

/-- Filling in a phi makes room for the phis that it asks for. -/
theorem room_fillPhi (hsolid : s.kernel.Solid) (hform : ∀ n, p.form = .lane n → n < max t.group.lanes 1) {a : Unit}
    (h : fillPhi t p s = .ok a s') : s'.pending.length + s'.openLanes t ≤ s.pending.length + s.openLanes t := by
  obtain ⟨instr, _, hsource, h⟩ := bind_eq_ok.mp h
  obtain ⟨rfl, -⟩ := source_eq_ok hsource
  cases instr with
  | phi incoming =>
    obtain ⟨inputs, s1, hinputs, h⟩ := bind_eq_ok.mp h
    have hext : s.Extends t s1 :=
      Extends.run (.mapM fun (x : BlockId × ValueId) _ => .bind (extends_phiInput hform x.2) fun _ => .pure _)
        hinputs hsolid
    obtain ⟨k', -, rfl⟩ := editKernel_eq_ok.mp h
    exact hext.room
  | _ =>
    obtain ⟨-, rfl⟩ := pure_eq_ok.mp h
    exact le_rfl

/-- **All phis** are filled in before the steps run out: each step takes one away, and a new one takes a lane of a value
that was open. -/
theorem fails_fillPhis (h : s.OnTrack k classify t is σ seen is) {fuel : Nat} (hfuel : s.pending.length + s.openLanes t < fuel) :
    (fillPhis t fuel).Fails (t.Excuse k classify) s := by
  induction fuel generalizing s with
  | zero => omega
  | succ fuel ih =>
    refine .bind_of_ok rfl ?_
    cases hpending : s.pending with
    | nil => exact .pure _
    | cons p rest =>
      obtain ⟨hi, hform⟩ := mem_of_pending h (hpending ▸ mem_cons_self)
      obtain ⟨hphi, hplace, -⟩ := h.done.keeps.pending p (hpending ▸ (.head _))
      have h1 : Widening.OnTrack k classify t is σ seen is { s with pending := rest } :=
        h.proceeds (h.done.keeps.dropPending fun q hq => hpending ▸ mem_cons_of_mem p hq)
      refine .bind_of_ok rfl (.bind (fails_fillPhi h1 hi hform) fun _ s2 hfill => ?_)
      have h2 := h1.proceeds (proceeds_fillPhi h1.done.keeps hphi hplace hform hfill)
      have hroom := room_fillPhi h1.done.keeps.solid hform hfill
      refine ih h2 (Nat.lt_of_le_of_lt hroom ?_)
      rw [hpending, length_cons] at hfuel
      show rest.length + s.openLanes t < fuel
      omega

/-- There are no more open lanes than lanes of planned values. -/
theorem openLanes_le (t : WidenTask) (s : Widening) : s.openLanes t ≤ t.plan.plans.size * max t.group.lanes 1 := by
  refine countP_le_length.trans (Nat.le_of_eq ?_)
  rw [length_flatMap]
  simp only [length_map, length_range, map_const', sum_replicate_nat, Std.TreeMap.length_keys]

/-- Widening all instructions of a task that fits the kernel fails for good reasons only. -/
theorem fails_widenAll (hfits : t.Fits k classify is) :
    (widenAll t is).Fails (t.Excuse k classify) { kernel := k } := by
  have h : Widening.OnTrack k classify t is id [] [] { kernel := k } :=
    ⟨hfits, Widening.done_nil hfits.linked hfits.solid t, nil_prefix⟩
  refine .bind (fails_forM h rfl) fun _ s1 hforM => ?_
  obtain ⟨σ, hs1⟩ := done_forM hfits.linked h.done hfits.mem hfits.nodup hfits.turn hforM
  have h1 : s1.OnTrack k classify t is σ is is := ⟨hfits, hs1, prefix_rfl⟩
  refine .bind_of_ok rfl (.bind (fails_fillPhis h1 ?_) fun _ s2 hfill => ?_)
  · have := openLanes_le t s1
    rw [phiBound]
    omega
  have h2 := h1.proceeds (proceeds_fillPhis h1.done.keeps hfill)
  -- in the end only the instructions that others stand for are removed, and they are all there
  refine .bind_of_ok rfl (.bind (.forM (P := fun s => s.kernel.Linked ∧ ∀ i ∈ s2.replaced, s.kernel.Has (.inst i))
    (fun i hi s hs => ?_) (fun i hi s _ s' hs hrun => ?_) ⟨h2.done.keeps.linked, fun i hi => ?_⟩) fun _ _ _ => .of_ok rfl)
  · obtain ⟨d, hd⟩ := isSome_iff_exists.mp (hs.2 i hi)
    obtain ⟨k', hremove⟩ := exists_removeInst hd (hs.1.home i d hd)
    have hrun : editKernel (·.removeInst i) s = .ok () _ := editKernel_eq_ok.mpr ⟨k', hremove, rfl⟩
    exact .of_ok hrun
  · obtain ⟨k', hremove, rfl⟩ := editKernel_eq_ok.mp hrun
    obtain ⟨hevolves, -⟩ := hs.1.removeInst hremove
    exact ⟨hevolves.linked, fun j hj => hevolves.persists.has (hs.2 j hj)⟩
  · exact h2.has_inst (hfits.has_inst (h2.done.keeps.replaced i hi).1)

end Widen

end Spmd
