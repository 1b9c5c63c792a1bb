import Spmd.Proofs.Packet.Uniform

/-!
# Every request is served

Widening asks for values as packets and in lanes. What is asked for has been made, or can be made, whenever the
instructions that define planned values have been widened before:

* **`Build.Yields`** — building succeeds where the operands are there;
* **`Widen.fails_copyLane`** — copies for a lane, by induction on how far back they go;
* **`Widen.fails_laneOf`**, **`Widen.fails_packetOf`** — a value in a lane, and as a packet.

What remains are the reasons for giving up that do not depend on the order of things (`Kernel.Excuse`).
-/

namespace Spmd

open Success List Instr Build Widen
open Option (bind_eq_some_iff isSome_iff_exists none_or some)

variable {ops : List ValueId} {ty : Ty} {α β : Type} {E : Failure → Prop} {s s' : Widening} {xs : List α}
  {P : Widening → Prop} {a : α} {is pre seen front back : List InstId} {t : WidenTask} {classify : Classifier}
  {i : InstId} {σ : ValueId → ValueId} {v o : ValueId}

/-! ## Building -/

namespace InsertPoint

variable {k k' : Kernel} {p : InsertPoint}

theorem Fits.imp (h : p.Fits k) (hhas : ∀ x, k.Has x → k'.Has x) : p.Fits k' := by
  cases p with
  | atEnd b | beforeTerminator b | afterPhis b => exact hhas (.block b) h
  | before i | after i => exact hhas (.inst i) h

theorem Fits.advance (h : p.Fits k) (hi : k.Has (.inst i)) : (p.advance i).Fits k := by
  cases p with
  | after | afterPhis => exact hi
  | atEnd | beforeTerminator | before => exact h

end InsertPoint

/-- Something can be built at the cursor. -/
structure Cursor.Sits (c : Cursor) : Prop where
  linked : c.kernel.Linked
  solid : c.kernel.Solid
  point : c.point.Fits c.kernel

namespace Build

variable {c : Cursor} {instr : Instr} {given : Ty} {x : Build ValueId}

/-- Where the kernel has the values `ops`, the action succeeds. -/
def Goes (ops : List ValueId) (x : Build α) : Prop :=
  ∀ c : Cursor, c.Sits → (∀ v ∈ ops, c.kernel.Has (.value v)) → ∃ a c', x c = .ok (a, c')

/-- Where the kernel has the values `ops`, the action succeeds. It gives a value that is there, and more can be built. -/
def Yields (ops : List ValueId) (x : Build ValueId) : Prop :=
  ∀ c : Cursor, c.Sits → (∀ v ∈ ops, c.kernel.Has (.value v)) →
    ∃ v c', x c = .ok (v, c') ∧ c'.Sits ∧ c.kernel.Grows c'.kernel ∧ c'.kernel.Has (.value v)

theorem Yields.goes (h : Yields ops x) : Goes ops x := by
  intro c hc hops
  obtain ⟨v, c', hx, -⟩ := h c hc hops
  exact ⟨v, c', hx⟩

theorem exists_insert_of_sits (hc : c.Sits) (instr : Instr) (ty : Ty) :
    ∃ i c', insert instr ty c = .ok (i, c') ∧ c'.Sits ∧ c.kernel.Grows c'.kernel := by
  obtain ⟨i, c', h⟩ := hc.linked.exists_build hc.point instr ty
  have haccrues := (grows_insert instr ty).kernel c i c' h
  have hfits := hc.point.imp fun x => (hc.linked.build h).1.persists.has
  obtain ⟨_, _, -, -, hpoint⟩ := insert_eq_ok h
  exact ⟨i, c', h, ⟨haccrues.linked hc.linked, haccrues.solid hc.solid, hpoint ▸ hfits.advance (has_of_insert h).1⟩,
    haccrues⟩

theorem goes_insertValue (ops : List ValueId) (instr : Instr) (ty : Ty) : Goes ops (insertValue instr ty) := by
  intro c hc _
  obtain ⟨i, c', h, -⟩ := exists_insert_of_sits hc instr ty
  exact ⟨_, c', stateBind_eq_ok.mpr ⟨i, c', h, stateBind_eq_ok.mpr ⟨c', c', rfl, rfl⟩⟩⟩

theorem goes_insert (ops : List ValueId) (instr : Instr) (ty : Ty) : Goes ops (insert instr ty) := by
  intro c hc _
  obtain ⟨i, c', h, -⟩ := exists_insert_of_sits hc instr ty
  exact ⟨i, c', h⟩

theorem goes_emit (hops : ∀ v ∈ instr.operands, v ∈ ops) (given : Ty) : Goes ops (emit instr given) := by
  intro c hc hhas
  obtain ⟨ty, hty⟩ := exists_resultTy (fun v hv => hhas v (hops v hv)) given
  obtain ⟨i, c', h, -⟩ := exists_insert_of_sits hc instr ty
  exact ⟨i, c', stateBind_eq_ok.mpr ⟨ty, c, hty, h⟩⟩

theorem yields_emitValue (hops : ∀ v ∈ instr.operands, v ∈ ops) (hgives : instr.givesValue given = true) :
    Yields ops (emitValue instr given) := by
  intro c hc hhas
  obtain ⟨ty, hty⟩ := exists_resultTy (fun v hv => hhas v (hops v hv)) given
  obtain ⟨i, c', h, hc', haccrues⟩ := exists_insert_of_sits hc instr ty
  have hvalue : insertValue instr ty c = .ok ((c'.kernel.result? i).getD .absent, c') :=
    stateBind_eq_ok.mpr ⟨i, c', h, stateBind_eq_ok.mpr ⟨c', c', rfl, rfl⟩⟩
  exact ⟨_, c', stateBind_eq_ok.mpr ⟨ty, c, hty, hvalue⟩, hc', haccrues,
    (insertValue_madeBy (not_void_resultTy hc.solid hgives hty) hvalue).has⟩

theorem yields_const (ops : List ValueId) (elem : ScalarTy) (x : Constant) : Yields ops (const (.scalar elem) x) := by
  intro c hc _
  have haccrues : c.kernel.Grows (c.kernel.addConst (.scalar elem) x).1 := .addValue c.kernel (fun _ => by simp) rfl
  have hevolves : c.kernel.Evolves _ (c.kernel.addConst (.scalar elem) x).1 :=
    hc.linked.addValue (fun _ => by simp) (show _ = (c.kernel.values.alloc ⟨.const x, .scalar elem⟩).1 from rfl) rfl rfl rfl
  refine ⟨_, _, rfl, ⟨haccrues.linked hc.linked, haccrues.solid hc.solid, hc.point.imp fun _ => hevolves.persists.has⟩,
    haccrues, ?_⟩
  show ((c.kernel.addValue (.const x) (.scalar elem)).1.value? _).isSome = true
  rw [Kernel.value?_addValue, if_pos rfl]
  rfl

theorem Yields.pure (hv : v ∈ ops) : Yields ops (Pure.pure v) := fun c hc hhas =>
  ⟨v, c, rfl, hc, .refl _, hhas v hv⟩

theorem Yields.bind {f : ValueId → Build ValueId} (hx : Yields ops x) (hf : ∀ v, Yields (v :: ops) (f v)) :
    Yields ops (x >>= f) := by
  intro c hc hhas
  obtain ⟨v, c1, hv, hc1, hacc1, hnew⟩ := hx c hc hhas
  obtain ⟨w, c2, hw, hc2, hacc2, hlast⟩ := hf v c1 hc1 fun u hu => by
    rcases mem_cons.mp hu with rfl | hu
    · exact hnew
    · exact hacc1.has_value (hhas u hu)
  exact ⟨w, c2, stateBind_eq_ok.mpr ⟨v, c1, hv, hw⟩, hc2, hacc1.trans hacc2, hlast⟩

theorem Yields.mono {ops' : List ValueId} (h : Yields ops x) (hsub : ∀ v ∈ ops, v ∈ ops') :
    Yields ops' x := fun c hc hhas => h c hc fun v hv => hhas v (hsub v hv)

/-- Building on a value step by step. -/
theorem Yields.foldlM {f : ValueId → α → Build ValueId} (hf : ∀ v, ∀ a ∈ xs, Yields (v :: ops) (f v a)) (hv : v ∈ ops) :
    Yields ops (xs.foldlM f v) := by
  induction xs generalizing v ops with
  | nil => exact .pure hv
  | cons a xs ih =>
    rw [foldlM_cons]
    refine .bind ((hf v a (.head _)).mono fun u hu => ?_) fun w => ih (fun u b hb => ?_) (.head _)
    · rcases mem_cons.mp hu with rfl | hu
      · exact hv
      · exact hu
    · refine (hf u b (.tail _ hb)).mono fun x hx => ?_
      rcases mem_cons.mp hx with rfl | hx
      · exact .head _
      · exact .tail _ (.tail _ hx)

end Build

/-! ## Failing -/

namespace Widen

/-- From a state the action fails for reasons in `E` only. -/
abbrev Fails (E : Failure → Prop) (x : Widen α) (s : Widening) : Prop := Stateful.Fails E x s

theorem Fails.lift {x : Checked α} (h : ∃ a, x = .ok a) : (liftM x : Widen α).Fails E s := by
  obtain ⟨a, rfl⟩ := h
  exact .of_ok rfl

/-- What each of a list of actions achieves lasts until the end if the others leave it alone. -/
theorem forM_ensures {Q : α → Widening → Prop} {f : α → Widen Unit} {u : Unit}
    (hP : ∀ a ∈ xs, ∀ s b s', P s → f a s = .ok b s' → P s') (hQ : ∀ a ∈ xs, ∀ s b s', P s → f a s = .ok b s' → Q a s')
    (hkeep : ∀ a ∈ xs, ∀ s b s', P s → f a s = .ok b s' → ∀ a', Q a' s → Q a' s') (hs : P s)
    (h : xs.forM f s = .ok u s') : P s' ∧ (∀ a ∈ xs, Q a s') ∧ ∀ a, Q a s → Q a s' := by
  induction xs generalizing s with
  | nil =>
    obtain ⟨-, rfl⟩ := pure_eq_ok.mp h
    exact ⟨hs, nofun, fun _ ha => ha⟩
  | cons a xs ih =>
    obtain ⟨b, s1, hb, h⟩ := bind_eq_ok.mp h
    obtain ⟨hs', hall, hrest⟩ := ih (fun a ha => hP a (.tail _ ha)) (fun a ha => hQ a (.tail _ ha))
      (fun a ha => hkeep a (.tail _ ha)) (hP a (.head _) s b s1 hs hb) h
    refine ⟨hs', fun a' ha' => ?_, fun a' ha' => hrest a' (hkeep a (.head _) s b s1 hs hb a' ha')⟩
    rcases mem_cons.mp ha' with rfl | ha'
    · exact hrest a' (hQ a' (.head _) s b s1 hs hb)
    · exact hall a' ha'

/-- What each of a list of actions gives is as it should be at the end if the others leave it so. -/
theorem mapM_ensures {Q : β → Widening → Prop} {f : α → Widen β} {bs : List β}
    (hP : ∀ a ∈ xs, ∀ s b s', P s → f a s = .ok b s' → P s') (hQ : ∀ a ∈ xs, ∀ s b s', P s → f a s = .ok b s' → Q b s')
    (hkeep : ∀ a ∈ xs, ∀ s b s', P s → f a s = .ok b s' → ∀ b', Q b' s → Q b' s') (hs : P s)
    (h : xs.mapM f s = .ok bs s') : P s' ∧ (∀ b ∈ bs, Q b s') ∧ ∀ b, Q b s → Q b s' := by
  induction xs generalizing s bs with
  | nil =>
    obtain ⟨rfl, rfl⟩ := pure_eq_ok.mp h
    exact ⟨hs, nofun, fun _ hb => hb⟩
  | cons a xs ih =>
    rw [mapM_cons] at h
    obtain ⟨b, s1, hb, h⟩ := bind_eq_ok.mp h
    obtain ⟨bs', s2, hbs, h⟩ := bind_eq_ok.mp h
    obtain ⟨rfl, rfl⟩ := pure_eq_ok.mp h
    obtain ⟨hs', hall, hrest⟩ := ih (fun a ha => hP a (.tail _ ha)) (fun a ha => hQ a (.tail _ ha))
      (fun a ha => hkeep a (.tail _ ha)) (hP a (.head _) s b s1 hs hb) hbs
    refine ⟨hs', fun b' hb' => ?_, fun b' hb' => hrest b' (hkeep a (.head _) s b s1 hs hb b' hb')⟩
    rcases mem_cons.mp hb' with rfl | hb'
    · exact hrest b' (hQ a (.head _) s b' s1 hs hb)
    · exact hall b' hb'

end Widen

/-! ## What is asked for -/

/-- Why a kernel may not be widened although there is a plan for it. -/
inductive Kernel.Excuse (k : Kernel) (classify : Classifier) (options : Options) (group : LaneGroup) : Failure → Prop
  /-- The number of lanes has to be known, -/
  | scalableLanes (i : InstId) (what : String) (h : group.scalable = true) :
    Excuse k classify options group (.rejected (.unsupported (some i) (.scalableLanes what)))
  /-- or is too large for one copy per lane. -/
  | laneLimit (i : InstId) (hfixed : group.scalable = false) (h : options.maxInstances < group.lanes) :
    Excuse k classify options group (.rejected (.unsupported (some i) (.laneLimit group.lanes options.maxInstances)))
  /-- A lane index is asked for in a dimension that is not known. -/
  | dynamicLane {i : InstId} (h : k.callKind? classify i = .ok (some (.laneIdentity .dynamic))) :
    Excuse k classify options group (.rejected (.unsupported (some i) .dynamicLane))
  /-- Lanes work together on nothing, -/
  | collectiveOperand {i : InstId} {c : Collective} {callee : String} {mask : Option ValueId}
    (h : k.callKind? classify i = .ok (some (.collective c))) (hinstr : k.instr? i = some (.call callee [] mask)) :
    Excuse k classify options group (.rejected (.unsupported (some i) .collectiveOperand))
  /-- or in a way that is not supported. -/
  | broadcastLane {i : InstId} {c : Collective} {callee : String} {x : ValueId} {mask : Option ValueId}
    (h : k.callKind? classify i = .ok (some (.collective c))) (hop : c.op = .broadcast)
    (hinstr : k.instr? i = some (.call callee [x] mask)) :
    Excuse k classify options group (.rejected (.unsupported (some i) .broadcastLane))
  | workGroupBroadcast {i : InstId} {c : Collective} (h : k.callKind? classify i = .ok (some (.collective c)))
    (hop : c.op = .broadcast) (hscope : c.scope = .workGroup) :
    Excuse k classify options group (.rejected (.unsupported (some i) .workGroupBroadcast))
  | varyingBroadcastLane {i : InstId} {c : Collective} (h : k.callKind? classify i = .ok (some (.collective c)))
    (hop : c.op = .broadcast) : Excuse k classify options group (.rejected (.unsupported (some i) .varyingBroadcastLane))
  | scanResult {i : InstId} {c : Collective} (h : k.callKind? classify i = .ok (some (.collective c)))
    (hop : c.op = .scanInclusive ∨ c.op = .scanExclusive) (hresult : k.result? i = none) :
    Excuse k classify options group (.rejected (.unsupported (some i) .scanResult))

/-- What excuses a task for a kernel. -/
abbrev WidenTask.Excuse (t : WidenTask) (k : Kernel) (classify : Classifier) : Failure → Prop :=
  k.Excuse classify t.options t.group

/-- An instruction that is repeated for every lane if it defines nothing. -/
def Instr.Acts : Instr → Prop
  | .store .. | .call .. => True
  | _ => False

namespace WidenTask

/-- One instruction can stand for the instruction in all lanes. -/
def HasPacket (t : WidenTask) (i : InstId) : Instr → Prop
  | .binary .. | .unary .. | .compare .. | .cast .. | .select .. | .elementPtr .. | .phi _ | .call .. => True
  | .load .. => ∃ form, t.plan.memoryForm? i = some form ∧ form ≠ .perLane
  | _ => False

/-- The task is one for the kernel: the instructions `is` are all that vary, listed so that operands come first, and the
plan has a form for each of them. -/
structure Fits (t : WidenTask) (k : Kernel) (classify : Classifier) (is : List InstId) : Prop where
  linked : k.Linked
  solid : k.Solid
  entry : t.entry ∈ k.layout
  nodup : is.Nodup
  mem : ∀ i ∈ is, i ∈ k.instsInOrder
  turn : k.InTurn is
  operands : ∀ i ∈ is, ∀ instr, k.instr? i = some instr → ∀ v ∈ instr.operands, k.Has (.value v)
  calls : ∀ i ∈ is, k.callKind? classify i = .ok t.calls[i]?
  /-- What is not uniform is defined by a varying instruction. -/
  planned : ∀ v, t.plan.get v ≠ .uniform → ∃ i ∈ is, k.result? i = some v ∧ t.divergence.isVaryingInst i = true
  packet : ∀ i ∈ is, ∀ v instr, k.result? i = some v → t.plan.get v = .packet → k.instr? i = some instr → t.HasPacket i instr
  perLane : ∀ i ∈ is, ∀ v, k.result? i = some v → t.plan.get v = .perLane → ∀ c, t.calls[i]? ≠ some (.collective c)
  /-- What lanes compute together varies only if every lane gets its own part. -/
  scans : ∀ i ∈ is, t.divergence.isVaryingInst i = true → ∀ c, t.calls[i]? = some (.collective c) →
    c.op = .scanInclusive ∨ c.op = .scanExclusive
  effects : ∀ i ∈ is, t.divergence.isVaryingInst i = true → k.result? i = none → ∀ instr, k.instr? i = some instr →
    (∀ v, instr ≠ .ret (some v)) → instr.Acts

/-- What may be asked for when the instructions `pre` have been widened: what stands for a value of the kernel and, if it
is not uniform, was defined by one of them. -/
structure Ripe (t : WidenTask) (k : Kernel) (σ : ValueId → ValueId) (pre : List InstId) (v : ValueId) : Prop where
  stands : ∃ v0, k.Has (.value v0) ∧ σ v0 = v
  defined : t.plan.get v ≠ .uniform → ∃ i ∈ pre, k.result? i = some v

variable {k : Kernel}

theorem Ripe.mono {pre' : List InstId} (h : t.Ripe k σ pre v) (hsub : ∀ i ∈ pre, i ∈ pre') : t.Ripe k σ pre' v := by
  refine ⟨h.stands, fun hplan => ?_⟩
  obtain ⟨i, hi, hv⟩ := h.defined hplan
  exact ⟨i, hsub i hi, hv⟩

variable (h : t.Fits k classify is)
include h

/-- What is not in the kernel has no plan. -/
theorem Fits.uniform_of_new (hv : k.value? v = none) : t.plan.get v = .uniform := by
  by_contra hplan
  obtain ⟨i, -, hresult, -⟩ := h.planned v hplan
  have := h.linked.has_of_result? hresult
  rw [Kernel.Has, hv] at this
  cases this

theorem Fits.has_inst (hi : i ∈ is) : k.Has (.inst i) := by
  obtain ⟨d, hd, -⟩ := h.linked.exists_inst (h.mem i hi)
  exact isSome_iff_exists.mpr ⟨d, hd⟩

/-- An instruction is listed once. -/
theorem Fits.not_mem_front (his : is = front ++ i :: back) : i ∉ front := by
  have hnodup := h.nodup
  rw [his, nodup_append] at hnodup
  exact fun hi => hnodup.2.2 i hi i (.head _) rfl

end WidenTask

namespace Widening

variable {k : Kernel}

/-- The task fits the kernel, and its first instructions have been widened. -/
structure OnTrack (k : Kernel) (classify : Classifier) (t : WidenTask) (is : List InstId) (σ : ValueId → ValueId)
    (seen pre : List InstId) (s : Widening) : Prop where
  fits : t.Fits k classify is
  done : s.Done k t σ seen pre
  front : pre <+: is

namespace OnTrack

section

variable (h : s.OnTrack k classify t is σ seen pre)
include h

theorem proceeds (hstep : s.Proceeds k t seen none σ σ s') : s'.OnTrack k classify t is σ seen pre :=
  ⟨h.fits, h.done.proceeds hstep, h.front⟩

theorem of_extends (hext : s.Extends t s') : s'.OnTrack k classify t is σ seen pre :=
  h.proceeds (h.done.keeps.proceeds hext)

theorem convert {x : Widen α} (hx : x.Extends t) (hrun : x s = .ok a s') : s'.OnTrack k classify t is σ seen pre :=
  h.of_extends (hx s a s' hrun h.done.keeps.solid)

theorem mem (hi : i ∈ pre) : i ∈ is := h.front.subset hi

theorem has_inst (hi : k.Has (.inst i)) : s.kernel.Has (.inst i) := by
  obtain ⟨d, hd⟩ := isSome_iff_exists.mp hi
  obtain ⟨instr, hinst, -⟩ := h.done.keeps.inst i d hd
  exact isSome_iff_exists.mpr ⟨_, hinst⟩

theorem has_value (hv : k.Has (.value v)) : s.kernel.Has (.value v) := by
  obtain ⟨d, hd⟩ := isSome_iff_exists.mp hv
  exact isSome_iff_exists.mpr ⟨d, h.done.keeps.value v d hd⟩

/-- What may be asked for is there. -/
theorem has (hv : t.Ripe k σ pre v) : s.kernel.Has (.value v) := by
  obtain ⟨v0, hv0, rfl⟩ := hv.stands
  by_cases hσ : σ v0 = v0
  · rw [hσ]
    exact h.has_value hv0
  · exact (h.done.keeps.stand v0 hσ).2.1

theorem def? (hv : k.result? i = some v) : s.kernel.def? v = .ok (some i) := by
  refine h.done.keeps.linked.def?_of_result? ((h.done.keeps.result? ?_).trans hv)
  obtain ⟨d, hd, -⟩ := bind_eq_some_iff.mp hv
  exact isSome_iff_exists.mpr ⟨d, hd⟩

/-- What stands for an operand of an instruction of the task may be asked for: at the end, and except for phis whenever
the instruction is reached. -/
theorem ripe_operand (his : is = front ++ i :: back) {instr : Instr} (hinstr : k.instr? i = some instr)
    (ho : o ∈ instr.operands) : t.Ripe k σ is (σ o) ∧ (instr.isPhi = false → t.Ripe k σ front (σ o)) := by
  have hhas := h.fits.operands i (by rw [his]; simp) instr hinstr o ho
  -- a value that is not uniform stands for itself
  have hself : t.plan.get (σ o) ≠ .uniform → σ o = o := by
    intro hplan
    by_contra hσ
    exact hplan (h.fits.uniform_of_new (h.done.keeps.stand o hσ).1)
  refine ⟨⟨⟨o, hhas, rfl⟩, fun hplan => ?_⟩, fun hphi => ⟨⟨o, hhas, rfl⟩, fun hplan => ?_⟩⟩
  · obtain ⟨j, hj, hresult, -⟩ := h.fits.planned _ hplan
    exact ⟨j, hj, hresult⟩
  · obtain ⟨j, hj, hresult, -⟩ := h.fits.planned _ hplan
    refine ⟨j, ?_, hresult⟩
    rw [his] at hj
    rcases mem_append.mp hj with hj | hj
    · exact hj
    · rw [hself hplan] at hresult
      exact absurd hresult (h.fits.turn front i back his instr hinstr hphi o ho j hj)

theorem varying (hplan : t.plan.get v ≠ .uniform) (hv : k.result? i = some v) :
    t.divergence.isVaryingInst i = true := by
  obtain ⟨j, -, hj, hvarying⟩ := h.fits.planned v hplan
  rwa [h.fits.linked.eq_of_result? hv hj]

/-- The packet of what may be asked for has been made if there is to be one. -/
theorem exists_packet (hv : t.Ripe k σ pre v) (hplan : t.plan.get v = .packet) : ∃ p, s.packets[v]? = some p := by
  obtain ⟨i, hi, hresult⟩ := hv.defined (by simp [hplan])
  refine isSome_iff_exists.mp ((h.done.handles i hi).packet v hresult hplan ?_ (fun w hw => ?_) fun c hc => ?_)
  · exact h.varying (by simp [hplan]) hresult
  · exact h.fits.packet i (h.mem hi) v _ hresult hplan hw
  · exact h.fits.scans i (h.mem hi) (h.varying (by simp [hplan]) hresult) c hc

end

/-! ### Placement -/

section

variable {action : Build α} {point : InsertPoint}

section

variable (h : s.OnTrack k classify t is σ seen pre)
include h

theorem exists_buildAt (hpoint : point.Fits s.kernel) (haction : action.Goes ops)
    (hops : ∀ u ∈ ops, s.kernel.Has (.value u)) : ∃ r s', buildAt point action s = .ok r s' := by
  obtain ⟨a, c, hrun⟩ := haction ⟨s.kernel, point⟩ ⟨h.done.keeps.linked, h.done.keeps.solid, hpoint⟩ hops
  exact ⟨(a, c.point), _, buildAt_eq_ok.mpr ⟨c, hrun, rfl, rfl⟩⟩

theorem exists_before (hi : s.kernel.Has (.inst i)) (haction : action.Goes ops)
    (hops : ∀ u ∈ ops, s.kernel.Has (.value u)) : ∃ a s', before i action s = .ok a s' := by
  obtain ⟨r, s', hrun⟩ := h.exists_buildAt (show InsertPoint.Fits s.kernel (.before i) from hi) haction hops
  exact ⟨r.1, s', bind_eq_ok.mpr ⟨r, s', hrun, rfl⟩⟩

theorem exists_def? (hv : s.kernel.Has (.value v)) :
    ∃ definition, s.kernel.def? v = .ok definition ∧ ∀ i, definition = some i → s.kernel.Has (.inst i) := by
  obtain ⟨d, hd⟩ := isSome_iff_exists.mp hv
  cases hkind : d.kind with
  | inst i =>
    refine ⟨some i, bind_eq_ok.mpr ⟨d, some?_eq_ok.mpr hd, by simp only [hkind]; rfl⟩, ?_⟩
    rintro _ ⟨⟩
    have hresult := (h.done.keeps.linked.defines_iff i v).mpr (by rw [hd, Option.map_some, hkind])
    obtain ⟨e, he, -⟩ := bind_eq_some_iff.mp hresult
    exact isSome_iff_exists.mpr ⟨e, he⟩
  | _ => exact ⟨none, bind_eq_ok.mpr ⟨d, some?_eq_ok.mpr hd, by simp only [hkind]; rfl⟩, by simp⟩

theorem exists_conversionPoint {definition : Option InstId} (hdef : ∀ i, definition = some i → s.kernel.Has (.inst i)) :
    ∃ point, conversionPoint t s definition = .ok point ∧ point.Fits s.kernel := by
  have hk := h.done.keeps
  cases definition with
  | none =>
    cases htail : s.entryTail with
    | some tail => exact ⟨.after tail, by simp only [conversionPoint, htail]; rfl, hk.tailed.entryTail tail htail⟩
    | none =>
      refine ⟨.afterPhis t.entry, by simp only [conversionPoint, htail]; rfl, ?_⟩
      exact hk.linked.blocks t.entry (hk.layout ▸ h.fits.entry)
  | some i =>
    cases htail : s.tails[i]? with
    | some tail => exact ⟨.after tail, by simp only [conversionPoint, htail]; rfl, hk.tailed.tails i tail htail⟩
    | none =>
      obtain ⟨d, hd⟩ := isSome_iff_exists.mp (hdef i rfl)
      refine ⟨if d.instr.isPhi then .afterPhis d.block else .after i, ?_, ?_⟩
      · simp only [conversionPoint, htail]
        exact bind_eq_ok.mpr ⟨d, some?_eq_ok.mpr hd, rfl⟩
      · split
        · exact hk.linked.home i d hd
        · exact hdef i rfl

/-- Conversions of what is there can be built. -/
theorem exists_behind (hv : s.kernel.Has (.value v)) (haction : action.Goes ops)
    (hops : ∀ u ∈ ops, s.kernel.Has (.value u)) : ∃ a s', behind t v action s = .ok a s' := by
  obtain ⟨definition, hask, hdef⟩ := h.exists_def? hv
  obtain ⟨point, hpoint, hfits⟩ := h.exists_conversionPoint hdef
  obtain ⟨a, c, hrun⟩ := haction ⟨s.kernel, point⟩ ⟨h.done.keeps.linked, h.done.keeps.solid, hfits⟩ hops
  exact ⟨a, _, behind_eq_ok.mpr ⟨definition, point, c, hask, hpoint, hrun, rfl⟩⟩

end

end

end OnTrack

end Widening

/-! ## Lanes -/

namespace Widen

variable {k : Kernel} {lane : Nat} {instr : Instr}

theorem valueTy_of_has (hv : s.kernel.Has (.value v)) : ∃ d, s.kernel.value? v = some d ∧ s.kernel.valueTy v = .ok d.ty ∧
    valueTy v s = .ok d.ty s := by
  obtain ⟨d, hd⟩ := isSome_iff_exists.mp hv
  have hty : s.kernel.valueTy v = .ok d.ty := Success.bind_eq_ok.mpr ⟨d, some?_eq_ok.mpr hd, rfl⟩
  exact ⟨d, hd, hty, valueTy_eq_ok.mpr ⟨hty, rfl⟩⟩

section

variable (h : s.OnTrack k classify t is σ seen pre) (hv : s.kernel.Has (.value v))
include h hv

theorem exists_extractLane (lane : Nat) : ∃ x s', extractLane t v lane s = .ok x s' := by
  refine h.exists_behind hv (Yields.goes (.bind (yields_const [v] _ _) fun n => ?_)) (by simpa using hv)
  exact yields_emitValue (by simp [operands]) rfl

theorem exists_offsetLane (lane : Nat) : ∃ x s', offsetLane t v lane s = .ok x s' := by
  obtain ⟨d, -, -, hty⟩ := valueTy_of_has hv
  have hadd : Yields [v] (do
      binary .add v (← constInt (d.ty.element?.getD .i32) (Int64.ofNat lane))) :=
    .bind (yields_const [v] _ _) fun n => yields_emitValue (by simp [operands]) rfl
  obtain ⟨x, s', hx⟩ := h.exists_behind hv hadd.goes (by simpa using hv)
  exact ⟨x, s', bind_eq_ok.mpr ⟨_, s, hty, hx⟩⟩

end

theorem existingPacket_of_packets {p : ValueId} (h : s.packets[v]? = some p) : existingPacket v s = .ok p s := by
  have hget : (get : Widen Widening) s = .ok s s := rfl
  rw [existingPacket, bind_of_eq_ok hget, h]
  rfl

/-- A value in a lane never fails to be had if no copies have to be made. -/
theorem fails_readyInstance? (h : s.OnTrack k classify t is σ seen pre)
    (hv : t.plan.get v ≠ .uniform → t.Ripe k σ pre v) (lane : Nat) : (readyInstance? t v lane).Fails E s := by
  refine .bind_of_ok rfl ?_
  cases hknown : s.instances[(v, lane)]? with
  | some x => exact .pure _
  | none =>
    cases hplan : t.plan.get v with
    | uniform => exact .pure _
    | laneId =>
      dsimp only
      split
      · exact .of_ok rfl
      · obtain ⟨x, s', hx⟩ := exists_offsetLane h (h.has (hv (by simp [hplan]))) lane
        exact .bind_of_ok hx (.of_ok rfl)
    | packet =>
      obtain ⟨p, hp⟩ := h.exists_packet (hv (by simp [hplan])) hplan
      obtain ⟨x, s', hx⟩ := exists_extractLane h (h.done.keeps.packets v p hp).2 lane
      exact .bind_of_ok (existingPacket_of_packets hp) (.bind_of_ok hx (.of_ok rfl))
    | perLane =>
      dsimp only
      split <;> exact .of_ok rfl

theorem fails_fixedLanes (i : InstId) (what : String) :
    (fixedLanes t i what).Fails (t.Excuse k classify) s := by
  rw [fixedLanes]
  split
  next hscalable =>
    exact .throw (.scalableLanes i what hscalable)
  · exact .pure _

theorem fails_checkCopies (i : InstId) : (checkCopies t i).Fails (t.Excuse k classify) s := by
  refine .bind (fails_fixedLanes i _) fun lanes s1 hlanes => ?_
  obtain ⟨rfl, rfl, hfixed⟩ := fixedLanes_eq_ok hlanes
  split
  next hlimit =>
    exact .bind (.throw (.laneLimit i hfixed hlimit)) fun _ _ _ => .pure _
  · exact .pure _

/-- The instruction that a per-lane value is copied from is there, and its operands may be asked for. -/
theorem exists_source (h : s.OnTrack k classify t is σ seen pre) (his : is = front ++ i :: back)
    (hv : k.result? i = some v) (hplan : t.plan.get v = .perLane) :
    ∃ instr, source i s = .ok instr s ∧
      (instr.isPhi = false → ∀ o ∈ instr.operands, t.plan.get o ≠ .uniform → t.Ripe k σ front o) := by
  have hi : i ∈ is := by rw [his]; simp
  obtain ⟨d, hd, -⟩ := bind_eq_some_iff.mp hv
  have hinstr : k.instr? i = some d.instr := by rw [Kernel.instr?, hd]; rfl
  have hsource : ∀ instr, (s.sources[i]?).or (s.kernel.instr? i) = some instr → source i s = .ok instr s := by
    intro instr hinstr
    refine bind_eq_ok.mpr ⟨s, s, rfl, ?_⟩
    cases hnote : s.sources[i]? with
    | some note =>
      rw [hnote, Option.some_or] at hinstr
      exact pure_eq_ok.mpr ⟨some.inj hinstr, rfl⟩
    | none =>
      rw [hnote, none_or] at hinstr
      obtain ⟨e, he, rfl⟩ := map_eq_some_iff.mp hinstr
      exact bind_eq_ok.mpr ⟨e, s, lift_eq_ok.mpr ⟨some?_eq_ok.mpr he, rfl⟩, rfl⟩
  by_cases hrecasts : t.Recasts k i
  · obtain ⟨w, hw⟩ := hrecasts.resolve_right (not_exists.mpr (h.fits.perLane i hi v hv hplan))
    obtain ⟨w', hw', hsame⟩ := h.done.keeps.returned i (h.fits.mem i hi) w hw
    have hnone : s.sources[i]? = none := h.done.keeps.sources_eq_none fun _ => hrecasts
    refine ⟨.ret (some w'), hsource _ (by rw [hnone, none_or, hw']), fun _ o ho hplan' => ?_⟩
    obtain rfl := mem_singleton.mp ho
    rcases hsame with rfl | hnew
    · exact (h.ripe_operand his hw (.head _)).2 rfl
    · exact absurd (h.fits.uniform_of_new hnew) hplan'
  · have hkept := h.done.keeps.source i (h.fits.mem i hi) d.instr hinstr fun hseen => hrecasts hseen.2
    refine ⟨_, hsource _ hkept, fun hphi o ho _ => ?_⟩
    rw [isPhi_mapOperands] at hphi
    rw [operands_mapOperands] at ho
    obtain ⟨o0, ho0, rfl⟩ := mem_map.mp ho
    exact (h.ripe_operand his hinstr ho0).2 hphi

theorem fails_lanePhi (h : s.OnTrack k classify t is σ seen pre) (hi : s.kernel.Has (.inst i)) (hty : ty.isVoid = false)
    (v : ValueId) (lane : Nat) : (lanePhi v i ty lane).Fails E s := by
  have hgives : (phi []).givesValue ty = true := (Bool.not_eq_true' _).mpr hty
  have hyields : Yields [] (phi ty []) := yields_emitValue (fun _ hv => hv) hgives
  obtain ⟨⟨x, point⟩, s1, hbuild⟩ := h.exists_buildAt (show InsertPoint.Fits s.kernel (.after i) from hi) hyields.goes (by simp)
  have h1 := h.convert ((converts_buildAt t _ (grows_emitValue _ _)).extends) hbuild
  obtain ⟨c, haction, -, rfl⟩ := buildAt_eq_ok.mp hbuild
  obtain ⟨phi, hphi, -⟩ := h1.exists_def? (emitValue_madeBy h.done.keeps.solid hgives haction).has
  exact .bind_of_ok hbuild (.bind_of_ok rfl (.bind_of_ok (lift_eq_ok.mpr ⟨hphi, rfl⟩) (.of_ok rfl)))

/-- The operands of an instruction in a lane, each of which can be had as long as what is noted for lanes stays. -/
theorem fails_laneOperands {f : ValueId → Widen ValueId} (hext : ∀ o, (f o).Extends t)
    (h : s.OnTrack k classify t is σ seen pre)
    (hf : ∀ o ∈ instr.operands, ∀ s' : Widening, s'.OnTrack k classify t is σ seen pre → (∀ key,
      s.instances.contains key = true → s'.instances.contains key = true) → (f o).Fails E s') :
    (laneOperands f instr).Fails E s := by
  refine .mapM (P := fun s' => s'.OnTrack k classify t is σ seen pre ∧
      ∀ key, s.instances.contains key = true → s'.instances.contains key = true)
    (fun o ho s' hs' => .bind (hf o (mem_eraseDups.mp ho) s' hs'.1 hs'.2) fun _ _ _ => .pure _)
    (fun o ho s1 b s2 hs1 hrun => ?_) ⟨h, fun _ hkey => hkey⟩
  obtain ⟨x, s3, hx, hpure⟩ := bind_eq_ok.mp hrun
  obtain ⟨-, rfl⟩ := pure_eq_ok.mp hpure
  have hstep := hext o s1 x s3 hx hs1.1.done.keeps.solid
  exact ⟨hs1.1.of_extends hstep, fun key hkey => hstep.instances key (hs1.2 key hkey)⟩

/-- The operands of an instruction in a lane, where those that are kept per lane have been copied. -/
theorem laneOperands_ready {g : Option ValueId → Widen ValueId} (hsome : ∀ x, g (some x) = pure x)
    (hnone : (g none).Extends t) (h : s.OnTrack k classify t is σ seen pre)
    (hripe : ∀ o ∈ instr.operands, t.plan.get o ≠ .uniform → t.Ripe k σ pre o)
    (hknown : ∀ o ∈ instr.operands, t.plan.get o = .perLane → s.instances.contains (o, lane) = true) :
    (laneOperands (fun o => readyInstance? t o lane >>= g) instr).Fails E s ∧
      ∀ a s', laneOperands (fun o => readyInstance? t o lane >>= g) instr s = .ok a s' →
        s'.OnTrack k classify t is σ seen pre := by
  have hext : ∀ o, (readyInstance? t o lane >>= g).Extends t := fun o =>
    .bind ((converts_readyInstance? t o lane).extends) fun r => by
    cases r with
    | some x => exact hsome x ▸ .pure x
    | none => exact hnone
  refine ⟨fails_laneOperands hext h fun o ho s' hs' hkeep => ?_, fun a s' => h.convert (extends_laneOperands hext instr)⟩
  refine .bind (fails_readyInstance? hs' (hripe o ho) lane) fun r s1 hr => ?_
  cases r with
  | some x => exact hsome x ▸ .pure x
  | none =>
    obtain ⟨rfl, hplan, -, hopen⟩ := (readyInstance?_spec hr).2.2 rfl
    have := hkeep _ (hknown o ho hplan)
    rw [Std.TreeMap.contains_eq_isSome_getElem?, hopen] at this
    cases this

/-- Copying operands for a lane. Each of them is noted for the lane then. -/
theorem forM_copyLane {depth : Nat} {missing : List ValueId} (hlane : lane < max t.group.lanes 1)
    (hplan : ∀ o ∈ missing, t.plan.get o = .perLane)
    (hfails : ∀ o ∈ missing, ∀ s : Widening, s.OnTrack k classify t is σ seen pre → (copyLane t lane depth o).Fails E s)
    (h : s.OnTrack k classify t is σ seen pre) :
    (missing.forM fun o => discard (copyLane t lane depth o)).Fails E s ∧
      ∀ u s', (missing.forM fun o => discard (copyLane t lane depth o) : Widen Unit) s = .ok u s' →
        s'.OnTrack k classify t is σ seen pre ∧ (∀ o ∈ missing, s'.instances.contains (o, lane) = true) ∧
          ∀ o, s.instances.contains (o, lane) = true → s'.instances.contains (o, lane) = true := by
  have hstep : ∀ o ∈ missing, ∀ (s : Widening) (u : Unit) (s' : Widening), s.OnTrack k classify t is σ seen pre →
      (discard (copyLane t lane depth o) : Widen Unit) s = .ok u s' → s.Extends t s' := fun o ho s u s' hs hrun =>
    Extends.run (.map _ fun _ _ _ h => (copyLane_spec hlane (hplan o ho) h).1.more) hrun hs.done.keeps.solid
  have htrack : ∀ o ∈ missing, ∀ (s : Widening) (u : Unit) (s' : Widening), s.OnTrack k classify t is σ seen pre →
      (discard (copyLane t lane depth o) : Widen Unit) s = .ok u s' → s'.OnTrack k classify t is σ seen pre :=
    fun o ho s u s' hs hrun => hs.of_extends (hstep o ho s u s' hs hrun)
  refine ⟨.forM (fun o ho s hs => .map _ (hfails o ho s hs)) htrack h, fun u s' hrun => ?_⟩
  refine forM_ensures (Q := fun o s => s.instances.contains (o, lane) = true) htrack (fun o ho s u s' _ hrun => ?_)
    (fun o ho s u s' hs hrun o' ho' => (hstep o ho s u s' hs hrun).instances _ ho') h hrun
  obtain ⟨x, s1, hx, hunit⟩ := bind_eq_ok.mp hrun
  obtain ⟨-, rfl⟩ := pure_eq_ok.mp hunit
  rw [Std.TreeMap.contains_eq_isSome_getElem?, (copyLane_spec hlane (hplan o ho) hx).2]
  rfl

theorem idxOf_lt_of_mem_front (hnodup : (front ++ i :: back).Nodup) {j : InstId} (hj : j ∈ front) :
    (front ++ i :: back).idxOf j < (front ++ i :: back).idxOf i := by
  have hi : i ∉ front := fun hi => (nodup_append.mp hnodup).2.2 i hi i (.head _) rfl
  rw [idxOf_append_of_mem hj, idxOf_append_of_notMem hi, idxOf_cons_self]
  exact idxOf_lt_length_of_mem hj

/-- The operands that are copied first are those kept per lane of which there is no copy. -/
theorem mem_missing :
    o ∈ (instr.operands.filter fun o => t.plan.get o = .perLane && !s.instances.contains (o, lane)).reverse ↔
      o ∈ instr.operands ∧ t.plan.get o = .perLane ∧ s.instances.contains (o, lane) = false := by
  rw [mem_reverse, mem_filter, Bool.and_eq_true_iff, decide_eq_true_iff, Bool.not_eq_true']

/-- **Copies for a lane** can be made, by induction on how far back they go: an instruction reads only what was defined
before it, and phis are left for later. -/
theorem fails_copyLane (hlane : lane < max t.group.lanes 1) (depth : Nat) (h : s.OnTrack k classify t is σ seen pre)
    (hi : i ∈ pre) (hv : k.result? i = some v) (hplan : t.plan.get v = .perLane) (hdepth : pre.idxOf i < depth) :
    (copyLane t lane depth v).Fails (t.Excuse k classify) s := by
  induction depth generalizing s v i with
  | zero => omega
  | succ depth ih =>
    obtain ⟨dv, hdv⟩ := isSome_iff_exists.mp (h.fits.linked.has_of_result? hv)
    have hvalue := h.done.keeps.value v dv hdv
    obtain ⟨front, back, hpre⟩ := append_of_mem hi
    obtain ⟨rest, hrest⟩ := h.front
    obtain ⟨instr, hsource, hripe⟩ := exists_source h (by rw [← hrest, hpre, append_assoc]; rfl) hv hplan
    rw [copyLane]
    refine .bind_of_ok rfl ?_
    cases hknown : s.instances[(v, lane)]? with
    | some x => exact .pure _
    | none =>
      refine .bind_of_ok rfl (.bind_of_ok (lift_eq_ok.mpr ⟨h.def? hv, rfl⟩) ?_)
      refine .bind (.map _ (fails_checkCopies i)) fun _ s1 hcheck => ?_
      obtain ⟨n, s2, hcheck, hunit⟩ := bind_eq_ok.mp hcheck
      obtain ⟨rfl, -⟩ := checkCopies_eq_ok hcheck
      obtain ⟨-, rfl⟩ := pure_eq_ok.mp hunit
      have hty : s.kernel.valueTy v = .ok dv.ty := Success.bind_eq_ok.mpr ⟨dv, some?_eq_ok.mpr hvalue, rfl⟩
      refine .bind_of_ok (lift_eq_ok.mpr ⟨hty, rfl⟩) (.bind_of_ok hsource ?_)
      split
      · obtain ⟨e, he, -⟩ := bind_eq_some_iff.mp hv
        exact fails_lanePhi h (h.has_inst (isSome_iff_exists.mpr ⟨e, he⟩)) (h.done.keeps.solid v dv hvalue) v lane
      next hphi =>
        replace hripe := hripe (by simpa using hphi)
        have hsub : ∀ j ∈ front, j ∈ pre := fun j hj => hpre ▸ mem_append_left _ hj
        -- the depth bounds the place in `pre`, and operands are defined further in front
        have hearlier : ∀ j ∈ front, pre.idxOf j < pre.idxOf i := fun j hj =>
          hpre ▸ idxOf_lt_of_mem_front (hpre ▸ h.fits.nodup.sublist h.front.sublist) hj
        refine .bind_of_ok rfl ?_
        have hcopy : ∀ o ∈ (instr.operands.filter fun o =>
            t.plan.get o = .perLane && !s.instances.contains (o, lane)).reverse, ∀ s : Widening,
            s.OnTrack k classify t is σ seen pre → (copyLane t lane depth o).Fails (t.Excuse k classify) s := by
          intro o ho s hs
          obtain ⟨ho, hplan, -⟩ := mem_missing.mp ho
          obtain ⟨j, hj, hresult⟩ := (hripe o ho (by simp [hplan])).defined (by simp [hplan])
          exact ih hs (hsub j hj) hresult hplan (by have := hearlier j hj; omega)
        refine .bind_and (forM_copyLane hlane (fun o ho => (mem_missing.mp ho).2.1) hcopy h) fun u s1 hcopied => ?_
        obtain ⟨h1, hmade, hlasts⟩ := hcopied
        have hready : ∀ o ∈ instr.operands, t.plan.get o = .perLane → s1.instances.contains (o, lane) = true := by
          intro o ho hplan
          by_cases hold : s.instances.contains (o, lane) = true
          · exact hlasts o hold
          · exact hmade o (mem_missing.mpr ⟨ho, hplan, Bool.eq_false_iff.mpr hold⟩)
        refine .bind_and (laneOperands_ready (fun _ => rfl) ?_ h1 (fun o ho hplan => (hripe o ho hplan).mono hsub) hready)
          fun operands s2 h2 => ?_
        · exact .bind (converts_kernel t).extends fun _ => .bind (.lift _) fun _ => .unsupported _ _
        have hhas := isSome_iff_exists.mpr ⟨dv, h2.done.keeps.value v dv hdv⟩
        obtain ⟨x, s3, hx⟩ := h2.exists_behind hhas (goes_insertValue [] _ _) (by simp)
        refine .bind_of_ok hx (.bind_of_ok rfl ?_)
        split <;> exact .of_ok rfl

theorem length_le_of_onTrack (h : s.OnTrack k classify t is σ seen pre) : pre.length ≤ s.kernel.insts.size := by
  have hsub : pre ⊆ s.kernel.insts.ids := by
    intro i hi
    have hhas := h.has_inst (h.fits.has_inst (h.mem hi))
    exact (Arena.mem_ids_iff _ i).mpr ((Arena.isSome_get?_iff _ i).mp hhas)
  have hnodup := h.fits.nodup.sublist h.front.sublist
  calc pre.length ≤ s.kernel.insts.ids.length := (hnodup.subperm hsub).length_le
    _ = s.kernel.insts.size := by rw [Arena.ids, length_map, length_range]

/-- **A value in a lane** can be had once its definition has been widened. -/
theorem fails_laneOf (hlane : lane < max t.group.lanes 1) (h : s.OnTrack k classify t is σ seen pre) (hv : t.Ripe k σ pre v) :
    (laneOf t v lane).Fails (t.Excuse k classify) s := by
  refine .bind (fails_readyInstance? h (fun _ => hv) lane) fun r s1 hr => ?_
  cases r with
  | some x => exact .pure _
  | none =>
    obtain ⟨rfl, hplan, -⟩ := (readyInstance?_spec hr).2.2 rfl
    obtain ⟨i, hi, hresult⟩ := hv.defined (by simp [hplan])
    refine .bind_of_ok rfl (fails_copyLane hlane _ h hi hresult hplan ?_)
    have := idxOf_lt_length_of_mem hi
    have := length_le_of_onTrack h
    omega

/-! ## Packets -/

section

variable (h : s.OnTrack k classify t is σ seen pre) (hv : t.Ripe k σ pre v)
include h hv

/-- What is given as a value in a lane is there. -/
theorem has_of_laneOf {x : ValueId} (hlane : lane < max t.group.lanes 1) (hrun : laneOf t v lane s = .ok x s') :
    s'.kernel.Has (.value x) := by
  have h' := h.convert (extends_laneOf hlane v) hrun
  rcases (laneOf_spec hlane hrun).2 with hnoted | ⟨-, rfl⟩
  · rcases h'.done.keeps.instances v lane x hnoted with rfl | hhas
    · exact h'.has hv
    · exact hhas
  · exact h'.has hv

theorem fails_assemble (hty : ty.isVoid = false) : (assemble t v ty).Fails (t.Excuse k classify) s := by
  obtain ⟨definition, hdef, -⟩ := h.exists_def? (h.has hv)
  refine .bind_of_ok rfl (.bind_of_ok (lift_eq_ok.mpr ⟨hdef, rfl⟩) (.bind (fails_fixedLanes _ _) fun lanes s1 hlanes => ?_))
  obtain ⟨rfl, rfl, -⟩ := fixedLanes_eq_ok hlanes
  have hlane : ∀ lane ∈ range t.group.lanes, lane < max t.group.lanes 1 := fun lane hlane =>
    Nat.lt_of_lt_of_le (mem_range.mp hlane) (Nat.le_max_left _ _)
  have htrack : ∀ lane ∈ range t.group.lanes, ∀ (s : Widening) x s', s.OnTrack k classify t is σ seen pre →
      laneOf t v lane s = .ok x s' → s'.OnTrack k classify t is σ seen pre := fun lane hl s x s' hs hrun =>
    hs.convert (extends_laneOf (hlane lane hl) v) hrun
  refine .bind (.mapM (fun lane hl s hs => fails_laneOf (hlane lane hl) hs hv) htrack h) fun parts s1 hparts => ?_
  obtain ⟨h1, hhas, -⟩ := mapM_ensures (Q := fun x s => s.kernel.Has (.value x)) htrack
    (fun lane hl s x s' hs hrun => has_of_laneOf hs hv (hlane lane hl) hrun)
    (fun lane hl s x s' hs hrun y hy => (extends_laneOf (hlane lane hl) v s x s' hrun hs.done.keeps.solid).kernel.has_value hy)
    h hparts
  refine .bind_of_ok rfl (.bind_of_ok rfl ?_)
  have hundef : s1.kernel.Grows (s1.kernel.addUndef ty).1 := .addValue s1.kernel (fun _ => by simp) hty
  have h2 := h1.of_extends (.setKernel hundef)
  have hnew : (s1.kernel.addUndef ty).1.Has (.value (s1.kernel.addUndef ty).2) :=
    isSome_iff_exists.mpr ⟨⟨.undef, ty⟩, (Kernel.value?_addValue s1.kernel .undef ty _).trans (if_pos rfl)⟩
  have hput : Yields ((s1.kernel.addUndef ty).2 :: parts) (parts.zipIdx.foldlM (fun acc a => do
      insertElement acc a.1 (← constInt .i32 (Int64.ofNat a.2))) (s1.kernel.addUndef ty).2) := by
    refine .foldlM (fun acc a ha => .bind (yields_const _ _ _) fun n => yields_emitValue ?_ rfl) (.head _)
    have hpart := fst_mem_of_mem_zipIdx ha
    simp only [operands, mem_cons, not_mem_nil, or_false]
    rintro u (rfl | rfl | rfl) <;> simp [hpart]
  have hops : ∀ u ∈ (s1.kernel.addUndef ty).2 :: parts, (s1.kernel.addUndef ty).1.Has (.value u) := by
    intro u hu
    rcases mem_cons.mp hu with rfl | hu
    · exact hnew
    · exact hundef.has_value (hhas u hu)
  obtain ⟨x, s', hx⟩ := h2.exists_behind (h2.has hv) hput.goes hops
  exact .of_ok hx

/-- **A value as a packet** can be had once its definition has been widened. -/
theorem fails_packetOf : (packetOf t v).Fails (t.Excuse k classify) s := by
  have hhas := h.has hv
  obtain ⟨d, hd, -, hty⟩ := valueTy_of_has hhas
  have hvoid := h.done.keeps.solid v d hd
  have hset : ∀ {x : Widen ValueId}, x.Fails (t.Excuse k classify) s →
      (do let p ← x; setPacket v p; return p : Widen ValueId).Fails (t.Excuse k classify) s :=
    fun hx => .bind hx fun _ _ _ => .of_ok rfl
  have hsplat : ∀ elem, Yields [v] (splat v (shape t elem)) := fun _ => yields_emitValue (fun _ h => h) rfl
  refine .bind_of_ok rfl ?_
  cases hknown : s.packets[v]? with
  | some p => exact .pure _
  | none =>
    refine .bind_of_ok hty ?_
    cases helem : d.ty.element? with
    | none =>
      cases hd' : d.ty with
      | void => rw [hd'] at hvoid; cases hvoid
      | scalar | vector => rw [hd'] at helem; exact absurd helem (by simp [Ty.element?])
    | some elem =>
      cases hplan : t.plan.get v with
      | uniform =>
        obtain ⟨x, s', hx⟩ := h.exists_behind hhas (hsplat elem).goes (by simpa using hhas)
        exact hset (.of_ok hx)
      | laneId =>
        have hcount : Yields [v] (do
            let base ← splat v (shape t elem)
            binary .add base (← stepVector (d.ty.withLanes (shape t elem)))) := by
          rw [withLanes_shape helem]
          refine .bind (hsplat elem) fun base => .bind (yields_emitValue (by simp [operands]) rfl) fun step => ?_
          exact yields_emitValue (by simp [operands]) rfl
        obtain ⟨x, s', hx⟩ := h.exists_behind hhas hcount.goes (by simpa using hhas)
        exact hset (.of_ok hx)
      | packet =>
        obtain ⟨p, hp⟩ := h.exists_packet hv hplan
        cases hknown.symm.trans hp
      | perLane =>
        refine hset (fails_assemble h hv ?_)
        rw [withLanes_shape helem]
        rfl

end

/-! ## Requests -/

section

variable {vals : α → List ValueId}

/-- A request is served: it fails for good reasons only, what it gives is there, and all else stays. -/
def Serves (k : Kernel) (classify : Classifier) (t : WidenTask) (is : List InstId) (σ : ValueId → ValueId)
    (seen pre : List InstId) (x : Widen α) (vals : α → List ValueId) (s : Widening) : Prop :=
  x.Fails (t.Excuse k classify) s ∧ ∀ a s', x s = .ok a s' → s'.OnTrack k classify t is σ seen pre ∧
    (∀ v ∈ vals a, s'.kernel.Has (.value v)) ∧ ∀ v, s.kernel.Has (.value v) → s'.kernel.Has (.value v)

theorem Serves.of_extends {x : Widen α} (h : s.OnTrack k classify t is σ seen pre)
    (hfails : x.Fails (t.Excuse k classify) s) (hext : x.Extends t)
    (hvals : ∀ a s', x s = .ok a s' → ∀ v ∈ vals a, s'.kernel.Has (.value v)) : Serves k classify t is σ seen pre x vals s :=
  ⟨hfails, fun a s' hrun => ⟨h.convert hext hrun, hvals a s' hrun,
    fun _ => (hext s a s' hrun h.done.keeps.solid).kernel.has_value⟩⟩

/-- What follows a request finds what it gave. -/
theorem Serves.bind {x : Widen α} {f : α → Widen β} (hx : Serves k classify t is σ seen pre x vals s)
    (hf : ∀ a s', s'.OnTrack k classify t is σ seen pre → (∀ v ∈ vals a, s'.kernel.Has (.value v)) →
      (∀ v, s.kernel.Has (.value v) → s'.kernel.Has (.value v)) → (f a).Fails (t.Excuse k classify) s') :
    (x >>= f).Fails (t.Excuse k classify) s :=
  .bind hx.1 fun a s' hrun => hf a s' (hx.2 a s' hrun).1 (hx.2 a s' hrun).2.1 (hx.2 a s' hrun).2.2

end

theorem serves_laneOf (hlane : lane < max t.group.lanes 1) (h : s.OnTrack k classify t is σ seen pre) (hv : t.Ripe k σ pre v) :
    Serves k classify t is σ seen pre (laneOf t v lane) ([·]) s := by
  refine .of_extends h (fails_laneOf hlane h hv) (extends_laneOf hlane v) fun x s' hrun y hy => ?_
  obtain rfl := mem_singleton.mp hy
  exact has_of_laneOf h hv hlane hrun

section

variable (h : s.OnTrack k classify t is σ seen pre)
include h

theorem serves_packetOf (hv : t.Ripe k σ pre v) : Serves k classify t is σ seen pre (packetOf t v) ([·]) s := by
  refine .of_extends h (fails_packetOf h hv) (extends_packetOf t v) fun p s' hrun y hy => ?_
  obtain rfl := mem_singleton.mp hy
  exact ((h.convert (extends_packetOf t v) hrun).done.keeps.packets v y (packets_of_packetOf hrun)).2

theorem serves_packetUnlessUniform (hv : t.Ripe k σ pre v) :
    Serves k classify t is σ seen pre (packetUnlessUniform t v) ([·]) s := by
  obtain ⟨uniform, hask⟩ := exists_isUniform (t := t) (h.has hv)
  refine .of_extends h (.bind_of_ok hask ?_) (extends_packetUnlessUniform t v) fun p s' hrun y hy => ?_
  · split
    · exact .pure _
    · exact fails_packetOf h hv
  · have hrun := (bind_of_eq_ok hask).symm.trans hrun
    split at hrun
    · obtain ⟨rfl, rfl⟩ := pure_eq_ok.mp hrun
      exact mem_singleton.mp hy ▸ h.has hv
    · exact ((serves_packetOf h hv).2 p s' hrun).2.1 y hy

theorem serves_maskOf {mask : Option ValueId} (hmask : ∀ m ∈ mask.toList, t.Ripe k σ pre m) :
    Serves k classify t is σ seen pre (maskOf t mask) Option.toList s := by
  cases mask with
  | none =>
    refine .of_extends h (.pure _) (extends_maskOf t none) fun m s' hrun y hy => ?_
    obtain ⟨rfl, -⟩ := pure_eq_ok.mp hrun
    exact absurd hy not_mem_nil
  | some m =>
    have hserves := serves_packetUnlessUniform h (hmask m (.head _))
    refine .of_extends h (.map _ hserves.1) (extends_maskOf t (some m)) fun p s' hrun y hy => ?_
    rw [maskOf, ← bind_pure_comp] at hrun
    obtain ⟨p, s1, hp, hpure⟩ := bind_eq_ok.mp hrun
    obtain ⟨rfl, rfl⟩ := pure_eq_ok.mp hpure
    exact (hserves.2 p s1 hp).2.1 y hy

theorem serves_packets {vs : List ValueId} (hvs : ∀ v ∈ vs, t.Ripe k σ pre v) :
    Serves k classify t is σ seen pre (vs.mapM (packetOf t)) id s := by
  have htrack : ∀ v ∈ vs, ∀ (s : Widening) x s', s.OnTrack k classify t is σ seen pre → packetOf t v s = .ok x s' →
      s'.OnTrack k classify t is σ seen pre := fun v hv s x s' hs => hs.convert (extends_packetOf t v)
  refine .of_extends h (.mapM (fun v hv s hs => fails_packetOf hs (hvs v hv)) htrack h)
    (.mapM fun v _ => extends_packetOf t v) fun ps s' hrun => ?_
  refine (mapM_ensures (Q := fun x s => s.kernel.Has (.value x)) htrack (fun v hv s x s' hs hrun => ?_)
    (fun v hv s x s' hs hrun => ((serves_packetOf hs (hvs v hv)).2 x s' hrun).2.2) h hrun).2.1
  exact ((serves_packetOf hs (hvs v hv)).2 x s' hrun).2.1 x (.head _)

end

end Widen

end Spmd
