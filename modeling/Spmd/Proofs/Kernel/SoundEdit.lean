import Spmd.Proofs.Kernel.Sound
import Spmd.Proofs.Place

/-!
# Edits that keep a kernel sound

For every edit, what has to be known about it so that a sound kernel stays sound for the same flow.

* **`Sound.inserted`** — a new instruction is well typed and finds its operands ready.
* **`Sound.replaceUses`** — a value is replaced by another of its type that is ready wherever it is used.
* **`Sound.removed`** — nothing reads the result of an instruction that goes away.
-/

namespace Spmd

open List Instr

variable {v old new : ValueId} {instr : Instr} {pre' pre post p : List InstId} {ty : Ty} {d : InstDef}

namespace Instr

/-- The typing rules look at the types of the operands only. -/
theorem typeFlaw?_mapOperands (f : ValueId → ValueId) (ret result : Ty) (instr : Instr) (tys : List Ty) :
    (instr.mapOperands f).typeFlaw? ret result tys = instr.typeFlaw? ret result tys := by
  -- no rule asks for more than three operands one by one
  rcases tys with _ | ⟨a, _ | ⟨b, _ | ⟨c, _ | ⟨d, tys⟩⟩⟩⟩
  all_goals
    cases instr with
    | call callee args mask => cases mask <;> rfl
    | ret value => cases value <;> rfl
    | _ => rfl

theorem mem_operands_replaceOperand (h : v ∈ (instr.replaceOperand old new).operands) :
    v ∈ instr.operands ∧ v ≠ old ∨ v = new ∧ old ∈ instr.operands := by
  rw [replaceOperand, operands_mapOperands] at h
  obtain ⟨x, hx, rfl⟩ := mem_map.mp h
  by_cases hold : x = old
  · exact .inr ⟨if_pos hold, hold ▸ hx⟩
  · rw [if_neg hold]
    exact .inl ⟨hx, hold⟩

end Instr

namespace Kernel

variable {k k' : Kernel} {φ : Flow} {b c : BlockId} {i j : InstId}

/-! ## Types -/

/-- The value exists, has the type, and was not defined by an instruction that is dead by now. -/
def Typed (k : Kernel) (v : ValueId) (ty : Ty) : Prop :=
  ∃ d, k.value? v = some d ∧ d.ty = ty ∧ ∀ j, d.kind = .inst j → (k.inst? j).any (·.dead) = false

theorem verifyTypes_iff :
    k.verifyTypes i instr = .ok () ↔
      ∃ tys, Forall₂ k.Typed instr.operands tys ∧ instr.typeFlaw? k.ret (k.resultTy i) tys = .ok none := by
  rw [verifyTypes_eq_ok]
  refine exists_congr fun tys => and_congr_left fun _ => ?_
  rw [Success.mapM_eq_ok]
  have hiff : (fun v ty => k.verifyOperand i v = .ok ty) = k.Typed :=
    funext fun v => funext fun ty => propext verifyOperand_eq_ok
  rw [hiff]

/-- All inputs of a phi have the type of its result. -/
theorem verifyTypes_phi {incoming : List (BlockId × ValueId)} :
    k.verifyTypes i (.phi incoming) = .ok () ↔ ∀ x ∈ incoming, k.Typed x.2 (k.resultTy i) := by
  have hflaw : ∀ tys, typeFlaw? k.ret (k.resultTy i) (.phi incoming) tys = .ok none ↔ ∀ ty ∈ tys, ty = k.resultTy i := by
    intro tys
    simp [typeFlaw?, firstBroken, pure, Except.pure]
  rw [verifyTypes_iff]
  constructor
  · rintro ⟨tys, htys, hall⟩ x hx
    rw [hflaw] at hall
    have hforall : Forall₂ (fun v _ => k.Typed v (k.resultTy i) ∧ True) (phi incoming).operands tys := by
      refine (Forall₂.imp (fun v ty h => ?_) ((forall₂_and_left _ _).mpr ⟨hall, htys.flip⟩)).flip
      exact ⟨h.1 ▸ h.2, trivial⟩
    exact ((forall₂_and_left _ _).mp hforall).1 x.2 (mem_map_of_mem hx)
  · intro h
    refine ⟨incoming.map fun _ => k.resultTy i, ?_, (hflaw _).mpr fun ty hty => ?_⟩
    · rw [operands, forall₂_map_left_iff, forall₂_map_right_iff, forall₂_same]
      exact h
    · obtain ⟨_, _, rfl⟩ := mem_map.mp hty
      rfl

theorem Typed.unique {ty' : Ty} (h : k.Typed v ty) (h' : k.Typed v ty') : ty = ty' := by
  obtain ⟨d, hd, rfl, _⟩ := h
  obtain ⟨d', hd', rfl, _⟩ := h'
  rw [Option.mem_unique hd hd']

/-- What a value of a sound kernel is defined by. -/
theorem Typed.definer (hk : k.Coherent) (h : k.Typed v ty) : ∃ d, k.value? v = some d ∧ d.ty = ty ∧
    ∀ i, d.kind = .inst i → ∃ e, k.inst? i = some e ∧ e.dead = false := by
  obtain ⟨d, hd, hty, halive⟩ := h
  refine ⟨d, hd, hty, fun i hi => ?_⟩
  obtain ⟨e, he, _⟩ := Option.bind_eq_some_iff.mp (hk.owned i v (by rw [hd, Option.map_some, hi]))
  exact ⟨e, he, by simpa [he] using halive i hi⟩

section

variable (h : k.verifyTypes i instr = .ok ()) (hret : k'.ret = k.ret) (hresult : k'.resultTy j = k.resultTy i)
include h hret hresult

/-- Renaming operands to values of the same types keeps an instruction well typed. -/
theorem verifyTypes_mapOperands {f : ValueId → ValueId}
    (hty : ∀ v ∈ instr.operands, ∀ ty, k.Typed v ty → k'.Typed (f v) ty) :
    k'.verifyTypes j (instr.mapOperands f) = .ok () := by
  obtain ⟨tys, htys, hflaw⟩ := verifyTypes_iff.mp h
  refine verifyTypes_iff.mpr ⟨tys, ?_, ?_⟩
  · rw [operands_mapOperands, forall₂_map_left_iff]
    clear hflaw h
    generalize instr.operands = vs at htys hty
    induction htys with
    | nil => exact .nil
    | cons hv _ ih =>
      exact .cons (hty _ (.head _) _ hv) (ih fun v hv => hty v (.tail _ hv))
  · rw [typeFlaw?_mapOperands, hret, hresult]
    exact hflaw

theorem verifyTypes_congr (hty : ∀ v ∈ instr.operands, ∀ ty, k.Typed v ty → k'.Typed v ty) :
    k'.verifyTypes j instr = .ok () := by
  have := verifyTypes_mapOperands (f := fun v => v) h hret hresult hty
  rwa [mapOperands_id fun _ _ => rfl] at this

end

/-! ## Ready values -/

theorem Ready.typed (h : k.Ready φ b pre v) : ∃ ty, k.Typed v ty := by
  obtain ⟨d, hd, h⟩ := h
  refine ⟨d.ty, d, hd, rfl, fun j hj => ?_⟩
  obtain ⟨e, he, halive, _⟩ := h j hj
  simp [he, halive]

theorem Sound.typed_result (hs : k.Sound φ) (hb : b ∈ k.layout) (hi : i ∈ k.instsOf b) (hv : k.result? i = some v) :
    k.Typed v (k.resultTy i) := by
  obtain ⟨d, hd, hkind⟩ := Option.map_eq_some_iff.mp (hs.coherent.defines i v hv)
  obtain ⟨e, he, halive, _⟩ := hs.linked b hb i hi
  refine ⟨d, hd, ?_, fun j hj => ?_⟩
  · rw [resultTy, hv, Option.bind_some, hd]
    rfl
  · cases hkind.symm.trans hj
    rw [he]
    exact halive

/-- A value is as ready as before if it is still there, and so is what defines it. -/
theorem Ready.transport (h : k.Ready φ b pre v) (hvalue : ∀ d, k.value? v = some d → k'.value? v = some d)
    (hinst : ∀ d j e, k.value? v = some d → d.kind = .inst j → k.inst? j = some e → e.dead = false →
      (∃ e', k'.inst? j = some e' ∧ e'.dead = false ∧ e'.block = e.block) ∧ (j ∈ pre → j ∈ pre')) :
    k'.Ready φ b pre' v := by
  obtain ⟨d, hd, h⟩ := h
  refine ⟨d, hvalue d hd, fun j hj => ?_⟩
  obtain ⟨e, he, halive, hplace⟩ := h j hj
  obtain ⟨⟨e', he', halive', hblock⟩, hsub⟩ := hinst d j e hd hj he halive
  exact ⟨e', he', halive', by rw [hblock]; exact hplace.imp (And.imp_right hsub) id⟩

/-! ## New values -/

theorem Sound.addValue (hs : k.Sound φ) {kind : ValueKind} (hkind : ∀ i, kind ≠ .inst i) (ty : Ty) :
    (k.addValue kind ty).1.Sound φ := by
  have hvalue : ∀ {v d}, k.value? v = some d → (k.addValue kind ty).1.value? v = some d := by
    intro v d hd
    rw [value?_addValue, if_neg]
    · exact hd
    · rintro rfl
      rw [value?_nextId] at hd
      cases hd
  have hready : ∀ {b pre v}, k.Ready φ b pre v → (k.addValue kind ty).1.Ready φ b pre v := fun h =>
    h.transport (fun _ => hvalue) fun _ _ e _ _ he halive => ⟨⟨e, he, halive, rfl⟩, id⟩
  refine ⟨hs.coherent.addValue hkind ty, hs.reach, hs.linked, fun b hb i hi instr hinstr => ?_,
    fun b hb pre i post hsplit instr hinstr hphi v hv => hready (hs.ordered b hb pre i post hsplit instr hinstr hphi v hv),
    fun b hb i hi incoming hinstr x hx hr => hready (hs.phis b hb i hi incoming hinstr x hx hr)⟩
  have hresult : (k.addValue kind ty).1.resultTy i = k.resultTy i := by
    cases hv : k.result? i with
    | none => simp [resultTy, show (k.addValue kind ty).1.result? i = none from hv, hv]
    | some v =>
      obtain ⟨d, hd, _⟩ := Option.map_eq_some_iff.mp (hs.coherent.defines i v hv)
      simp [resultTy, show (k.addValue kind ty).1.result? i = some v from hv, hv, hd, hvalue hd]
  refine verifyTypes_congr (hs.typed b hb i hi instr hinstr) rfl hresult ?_
  rintro v - ty' ⟨d, hd, hty, halive⟩
  exact ⟨d, hvalue hd, hty, halive⟩

/-! ## New instructions -/

namespace Inserted

section

variable (h : Inserted k b pre post instr ty k' j)
include h

theorem typed (hk : k.Coherent) {t : Ty} (hv : k.Typed v t) : k'.Typed v t := by
  obtain ⟨d, hd, hty, halive⟩ := hv
  refine ⟨d, h.value?_of_some hd, hty, fun i hi => ?_⟩
  obtain ⟨e, he, _⟩ := Option.bind_eq_some_iff.mp (hk.owned i v (by rw [hd, Option.map_some, hi]))
  rw [(h.inst?_of_some he).1, ← he]
  exact halive i hi

theorem ready {p' : List InstId} (hv : k.Ready φ c p v) (hsub : ∀ i ∈ p, i ∈ p') : k'.Ready φ c p' v :=
  hv.transport (fun _ => h.value?_of_some) fun _ i e _ _ he halive =>
    ⟨⟨e, (h.inst?_of_some he).1, halive, rfl⟩, hsub i⟩

theorem typed_new (hvoid : ty.isVoid = false) : k'.Typed k.values.nextId ty := by
  refine ⟨_, h.value_new hvoid, rfl, fun i hi => ?_⟩
  cases hi
  rw [h.inst_new]
  rfl

theorem ready_new (hvoid : ty.isVoid = false) (hj : j ∈ p) : k'.Ready φ b p k.values.nextId := by
  refine ⟨_, h.value_new hvoid, fun i hi => ?_⟩
  cases hi
  exact ⟨_, h.inst_new, rfl, .inl ⟨rfl, hj⟩⟩

theorem instr?_new : k'.instr? j = some instr := by
  rw [instr?, h.inst_new]
  rfl

theorem result?_new (hvoid : ty.isVoid = false) : k'.result? j = some k.values.nextId := by
  rw [result?, h.inst_new, hvoid]
  rfl

section

variable (hk : k.Coherent) (hi : i ∈ k.instsOf c)
include hk hi

theorem inst?_eq : k'.inst? i = k.inst? i := by
  obtain ⟨d, hd⟩ := Option.isSome_iff_exists.mp (hk.made c i hi)
  rw [(h.inst?_of_some hd).1, hd]

theorem instr?_eq : k'.instr? i = k.instr? i := by
  rw [instr?, instr?, h.inst?_eq hk hi]

theorem resultTy_old : k'.resultTy i = k.resultTy i := by
  have hresult : k'.result? i = k.result? i := by rw [result?, result?, h.inst?_eq hk hi]
  rw [resultTy, resultTy, hresult]
  cases hv : k.result? i with
  | none => rfl
  | some v =>
    obtain ⟨dv, hdv, _⟩ := Option.map_eq_some_iff.mp (hk.defines i v hv)
    simp [hdv, h.value?_of_some hdv]

end

theorem resultTy_new : k'.resultTy j = ty := by
  rw [resultTy, result?, h.inst_new]
  cases hvoid : ty.isVoid with
  | true =>
    cases ty with
    | void => rfl
    | _ => exact absurd hvoid (by simp [Ty.isVoid])
  | false => simp [h.value_new hvoid]

end

end Inserted

/-- An instruction that can stand within a block behind `pre`: it is well typed and its operands are ready there. -/
structure Allows (k : Kernel) (φ : Flow) (b : BlockId) (pre : List InstId) (instr : Instr) (ty : Ty) : Prop where
  phi : instr.isPhi = false
  term : instr.isTerminator = false
  typed : ∃ tys, Forall₂ k.Typed instr.operands tys ∧ instr.typeFlaw? k.ret ty tys = .ok none
  ready : ∀ v ∈ instr.operands, k.Ready φ b pre v

/-- **Inserting an instruction where it can stand keeps a kernel sound.** -/
theorem Sound.inserted (hs : k.Sound φ) (hb : b ∈ k.layout) (h : Inserted k b pre post instr ty k' j)
    (hallows : k.Allows φ b pre instr ty) : k'.Sound φ := by
  have hk := hs.coherent
  refine ⟨hk.inserted hb h, fun c hc => h.layout ▸ hs.reach c hc, fun c hc i hi => ?_, fun c hc i hi instr' hinstr => ?_,
    fun c hc p i q hsplit instr' hinstr hphi' v hv => ?_, fun c hc i hi incoming hinstr x hx hr => ?_⟩
  · rcases h.mem_instsOf_iff.mp hi with hi | ⟨rfl, rfl⟩
    · obtain ⟨d, hd, halive, hblock⟩ := hs.linked c (h.layout ▸ hc) i hi
      exact ⟨d, (h.inst?_of_some hd).1, halive, hblock⟩
    · exact ⟨_, h.inst_new, rfl, rfl⟩
  · rcases h.mem_instsOf_iff.mp hi with hi | ⟨rfl, rfl⟩
    · rw [h.instr?_eq hk hi] at hinstr
      exact verifyTypes_congr (hs.typed c (h.layout ▸ hc) i hi instr' hinstr) h.ret (h.resultTy_old hk hi)
        fun v _ ty hv => h.typed hk hv
    · obtain rfl := Option.mem_unique h.instr?_new hinstr
      obtain ⟨tys, htys, hflaw⟩ := hallows.typed
      refine verifyTypes_iff.mpr ⟨tys, htys.imp fun v ty hv => h.typed hk hv, ?_⟩
      rw [h.resultTy_new, h.ret]
      exact hflaw
  · by_cases hcb : c = b
    · subst hcb
      rw [h.after] at hsplit
      rcases Place.split_insert hsplit with ⟨m, rfl, rfl⟩ | ⟨rfl, rfl, rfl⟩ | ⟨m, rfl, rfl⟩
      · have hsplit' : k.instsOf c = p ++ i :: (m ++ post) := by rw [h.before]; simp
        rw [h.instr?_eq (c := c) hk (by simp [hsplit'])] at hinstr
        exact h.ready (hs.ordered c hc p i _ hsplit' instr' hinstr hphi' v hv) fun _ h => h
      · obtain rfl := Option.mem_unique h.instr?_new hinstr
        exact h.ready (hallows.ready v hv) fun _ h => h
      · have hsplit' : k.instsOf c = (pre ++ m) ++ i :: q := by rw [h.before]; simp
        rw [h.instr?_eq (c := c) hk (by simp [hsplit'])] at hinstr
        refine h.ready (hs.ordered c hc _ i q hsplit' instr' hinstr hphi' v hv) fun x hx => ?_
        rcases mem_append.mp hx with hx | hx
        · exact mem_append_left _ hx
        · exact mem_append_right _ (.tail _ hx)
    · rw [h.instsOf_ne c hcb] at hsplit
      rw [h.instr?_eq (c := c) hk (by simp [hsplit])] at hinstr
      exact h.ready (hs.ordered c hc p i q hsplit instr' hinstr hphi' v hv) fun _ h => h
  · rcases h.mem_instsOf_iff.mp hi with hi | ⟨rfl, rfl⟩
    · rw [h.instr?_eq hk hi] at hinstr
      exact h.ready (hs.phis c hc i hi incoming hinstr x hx hr) fun y hy => h.mem_instsOf_iff.mpr (.inl hy)
    · obtain rfl := Option.mem_unique h.instr?_new hinstr
      exact absurd hallows.phi (by simp [Instr.isPhi])

/-! ## Replaced values -/

section

theorem instsOf_replaceUses (k : Kernel) (old new : ValueId) (b : BlockId) :
    (k.replaceUses old new).instsOf b = k.instsOf b := by
  obtain ⟨insts, _, heq⟩ := replaceUses_eq k old new
  rw [heq]
  rfl

theorem value?_replaceUses (k : Kernel) (old new v : ValueId) : (k.replaceUses old new).value? v = k.value? v := by
  obtain ⟨insts, _, heq⟩ := replaceUses_eq k old new
  rw [heq]
  rfl

theorem layout_replaceUses (k : Kernel) (old new : ValueId) : (k.replaceUses old new).layout = k.layout := by
  obtain ⟨insts, _, heq⟩ := replaceUses_eq k old new
  rw [heq]

theorem instsInOrder_replaceUses (k : Kernel) (old new : ValueId) :
    (k.replaceUses old new).instsInOrder = k.instsInOrder := by
  rw [instsInOrder, instsInOrder, layout_replaceUses]
  exact congrArg k.layout.flatMap (funext (instsOf_replaceUses k old new))

theorem inst?_replaceUses_of_some (old new : ValueId) {e : InstDef} (he : k.inst? j = some e) :
    ∃ e', (k.replaceUses old new).inst? j = some e' ∧ e'.result = e.result ∧ e'.block = e.block ∧ e'.dead = e.dead := by
  rw [inst?_replaceUses, he, Option.map_some]
  refine ⟨_, rfl, ?_⟩
  split <;> exact ⟨rfl, rfl, rfl⟩

theorem result?_replaceUses (k : Kernel) (old new : ValueId) (j : InstId) :
    (k.replaceUses old new).result? j = k.result? j := by
  rw [result?, result?, inst?_replaceUses, Option.bind_map]
  refine congrArg (k.inst? j).bind (funext fun d => ?_)
  simp only [Function.comp_apply]
  split <;> rfl

theorem instr?_replaceUses (hb : b ∈ k.layout) (hj : j ∈ k.instsOf b) :
    (k.replaceUses old new).instr? j = (k.instr? j).map (Instr.replaceOperand old new) := by
  have hmem : j ∈ k.instsInOrder := mem_flatMap.mpr ⟨b, hb, hj⟩
  rw [instr?, instr?, inst?_replaceUses, Option.map_map, Option.map_map]
  refine congrArg (fun f => (k.inst? j).map f) (funext fun d => ?_)
  simp [hmem]

theorem ready_replaceUses (h : k.Ready φ b pre v) : (k.replaceUses old new).Ready φ b pre v := by
  refine h.transport (fun d hd => (value?_replaceUses k old new v).trans hd) fun _ j e _ _ he halive => ⟨?_, id⟩
  obtain ⟨e', he', _, hblock, hdead⟩ := inst?_replaceUses_of_some old new he
  exact ⟨e', he', hdead.trans halive, hblock⟩

theorem typed_replaceUses (h : k.Typed v ty) : (k.replaceUses old new).Typed v ty := by
  obtain ⟨d, hd, hty, halive⟩ := h
  refine ⟨d, (value?_replaceUses k old new v).trans hd, hty, fun j hj => ?_⟩
  have hdead := halive j hj
  rw [inst?_replaceUses]
  cases he : k.inst? j with
  | none => rfl
  | some e =>
    rw [he] at hdead
    rw [Option.map_some, Option.any_some]
    split <;> exact hdead

theorem resultTy_replaceUses (k : Kernel) (old new : ValueId) (j : InstId) :
    (k.replaceUses old new).resultTy j = k.resultTy j := by
  rw [resultTy, resultTy, result?_replaceUses]
  exact congrArg (fun f => (((k.result? j).bind f).map (·.ty)).getD .void) (funext (value?_replaceUses k old new))

end

/-- **Replacing a value keeps a kernel sound** if the new one has its type and is ready wherever it is used. -/
theorem Sound.replaceUses (hs : k.Sound φ) (hty : ∀ ty, k.Typed old ty → k.Typed new ty)
    (huse : ∀ b, φ.Reached b → ∀ pre i post, k.instsOf b = pre ++ i :: post → ∀ instr, k.instr? i = some instr →
      instr.isPhi = false → old ∈ instr.operands → k.Ready φ b pre new)
    (hphi : ∀ p, φ.Reached p → k.Ready φ p (k.instsOf p) old → k.Ready φ p (k.instsOf p) new) :
    (k.replaceUses old new).Sound φ := by
  have hold : ∀ {b i instr'}, b ∈ k.layout → i ∈ k.instsOf b → (k.replaceUses old new).instr? i = some instr' →
      ∃ instr, k.instr? i = some instr ∧ instr' = instr.replaceOperand old new := by
    intro b i instr' hb hi hinstr
    rw [instr?_replaceUses hb hi] at hinstr
    obtain ⟨instr, h, rfl⟩ := Option.map_eq_some_iff.mp hinstr
    exact ⟨instr, h, rfl⟩
  have hret : (k.replaceUses old new).ret = k.ret := by
    obtain ⟨insts, _, heq⟩ := replaceUses_eq k old new
    rw [heq]
  refine ⟨hs.coherent.replaceUses old new, fun b hb => (layout_replaceUses k old new).symm ▸ hs.reach b hb,
    fun b hb i hi => ?_, fun b hb i hi instr' hinstr => ?_,
    fun b hb pre i post hsplit instr' hinstr hphi' v hv => ?_, fun b hb i hi incoming hinstr x hx hr => ?_⟩
  · rw [instsOf_replaceUses] at hi
    obtain ⟨e, he, halive, hblock⟩ := hs.linked b (layout_replaceUses k old new ▸ hb) i hi
    obtain ⟨e', he', _, hblock', hdead⟩ := inst?_replaceUses_of_some old new he
    exact ⟨e', he', hdead.trans halive, hblock'.trans hblock⟩
  · rw [instsOf_replaceUses] at hi
    rw [layout_replaceUses] at hb
    obtain ⟨instr, hinstr', rfl⟩ := hold hb hi hinstr
    refine verifyTypes_mapOperands (hs.typed b hb i hi instr hinstr') hret (resultTy_replaceUses k old new i) ?_
    intro v _ ty hv
    split
    next hvold =>
      exact typed_replaceUses (hty ty (hvold ▸ hv))
    · exact typed_replaceUses hv
  · rw [instsOf_replaceUses] at hsplit
    have hlayout := hs.reach b hb
    obtain ⟨instr, hinstr', rfl⟩ := hold hlayout (by simp [hsplit]) hinstr
    have hphi'' : instr.isPhi = false := by simpa [replaceOperand] using hphi'
    rcases mem_operands_replaceOperand hv with ⟨hv', _⟩ | ⟨rfl, hv'⟩
    · exact ready_replaceUses (hs.ordered b hb pre i post hsplit instr hinstr' hphi'' v hv')
    · exact ready_replaceUses (huse b hb pre i post hsplit instr hinstr' hphi'' hv')
  · rw [instsOf_replaceUses] at hi ⊢
    obtain ⟨instr, hinstr', heq⟩ := hold (hs.reach b hb) hi hinstr
    cases instr with
    | phi inputs =>
      cases heq
      obtain ⟨y, hy, rfl⟩ := mem_map.mp hx
      have hready := hs.phis b hb i hi inputs hinstr' y hy hr
      dsimp only
      split
      next hyold =>
        exact ready_replaceUses (hphi y.1 hr (hyold ▸ hready))
      · exact ready_replaceUses hready
    | _ => exact absurd heq (by simp [replaceOperand, mapOperands])

/-! ## Removed instructions -/

namespace Removed

section

variable (h : Removed k i d k')
include h

theorem resultTy (j : InstId) : k'.resultTy j = k.resultTy j := by
  rw [Kernel.resultTy, Kernel.resultTy, h.result?]
  exact congrArg (fun f => (((k.result? j).bind f).map (·.ty)).getD .void) (funext h.value?)

theorem instsOf_eq (hs : k.Sound φ) (hb : b ∈ k.layout) : k'.instsOf b = (k.instsOf b).filter (· ≠ i) := by
  by_cases hbd : b = d.block
  · rw [hbd, h.instsOf_home]
  · rw [h.instsOf_ne b hbd, filter_eq_self.mpr]
    refine fun j hj => decide_eq_true ?_
    rintro rfl
    obtain ⟨e, he, _, hblock⟩ := hs.linked b hb j hj
    obtain rfl := Option.mem_unique h.inst_before he
    exact hbd hblock.symm

theorem mem_instsOf_iff (hs : k.Sound φ) (hb : b ∈ k.layout) : j ∈ k'.instsOf b ↔ j ∈ k.instsOf b ∧ j ≠ i := by
  rw [h.instsOf_eq hs hb, mem_filter, decide_eq_true_iff]

/-- Only what the removed instruction defines is not ready any more. -/
theorem ready (hk : k.Coherent) (hv : k.Ready φ b pre v) (hne : d.result ≠ some v) (hsub : ∀ j ∈ pre, j ≠ i → j ∈ pre') :
    k'.Ready φ b pre' v := by
  refine hv.transport (fun dv hdv => (h.value? v).trans hdv) fun dv j e hdv hj he halive => ?_
  have hji : j ≠ i := by
    rintro rfl
    have hresult := hk.owned j v (by rw [hdv, Option.map_some, hj])
    rw [Kernel.result?, h.inst_before] at hresult
    exact hne hresult
  exact ⟨⟨e, (h.inst_ne j hji).trans he, halive, rfl⟩, fun hpre => hsub j hpre hji⟩

theorem typed (hk : k.Coherent) (hv : k.Typed v ty) (hne : d.result ≠ some v) : k'.Typed v ty := by
  obtain ⟨dv, hdv, hty, halive⟩ := hv
  refine ⟨dv, (h.value? v).trans hdv, hty, fun j hj => ?_⟩
  have hji : j ≠ i := by
    rintro rfl
    have hresult := hk.owned j v (by rw [hdv, Option.map_some, hj])
    rw [Kernel.result?, h.inst_before] at hresult
    exact hne hresult
  rw [h.inst_ne j hji]
  exact halive j hj

end

end Removed

/-- **Removing an instruction keeps a kernel sound** if no other reads its result. -/
theorem Sound.removed (hs : k.Sound φ) (h : Removed k i d k')
    (hunused : ∀ v, d.result = some v → ∀ b ∈ k.layout, ∀ j ∈ k.instsOf b, j ≠ i → ∀ instr,
      k.instr? j = some instr → v ∉ instr.operands) :
    k'.Sound φ := by
  have hk := hs.coherent
  have hold : ∀ {b j}, b ∈ k.layout → j ∈ k'.instsOf b → j ∈ k.instsOf b ∧ j ≠ i := fun hb hj =>
    (h.mem_instsOf_iff hs hb).mp hj
  have hinstr_old : ∀ {j}, j ≠ i → k'.instr? j = k.instr? j := fun hj => by rw [instr?, instr?, h.inst_ne _ hj]
  refine ⟨hk.removed h, fun b hb => h.layout ▸ hs.reach b hb, fun b hb j hj => ?_, fun b hb j hj instr hinstr => ?_,
    fun b hb pre j post hsplit instr hinstr hphi v hv => ?_, fun b hb j hj incoming hinstr x hx hr => ?_⟩
  · rw [h.layout] at hb
    obtain ⟨hj, hji⟩ := hold hb hj
    obtain ⟨e, he, halive, hblock⟩ := hs.linked b hb j hj
    exact ⟨e, (h.inst_ne j hji).trans he, halive, hblock⟩
  · rw [h.layout] at hb
    obtain ⟨hj, hji⟩ := hold hb hj
    rw [hinstr_old hji] at hinstr
    refine verifyTypes_congr (hs.typed b hb j hj instr hinstr) h.ret (h.resultTy j) fun v hv ty hvty => ?_
    exact h.typed hk hvty fun hresult => hunused v hresult b hb j hj hji instr hinstr hv
  · have hb' := hs.reach b hb
    obtain ⟨hj, hji⟩ := hold hb' (j := j) (by simp [hsplit])
    rw [hinstr_old hji] at hinstr
    -- the place in the list before
    rw [h.instsOf_eq hs hb'] at hsplit
    obtain ⟨pre', post', hsplit', rfl, _⟩ := Place.split_filter hsplit
    refine h.ready hk (hs.ordered b hb pre' j post' hsplit' instr hinstr hphi v hv) (fun hresult => ?_)
      fun x hx hxi => mem_filter.mpr ⟨hx, decide_eq_true hxi⟩
    exact hunused v hresult b hb' j hj hji instr hinstr hv
  · have hb' := hs.reach b hb
    obtain ⟨hj, hji⟩ := hold hb' hj
    rw [hinstr_old hji] at hinstr
    refine h.ready hk (hs.phis b hb j hj incoming hinstr x hx hr) (fun hresult => ?_) fun y hy hyi => ?_
    · exact hunused x.2 hresult b hb' j hj hji _ hinstr (mem_map_of_mem hx)
    · exact (h.mem_instsOf_iff hs (hs.reach _ hr)).mpr ⟨hy, hyi⟩

end Kernel

end Spmd
