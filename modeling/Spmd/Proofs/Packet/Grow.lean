import Spmd.Packet.Lane
import Spmd.Proofs.Kernel.History
import Spmd.Proofs.Stateful

/-!
# Building only adds

Packets and instances of values are made by adding instructions to the kernel. Nothing that was there changes, nor the
order of a block (`Kernel.Grows`), so what was made before can be relied on.

* **`Build.Grows`** — actions that only add to the kernel;
* **`Build.Fresh`** — actions that give a new value;
* **`Widen.behind_eq_ok`** — conversions of a value are built behind those that are there.
-/

namespace Spmd

open Success Kernel
open EStateM (Result)

variable {α β : Type} {k' k : Kernel} {v : ValueId} {given ty : Ty} {c' c : Cursor} {xs : List α} {a : α}

namespace Kernel

/-- No value is void. -/
def Solid (k : Kernel) : Prop := ∀ v d, k.value? v = some d → d.ty.isVoid = false

instance (k : Kernel) : Decidable k.Solid :=
  decidable_of_iff (∀ v ∈ k.values.ids, (k.value? v).all (!·.ty.isVoid) = true) (by
    refine ⟨fun h v d hd => ?_, fun h v _ => ?_⟩
    · simpa [hd] using h v (mem_ids_of_value? hd)
    · cases hd : k.value? v with
      | none => rfl
      | some d => simpa using h v d hd)

/-- `k'` is `k` with more instructions and values. What was there means the same, and in each block the old instructions
stand in the old order. -/
structure Grows (k k' : Kernel) : Prop where
  inst : ∀ i d, k.inst? i = some d → k'.inst? i = some d
  value : ∀ v d, k.value? v = some d → k'.value? v = some d
  linked : k.Linked → k'.Linked
  layout : k'.layout = k.layout
  sublist : ∀ b, (k.instsOf b).Sublist (k'.instsOf b)
  solid : k.Solid → k'.Solid

theorem Solid.valueTy (hk : k.Solid) (h : k.valueTy v = .ok ty) : ty.isVoid = false := by
  obtain ⟨d, hd, rfl⟩ := bind_pure_eq_ok.mp h
  exact hk v d (some?_eq_ok.mp hd)

namespace Grows

variable {k'' : Kernel} {i : InstId}

theorem refl (k : Kernel) : k.Grows k := ⟨fun _ _ h => h, fun _ _ h => h, id, rfl, fun _ => .refl _, id⟩

theorem trans (h : k.Grows k') (h' : k'.Grows k'') : k.Grows k'' where
  inst i d hd := h'.inst i d (h.inst i d hd)
  value v d hd := h'.value v d (h.value v d hd)
  linked hk := h'.linked (h.linked hk)
  layout := h'.layout.trans h.layout
  sublist b := (h.sublist b).trans (h'.sublist b)
  solid hk := h'.solid (h.solid hk)

theorem insertInst {b : BlockId} {index : Nat} {instr : Instr} {j : InstId}
    (h : k.insertInst b index instr ty = .ok (k', j)) : k.Grows k' := by
  obtain ⟨pre, post, -, hins⟩ := insertInst_eq_ok h
  refine ⟨fun _ _ hd => (hins.inst?_of_some hd).1, fun _ _ hd => hins.value?_of_some hd,
    fun hk => (hk.insertInst h).1.linked, hins.layout, fun c => ?_, fun hk v d hd => ?_⟩
  · by_cases hc : c = b
    · rw [hc, hins.before, hins.after]
      exact (List.Sublist.refl pre).append (List.sublist_cons_self j post)
    · rw [hins.instsOf_ne c hc]
  · by_cases hv : v = k.values.nextId
    · cases hvoid : ty.isVoid with
      | true =>
        rw [value?, hins.value_void hvoid] at hd
        exact hk v d hd
      | false =>
        rw [hv, hins.value_new hvoid] at hd
        exact Option.some.inj hd ▸ hvoid
    · exact hk v d (hins.value_old v hv ▸ hd)

theorem addValue (k : Kernel) {kind : ValueKind} (hkind : ∀ i, kind ≠ .inst i) (hty : ty.isVoid = false) :
    k.Grows (k.addValue kind ty).1 := by
  refine ⟨fun _ _ hd => hd, fun v d hd => ?_, fun hk => ?_, rfl, fun _ => .refl _, fun hk v d hd => ?_⟩
  · refine (value?_addValue k kind ty v).trans ((if_neg ?_).trans hd)
    rintro rfl
    rw [value?_nextId] at hd
    cases hd
  · have hevolves : k.Evolves [.value k.values.nextId] (k.addValue kind ty).1 := hk.addValue hkind rfl rfl rfl rfl
    exact hevolves.linked
  · rw [value?_addValue] at hd
    split at hd
    · exact Option.some.inj hd ▸ hty
    · exact hk v d hd

section

variable (h : k.Grows k')
include h

/-- What is new later on is new now. -/
theorem inst?_eq_none (hi : k'.inst? i = none) : k.inst? i = none := by
  cases hd : k.inst? i with
  | none => rfl
  | some d => cases (h.inst i d hd).symm.trans hi

theorem value?_eq_none (hv : k'.value? v = none) : k.value? v = none := by
  cases hd : k.value? v with
  | none => rfl
  | some d => cases (h.value v d hd).symm.trans hv

theorem has (hi : k.Has (.inst i)) : k'.Has (.inst i) := by
  obtain ⟨d, hd⟩ := isSome_iff_exists.mp hi
  exact isSome_iff_exists.mpr ⟨d, h.inst i d hd⟩

theorem has_value (hv : k.Has (.value v)) : k'.Has (.value v) := by
  obtain ⟨d, hd⟩ := isSome_iff_exists.mp hv
  exact isSome_iff_exists.mpr ⟨d, h.value v d hd⟩

theorem instr? {instr : Instr} (hi : k.instr? i = some instr) : k'.instr? i = some instr := by
  obtain ⟨d, hd, rfl⟩ := map_eq_some_iff.mp hi
  rw [Kernel.instr?, h.inst i d hd]
  rfl

theorem isPhi (hi : k.isPhi i = true) : k'.isPhi i = true := by
  obtain ⟨instr, hinstr, hphi⟩ := (Option.any_eq_true _ _).mp hi
  rw [Kernel.isPhi, h.instr? hinstr]
  exact hphi

/-- What is asked about a value has the same answer. -/
theorem ask {f : ValueDef → Checked α} (hv : (k.value v >>= f) = .ok a) : (k'.value v >>= f) = .ok a := by
  obtain ⟨d, hd, hf⟩ := bind_eq_ok.mp hv
  exact bind_eq_ok.mpr ⟨d, some?_eq_ok.mpr (h.value v d (some?_eq_ok.mp hd)), hf⟩

theorem valueTy (hty : k.valueTy v = .ok ty) : k'.valueTy v = .ok ty := h.ask hty

theorem def? {i : Option InstId} (hv : k.def? v = .ok i) : k'.def? v = .ok i := h.ask hv

theorem isVarying {d : Divergence} {b : Bool} (hv : d.isVarying k v = .ok b) : d.isVarying k' v = .ok b := h.ask hv

end

end Grows

/-- A cursor in front of an instruction has a place. -/
theorem Linked.at_before (hk : k.Linked) {b : BlockId} {i : InstId} (hi : i ∈ k.instsOf b) :
    ∃ pre post, Cursor.At ⟨k, .before i⟩ b pre (i :: post) := by
  obtain ⟨d, hd, -, hblock⟩ := (hk.mem_iff b i).mp hi
  obtain ⟨pre, post, hsplit⟩ := List.append_of_mem hi
  refine ⟨pre, post, hblock ▸ hk.home i d hd, hsplit, ?_, rfl⟩
  rw [hd, Option.map_some, hblock]

end Kernel

/-! ## Building -/

/-- Building only adds to the kernel and keeps the order of what is there. A point that comes to stand behind an
instruction stands behind one that was built. -/
structure Build.Grows {α : Type} (x : Build α) : Prop where
  kernel : ∀ c a c', x c = .ok (a, c') → c.kernel.Grows c'.kernel
  point : ∀ c a c', x c = .ok (a, c') → ∀ j, c'.point = .after j → c.point = .after j ∨ c'.kernel.Has (.inst j)

namespace Build

variable {x : Build α} {instr : Instr}

theorem Grows.pure (a : α) : (Pure.pure a : Build α).Grows := by
  constructor <;> intro c b c' h <;> obtain ⟨-, rfl⟩ := statePure_eq_ok.mp h
  · exact .refl _
  · exact fun _ => .inl

theorem Grows.bind {f : α → Build β} (hx : x.Grows) (hf : ∀ a, (f a).Grows) : (x >>= f).Grows := by
  constructor <;> intro c b c' h <;> obtain ⟨a, c1, h1, h2⟩ := stateBind_eq_ok.mp h
  · exact (hx.kernel c a c1 h1).trans ((hf a).kernel c1 b c' h2)
  · intro j hj
    rcases (hf a).point c1 b c' h2 j hj with hpoint | hhas
    · exact (hx.point c a c1 h1 j hpoint).imp_right ((hf a).kernel c1 b c' h2).has
    · exact .inr hhas

theorem Grows.foldlM {f : β → α → Build β} (hf : ∀ b a, (f b a).Grows) (xs : List α) (b : β) :
    (xs.foldlM f b).Grows := by
  induction xs generalizing b with
  | nil => exact .pure b
  | cons a xs ih => exact .bind (hf b a) ih

theorem grows_const (hty : ty.isVoid = false) (x : Constant) : (const ty x).Grows := by
  constructor <;> intro c v c' h <;> cases h
  · exact .addValue c.kernel (fun _ => by simp) hty
  · exact fun _ => .inl

theorem grows_insert (instr : Instr) (ty : Ty) : (insert instr ty).Grows := by
  constructor <;> intro c i c' h <;> obtain ⟨_, _, -, hinsert, hpoint⟩ := insert_eq_ok h
  · exact .insertInst hinsert
  · intro j hj
    have hnew : c'.kernel.Has (.inst i) := by
      obtain ⟨pre, post, -, hins⟩ := insertInst_eq_ok hinsert
      rw [Kernel.Has, hins.inst_new]
      rfl
    rw [hpoint] at hj
    revert hj
    cases c.point with
    | after _ | afterPhis _ => exact fun hj => .inr (InsertPoint.after.inj hj ▸ hnew)
    | atEnd _ | beforeTerminator _ | before _ => exact fun hj => absurd hj (by simp [InsertPoint.advance])

/-- What comes down to inserting one instruction. -/
theorem Grows.of_insert (h : ∀ c a c', x c = .ok (a, c') → ∃ instr ty j, insert instr ty c = .ok (j, c')) :
    x.Grows := by
  constructor <;> intro c a c' hx <;> obtain ⟨instr, ty, j, hinsert⟩ := h c a c' hx
  · exact (grows_insert instr ty).kernel c j c' hinsert
  · exact (grows_insert instr ty).point c j c' hinsert

/-- What is inserted for its value: the value is new and has the given type, unless that is void. -/
theorem insertValue_eq_ok (h : insertValue instr ty c = .ok (v, c')) :
    ∃ j, insert instr ty c = .ok (j, c') ∧
      (ty.isVoid = false → v = c.kernel.values.nextId ∧ c'.kernel.value? v = some ⟨.inst j, ty⟩) := by
  obtain ⟨j, c1, hinsert, h1⟩ := stateBind_eq_ok.mp h
  obtain ⟨_, _, hget, h2⟩ := stateBind_eq_ok.mp h1
  obtain ⟨rfl, rfl⟩ := stateGet_eq_ok.mp hget
  obtain ⟨rfl, rfl⟩ := statePure_eq_ok.mp h2
  refine ⟨j, hinsert, fun hvoid => ?_⟩
  obtain ⟨b, index, -, hins, -⟩ := insert_eq_ok hinsert
  obtain ⟨pre, post, -, hins⟩ := insertInst_eq_ok hins
  have hresult : (c1.kernel.result? j).getD .absent = c.kernel.values.nextId := by
    rw [hins.result?_eq, hvoid]
    rfl
  exact ⟨hresult, hresult ▸ hins.value_new hvoid⟩

theorem emitValue_eq_insertValue (h : emitValue instr given c = .ok (v, c')) :
    ∃ ty, resultTy given instr c = .ok (ty, c) ∧ insertValue instr ty c = .ok (v, c') := by
  obtain ⟨ty, c1, hty, h1⟩ := stateBind_eq_ok.mp h
  obtain rfl := resultTy_unchanged hty
  exact ⟨ty, hty, h1⟩

theorem grows_insertValue (instr : Instr) (ty : Ty) : (insertValue instr ty).Grows := by
  refine .of_insert fun c v c' h => ?_
  obtain ⟨j, hinsert, -⟩ := insertValue_eq_ok h
  exact ⟨instr, ty, j, hinsert⟩

theorem grows_emit (instr : Instr) (given : Ty) : (emit instr given).Grows := by
  refine .of_insert fun c j c' h => ?_
  obtain ⟨ty, hinsert⟩ := emit_eq_ok h
  exact ⟨instr, ty, j, hinsert⟩

theorem grows_emitValue (instr : Instr) (given : Ty) : (emitValue instr given).Grows := by
  refine .of_insert fun c v c' h => ?_
  obtain ⟨ty, -, hvalue⟩ := emitValue_eq_insertValue h
  obtain ⟨j, hinsert, -⟩ := insertValue_eq_ok hvalue
  exact ⟨instr, ty, j, hinsert⟩

end Build

/-! ## New values -/

namespace Kernel

/-- The value is new in `k'`, and so is the instruction that defines it. -/
def MadeBy (k k' : Kernel) (v : ValueId) (instr : Instr) : Prop :=
  k.value? v = none ∧ ∃ j ty b, k.inst? j = none ∧ k'.value? v = some ⟨.inst j, ty⟩ ∧
    k'.inst? j = some ⟨instr, some v, b, false⟩

namespace MadeBy

variable {k0 : Kernel} {instr : Instr}

theorem has (h : k.MadeBy k' v instr) : k'.Has (.value v) := by
  obtain ⟨-, j, ty, b, -, hv, -⟩ := h
  exact isSome_iff_exists.mpr ⟨_, hv⟩

/-- What is new later was not there in the beginning. -/
theorem before (h : k.MadeBy k' v instr) (hvalue : ∀ v, k.value? v = none → k0.value? v = none)
    (hinst : ∀ j, k.inst? j = none → k0.inst? j = none) : k0.MadeBy k' v instr := by
  obtain ⟨hnew, j, ty, b, hj, hv, hinstr⟩ := h
  exact ⟨hvalue v hnew, j, ty, b, hinst j hj, hv, hinstr⟩

theorem after (h : k0.MadeBy k v instr) (hafter : k.Grows k') : k0.MadeBy k' v instr := by
  obtain ⟨hnew, j, ty, b, hj, hv, hinstr⟩ := h
  exact ⟨hnew, j, ty, b, hj, hafter.value v _ hv, hafter.inst j _ hinstr⟩

end MadeBy

end Kernel

/-- Whether the instruction defines a value, given a type as `Build.resultTy` takes it. -/
def Instr.givesValue (given : Ty) : Instr → Bool
  | .splat _ => given.vector?.isSome
  | .load .. | .strideLoad .. | .gather .. | .call .. | .phi _ | .stepVector => !given.isVoid
  | .store .. | .strideStore .. | .scatter .. | .br _ | .condBr .. | .switch .. | .ret _ | .unreachable => false
  | _ => true

namespace Build

variable {instr : Instr} {x : ValueId}

theorem not_void_tyOf (hsolid : c.kernel.Solid) (h : tyOf x c = .ok (ty, c')) : ty.isVoid = false := by
  obtain ⟨d, hd, rfl, -⟩ := tyOf_eq_ok h
  exact hsolid x d hd

theorem not_void_tyOf_bind (hsolid : c.kernel.Solid) {f : Ty → Ty}
    (hf : ∀ t : Ty, t.isVoid = false → (f t).isVoid = false) (h : (tyOf x >>= fun t => pure (f t)) c = .ok (ty, c')) :
    ty.isVoid = false := by
  obtain ⟨t, _, ht, h⟩ := stateBind_eq_ok.mp h
  obtain ⟨rfl, -⟩ := statePure_eq_ok.mp h
  exact hf t (not_void_tyOf hsolid ht)

/-- Where no value is void, the type of a result is not void. -/
theorem not_void_resultTy (hsolid : c.kernel.Solid) (hgives : instr.givesValue given = true)
    (h : resultTy given instr c = .ok (ty, c')) : ty.isVoid = false := by
  cases instr with
  | binary _ x | unary _ x | select _ x | insert x => exact not_void_tyOf hsolid h
  | compare | cast | extract | reduce =>
    exact not_void_tyOf_bind hsolid (fun t ht => by cases t <;> first | rfl | exact ht) h
  | splat x =>
    obtain ⟨shape, hshape⟩ := isSome_iff_exists.mp hgives
    refine not_void_tyOf_bind hsolid (fun t ht => ?_) h
    rw [hshape]
    cases t <;> first | rfl | exact ht
  | elementPtr base index =>
    obtain ⟨_, _, hbase, hindex⟩ := stateBind_eq_ok.mp h
    obtain ⟨-, -, -, rfl⟩ := tyOf_eq_ok hbase
    refine not_void_tyOf_bind hsolid (fun t _ => ?_) hindex
    unfold elementPtrTy
    split <;> rfl
  | shuffle sources =>
    cases sources with
    | nil => exact (statePure_eq_ok.mp h).1 ▸ rfl
    | cons x => exact not_void_tyOf_bind hsolid (fun t _ => rfl) h
  | alloca => exact (statePure_eq_ok.mp h).1 ▸ rfl
  | load | strideLoad | gather | call | phi | stepVector =>
    obtain ⟨rfl, -⟩ := statePure_eq_ok.mp h
    simpa [Instr.givesValue] using hgives
  | store | strideStore | scatter | br | condBr | switch | ret | unreachable => exact Bool.noConfusion hgives

theorem insertValue_madeBy (hty : ty.isVoid = false) (h : insertValue instr ty c = .ok (v, c')) :
    c.kernel.MadeBy c'.kernel v instr := by
  obtain ⟨j, hinsert, hnew⟩ := insertValue_eq_ok h
  obtain ⟨rfl, hv⟩ := hnew hty
  obtain ⟨b, index, -, hinst, -⟩ := insert_eq_ok hinsert
  obtain ⟨pre, post, -, hins⟩ := insertInst_eq_ok hinst
  refine ⟨value?_nextId _, j, ty, b, ?_, hv, ?_⟩
  · rw [hins.id]
    exact inst?_nextId _
  · rw [hins.inst_new, hty]
    rfl

theorem emitValue_madeBy (hsolid : c.kernel.Solid) (hgives : instr.givesValue given = true)
    (h : emitValue instr given c = .ok (v, c')) : c.kernel.MadeBy c'.kernel v instr := by
  obtain ⟨ty, hty, h⟩ := emitValue_eq_insertValue h
  exact insertValue_madeBy (not_void_resultTy hsolid hgives hty) h

/-- What is built is a new value. -/
def Fresh (x : Build ValueId) : Prop :=
  ∀ c v c', c.kernel.Solid → x c = .ok (v, c') → c.kernel.value? v = none ∧ c'.kernel.Has (.value v)

theorem fresh_insertValue (hty : ty.isVoid = false) : (insertValue instr ty).Fresh := by
  intro c v c' _ h
  have hmade := insertValue_madeBy hty h
  exact ⟨hmade.1, hmade.has⟩

theorem fresh_emitValue (hgives : instr.givesValue given = true) : (emitValue instr given).Fresh := by
  intro c v c' hsolid h
  have hmade := emitValue_madeBy hsolid hgives h
  exact ⟨hmade.1, hmade.has⟩

theorem Fresh.bind {x : Build α} {f : α → Build ValueId} (hx : x.Grows) (hf : ∀ a, (f a).Fresh) :
    (x >>= f).Fresh := by
  intro c v c' hsolid h
  obtain ⟨a, c1, h1, h2⟩ := stateBind_eq_ok.mp h
  have hgrows := hx.kernel c a c1 h1
  obtain ⟨hnew, hhas⟩ := hf a c1 v c' (hgrows.solid hsolid) h2
  exact ⟨hgrows.value?_eq_none hnew, hhas⟩

/-- Building on a value step by step ends with a new one, unless nothing is built. -/
theorem Fresh.foldlM {f : ValueId → α → Build ValueId} (hgrows : ∀ x a, (f x a).Grows) (hf : ∀ x a, (f x a).Fresh)
    (hsolid : c.kernel.Solid) (h : xs.foldlM f x c = .ok (v, c')) :
    v = x ∧ c' = c ∨ c.kernel.value? v = none ∧ c'.kernel.Has (.value v) := by
  induction xs generalizing x c with
  | nil =>
    obtain ⟨rfl, rfl⟩ := statePure_eq_ok.mp h
    exact .inl ⟨rfl, rfl⟩
  | cons a xs ih =>
    obtain ⟨y, c1, hy, h⟩ := stateBind_eq_ok.mp h
    obtain ⟨hnew, hhas⟩ := hf x a c y c1 hsolid hy
    have hstep := (hgrows x a).kernel c y c1 hy
    rcases ih (hstep.solid hsolid) h with ⟨rfl, rfl⟩ | ⟨hlater, hhas'⟩
    · exact .inr ⟨hnew, hhas⟩
    · exact .inr ⟨hstep.value?_eq_none hlater, hhas'⟩

theorem tyOf_of_valueTy (h : c.kernel.valueTy x = .ok ty) : tyOf x c = .ok (ty, c) := by
  obtain ⟨d, hd, rfl⟩ := bind_pure_eq_ok.mp h
  exact tyOf_of_value? (some?_eq_ok.mp hd)

theorem resultTy_splat (shape : VectorTy) (h : c.kernel.valueTy x = .ok ty) :
    resultTy (.vector shape) (.splat x) c = .ok (ty.withLanes shape, c) :=
  stateBind_eq_ok.mpr ⟨ty, c, tyOf_of_valueTy h, rfl⟩

/-- The value of a new instruction has the type that its operands give it. -/
theorem valueTy_emitValue (hty : resultTy given instr c = .ok (ty, c)) (hvoid : ty.isVoid = false)
    (h : emitValue instr given c = .ok (v, c')) : c'.kernel.valueTy v = .ok ty := by
  obtain ⟨ty', hty', h⟩ := emitValue_eq_insertValue h
  cases ok_unique hty hty'
  obtain ⟨j, -, hv⟩ := insertValue_eq_ok h
  exact bind_eq_ok.mpr ⟨_, some?_eq_ok.mpr (hv hvoid).2, rfl⟩

/-- Filling in lanes one after another keeps the type. -/
theorem valueTy_foldlM {f : ValueId → α → Build ValueId}
    (hf : ∀ acc a c v c', c.kernel.valueTy acc = .ok ty → f acc a c = .ok (v, c') → c'.kernel.valueTy v = .ok ty)
    (hx : c.kernel.valueTy x = .ok ty) (h : xs.foldlM f x c = .ok (v, c')) : c'.kernel.valueTy v = .ok ty := by
  induction xs generalizing x c with
  | nil =>
    obtain ⟨rfl, rfl⟩ := statePure_eq_ok.mp h
    exact hx
  | cons a xs ih =>
    obtain ⟨y, c1, hy, h⟩ := stateBind_eq_ok.mp h
    exact ih (hf x a c y c1 hx hy) h

end Build

/-! ## Placement -/

/-- The last thing behind a definition is noted if the point of a cursor names it. -/
def Widening.stopAt (s : Widening) (definition : Option InstId) (point : InsertPoint) : Widening :=
  match point, definition with
  | .after last, some i => { s with tails := s.tails.insert i last }
  | .after last, none => { s with entryTail := some last }
  | _, _ => s

theorem Widening.stopAt_kept (s : Widening) (definition : Option InstId) (point : InsertPoint) :
    (s.stopAt definition point).kernel = s.kernel ∧ (s.stopAt definition point).packets = s.packets := by
  cases point <;> cases definition <;> exact ⟨rfl, rfl⟩

namespace Widen

variable {s s' : Widening} {t : WidenTask} {x : Widen α} {f : α → Widen β} {action : Build α}

export Stateful (bind_eq_ok bind_of_eq_ok bind_pure_eq_ok pure_eq_ok throw_ne_ok Moves)

theorem unsupported_ne_ok {i : Option InstId} {o : Obstacle} : (unsupported i o : Widen α) s ≠ .ok a s' :=
  throw_ne_ok

theorem lift_eq_ok {x : Checked α} : (liftM x : Widen α) s = .ok a s' ↔ x = .ok a ∧ s = s' := by
  cases x with
  | ok b =>
    show Result.ok b s = .ok a s' ↔ _
    rw [Result.ok.injEq, Except.ok.injEq]
  | error f =>
    show Result.error (Failure.fault f) s = .ok a s' ↔ _
    simp

theorem lift_bind_eq_ok {x : Checked α} {b : β} :
    ((liftM x : Widen α) >>= f) s = .ok b s' ↔ ∃ a, x = .ok a ∧ f a s = .ok b s' := by
  rw [bind_eq_ok]
  constructor
  · rintro ⟨a, _, hlift, h⟩
    obtain ⟨hx, rfl⟩ := lift_eq_ok.mp hlift
    exact ⟨a, hx, h⟩
  · rintro ⟨a, hx, h⟩
    exact ⟨a, s, lift_eq_ok.mpr ⟨hx, rfl⟩, h⟩

-- Steps that cannot fail: only what follows them is left.

theorem get_bind {f : Widening → Widen β} : ((get : Widen Widening) >>= f) s = f s s := rfl

theorem kernel_bind {f : Kernel → Widen β} : (kernel >>= f) s = f s.kernel s := rfl

theorem modify_bind {g : Widening → Widening} {f : PUnit → Widen β} : ((modify g : Widen PUnit) >>= f) s = f ⟨⟩ (g s) := rfl

theorem buildAt_eq_ok {point : InsertPoint} {r : α × InsertPoint} :
    buildAt point action s = .ok r s' ↔
      ∃ c, action ⟨s.kernel, point⟩ = .ok (r.1, c) ∧ c.point = r.2 ∧ s' = { s with kernel := c.kernel } := by
  have hrun : buildAt point action s = match action ⟨s.kernel, point⟩ with
      | .ok (a, c) => .ok (a, c.point) { s with kernel := c.kernel }
      | .error f => .error (.fault f) s := by
    show (liftM (s.kernel.build point action) >>= _ : Widen _) s = _
    rw [build, StateT.run]
    cases action ⟨s.kernel, point⟩ <;> rfl
  rw [hrun]
  cases action ⟨s.kernel, point⟩ with
  | error f => simp
  | ok a =>
    obtain ⟨a, c⟩ := a
    obtain ⟨b, q⟩ := r
    simp only [Result.ok.injEq, Prod.mk.injEq, Except.ok.injEq]
    constructor
    · rintro ⟨⟨rfl, rfl⟩, rfl⟩
      exact ⟨c, ⟨rfl, rfl⟩, rfl, rfl⟩
    · rintro ⟨_, ⟨rfl, rfl⟩, rfl, rfl⟩
      exact ⟨⟨rfl, rfl⟩, rfl⟩

theorem before_eq_ok {i : InstId} :
    before i action s = .ok a s' ↔
      ∃ c, action ⟨s.kernel, .before i⟩ = .ok (a, c) ∧ s' = { s with kernel := c.kernel } := by
  rw [before, bind_eq_ok]
  constructor
  · rintro ⟨⟨b, point⟩, s1, hbuild, h⟩
    obtain ⟨rfl, rfl⟩ := pure_eq_ok.mp h
    obtain ⟨c, haction, -, hs⟩ := buildAt_eq_ok.mp hbuild
    exact ⟨c, haction, hs⟩
  · rintro ⟨c, haction, hs⟩
    exact ⟨(a, c.point), s', buildAt_eq_ok.mpr ⟨c, haction, rfl, hs⟩, rfl⟩

theorem kernel_eq_ok : kernel s = .ok k s' ↔ s.kernel = k ∧ s = s' := by
  show Result.ok s.kernel s = .ok k s' ↔ _
  rw [Result.ok.injEq]

theorem valueTy_eq_ok : valueTy v s = .ok ty s' ↔ s.kernel.valueTy v = .ok ty ∧ s = s' := lift_eq_ok

theorem valueTy_bind_eq_ok {f : Ty → Widen β} {b : β} :
    (valueTy v >>= f) s = .ok b s' ↔ ∃ ty, s.kernel.valueTy v = .ok ty ∧ f ty s = .ok b s' := lift_bind_eq_ok

/-- Conversions of a value are built behind those that are there, and the last of them is noted. -/
theorem behind_eq_ok :
    behind t v action s = .ok a s' ↔ ∃ definition point c, s.kernel.def? v = .ok definition ∧
      conversionPoint t s definition = .ok point ∧ action ⟨s.kernel, point⟩ = .ok (a, c) ∧
        s' = ({ s with kernel := c.kernel } : Widening).stopAt definition c.point := by
  have hbehind : behind t v action = (do
      let s ← get
      let definition ← s.kernel.def? v
      let r ← buildAt (← conversionPoint t s definition) action
      modify (·.stopAt definition r.2)
      return r.1) := by
    unfold behind
    congr 1
    funext s
    congr 1
    funext definition
    congr 1
    funext point
    congr 1
    funext r
    obtain ⟨a, point⟩ := r
    cases point <;> cases definition <;> rfl
  rw [hbehind, get_bind, lift_bind_eq_ok]
  constructor
  · rintro ⟨definition, hdef, h⟩
    obtain ⟨point, hpoint, h⟩ := lift_bind_eq_ok.mp h
    obtain ⟨r, s1, hbuild, h⟩ := bind_eq_ok.mp h
    rw [modify_bind] at h
    obtain ⟨rfl, rfl⟩ := pure_eq_ok.mp h
    obtain ⟨c, haction, hlast, rfl⟩ := buildAt_eq_ok.mp hbuild
    exact ⟨definition, point, c, hdef, hpoint, haction, by rw [hlast]⟩
  · rintro ⟨definition, point, c, hdef, hpoint, haction, rfl⟩
    exact ⟨definition, hdef, lift_bind_eq_ok.mpr ⟨point, hpoint,
      bind_eq_ok.mpr ⟨(a, c.point), _, buildAt_eq_ok.mpr ⟨c, haction, rfl, rfl⟩, rfl⟩⟩⟩

theorem exists_of_behind (h : behind t v action s = .ok a s') :
    ∃ point c, action ⟨s.kernel, point⟩ = .ok (a, c) ∧ s'.kernel = c.kernel := by
  obtain ⟨definition, point, c, -, -, haction, rfl⟩ := behind_eq_ok.mp h
  exact ⟨point, c, haction, (Widening.stopAt_kept _ _ _).1⟩

end Widen

end Spmd
