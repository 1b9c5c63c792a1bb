import Spmd.Proofs.Kernel.History

/-!
# Declared types

The values of a kernel have the types that its parameters and instructions declare. Edits see to that
(**`Kernel.declared_of_edits`**): a parameter comes with a value of its type, and an instruction gets a value only if
its type is not void. Edits also see to it that a value is a parameter only if the kernel lists it as one.
-/

namespace Spmd.Kernel

open Success

variable {k k' : Kernel} {new : List Thing} {b : BlockId} {i : InstId} {v : ValueId} {e : Edit} {es : List Edit}
  {name : String} {ret : Ty}

/-- The types that the kernel declares fit together: the value of a parameter has its type, and what an instruction
defines is a value of its own that is not void. -/
structure Declared (k : Kernel) : Prop where
  params : ∀ v d n, k.value? v = some d → d.kind = .param n → ∃ p, k.params[n]? = some p ∧ p.ty = d.ty
  results : ∀ i v, k.result? i = some v → ∃ d, k.value? v = some d ∧ d.kind = .inst i
  nonvoid : ∀ v d i, k.value? v = some d → d.kind = .inst i → d.ty.isVoid = false

/-- A value that is a parameter is listed as that parameter. -/
def ListsParams (k : Kernel) : Prop :=
  ∀ v d n, k.value? v = some d → d.kind = .param n → ∃ p, k.params[n]? = some p ∧ p.value = v

namespace Linked

theorem exists_value (hk : k.Linked) (h : k.result? i = some v) : ∃ d, k.value? v = some d ∧ d.kind = .inst i :=
  map_eq_some_iff.mp ((hk.defines_iff i v).mp h)

end Linked

namespace Declared

variable {pre post : List InstId} {instr : Instr} {ty : Ty}

theorem of_same (hk : k'.Linked) (h : k.Declared) (hvalues : k'.values = k.values) (hparams : k'.params = k.params) :
    k'.Declared := by
  have hvalue : ∀ v, k'.value? v = k.value? v := fun v => by rw [value?, hvalues, value?]
  refine ⟨fun v d n hd hkind => ?_, fun i v => hk.exists_value, fun v d i hd => h.nonvoid v d i (hvalue v ▸ hd)⟩
  rw [hparams]
  exact h.params v d n (hvalue v ▸ hd) hkind

/-- One more value fits if it is a constant, undefined, or that of a new parameter. -/
theorem addValue (kind : ValueKind) (ty : Ty) (more : List Param) (hk : k'.Linked) (h : k.Declared)
    (hvalues : k'.values = (k.addValue kind ty).1.values) (hparams : k'.params = k.params ++ more)
    (hparam : ∀ n, kind = .param n → ∃ p, k'.params[n]? = some p ∧ p.ty = ty) (hinst : ∀ i, kind ≠ .inst i) :
    k'.Declared := by
  have hvalue : ∀ v, k'.value? v = if v = k.values.nextId then some ⟨kind, ty⟩ else k.value? v := fun v => by
    rw [value?, hvalues, ← value?, value?_addValue]
  refine ⟨fun v d n hd hkind => ?_, fun i v => hk.exists_value, fun v d i hd hkind => ?_⟩
  · rw [hvalue] at hd
    split at hd
    · cases hd
      exact hparam n hkind
    · obtain ⟨p, hp, hty⟩ := h.params v d n hd hkind
      refine ⟨p, ?_, hty⟩
      rw [hparams, List.getElem?_append_left (List.getElem?_eq_some_iff.mp hp).1, hp]
  · rw [hvalue] at hd
    split at hd
    · cases hd
      exact absurd hkind (hinst i)
    · exact h.nonvoid v d i hd hkind

theorem value?_inserted (hins : Inserted k b pre post instr ty k' i) {d : ValueDef} (hd : k'.value? v = some d) :
    k.value? v = some d ∨ d = ⟨.inst i, ty⟩ ∧ ty.isVoid = false := by
  by_cases hv : v = k.values.nextId
  · subst hv
    cases hvoid : ty.isVoid with
    | true =>
      rw [value?, hins.value_void hvoid] at hd
      exact .inl hd
    | false => exact .inr ⟨mem_unique hd (hins.value_new hvoid), rfl⟩
  · exact .inl (hins.value_old v hv ▸ hd)

theorem inserted (hk : k'.Linked) (h : k.Declared) (hins : Inserted k b pre post instr ty k' i) : k'.Declared := by
  refine ⟨fun v d n hd hkind => ?_, fun i v => hk.exists_value, fun v d j hd hkind => ?_⟩
  · rw [hins.params]
    rcases value?_inserted hins hd with hd | ⟨rfl, _⟩
    · exact h.params v d n hd hkind
    · cases hkind
  · rcases value?_inserted hins hd with hd | ⟨rfl, hvoid⟩
    · exact h.nonvoid v d j hd hkind
    · exact hvoid

theorem same_removeInst (h : k.removeInst i = .ok k') : k'.values = k.values ∧ k'.params = k.params := by
  obtain ⟨d, _, h⟩ := bind_eq_ok.mp h
  split at h
  · obtain rfl := pure_eq_ok.mp h
    exact ⟨rfl, rfl⟩
  · obtain ⟨_, _, rfl⟩ := bind_pure_eq_ok.mp h
    exact ⟨rfl, rfl⟩

theorem same_removeUnreachable {n : Nat} (h : k.removeUnreachable = .ok (k', n)) :
    k'.values = k.values ∧ k'.params = k.params := by
  obtain ⟨-, -, k1, hfold, rfl⟩ := removeUnreachable_eq_ok.mp h
  have hsame : k1.values = k.values ∧ k1.params = k.params := by
    refine foldlM_invariant (fun k1 => k1.values = k.values ∧ k1.params = k.params) (fun s b s' _ hs hb => ?_)
      ⟨rfl, rfl⟩ hfold
    have hcleared := removeBlock_eq_ok hb
    exact ⟨hcleared.values.trans hs.1, hcleared.params.trans hs.2⟩
  split
  · exact hsame
  · obtain ⟨insts, -, heq⟩ := k1.dropInputs_eq k.reachableBlocks
    rw [heq]
    exact hsame

/-- What an edit does to values and parameters: nothing, or it adds a value that no instruction defines (and the
parameter that the value belongs to), or it inserts an instruction. -/
theorem values_apply (happly : e.apply k = .ok (k', new)) :
    (k'.values = k.values ∧ k'.params = k.params) ∨
      (∃ kind ty more, k'.values = (k.addValue kind ty).1.values ∧ k'.params = k.params ++ more ∧ (∀ i, kind ≠ .inst i) ∧
        ∀ n, kind = .param n → ∃ p, k'.params[n]? = some p ∧ p.ty = ty ∧ p.value = k.values.nextId) ∨
      ∃ b pre post instr ty i, Inserted k b pre post instr ty k' i := by
  cases e with
  | addParam name ty attrs =>
    cases pure_eq_ok.mp happly
    refine .inr (.inl ⟨.param k.params.length, ty, [_], rfl, rfl, by simp, fun n hn => ?_⟩)
    cases hn
    exact ⟨_, List.getElem?_concat_length, rfl, rfl⟩
  | addConst ty _ | addUndef ty =>
    cases pure_eq_ok.mp happly
    exact .inr (.inl ⟨_, ty, [], rfl, (List.append_nil _).symm, by simp, by simp⟩)
  | addBlock name =>
    cases pure_eq_ok.mp happly
    exact .inl ⟨rfl, rfl⟩
  | insert b index instr ty =>
    obtain ⟨⟨k1, i⟩, hinsert, happly⟩ := bind_eq_ok.mp happly
    cases pure_eq_ok.mp happly
    obtain ⟨_, _, _, hins⟩ := insertInst_eq_ok hinsert
    exact .inr (.inr ⟨_, _, _, _, _, _, hins⟩)
  | insertAt point instr ty =>
    obtain ⟨⟨i, c⟩, hbuild, happly⟩ := bind_eq_ok.mp happly
    cases pure_eq_ok.mp happly
    obtain ⟨_, _, _, hinsert, _⟩ := Build.insert_eq_ok hbuild
    obtain ⟨_, _, _, hins⟩ := insertInst_eq_ok hinsert
    exact .inr (.inr ⟨_, _, _, _, _, _, hins⟩)
  | emitAt point instr given =>
    obtain ⟨⟨i, c⟩, hemit, happly⟩ := bind_eq_ok.mp happly
    cases pure_eq_ok.mp happly
    obtain ⟨ty, hbuild⟩ := Build.emit_eq_ok hemit
    obtain ⟨_, _, _, hinsert, _⟩ := Build.insert_eq_ok hbuild
    obtain ⟨_, _, _, hins⟩ := insertInst_eq_ok hinsert
    exact .inr (.inr ⟨_, _, _, _, _, _, hins⟩)
  | removeInst i =>
    obtain ⟨k1, hremove, happly⟩ := bind_eq_ok.mp happly
    cases pure_eq_ok.mp happly
    exact .inl (same_removeInst hremove)
  | replaceUses old new =>
    cases pure_eq_ok.mp happly
    obtain ⟨insts, -, heq⟩ := replaceUses_eq k old new
    rw [heq]
    exact .inl ⟨rfl, rfl⟩
  | removeBlock b =>
    obtain ⟨k1, hremove, happly⟩ := bind_eq_ok.mp happly
    cases pure_eq_ok.mp happly
    have hcleared := removeBlock_eq_ok hremove
    exact .inl ⟨hcleared.values, hcleared.params⟩
  | removeUnreachable =>
    obtain ⟨⟨k1, n⟩, hremove, happly⟩ := bind_eq_ok.mp happly
    cases pure_eq_ok.mp happly
    exact .inl (same_removeUnreachable hremove)

/-- **An edit keeps the declared types in order.** -/
theorem apply (hk : k.Linked) (h : k.Declared) (happly : e.apply k = .ok (k', new)) : k'.Declared := by
  have hk' := (hk.apply happly).1.linked
  obtain ⟨hvalues, hparams⟩ | ⟨kind, ty, more, hvalues, hparams, hinst, hparam⟩ | ⟨_, _, _, _, _, _, hins⟩ :=
    values_apply happly
  · exact h.of_same hk' hvalues hparams
  · refine h.addValue kind ty more hk' hvalues hparams (fun n hn => ?_) hinst
    obtain ⟨p, hp, hty, _⟩ := hparam n hn
    exact ⟨p, hp, hty⟩
  · exact h.inserted hk' hins

end Declared

theorem ListsParams.apply (h : k.ListsParams) (happly : e.apply k = .ok (k', new)) : k'.ListsParams := by
  intro v d n hd hkind
  obtain ⟨hvalues, hparams⟩ | ⟨kind, ty, more, hvalues, hparams, _, hparam⟩ | ⟨_, _, _, _, _, _, hins⟩ :=
    Declared.values_apply happly
  · rw [value?, hvalues] at hd
    exact hparams ▸ h v d n hd hkind
  · rw [value?, hvalues, ← value?, value?_addValue] at hd
    split at hd
    next hv =>
      cases hd
      obtain ⟨p, hp, _, hvalue⟩ := hparam n hkind
      exact ⟨p, hp, hvalue.trans hv.symm⟩
    · obtain ⟨p, hp, hvalue⟩ := h v d n hd hkind
      refine ⟨p, ?_, hvalue⟩
      rw [hparams, List.getElem?_append_left (List.getElem?_eq_some_iff.mp hp).1, hp]
  · rw [hins.params]
    rcases Declared.value?_inserted hins hd with hd | ⟨rfl, _⟩
    · exact h v d n hd hkind
    · cases hkind

theorem edit_invariant {P : Kernel → Prop} (hstep : ∀ {k e k' new}, P k → Edit.apply k e = .ok (k', new) → P k')
    (hk : P k) (h : k.edit es = .ok (k', new)) : P k' := by
  induction es generalizing k new with
  | nil =>
    cases pure_eq_ok.mp h
    exact hk
  | cons e es ih =>
    obtain ⟨⟨k1, first⟩, happly, h⟩ := bind_eq_ok.mp h
    obtain ⟨⟨k2, more⟩, hrest, h⟩ := bind_eq_ok.mp h
    cases pure_eq_ok.mp h
    exact ih (hstep hk happly) hrest

/-- All kernels that are made by edits declare types that fit together. -/
theorem declared_of_edits (h : edit { name, ret } es = .ok (k, new)) : k.Declared := by
  have hempty : Declared { name, ret } :=
    ⟨by simp [value?, Arena.get?], by simp [result?, inst?, Arena.get?], by simp [value?, Arena.get?]⟩
  exact (edit_invariant (P := fun k => k.Linked ∧ k.Declared)
    (fun hk happly => ⟨(hk.1.apply happly).1.linked, hk.2.apply hk.1 happly⟩) ⟨linked_empty name ret, hempty⟩ h).2

/-- They list their parameters too. -/
theorem listsParams_of_edits (h : edit { name, ret } es = .ok (k, new)) : k.ListsParams :=
  edit_invariant ListsParams.apply (fun v d n hd => absurd hd (by simp [value?, Arena.get?])) h

/-- The same for a kernel that is written out. -/
theorem declared_of_made (h : (edit { name, ret } es).toOption.map (·.1) = some k) : k.Declared := by
  obtain ⟨⟨k', made⟩, hedit, rfl⟩ := map_eq_some_iff.mp h
  exact declared_of_edits (eq_ok_of_toOption hedit)

end Spmd.Kernel
