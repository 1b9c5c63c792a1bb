import Spmd.Proofs.Kernel.Cursor
import Spmd.Proofs.Kernel.Recast

/-!
# Building in front of an instruction

A cursor in front of an instruction of a sound kernel (`Cursor.Before`) can build every well-typed instruction whose
operands are ready there; the kernel stays sound, and is recast with the new instructions in front of the old one
(`Cursor.Emits`).
-/

namespace Spmd

open Kernel List Build

variable {pre post js : List InstId} {b : BlockId} {i : InstId} {φ : Flow} {v : ValueId}

/-- The instructions `js` stand in front of `i`, and everything else stays. -/
def inFrontOf (i : InstId) (js : List InstId) (l : InstId) : List InstId := if l = i then js ++ [i] else [l]

theorem inFrontOf_self (i : InstId) (js : List InstId) : inFrontOf i js i = js ++ [i] := if_pos rfl

theorem inFrontOf_of_ne {l : InstId} (h : l ≠ i) (js : List InstId) : inFrontOf i js l = [l] := if_neg h

theorem mem_inFrontOf (i : InstId) (js : List InstId) (l : InstId) : l ∈ inFrontOf i js l := by
  unfold inFrontOf
  split
  next hl =>
    simp [hl]
  · exact .head _

theorem inFrontOf_nil (i : InstId) : inFrontOf i [] = fun l => [l] := by
  funext l
  unfold inFrontOf
  split
  next hl =>
    rw [hl]
    rfl
  · rfl

theorem flatMap_inFrontOf (h : i ∉ js) (js' : List InstId) (l : InstId) :
    (inFrontOf i js l).flatMap (inFrontOf i js') = inFrontOf i (js ++ js') l := by
  have hjs : js.flatMap (inFrontOf i js') = js :=
    flatMap_eq_self fun x hx => inFrontOf_of_ne (fun heq : x = i => h (heq ▸ hx)) js'
  unfold inFrontOf at hjs ⊢
  split
  next hl =>
    rw [flatMap_append, hjs, flatMap_singleton, if_pos rfl, append_assoc]
  next hl =>
    rw [flatMap_singleton, if_neg hl]

/-- The cursor stands in a sound kernel, in front of an instruction within a block. -/
structure Cursor.Before (c : Cursor) (φ : Flow) (b : BlockId) (pre : List InstId) (i : InstId) (post : List InstId) :
    Prop where
  place : c.At b pre (i :: post)
  sound : c.kernel.Sound φ
  listed : b ∈ c.kernel.layout
  plain : c.kernel.Plain i

namespace Cursor.Before

variable {c : Cursor}

theorem mem (h : c.Before φ b pre i post) : i ∈ c.kernel.instsOf b := by
  rw [h.place.insts]
  simp

/-- The cursor in front of an instruction of a sound kernel. -/
theorem start {k : Kernel} (hs : k.Sound φ) (hb : b ∈ k.layout) (hsplit : k.instsOf b = pre ++ i :: post)
    (hplain : k.Plain i) : Cursor.Before ⟨k, .before i⟩ φ b pre i post := by
  obtain ⟨d, hd, _, hblock⟩ := hs.linked b hb i (by rw [hsplit]; simp)
  refine ⟨⟨hs.coherent.blocks b hb, hsplit, ?_, rfl⟩, hs, hb, hplain⟩
  rw [hd, Option.map_some, hblock]

end Cursor.Before

/-- The instructions `js` were built, one behind another, where the cursor stands. -/
structure Cursor.Emits (c : Cursor) (φ : Flow) (b : BlockId) (pre : List InstId) (i : InstId) (post js : List InstId)
    (c' : Cursor) : Prop where
  before : c'.Before φ b (pre ++ js) i post
  recast : Recast c.kernel c'.kernel id (inFrontOf i js)
  insts : ∀ l d, c.kernel.inst? l = some d → c'.kernel.inst? l = some d
  values : ∀ v d, c.kernel.value? v = some d → c'.kernel.value? v = some d
  ret : c'.kernel.ret = c.kernel.ret

namespace Cursor.Emits

variable {c c1 c' : Cursor} {js' : List InstId} {instr : Instr} {ty : Ty}

section

variable (h : c.Emits φ b pre i post js c')
include h

theorem typed (hk : c.kernel.Coherent) (hv : c.kernel.Typed v ty) : c'.kernel.Typed v ty := by
  obtain ⟨d, hd, hty, hdef⟩ := hv.definer hk
  refine ⟨d, h.values v d hd, hty, fun j hj => ?_⟩
  obtain ⟨e, he, halive⟩ := hdef j hj
  rw [h.insts j e he]
  exact halive

theorem ready (hv : c.kernel.Ready φ b pre v) : c'.kernel.Ready φ b (pre ++ js) v :=
  hv.transport (h.values v) fun _ j e _ _ he halive =>
    ⟨⟨e, h.insts j e he, halive, rfl⟩, fun hj => mem_append_left _ hj⟩

theorem value?_eq_none (hv : c'.kernel.value? v = none) : c.kernel.value? v = none := by
  cases hold : c.kernel.value? v with
  | none => rfl
  | some d =>
    rw [h.values v d hold] at hv
    cases hv

/-- An instruction of the block stays as it was. -/
theorem kept (hk : c.kernel.Coherent) {l : InstId} (hl : l ∈ c.kernel.instsOf b) :
    l ∈ c'.kernel.instsOf b ∧ c'.kernel.instr? l = c.kernel.instr? l ∧ c'.kernel.result? l = c.kernel.result? l ∧
      c'.kernel.resultTy l = c.kernel.resultTy l := by
  have hb : b ∈ c.kernel.layout := h.recast.layout ▸ h.before.listed
  have hself := mem_inFrontOf i js l
  obtain ⟨hinstr, hresult, _⟩ := h.recast.kept b hb l hl hself
  exact ⟨h.recast.mem_instsOf hb hl hself, hinstr.trans (map_mapOperands_id _), hresult,
    h.recast.resultTy_eq hk hb hl hself⟩

end

theorem refl (h : c.Before φ b pre i post) : c.Emits φ b pre i post [] c := by
  refine ⟨by rw [append_nil]; exact h, ?_, fun _ _ => id, fun _ _ => id, rfl⟩
  rw [inFrontOf_nil]
  exact Recast.refl h.sound.coherent

theorem trans (h : c.Emits φ b pre i post js c1) (h' : c1.Emits φ b (pre ++ js) i post js' c')
    (hk : c.kernel.Coherent) : c.Emits φ b pre i post (js ++ js') c' := by
  have hnot : i ∉ js := by
    have hnodup := h.before.sound.coherent.nodup b
    rw [h.before.place.insts, nodup_append] at hnodup
    exact fun hmem => hnodup.2.2 i (mem_append_right _ hmem) i (.head _) rfl
  refine ⟨by rw [← append_assoc]; exact h'.before, ?_, fun l d hd => h'.insts l d (h.insts l d hd),
    fun v d hd => h'.values v d (h.values v d hd), h'.ret.trans h.ret⟩
  have hrecast := h.recast.trans hk h'.recast
  rwa [show (fun l => (inFrontOf i js l).flatMap (inFrontOf i js')) = inFrontOf i (js ++ js') from
    funext (flatMap_inFrontOf hnot js')] at hrecast

section

variable (h : c.Before φ b pre i post)
include h

theorem inserted {j : InstId} (hins : Inserted c.kernel b pre (i :: post) instr ty c'.kernel j)
    (hat : c'.At b (pre ++ [j]) (i :: post)) (hallows : c.kernel.Allows φ b pre instr ty) :
    c.Emits φ b pre i post [j] c' := by
  have hk := h.sound.coherent
  refine ⟨⟨hat, h.sound.inserted h.listed hins hallows, hins.layout ▸ h.listed, fun instr' hinstr' => ?_⟩,
    Recast.inserted hins hk hallows.phi hallows.term h.plain, fun l d hd => (hins.inst?_of_some hd).1,
    fun v d hd => hins.value?_of_some hd, hins.ret⟩
  exact h.plain ((hins.instr?_eq hk h.mem).symm.trans hinstr')

/-- A well-typed instruction whose operands are ready can be built for its value. -/
theorem emitValue (instr : Instr) (given : Ty) {ty : Ty} (hty : resultTy given instr c = .ok (ty, c))
    (hvoid : ty.isVoid = false) (hallows : c.kernel.Allows φ b pre instr ty) :
    ∃ j c', emitValue instr given c = .ok (c.kernel.values.nextId, c') ∧ c.Emits φ b pre i post [j] c' ∧
      Inserted c.kernel b pre (i :: post) instr ty c'.kernel j := by
  obtain ⟨j, c', hemit, hins, hat⟩ := exists_emitValue h.place h.sound.coherent hty hvoid
  exact ⟨j, c', hemit, inserted h hins hat hallows, hins⟩

/-- A well-typed instruction whose operands are ready can be built for its effect. -/
theorem emit (instr : Instr) (given : Ty) {ty : Ty} (hty : resultTy given instr c = .ok (ty, c))
    (hallows : c.kernel.Allows φ b pre instr ty) :
    ∃ j c', emit instr given c = .ok (j, c') ∧ c.Emits φ b pre i post [j] c' ∧
      Inserted c.kernel b pre (i :: post) instr ty c'.kernel j := by
  obtain ⟨j, c', hinsert, hins, hat⟩ := exists_insert h.place h.sound.coherent instr ty
  exact ⟨j, c', Success.stateBind_eq_ok.mpr ⟨ty, c, hty, hinsert⟩, inserted h hins hat hallows, hins⟩

/-- A constant can always be built. -/
theorem constInt (elem : ScalarTy) (x : Int64) :
    ∃ c', constInt elem x c = .ok (c.kernel.values.nextId, c') ∧ c.Emits φ b pre i post [] c' ∧
      c'.kernel.value? c.kernel.values.nextId = some ⟨.const (.int x), .scalar elem⟩ := by
  have hvalue := value?_addValue c.kernel (.const (.int x)) (.scalar elem)
  refine ⟨⟨(c.kernel.addConst (.scalar elem) (.int x)).1, c.point⟩, rfl, ⟨?_, ?_, fun _ _ => id, fun v d hd => ?_, rfl⟩, ?_⟩
  · rw [append_nil]
    exact ⟨⟨h.place.block, h.place.insts, h.place.point⟩, h.sound.addValue (fun _ => by simp) _, h.listed, h.plain⟩
  · rw [inFrontOf_nil]
    exact Recast.addValue c.kernel h.sound.coherent _ _
  · refine (hvalue v).trans ((if_neg ?_).trans hd)
    rintro rfl
    rw [value?_nextId] at hd
    cases hd
  · exact (hvalue _).trans (if_pos rfl)

end

end Cursor.Emits

end Spmd
