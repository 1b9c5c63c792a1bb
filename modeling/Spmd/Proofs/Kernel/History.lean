import Spmd.Kernel.Prune
import Spmd.Proofs.Kernel.Cursor
import Spmd.Proofs.Kernel.Linked

/-!
# Histories of kernels

A kernel is made from an empty one by edits, one after another (`Kernel.edit`). Every edit keeps the kernel linked,
gives out new ids only and takes out of the layout what it removes (**`Linked.apply`**), and it can be made whenever
the kernel has what the edit names (**`Linked.exists_apply`**). So the same holds of whole histories
(**`Kernel.linked_of_edits`**).
-/

namespace Spmd

open Success List
open Option (isSome_iff_exists)

/-- One change to a kernel. -/
inductive Edit where
  | addParam (name : String) (ty : Ty) (attrs : ParamAttrs)
  | addConst (ty : Ty) (c : Constant)
  | addUndef (ty : Ty)
  | addBlock (name : String)
  | insert (b : BlockId) (index : Nat) (instr : Instr) (ty : Ty)
  /-- An instruction with a result type of its own goes to a point. -/
  | insertAt (point : InsertPoint) (instr : Instr) (ty : Ty)
  /-- An instruction whose operands decide the result type goes to a point. -/
  | emitAt (point : InsertPoint) (instr : Instr) (given : Ty)
  | removeInst (i : InstId)
  | replaceUses (old new : ValueId)
  | removeBlock (b : BlockId)
  | removeUnreachable

/-- The ids that an instruction got: its own, and that of its value. -/
def Kernel.idsOf (k : Kernel) (i : InstId) : List Thing := .inst i :: (k.result? i).toList.map .value

namespace Edit

/-- The changed kernel, and the ids that were given out. -/
def apply (k : Kernel) : Edit → Checked (Kernel × List Thing)
  | addParam name ty attrs =>
    let (k, v) := k.addParam name ty attrs
    return (k, [.value v])
  | addConst ty c =>
    let (k, v) := k.addConst ty c
    return (k, [.value v])
  | addUndef ty =>
    let (k, v) := k.addUndef ty
    return (k, [.value v])
  | addBlock name =>
    let (k, b) := k.addBlock name
    return (k, [.block b])
  | insert b index instr ty => do
    let (k, i) ← k.insertInst b index instr ty
    return (k, k.idsOf i)
  | insertAt point instr ty => do
    let (i, c) ← k.build point (Build.insert instr ty)
    return (c.kernel, c.kernel.idsOf i)
  | emitAt point instr given => do
    let (i, c) ← k.build point (Build.emit instr given)
    return (c.kernel, c.kernel.idsOf i)
  | removeInst i => return (← k.removeInst i, [])
  | replaceUses old new => return (k.replaceUses old new, [])
  | removeBlock b => return (← k.removeBlock b, [])
  | removeUnreachable => return ((← k.removeUnreachable).1, [])

/-- The blocks that an edit removes. -/
def removes (k : Kernel) : Edit → List BlockId
  | removeBlock b => [b]
  | removeUnreachable => k.layout.filter fun b => !k.reachableBlocks.contains b
  | _ => []

end Edit

/-- The kernel has the block or the instruction that a point is named after, be it removed or not. -/
def InsertPoint.Fits (k : Kernel) : InsertPoint → Prop
  | .atEnd b | .beforeTerminator b | .afterPhis b => k.Has (.block b)
  | .before i | .after i => k.Has (.inst i)

/-- The kernel has what the edit has to look at. -/
def Edit.Fits (k : Kernel) : Edit → Prop
  | insert b index _ _ => k.Has (.block b) ∧ index ≤ (k.instsOf b).length
  | insertAt point _ _ => point.Fits k
  | emitAt point instr _ => point.Fits k ∧ ∀ v ∈ instr.operands, k.Has (.value v)
  | removeInst i => k.Has (.inst i)
  | removeBlock b => k.Has (.block b)
  | removeUnreachable => ∀ b ∈ k.reachableBlocks, ∀ t ∈ k.successors b, k.Has (.block t)
  | addParam .. | addConst .. | addUndef _ | addBlock _ | replaceUses .. => True

/-- The kernel after a list of edits, and the ids that they gave out. -/
def Kernel.edit (k : Kernel) : List Edit → Checked (Kernel × List Thing)
  | [] => return (k, [])
  | e :: es => do
    let (k, new) ← e.apply k
    let (k, more) ← k.edit es
    return (k, new ++ more)

namespace Build

variable {c c' : Cursor} {instr : Instr} {given ty : Ty} {x : ValueId} {f : Ty → Build Ty}

theorem pure_unchanged {t : Ty} (h : (pure t : Build Ty) c = .ok (ty, c')) : c' = c := (statePure_eq_ok.mp h).2.symm

theorem tyOf_bind_unchanged (hf : ∀ t, f t c = .ok (ty, c') → c' = c) (h : (tyOf x >>= f) c = .ok (ty, c')) :
    c' = c := by
  obtain ⟨t, _, ht, h'⟩ := stateBind_eq_ok.mp h
  obtain ⟨_, _, _, rfl⟩ := tyOf_eq_ok ht
  exact hf t h'

/-- Finding out the type of a result changes nothing, -/
theorem resultTy_unchanged (h : resultTy given instr c = .ok (ty, c')) : c' = c := by
  cases instr with
  | binary _ x | unary _ x | select _ x | insert x =>
    obtain ⟨_, _, _, rfl⟩ := tyOf_eq_ok h
    rfl
  | compare | cast | splat | extract | reduce => exact tyOf_bind_unchanged (fun _ => pure_unchanged) h
  | elementPtr => exact tyOf_bind_unchanged (fun _ => tyOf_bind_unchanged fun _ => pure_unchanged) h
  | shuffle sources =>
    cases sources with
    | nil => exact pure_unchanged h
    | cons => exact tyOf_bind_unchanged (fun _ => pure_unchanged) h
  | _ => exact pure_unchanged h

theorem exists_tyOf_bind (hx : c.kernel.Has (.value x)) (hf : ∀ t, ∃ ty, f t c = .ok (ty, c)) :
    ∃ ty, (tyOf x >>= f) c = .ok (ty, c) := by
  obtain ⟨d, hd⟩ := isSome_iff_exists.mp hx
  obtain ⟨ty, hty⟩ := hf d.ty
  exact ⟨ty, stateBind_eq_ok.mpr ⟨d.ty, c, tyOf_of_value? hd, hty⟩⟩

/-- and is possible if there are all operands. -/
theorem exists_resultTy (h : ∀ v ∈ instr.operands, c.kernel.Has (.value v)) (given : Ty) :
    ∃ ty, resultTy given instr c = .ok (ty, c) := by
  have hpure : ∀ t : Ty, ∃ ty, (pure t : Build Ty) c = .ok (ty, c) := fun t => ⟨t, rfl⟩
  cases instr with
  | binary _ x | unary _ x | select _ x | insert x =>
    obtain ⟨d, hd⟩ := isSome_iff_exists.mp (h x (by simp [Instr.operands]))
    exact ⟨d.ty, tyOf_of_value? hd⟩
  | compare _ x | cast _ x | splat x | extract x | reduce _ x =>
    exact exists_tyOf_bind (h x (by simp [Instr.operands])) fun _ => hpure _
  | elementPtr base index =>
    exact exists_tyOf_bind (h base (by simp [Instr.operands])) fun _ =>
      exists_tyOf_bind (h index (by simp [Instr.operands])) fun _ => hpure _
  | shuffle sources =>
    cases sources with
    | nil => exact hpure _
    | cons x => exact exists_tyOf_bind (h x (by simp [Instr.operands])) fun _ => hpure _
  | _ => exact hpure _

/-- What goes to a point with the type that its operands give is inserted there. -/
theorem emit_eq_ok {i : InstId} (h : emit instr given c = .ok (i, c')) : ∃ ty, insert instr ty c = .ok (i, c') := by
  obtain ⟨ty, _, hty, h'⟩ := stateBind_eq_ok.mp h
  obtain rfl := resultTy_unchanged hty
  exact ⟨ty, h'⟩

end Build

namespace Kernel

variable {k k' : Kernel} {new : List Thing} {b : BlockId} {i : InstId} {e : Edit}

namespace Linked

variable {point : InsertPoint} {instr : Instr} {ty : Ty} {bs : List BlockId}

/-! ## Inserting -/

variable (hk : k.Linked)
include hk

/-- A point that is named after something the kernel has stands for a place, also if that was removed. -/
theorem exists_place (h : point.Fits k) :
    ∃ b index, Cursor.place ⟨k, point⟩ = .ok (b, index) ∧ k.Has (.block b) ∧ index ≤ (k.instsOf b).length := by
  have hposition : ∀ {i d}, k.inst? i = some d → ∃ blk, k.block? d.block = some blk ∧
      k.position? i = .ok (blk.insts.idxOf? i) := by
    intro i d hd
    obtain ⟨blk, hblk⟩ := isSome_iff_exists.mp (hk.home i d hd)
    exact ⟨blk, hblk, bind_eq_ok.mpr ⟨d, some?_eq_ok.mpr hd, bind_eq_ok.mpr ⟨blk, some?_eq_ok.mpr hblk, rfl⟩⟩⟩
  cases point with
  | atEnd b | beforeTerminator b =>
    obtain ⟨blk, hblk⟩ := isSome_iff_exists.mp h
    refine ⟨b, _, bind_eq_ok.mpr ⟨blk, some?_eq_ok.mpr hblk, rfl⟩, h, ?_⟩
    rw [instsOf_eq hblk]
    all_goals split <;> omega
  | afterPhis b =>
    obtain ⟨blk, hblk⟩ := isSome_iff_exists.mp h
    have hphis : k.firstNonPhi b = .ok (blk.insts.takeWhile k.isPhi).length :=
      bind_eq_ok.mpr ⟨blk, some?_eq_ok.mpr hblk, rfl⟩
    refine ⟨b, _, bind_eq_ok.mpr ⟨_, hphis, rfl⟩, h, ?_⟩
    rw [instsOf_eq hblk]
    exact (takeWhile_sublist _).length_le
  | before i =>
    obtain ⟨d, hd⟩ := isSome_iff_exists.mp h
    obtain ⟨blk, hblk, hindex⟩ := hposition hd
    refine ⟨d.block, _, bind_eq_ok.mpr ⟨_, hindex, bind_eq_ok.mpr ⟨d, some?_eq_ok.mpr hd, rfl⟩⟩, hk.home i d hd, ?_⟩
    rw [instsOf_eq hblk]
    cases hindex : blk.insts.idxOf? i with
    | none => exact Nat.zero_le _
    | some n => exact (findIdx?_eq_some_iff_getElem.mp hindex).1.le
  | after i =>
    obtain ⟨d, hd⟩ := isSome_iff_exists.mp h
    obtain ⟨blk, hblk, hindex⟩ := hposition hd
    refine ⟨d.block, _, bind_eq_ok.mpr ⟨_, hindex, bind_eq_ok.mpr ⟨d, some?_eq_ok.mpr hd,
      bind_eq_ok.mpr ⟨blk, some?_eq_ok.mpr hblk, rfl⟩⟩⟩, hk.home i d hd, ?_⟩
    rw [instsOf_eq hblk]
    cases hindex : blk.insts.idxOf? i with
    | none => exact Nat.le_refl _
    | some n => exact (findIdx?_eq_some_iff_getElem.mp hindex).1

/-- What is inserted at a place of a block. -/
theorem insertInst {index : Nat} (h : k.insertInst b index instr ty = .ok (k', i)) :
    k.Evolves (k'.idsOf i) k' ∧ k'.layout = k.layout := by
  have hb : k.Has (.block b) := by
    obtain ⟨blk, hblk, -⟩ := bind_eq_ok.mp h
    exact isSome_iff_exists.mpr ⟨blk, some?_eq_ok.mp hblk⟩
  obtain ⟨pre, post, -, hins⟩ := insertInst_eq_ok h
  exact ⟨hk.inserted hb hins, hins.layout⟩

theorem build {c : Cursor} (h : k.build point (Build.insert instr ty) = .ok (i, c)) :
    k.Evolves (c.kernel.idsOf i) c.kernel ∧ c.kernel.layout = k.layout := by
  obtain ⟨b, index, -, hinsert, -⟩ := Build.insert_eq_ok h
  exact hk.insertInst hinsert

theorem exists_build (h : point.Fits k) (instr : Instr) (ty : Ty) :
    ∃ i c, k.build point (Build.insert instr ty) = .ok (i, c) := by
  obtain ⟨b, index, hplace, hb, hindex⟩ := hk.exists_place h
  obtain ⟨k', i, hinsert⟩ := exists_insertInst hb hindex instr ty
  exact ⟨i, ⟨k', point.advance i⟩, Build.insert_of_place hplace hinsert⟩

/-! ## Removing -/

theorem removeInst (h : k.removeInst i = .ok k') : k.Evolves [] k' ∧ k'.layout = k.layout := by
  obtain ⟨d, hd, -⟩ := bind_eq_ok.mp h
  have hinst := some?_eq_ok.mp hd
  cases hdead : d.dead with
  | false =>
    have hremoved := removeInst_eq_ok hinst hdead h
    exact ⟨hk.removed hremoved, hremoved.layout⟩
  | true =>
    rw [Kernel.removeInst, hd] at h
    simp only [bind, Except.bind, hdead, if_true] at h
    obtain rfl := pure_eq_ok.mp h
    exact ⟨.refl hk, rfl⟩

theorem foldlM_removeBlock (h : bs.foldlM removeBlock k = .ok k') : k.Evolves [] k' := by
  induction bs generalizing k with
  | nil =>
    obtain rfl := pure_eq_ok.mp h
    exact .refl hk
  | cons b bs ih =>
    obtain ⟨k1, hb, h⟩ := bind_eq_ok.mp h
    have hstep := hk.cleared (removeBlock_eq_ok hb)
    exact hstep.trans hk (ih hstep.linked h)

theorem removeUnreachable {n : Nat} (h : k.removeUnreachable = .ok (k', n)) :
    k.Evolves [] k' ∧ ∀ c, c ∈ k'.layout ↔ c ∈ k.layout ∧ c ∉ Edit.removeUnreachable.removes k := by
  obtain ⟨-, -, k1, hfold, rfl⟩ := removeUnreachable_eq_ok.mp h
  have hgone := hk.foldlM_removeBlock hfold
  have hlayout : ∀ c, c ∈ k1.layout ↔ c ∈ k.layout ∧ c ∉ Edit.removeUnreachable.removes k := by
    intro c
    rw [layout_foldlM_removeBlock hfold, mem_filter, decide_eq_true_iff]
    rfl
  split
  · exact ⟨hgone, hlayout⟩
  · refine ⟨hgone.trans hk (hgone.linked.foldl_modifyInst _ (fun _ => rfl) (fun _ => rfl) fun _ => rfl), fun c => ?_⟩
    obtain ⟨insts, -, heq⟩ := k1.dropInputs_eq k.reachableBlocks
    rw [heq]
    exact hlayout c

theorem exists_removeUnreachable (h : Edit.removeUnreachable.Fits k) : ∃ r, k.removeUnreachable = .ok r := by
  obtain ⟨k1, hfold⟩ := exists_foldlM_removeBlock fun b hb => hk.blocks b (mem_filter.mp hb).1
  refine ⟨_, removeUnreachable_eq_ok.mpr ⟨fun b hb t ht => ?_, rfl, k1, hfold, rfl⟩⟩
  simpa [Arena.contains] using (has_iff_lt k (.block t)).mp (h b hb t ht)

/-! ## One edit -/

/-- **What an edit does.** The kernel stays linked, only new ids are given out, and what is removed leaves the layout. -/
theorem apply (h : e.apply k = .ok (k', new)) :
    k.Evolves new k' ∧ ∀ b, b ∈ k'.layout ↔ (b ∈ k.layout ∨ .block b ∈ new) ∧ b ∉ e.removes k := by
  have hsame : ∀ {k' : Kernel} {new : List Thing}, k'.layout = k.layout → (∀ b, Thing.block b ∉ new) →
      ∀ b, b ∈ k'.layout ↔ (b ∈ k.layout ∨ .block b ∈ new) ∧ b ∉ ([] : List BlockId) := by
    intro k' new hlayout hnew b
    simp [hlayout, hnew]
  have hids : ∀ (k' : Kernel) i b, Thing.block b ∉ k'.idsOf i := by simp [idsOf]
  cases e with
  | addParam name ty attrs | addConst ty c | addUndef ty =>
    cases pure_eq_ok.mp h
    exact ⟨hk.addValue (by simp) rfl rfl rfl rfl, hsame rfl (by simp)⟩
  | addBlock name =>
    cases pure_eq_ok.mp h
    refine ⟨hk.addBlock name, fun b => ?_⟩
    simp [Edit.removes]
  | insert b index instr ty =>
    obtain ⟨⟨k1, i⟩, hinsert, h⟩ := bind_eq_ok.mp h
    cases pure_eq_ok.mp h
    obtain ⟨hstep, hlayout⟩ := hk.insertInst hinsert
    exact ⟨hstep, hsame hlayout (hids _ i)⟩
  | insertAt point instr ty =>
    obtain ⟨⟨i, c⟩, hinsert, h⟩ := bind_eq_ok.mp h
    cases pure_eq_ok.mp h
    obtain ⟨hstep, hlayout⟩ := hk.build hinsert
    exact ⟨hstep, hsame hlayout (hids _ i)⟩
  | emitAt point instr given =>
    obtain ⟨⟨i, c⟩, hemit, h⟩ := bind_eq_ok.mp h
    cases pure_eq_ok.mp h
    obtain ⟨ty, hinsert⟩ := Build.emit_eq_ok hemit
    obtain ⟨hstep, hlayout⟩ := hk.build hinsert
    exact ⟨hstep, hsame hlayout (hids _ i)⟩
  | removeInst i =>
    obtain ⟨k1, hremove, h⟩ := bind_eq_ok.mp h
    cases pure_eq_ok.mp h
    obtain ⟨hstep, hlayout⟩ := hk.removeInst hremove
    exact ⟨hstep, hsame hlayout (by simp)⟩
  | replaceUses old new =>
    cases pure_eq_ok.mp h
    obtain ⟨insts, -, heq⟩ := replaceUses_eq k old new
    exact ⟨hk.foldl_modifyInst k.instsInOrder (fun _ => rfl) (fun _ => rfl) fun _ => rfl, hsame (by rw [heq]) (by simp)⟩
  | removeBlock b =>
    obtain ⟨k1, hremove, h⟩ := bind_eq_ok.mp h
    cases pure_eq_ok.mp h
    have hcleared := removeBlock_eq_ok hremove
    refine ⟨hk.cleared hcleared, fun c => ?_⟩
    rw [hcleared.layout]
    simp [Edit.removes]
  | removeUnreachable =>
    obtain ⟨⟨k1, n⟩, hremove, h⟩ := bind_eq_ok.mp h
    cases pure_eq_ok.mp h
    obtain ⟨hstep, hlayout⟩ := hk.removeUnreachable hremove
    refine ⟨hstep, fun b => ?_⟩
    rw [hlayout]
    simp

/-- What a removed block held is dead. -/
theorem isDead_of_removes (h : e.apply k = .ok (k', new)) (hb : b ∈ e.removes k) :
    k.Has (.block b) ∧ ∀ i ∈ k.instsOf b, k'.IsDead i := by
  obtain ⟨hstep, hlayout⟩ := hk.apply h
  cases e with
  | removeBlock c =>
    obtain rfl := mem_singleton.mp hb
    obtain ⟨k1, hremove, h⟩ := bind_eq_ok.mp h
    cases pure_eq_ok.mp h
    obtain ⟨blk, hblk, -⟩ := bind_eq_ok.mp hremove
    refine ⟨isSome_iff_exists.mpr ⟨blk, some?_eq_ok.mp hblk⟩, fun i hi => ?_⟩
    obtain ⟨d, hd, -⟩ := hk.inst?_of_mem hi
    refine ⟨{ d with dead := true }, ?_, rfl⟩
    rw [(removeBlock_eq_ok hremove).inst, hd, Option.map_some, if_pos hi]
  | removeUnreachable =>
    have hin := (mem_filter.mp hb).1
    exact ⟨hk.blocks b hin, hstep.persists.left b hin fun hin' => ((hlayout b).mp hin').2 hb⟩
  | _ => exact absurd hb not_mem_nil

/-- **An edit can be made whenever the kernel has what the edit has to look at.** -/
theorem exists_apply (h : e.Fits k) : ∃ k' new, e.apply k = .ok (k', new) := by
  cases e with
  | addParam | addConst | addUndef | addBlock | replaceUses => exact ⟨_, _, rfl⟩
  | insert b index instr ty =>
    obtain ⟨k', i, hinsert⟩ := exists_insertInst h.1 h.2 instr ty
    exact ⟨k', k'.idsOf i, bind_eq_ok.mpr ⟨(k', i), hinsert, rfl⟩⟩
  | insertAt point instr ty =>
    obtain ⟨i, c, hinsert⟩ := hk.exists_build h instr ty
    exact ⟨_, _, bind_eq_ok.mpr ⟨(i, c), hinsert, rfl⟩⟩
  | emitAt point instr given =>
    obtain ⟨ty, hty⟩ := Build.exists_resultTy (c := ⟨k, point⟩) h.2 given
    obtain ⟨i, c, hinsert⟩ := hk.exists_build h.1 instr ty
    have hemit : k.build point (Build.emit instr given) = .ok (i, c) :=
      stateBind_eq_ok.mpr ⟨ty, ⟨k, point⟩, hty, hinsert⟩
    exact ⟨_, _, bind_eq_ok.mpr ⟨(i, c), hemit, rfl⟩⟩
  | removeInst i =>
    obtain ⟨d, hd⟩ := isSome_iff_exists.mp h
    obtain ⟨k', hremove⟩ := exists_removeInst hd (hk.home i d hd)
    exact ⟨k', [], bind_eq_ok.mpr ⟨k', hremove, rfl⟩⟩
  | removeBlock b =>
    obtain ⟨k', hremove⟩ := exists_removeBlock h
    exact ⟨k', [], bind_eq_ok.mpr ⟨k', hremove, rfl⟩⟩
  | removeUnreachable =>
    obtain ⟨⟨k', n⟩, hremove⟩ := hk.exists_removeUnreachable h
    exact ⟨k', [], bind_eq_ok.mpr ⟨(k', n), hremove, rfl⟩⟩

/-! ## Many edits -/

theorem evolves_edit {es : List Edit} (h : k.edit es = .ok (k', new)) : k.Evolves new k' := by
  induction es generalizing k new with
  | nil =>
    cases pure_eq_ok.mp h
    exact .refl hk
  | cons e es ih =>
    obtain ⟨⟨k1, first⟩, happly, h⟩ := bind_eq_ok.mp h
    obtain ⟨⟨k2, more⟩, hrest, h⟩ := bind_eq_ok.mp h
    cases pure_eq_ok.mp h
    have hstep := (hk.apply happly).1
    exact hstep.trans hk (ih hstep.linked hrest)

end Linked

/-- **All kernels that are made by edits are linked.** The ids that were given out are all different, and are those of
the things that the kernel has. Any edit can be made next that names things the kernel has. What edits follow, the ids
keep their meaning and new things get new ids; and a block that an edit removes has left the layout for good, with all
instructions dead that it held. The numbers of ids have no bound here: a table that keeps them as words of 32 bits has
these properties for as long as fewer than 2^32 ids of a kind are given out. -/
theorem linked_of_edits {name : String} {ret : Ty} {es : List Edit} {made : List Thing}
    (h : edit { name, ret } es = .ok (k, made)) :
    k.Linked ∧ (made.Nodup ∧ ∀ t, t ∈ made ↔ k.Has t) ∧
    (∀ e : Edit, e.Fits k → ∃ k1 new, e.apply k = .ok (k1, new)) ∧
    (∀ es' k' new, k.edit es' = .ok (k', new) → k.Persists k' ∧ ∀ t ∈ new, ¬k.Has t) ∧
    ∀ (e : Edit) (k1 : Kernel) (new : List Thing), e.apply k = .ok (k1, new) →
      (∀ b, b ∈ k1.layout ↔ (b ∈ k.layout ∨ .block b ∈ new) ∧ b ∉ e.removes k) ∧
      ∀ es' k' new', k1.edit es' = .ok (k', new') →
        ∀ b ∈ e.removes k, b ∉ k'.layout ∧ ∀ i ∈ k.instsOf b, k'.IsDead i := by
  have hhistory := (linked_empty name ret).evolves_edit h
  have hk := hhistory.linked
  have hnothing : ∀ t, ¬Has { name, ret } t := fun t => by
    rw [has_iff_lt]
    cases t <;> simp [Arena.size]
  refine ⟨hk, ⟨hhistory.nodup, fun t => ?_⟩, fun e => hk.exists_apply, fun es' k' new h' => ?_, fun e k1 new happly => ?_⟩
  · rw [hhistory.has_iff]
    exact ⟨.inr, fun ht => ht.resolve_left (hnothing t)⟩
  · have hfuture := hk.evolves_edit h'
    exact ⟨hfuture.persists, hfuture.fresh⟩
  · obtain ⟨hstep, hlayout⟩ := hk.apply happly
    refine ⟨hlayout, fun es' k' new' h' b hb => ?_⟩
    have hfuture := hstep.linked.evolves_edit h'
    obtain ⟨hhas, hdead⟩ := hk.isDead_of_removes happly hb
    have hgone : b ∉ k1.layout := fun hin => ((hlayout b).mp hin).2 hb
    exact ⟨hfuture.persists.gone b (hstep.persists.has hhas) hgone, fun i hi => hfuture.persists.isDead (hdead i hi)⟩

/-- A block is removed together with an instruction, and then an instruction goes behind the removed one. -/
def afterRemoved : List Edit :=
  [.addParam "x" (.scalar .i32) {}, .addBlock "entry", .addBlock "gone", .emitAt (.atEnd 1) (.binary .add 0 0) .void,
    .removeBlock 1, .emitAt (.after 0) (.unary .neg 1) .void]

/-- The new instruction stands alone in the block that was removed, and the old one stays dead. -/
theorem linked_afterRemoved : ∃ k made, edit { name := "f", ret := .void } afterRemoved = .ok (k, made) ∧
    k.Linked ∧ made.Nodup ∧ k.layout = [⟨0⟩] ∧ k.instsOf ⟨1⟩ = [⟨1⟩] ∧ k.IsDead ⟨0⟩ := by
  have hrun : ((edit { name := "f", ret := .void } afterRemoved).toOption.map fun r =>
      (r.1.layout, r.1.instsOf 1, (r.1.inst? 0).map (·.dead))) = some ([0], [1], some true) := by decide +kernel
  obtain ⟨⟨k, made⟩, h, hrun⟩ := exists_of_map hrun
  simp only [Prod.mk.injEq, map_eq_some_iff] at hrun
  obtain ⟨hlinked, ⟨hnodup, -⟩, -⟩ := linked_of_edits h
  exact ⟨k, made, h, hlinked, hnodup, hrun.1, hrun.2.1, hrun.2.2⟩

end Kernel

end Spmd
