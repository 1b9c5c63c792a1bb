import Spmd.Kernel.Prune
import Spmd.Proofs.Place
import Spmd.Proofs.Success

/-!
# What editing does

For every editing operation, what can be looked up afterwards.

* **`Inserted`** — a new instruction stands at its place, and everything else is as before.
* **`Removed`** — an instruction has left its block and is dead.
* **`Cleared`** — a block has left the layout, and its instructions are dead.
* **`inst?_replaceUses`** — a value was replaced by another in all linked instructions.
* **`removeUnreachable_eq_ok`** — when the blocks that control cannot reach can be removed, and what is left then.
-/

namespace Spmd

open Success List Arena

variable {instr : Instr} {bs : List BlockId}

namespace Instr

variable {f : ValueId → ValueId} {i : Instr}

theorem mapOperands_mapOperands (f g : ValueId → ValueId) (i : Instr) :
    (i.mapOperands g).mapOperands f = i.mapOperands fun v => f (g v) := by
  cases i <;> simp [mapOperands, Option.map_map, Function.comp_def, map_map]

theorem mapOperands_congr {g : ValueId → ValueId} (h : ∀ v ∈ i.operands, f v = g v) :
    i.mapOperands f = i.mapOperands g := by
  cases i with
  | phi incoming =>
    rw [mapOperands, mapOperands, phi.injEq]
    refine map_congr_left fun x hx => ?_
    show (x.1, f x.2) = (x.1, g x.2)
    rw [h x.2 (mem_map_of_mem hx)]
  | call callee args mask =>
    rw [mapOperands, mapOperands, call.injEq]
    refine ⟨rfl, map_congr_left fun x hx => h x (mem_append_left _ hx), ?_⟩
    exact Option.map_congr fun x hx => h x (mem_append_right _ (Option.mem_toList.mpr hx))
  | shuffle sources lanes =>
    rw [mapOperands, mapOperands, shuffle.injEq]
    exact ⟨map_congr_left fun x hx => h x hx, rfl⟩
  | load ptr mask _ | strideLoad ptr _ mask | gather ptr mask =>
    simp only [mapOperands, operands, mem_cons, Option.mem_toList] at h ⊢
    rw [h ptr (.inl rfl), Option.map_congr fun x hx => h x (.inr hx)]
  | store ptr value mask _ | strideStore ptr value _ mask | scatter ptr value mask =>
    simp only [mapOperands, operands, mem_cons, Option.mem_toList] at h ⊢
    rw [h ptr (.inl rfl), h value (.inr (.inl rfl)), Option.map_congr fun x hx => h x (.inr (.inr hx))]
  | ret value =>
    simp only [mapOperands, operands, Option.mem_toList] at h ⊢
    rw [Option.map_congr fun x hx => h x hx]
  | _ => simp_all [mapOperands, operands]

theorem isPhi_iff : instr.isPhi = true ↔ ∃ incoming, instr = .phi incoming := by
  cases instr <;> simp [isPhi]

theorem mapOperands_id (h : ∀ v ∈ i.operands, f v = v) : i.mapOperands f = i := by
  have hid : ∀ j : Instr, j.mapOperands (fun v => v) = j := by
    intro j
    cases j <;> simp [mapOperands]
  rw [mapOperands_congr h, hid]

@[simp] theorem operands_mapOperands (f : ValueId → ValueId) (i : Instr) :
    (i.mapOperands f).operands = i.operands.map f := by
  cases i with
  | load ptr mask _ | strideLoad ptr _ mask | gather ptr mask => cases mask <;> rfl
  | store ptr value mask _ | strideStore ptr value _ mask | scatter ptr value mask => cases mask <;> rfl
  | call callee args mask => cases mask <;> simp [mapOperands, operands]
  | phi incoming => simp [mapOperands, operands, map_map, Function.comp_def]
  | ret value => cases value <;> rfl
  | _ => rfl

@[simp] theorem isPhi_mapOperands (f : ValueId → ValueId) (i : Instr) : (i.mapOperands f).isPhi = i.isPhi := by
  cases i <;> rfl

@[simp] theorem isTerminator_mapOperands (f : ValueId → ValueId) (i : Instr) :
    (i.mapOperands f).isTerminator = i.isTerminator := by
  cases i <;> rfl

@[simp] theorem successors_mapOperands (f : ValueId → ValueId) (i : Instr) :
    (i.mapOperands f).successors = i.successors := by
  cases i <;> rfl

end Instr

namespace Kernel

variable {k k' : Kernel} {b c : BlockId} {i j : InstId} {v : ValueId} {index : Nat} {d : InstDef}

theorem exists_of_isPhi (h : k.isPhi i = true) : ∃ incoming, k.instr? i = some (.phi incoming) := by
  rw [isPhi, Option.any_eq_true] at h
  obtain ⟨instr, hinstr, hyes⟩ := h
  obtain ⟨incoming, rfl⟩ := Instr.isPhi_iff.mp hyes
  exact ⟨incoming, hinstr⟩

/-! ## Changing one thing -/

theorem inst?_modifyInst (k : Kernel) (i j : InstId) (f : InstDef → InstDef) :
    (k.modifyInst i f).inst? j = if j = i then (k.inst? j).map f else k.inst? j :=
  get?_modify k.insts i j f

theorem block?_modifyBlock (k : Kernel) (b c : BlockId) (f : Block → Block) :
    (k.modifyBlock b f).block? c = if c = b then (k.block? c).map f else k.block? c :=
  get?_modify k.blocks b c f

theorem map_name_modifyBlock (k : Kernel) (b c : BlockId) {f : Block → Block} (hf : ∀ blk, (f blk).name = blk.name) :
    ((k.modifyBlock b f).block? c).map (·.name) = (k.block? c).map (·.name) := by
  rw [block?_modifyBlock]
  split
  · rw [Option.map_map]
    exact congrArg (fun g => (k.block? c).map g) (funext hf)
  · rfl

theorem value?_addValue (k : Kernel) (kind : ValueKind) (ty : Ty) (v : ValueId) :
    (k.addValue kind ty).1.value? v = if v = k.values.nextId then some ⟨kind, ty⟩ else k.value? v :=
  get?_alloc k.values ⟨kind, ty⟩ v

/-- The next id is free. -/
theorem value?_nextId (k : Kernel) : k.value? k.values.nextId = none := by
  rw [value?, get?, nextId, size]
  exact Array.getElem?_eq_none (Nat.le_refl _)

theorem inst?_nextId (k : Kernel) : k.inst? k.insts.nextId = none := by
  rw [inst?, get?, nextId, size]
  exact Array.getElem?_eq_none (Nat.le_refl _)

theorem block?_nextId (k : Kernel) : k.block? k.blocks.nextId = none := by
  rw [block?, get?, nextId, size]
  exact Array.getElem?_eq_none (Nat.le_refl _)

theorem instsOf_eq (h : k.block? b = some blk) : k.instsOf b = blk.insts := by
  rw [instsOf, h]
  rfl

theorem block?_addBlock (k : Kernel) (name : String) (c : BlockId) :
    (k.addBlock name).1.block? c = if c = k.blocks.nextId then some ⟨name, []⟩ else k.block? c :=
  get?_alloc k.blocks ⟨name, []⟩ c

theorem instsOf_addBlock (k : Kernel) (name : String) (c : BlockId) :
    (k.addBlock name).1.instsOf c = k.instsOf c := by
  rw [instsOf, instsOf, block?_addBlock]
  split
  next hc =>
    rw [hc, block?_nextId]
    rfl
  · rfl

/-! ## Inserting -/

/-- `k'` is `k` with a new instruction `j` between the instructions `pre` and `post` of a block. -/
structure Inserted (k : Kernel) (b : BlockId) (pre post : List InstId) (instr : Instr) (ty : Ty) (k' : Kernel)
    (j : InstId) : Prop where
  before : k.instsOf b = pre ++ post
  after : k'.instsOf b = pre ++ j :: post
  instsOf_ne : ∀ c, c ≠ b → k'.instsOf c = k.instsOf c
  id : j = k.insts.nextId
  inst_new : k'.inst? j = some ⟨instr, if ty.isVoid then none else some k.values.nextId, b, false⟩
  inst_old : ∀ i, i ≠ j → k'.inst? i = k.inst? i
  value_new : ty.isVoid = false → k'.value? k.values.nextId = some ⟨.inst j, ty⟩
  value_old : ∀ v, v ≠ k.values.nextId → k'.value? v = k.value? v
  value_void : ty.isVoid = true → k'.values = k.values
  insts_size : k'.insts.size = k.insts.size + 1
  values_size : k.values.size ≤ k'.values.size
  layout : k'.layout = k.layout
  blocks_size : k'.blocks.size = k.blocks.size
  block_names : ∀ c, (k'.block? c).map (·.name) = (k.block? c).map (·.name)
  params : k'.params = k.params
  ret : k'.ret = k.ret
  name : k'.name = k.name

theorem insertIdx_length_append {α : Type} (pre post : List α) (x : α) :
    (pre ++ post).insertIdx pre.length x = pre ++ x :: post := by
  induction pre with
  | nil => simp
  | cons y pre ih => simp [ih]

theorem insertInst_eq_ok {ty : Ty} (h : k.insertInst b index instr ty = .ok (k', j)) :
    ∃ pre post, pre.length = index ∧ Inserted k b pre post instr ty k' j := by
  obtain ⟨blk, hblk, h⟩ := bind_eq_ok.mp h
  have hblock := some?_eq_ok.mp hblk
  dsimp only at h
  split at h
  · obtain ⟨_, hthrow, _⟩ := bind_eq_ok.mp h
    exact absurd hthrow throw_ne_ok
  rename_i hindex
  have hlen : (blk.insts.take index).length = index := by
    rw [length_take]
    omega
  have hinsert : blk.insts.insertIdx index k.insts.nextId =
      blk.insts.take index ++ k.insts.nextId :: blk.insts.drop index := by
    have := insertIdx_length_append (blk.insts.take index) (blk.insts.drop index) k.insts.nextId
    rwa [take_append_drop, hlen] at this
  -- the new kernel, whatever arena of values it has
  have hnew : ∀ (values : Arena .value ValueDef) (result : Option ValueId) (k' : Kernel),
      k' = modifyBlock { k with values, insts := (k.insts.alloc ⟨instr, result, b, false⟩).1 } b
        (fun blk => { blk with insts := blk.insts.insertIdx index k.insts.nextId }) →
      k'.instsOf b = blk.insts.take index ++ k.insts.nextId :: blk.insts.drop index ∧
      (∀ c, c ≠ b → k'.instsOf c = k.instsOf c) ∧
      k'.inst? k.insts.nextId = some ⟨instr, result, b, false⟩ ∧
      (∀ i, i ≠ k.insts.nextId → k'.inst? i = k.inst? i) ∧
      k'.blocks.size = k.blocks.size ∧ ∀ c, (k'.block? c).map (·.name) = (k.block? c).map (·.name) := by
    rintro values result _ rfl
    refine ⟨?_, fun c hc => ?_, ?_, fun i hi => ?_, size_modify _ _ _, fun c => map_name_modifyBlock _ b c (fun _ => rfl)⟩
    · rw [instsOf, block?_modifyBlock, if_pos rfl]
      show ((Option.map _ (k.block? b)).map _).getD [] = _
      rw [hblock, ← hinsert]
      rfl
    · rw [instsOf, block?_modifyBlock, if_neg hc]
      rfl
    · exact (get?_alloc k.insts ⟨instr, result, b, false⟩ _).trans (if_pos rfl)
    · exact (get?_alloc k.insts ⟨instr, result, b, false⟩ _).trans (if_neg hi)
  refine ⟨blk.insts.take index, blk.insts.drop index, hlen, ?_⟩
  have hbefore : k.instsOf b = blk.insts.take index ++ blk.insts.drop index := by
    rw [instsOf_eq hblock, take_append_drop]
  cases hvoid : ty.isVoid with
  | true =>
    rw [hvoid, if_pos rfl] at h
    cases pure_eq_ok.mp h
    obtain ⟨hafter, hne, hinst, hold, hsize, hnames⟩ := hnew k.values none _ rfl
    exact ⟨hbefore, hafter, hne, rfl, hinst.trans (by rw [hvoid]; rfl), hold, fun h => absurd (hvoid.symm.trans h) (by decide),
      fun v _ => rfl, fun _ => rfl, size_alloc _ _, Nat.le_refl _, rfl, hsize, hnames, rfl, rfl, rfl⟩
  | false =>
    rw [hvoid, if_neg (by decide)] at h
    cases pure_eq_ok.mp h
    obtain ⟨hafter, hne, hinst, hold, hsize, hnames⟩ :=
      hnew (k.values.alloc ⟨.inst k.insts.nextId, ty⟩).1 (some k.values.nextId) _ rfl
    refine ⟨hbefore, hafter, hne, rfl, hinst.trans (by rw [hvoid]; rfl), hold, fun _ => ?_, fun v hv => ?_,
      fun h => absurd (hvoid.symm.trans h) (by decide), size_alloc _ _, ?_, rfl, hsize, hnames, rfl, rfl, rfl⟩
    · exact (value?_addValue k (.inst k.insts.nextId) ty _).trans (if_pos rfl)
    · exact (value?_addValue k (.inst k.insts.nextId) ty _).trans (if_neg hv)
    · show k.values.size ≤ (k.values.alloc ⟨.inst k.insts.nextId, ty⟩).1.size
      rw [size_alloc]
      exact Nat.le_succ _

/-- There is a place for an instruction at every position of a block. -/
theorem exists_insertInst (hb : (k.block? b).isSome = true) (hindex : index ≤ (k.instsOf b).length) (instr : Instr)
    (ty : Ty) : ∃ k' j, k.insertInst b index instr ty = .ok (k', j) := by
  obtain ⟨blk, hblk⟩ := isSome_iff_exists.mp hb
  have hblock : k.block b = .ok blk := some?_eq_ok.mpr hblk
  rw [instsOf_eq hblk] at hindex
  unfold insertInst
  rw [hblock]
  simp only [bind, Except.bind, if_neg (Nat.not_lt.mpr hindex)]
  exact ⟨_, _, rfl⟩

namespace Inserted

variable {pre post : List InstId} {ty : Ty}

section

variable (h : Inserted k b pre post instr ty k' j)
include h

theorem value?_of_some {d : ValueDef} (hd : k.value? v = some d) : k'.value? v = some d := by
  rw [h.value_old v]
  · exact hd
  · rintro rfl
    rw [value?_nextId] at hd
    cases hd

theorem inst?_of_some {d : InstDef} (hd : k.inst? i = some d) : k'.inst? i = some d ∧ i ≠ j := by
  have hne : i ≠ j := by
    rintro rfl
    rw [h.id, inst?_nextId] at hd
    cases hd
  exact ⟨(h.inst_old i hne).trans hd, hne⟩

theorem mem_instsOf_iff : i ∈ k'.instsOf c ↔ i ∈ k.instsOf c ∨ c = b ∧ i = j := by
  by_cases hc : c = b
  · subst hc
    rw [h.after, h.before, mem_append, mem_cons, mem_append, or_left_comm, or_comm]
    simp
  · rw [h.instsOf_ne c hc]
    simp [hc]

theorem result?_eq : k'.result? j = if ty.isVoid then none else some k.values.nextId := by
  rw [result?, h.inst_new]
  rfl

theorem nodup_instsOf (hfresh : j ∉ k.instsOf c) (hnodup : (k.instsOf c).Nodup) : (k'.instsOf c).Nodup := by
  by_cases hc : c = b
  · subst hc
    rw [h.after, nodup_middle, nodup_cons, ← h.before]
    exact ⟨hfresh, hnodup⟩
  · rwa [h.instsOf_ne c hc]

/-- Results and values still name each other. -/
theorem defines_iff (hdefines : ∀ i v, k.result? i = some v ↔ (k.value? v).map (·.kind) = some (.inst i)) (i : InstId)
    (v : ValueId) : k'.result? i = some v ↔ (k'.value? v).map (·.kind) = some (.inst i) := by
  by_cases hv : v = k.values.nextId
  · subst hv
    -- the value that was free comes from the new instruction, or from none
    have hnone : k.result? i ≠ some k.values.nextId := fun hi => by
      have := (hdefines i _).mp hi
      rw [value?_nextId] at this
      cases this
    have hresult : k'.result? i = some k.values.nextId ↔ i = j ∧ ty.isVoid = false := by
      by_cases hi : i = j
      · rw [hi, h.result?_eq]
        cases ty.isVoid <;> simp
      · rw [result?, h.inst_old i hi]
        exact ⟨fun heq => absurd heq hnone, fun heq => absurd heq.1 hi⟩
    rw [hresult]
    cases hvoid : ty.isVoid with
    | true =>
      rw [value?, h.value_void hvoid, ← value?, value?_nextId]
      simp
    | false =>
      rw [h.value_new hvoid]
      simp [eq_comm]
  · rw [h.value_old v hv, ← hdefines i v]
    by_cases hi : i = j
    · rw [hi, h.result?_eq, result?, h.id, inst?_nextId]
      cases ty.isVoid <;> simp [Ne.symm hv]
    · rw [result?, h.inst_old i hi]
      rfl

end

end Inserted

/-! ## Removing -/

/-- `k'` is `k` without the instruction `i`, which is dead now. -/
structure Removed (k : Kernel) (i : InstId) (d : InstDef) (k' : Kernel) : Prop where
  inst_before : k.inst? i = some d
  instsOf_home : k'.instsOf d.block = (k.instsOf d.block).filter (· ≠ i)
  instsOf_ne : ∀ c, c ≠ d.block → k'.instsOf c = k.instsOf c
  inst_removed : k'.inst? i = some { d with dead := true }
  inst_ne : ∀ j, j ≠ i → k'.inst? j = k.inst? j
  values : k'.values = k.values
  insts_size : k'.insts.size = k.insts.size
  layout : k'.layout = k.layout
  blocks_size : k'.blocks.size = k.blocks.size
  block_names : ∀ c, (k'.block? c).map (·.name) = (k.block? c).map (·.name)
  params : k'.params = k.params
  ret : k'.ret = k.ret
  name : k'.name = k.name

theorem removeInst_eq_ok (hd : k.inst? i = some d) (halive : d.dead = false) (h : k.removeInst i = .ok k') :
    Removed k i d k' := by
  obtain ⟨d', hd', h⟩ := bind_eq_ok.mp h
  obtain rfl := mem_unique hd (some?_eq_ok.mp hd')
  rw [halive] at h
  obtain ⟨blk, hblk, h⟩ := bind_eq_ok.mp h
  have hblock := some?_eq_ok.mp hblk
  obtain rfl := pure_eq_ok.mp h
  refine ⟨hd, ?_, fun c hc => ?_, ?_, fun j hj => ?_, rfl, size_modify _ _ _, rfl, size_modify _ _ _,
    fun c => map_name_modifyBlock k d.block c fun _ => rfl, rfl, rfl, rfl⟩
  · rw [instsOf_eq hblock]
    show ((((k.modifyBlock d.block _).block? d.block).map (·.insts)).getD []) = _
    rw [block?_modifyBlock, if_pos rfl, hblock]
    rfl
  · show ((((k.modifyBlock d.block _).block? c).map (·.insts)).getD []) = _
    rw [block?_modifyBlock, if_neg hc]
    rfl
  · rw [inst?_modifyInst, if_pos rfl]
    show (k.inst? i).map _ = _
    rw [hd]
    rfl
  · rw [inst?_modifyInst, if_neg hj]
    rfl

theorem exists_removeInst (hd : k.inst? i = some d) (hb : (k.block? d.block).isSome = true) :
    ∃ k', k.removeInst i = .ok k' := by
  obtain ⟨blk, hblk⟩ := isSome_iff_exists.mp hb
  have hinst : k.inst i = .ok d := some?_eq_ok.mpr hd
  have hblock : k.block d.block = .ok blk := some?_eq_ok.mpr hblk
  rw [removeInst, hinst]
  show ∃ k', (if d.dead then pure k else _ : Checked Kernel) = .ok k'
  split
  · exact ⟨k, rfl⟩
  · rw [hblock]
    exact ⟨_, rfl⟩

namespace Removed

variable {d : InstDef}

variable (h : Removed k i d k')
include h

theorem mem_instsOf_iff_home : j ∈ k'.instsOf c ↔ j ∈ k.instsOf c ∧ (c = d.block → j ≠ i) := by
  by_cases hc : c = d.block
  · rw [hc, h.instsOf_home, mem_filter, decide_eq_true_iff]
    exact and_congr_right fun _ => ⟨fun hne _ => hne, fun hne => hne rfl⟩
  · rw [h.instsOf_ne c hc]
    exact ⟨fun hj => ⟨hj, fun heq => absurd heq hc⟩, fun hj => hj.1⟩

theorem instsOf_sublist (c : BlockId) : (k'.instsOf c).Sublist (k.instsOf c) := by
  by_cases hc : c = d.block
  · rw [hc, h.instsOf_home]
    exact filter_sublist
  · rw [h.instsOf_ne c hc]

theorem value? (v : ValueId) : k'.value? v = k.value? v := by
  rw [Kernel.value?, h.values]
  rfl

theorem result? (j : InstId) : k'.result? j = k.result? j := by
  by_cases hj : j = i
  · rw [hj, Kernel.result?, Kernel.result?, h.inst_removed, h.inst_before]
    rfl
  · rw [Kernel.result?, h.inst_ne j hj]
    rfl

end Removed

/-! ## Replacing -/

theorem replaceOperand_idem (old new : ValueId) (instr : Instr) :
    (instr.replaceOperand old new).replaceOperand old new = instr.replaceOperand old new := by
  simp only [Instr.replaceOperand, Instr.mapOperands_mapOperands]
  refine Instr.mapOperands_congr fun v _ => ?_
  by_cases hv : v = old
  · simp only [hv, if_true]
    split <;> simp_all
  · simp only [hv, if_false]

/-- Changing many instructions one after another changes each of them, and nothing else. -/
theorem inst?_foldl_modifyInst {f : InstDef → InstDef} (hf : ∀ d, f (f d) = f d) (is : List InstId) (k : Kernel)
    (j : InstId) :
    (is.foldl (fun k i => k.modifyInst i f) k).inst? j = (k.inst? j).map fun d => if j ∈ is then f d else d := by
  induction is generalizing k with
  | nil => simp
  | cons i is ih =>
    rw [foldl_cons, ih, inst?_modifyInst]
    by_cases hj : j = i
    · subst hj
      rw [if_pos rfl, Option.map_map]
      refine congrArg (fun f => Option.map f (k.inst? j)) (funext fun d => ?_)
      simp only [Function.comp_apply, mem_cons, true_or, if_true]
      split
      · rw [hf]
      · rfl
    · rw [if_neg hj]
      simp only [mem_cons, hj, false_or]

theorem foldl_modifyInst_eq (f : InstDef → InstDef) (is : List InstId) (k : Kernel) :
    ∃ insts, insts.size = k.insts.size ∧ is.foldl (fun k i => k.modifyInst i f) k = { k with insts } := by
  induction is generalizing k with
  | nil => exact ⟨k.insts, rfl, rfl⟩
  | cons i is ih =>
    obtain ⟨insts, hsize, heq⟩ := ih (k.modifyInst i f)
    exact ⟨insts, hsize.trans (size_modify _ _ _), heq⟩

/-- The users of a value are the linked instructions that read it. -/
theorem users_eq (k : Kernel) (v : ValueId) :
    k.users v = k.instsInOrder.filter fun i => (k.operandsOf i).contains v := by
  rw [users, userTable, SideTable.get_enlist fun _ => Place.nodup_eraseDups _]
  refine filter_congr fun i _ => ?_
  rw [Bool.eq_iff_iff, contains_iff_mem, contains_iff_mem, mem_eraseDups]

/-- Replacing changes the operands of the linked instructions and nothing else. -/
theorem inst?_replaceUses (k : Kernel) (old new : ValueId) (j : InstId) :
    (k.replaceUses old new).inst? j = (k.inst? j).map fun d =>
      if j ∈ k.instsInOrder then { d with instr := d.instr.replaceOperand old new } else d :=
  inst?_foldl_modifyInst (fun d => by simp only [replaceOperand_idem]) k.instsInOrder k j

theorem replaceUses_eq (k : Kernel) (old new : ValueId) :
    ∃ insts, insts.size = k.insts.size ∧ k.replaceUses old new = { k with insts } :=
  foldl_modifyInst_eq _ k.instsInOrder k

/-! ## Removing blocks -/

/-- `k'` is `k` without the block `b`: nothing stands in it, and what stood there is dead now. -/
structure Cleared (k : Kernel) (b : BlockId) (k' : Kernel) : Prop where
  inst : ∀ i, k'.inst? i = (k.inst? i).map fun d => if i ∈ k.instsOf b then { d with dead := true } else d
  instsOf_self : k'.instsOf b = []
  block_ne : ∀ c, c ≠ b → k'.block? c = k.block? c
  layout : k'.layout = k.layout.filter (· ≠ b)
  values : k'.values = k.values
  insts_size : k'.insts.size = k.insts.size
  blocks_size : k'.blocks.size = k.blocks.size
  block_names : ∀ c, (k'.block? c).map (·.name) = (k.block? c).map (·.name)
  params : k'.params = k.params
  ret : k'.ret = k.ret

theorem removeBlock_eq_ok (h : k.removeBlock b = .ok k') : Cleared k b k' := by
  obtain ⟨blk, hblk, h⟩ := bind_eq_ok.mp h
  have hblock := some?_eq_ok.mp hblk
  obtain rfl := pure_eq_ok.mp h
  have hinst := inst?_foldl_modifyInst (f := fun d => { d with dead := true }) (fun _ => rfl) (k.instsOf b) k
  obtain ⟨insts, hsize, heq⟩ := foldl_modifyInst_eq (fun d => { d with dead := true }) (k.instsOf b) k
  simp only [heq, ← instsOf_eq hblock] at hinst ⊢
  refine ⟨hinst, ?_, fun c hc => ?_, rfl, rfl, hsize, size_modify _ _ _,
    fun c => map_name_modifyBlock { k with insts } b c fun _ => rfl, rfl, rfl⟩
  · show (((modifyBlock { k with insts } b _).block? b).map (·.insts)).getD [] = []
    rw [block?_modifyBlock, if_pos rfl]
    show ((Option.map _ (k.block? b)).map _).getD [] = []
    rw [hblock]
    rfl
  · show (modifyBlock { k with insts } b _).block? c = _
    rw [block?_modifyBlock, if_neg hc]
    rfl

namespace Cleared

variable (h : Cleared k b k')
include h

theorem instsOf_ne (hc : c ≠ b) : k'.instsOf c = k.instsOf c := by
  rw [instsOf, instsOf, h.block_ne c hc]

theorem mem_instsOf_iff : i ∈ k'.instsOf c ↔ i ∈ k.instsOf c ∧ c ≠ b := by
  by_cases hc : c = b
  · rw [hc, h.instsOf_self]
    simp
  · rw [h.instsOf_ne hc]
    exact ⟨fun hi => ⟨hi, hc⟩, fun hi => hi.1⟩

theorem result? (i : InstId) : k'.result? i = k.result? i := by
  rw [Kernel.result?, Kernel.result?, h.inst, Option.bind_map]
  refine congrArg (k.inst? i).bind (funext fun d => ?_)
  simp only [Function.comp_apply]
  split <;> rfl

theorem value? (v : ValueId) : k'.value? v = k.value? v := by
  rw [Kernel.value?, h.values]
  rfl

end Cleared

theorem block?_isSome_of_size (hsize : k'.blocks.size = k.blocks.size) (h : (k.block? b).isSome = true) :
    (k'.block? b).isSome = true := by
  rw [block?, isSome_get?_iff] at h ⊢
  exact hsize ▸ h

theorem exists_removeBlock (hb : (k.block? b).isSome = true) : ∃ k', k.removeBlock b = .ok k' := by
  obtain ⟨blk, hblk⟩ := isSome_iff_exists.mp hb
  have hblock : k.block b = .ok blk := some?_eq_ok.mpr hblk
  rw [removeBlock, hblock]
  exact ⟨_, rfl⟩

theorem layout_foldlM_removeBlock (h : bs.foldlM removeBlock k = .ok k') : k'.layout = k.layout.filter (· ∉ bs) := by
  induction bs generalizing k with
  | nil =>
    obtain rfl := pure_eq_ok.mp h
    simp
  | cons b bs ih =>
    obtain ⟨k1, hb, h⟩ := bind_eq_ok.mp h
    rw [ih h, (removeBlock_eq_ok hb).layout, filter_filter]
    simp [Bool.and_comm]

theorem exists_foldlM_removeBlock (h : ∀ b ∈ bs, (k.block? b).isSome = true) :
    ∃ k', bs.foldlM removeBlock k = .ok k' := by
  induction bs generalizing k with
  | nil => exact ⟨k, rfl⟩
  | cons b bs ih =>
    obtain ⟨k1, hb⟩ := exists_removeBlock (h b (.head _))
    obtain ⟨k', hrest⟩ := ih fun c hc => block?_isSome_of_size (removeBlock_eq_ok hb).blocks_size (h c (.tail _ hc))
    rw [foldlM_cons]
    exact ⟨k', bind_eq_ok.mpr ⟨k1, hb, hrest⟩⟩

/-- The kernel without the inputs that its phis would get from blocks outside of `keep`. -/
def dropInputs (k : Kernel) (keep : List BlockId) : Kernel :=
  k.instsInOrder.foldl (fun k i => k.modifyInst i fun d => { d with instr := dropIncoming keep d.instr }) k

theorem dropInputs_eq (k : Kernel) (keep : List BlockId) :
    ∃ insts, insts.size = k.insts.size ∧ k.dropInputs keep = { k with insts } :=
  foldl_modifyInst_eq _ k.instsInOrder k

/-- The blocks of the layout that control cannot reach. -/
def unreachableBlocks (k : Kernel) : List BlockId := k.layout.filter fun b => !k.reachableBlocks.contains b

/-- **What removing unreachable blocks does.** It is done unless control can reach a jump to a block that is not there. -/
theorem removeUnreachable_eq_ok {n : Nat} :
    k.removeUnreachable = .ok (k', n) ↔
      (∀ b ∈ k.reachableBlocks, ∀ t ∈ k.successors b, k.blocks.contains t = true) ∧
        n = k.unreachableBlocks.length ∧ ∃ k1, k.unreachableBlocks.foldlM removeBlock k = .ok k1 ∧
          k' = if k.unreachableBlocks = [] then k1 else k1.dropInputs k.reachableBlocks := by
  have htargets : (k.reachableBlocks.flatMap k.successors).find? (fun t => !k.blocks.contains t) = none ↔
      ∀ b ∈ k.reachableBlocks, ∀ t ∈ k.successors b, k.blocks.contains t = true := by
    simp only [find?_eq_none, mem_flatMap, Bool.not_eq_true', Bool.not_eq_false]
    exact ⟨fun h b hb t ht => h t ⟨b, hb, ht⟩, fun h t ⟨b, hb, ht⟩ => h b hb t ht⟩
  rw [removeUnreachable, ← htargets]
  rw [← unreachableBlocks]
  split
  next t ht =>
    refine ⟨fun h => ?_, fun h => by cases ht.symm.trans h.1⟩
    obtain ⟨_, hthrow, _⟩ := bind_eq_ok.mp h
    exact absurd hthrow throw_ne_ok
  next hnone =>
    rw [and_iff_right hnone]
    by_cases hempty : k.unreachableBlocks = []
    · rw [hempty]
      constructor
      · intro h
        cases pure_eq_ok.mp h
        exact ⟨rfl, k, rfl, rfl⟩
      · rintro ⟨rfl, _, hfold, rfl⟩
        obtain rfl := pure_eq_ok.mp hfold
        rfl
    · rw [if_neg fun h => hempty (isEmpty_iff.mp h), bind_pure_eq_ok]
      simp only [if_neg hempty]
      constructor
      · rintro ⟨k1, hfold, h⟩
        cases h
        exact ⟨rfl, k1, hfold, rfl⟩
      · rintro ⟨rfl, k1, hfold, rfl⟩
        exact ⟨k1, hfold, rfl⟩

end Kernel

end Spmd
