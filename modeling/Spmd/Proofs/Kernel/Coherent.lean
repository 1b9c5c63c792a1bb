import Spmd.Proofs.FlowGraph.Reachable
import Spmd.Proofs.Kernel.Edit

/-!
# Coherent kernels

What all kernels have in common that are made by edits, as long as nothing is built in a removed block
(`Linked.coherent_iff`): the value that an instruction defines names the instruction, an instruction stands
in one place of one list only, and one that is not dead stands somewhere in the layout. A kernel stays
coherent when something is built, replaced or removed.
-/

namespace Spmd

open Option

variable {b : BlockId} {k : Kernel} {i : InstId} {v : ValueId} {f : InstDef → InstDef}

/-- The instruction that a value comes from. -/
def ValueKind.definer? : ValueKind → Option InstId
  | inst i => some i
  | _ => none

namespace Kernel

/-- The arenas and the lists of a kernel agree with each other. -/
structure Coherent (k : Kernel) : Prop where
  /-- A result names the instruction that defines it. -/
  defines : ∀ i v, k.result? i = some v → (k.value? v).map (·.kind) = some (.inst i)
  owned : ∀ i v, (k.value? v).map (·.kind) = some (.inst i) → k.result? i = some v
  /-- No instruction stands in two blocks. -/
  once : ∀ b c i, i ∈ k.instsOf b → i ∈ k.instsOf c → b = c
  nodup : ∀ b, (k.instsOf b).Nodup
  made : ∀ b, ∀ i ∈ k.instsOf b, (k.inst? i).isSome = true
  /-- What is not dead can be found. -/
  listed : ∀ i d, k.inst? i = some d → d.dead = false → ∃ b ∈ k.layout, i ∈ k.instsOf b
  layout : k.layout.Nodup
  blocks : ∀ b ∈ k.layout, (k.block? b).isSome = true

theorem mem_ids_of_inst? (h : (k.inst? i).isSome = true) : i ∈ k.insts.ids :=
  (Arena.mem_ids_iff _ _).mpr ((Arena.isSome_get?_iff _ _).mp h)

theorem mem_ids_of_mem_instsOf (h : i ∈ k.instsOf b) : b ∈ k.blocks.ids := by
  obtain ⟨_, hblk, _⟩ := block?_of_mem_instsOf h
  exact (Arena.mem_ids_iff _ _).mpr (lt_size_of_block? hblk)

theorem mem_ids_of_value? {d : ValueDef} (h : k.value? v = some d) : v ∈ k.values.ids := by
  refine (Arena.mem_ids_iff _ _).mpr ((Arena.isSome_get?_iff _ _).mp ?_)
  rw [← value?, h]
  rfl

theorem nodup_layout_addBlock (hlayout : k.layout.Nodup) (hblocks : ∀ b ∈ k.layout, (k.block? b).isSome = true)
    (name : String) : (k.addBlock name).1.layout.Nodup := by
  refine List.nodup_append.mpr ⟨hlayout, List.nodup_singleton _, fun b hb c hc heq => ?_⟩
  have := hblocks b hb
  rw [heq, List.mem_singleton.mp hc, block?_nextId] at this
  cases this

theorem block?_isSome_addBlock (hblocks : ∀ b ∈ k.layout, (k.block? b).isSome = true) (name : String)
    (hb : b ∈ (k.addBlock name).1.layout) : ((k.addBlock name).1.block? b).isSome = true := by
  rw [block?_addBlock]
  split
  · rfl
  next hne =>
    rcases List.mem_append.mp hb with hb | hb
    · exact hblocks b hb
    · exact absurd (List.mem_singleton.mp hb) hne

instance (k : Kernel) : Decidable k.Coherent :=
  decidable_of_iff
    ((∀ i ∈ k.insts.ids, ∀ v ∈ k.result? i, (k.value? v).map (·.kind) = some (.inst i)) ∧
      (∀ v ∈ k.values.ids, ∀ d ∈ k.value? v, ∀ i ∈ d.kind.definer?, k.result? i = some v) ∧
      (∀ b ∈ k.blocks.ids, ∀ c ∈ k.blocks.ids, ∀ i ∈ k.instsOf b, i ∈ k.instsOf c → b = c) ∧
      (∀ b ∈ k.blocks.ids, (k.instsOf b).Nodup) ∧
      (∀ b ∈ k.blocks.ids, ∀ i ∈ k.instsOf b, (k.inst? i).isSome = true) ∧
      (∀ i ∈ k.insts.ids, ∀ d ∈ k.inst? i, d.dead = false → ∃ b ∈ k.layout, i ∈ k.instsOf b) ∧
      k.layout.Nodup ∧ ∀ b ∈ k.layout, (k.block? b).isSome = true)
    (by
      have hresult : ∀ i v, k.result? i = some v → i ∈ k.insts.ids := by
        intro i v h
        obtain ⟨d, hd, _⟩ := bind_eq_some_iff.mp h
        exact mem_ids_of_inst? (by rw [hd]; rfl)
      have hempty : ∀ b, b ∉ k.blocks.ids → k.instsOf b = [] := fun b hb =>
        List.eq_nil_iff_forall_not_mem.mpr fun i hi => hb (mem_ids_of_mem_instsOf hi)
      constructor
      · rintro ⟨hdefines, howned, honce, hnodup, hmade, hlisted, hlayout, hblocks⟩
        refine ⟨fun i v h => hdefines i (hresult i v h) v h, fun i v h => ?_, fun b c i hb hc => ?_, fun b => ?_,
          fun b i hi => ?_, fun i d hd => ?_, hlayout, hblocks⟩
        · obtain ⟨d, hd, hkind⟩ := map_eq_some_iff.mp h
          exact howned v (mem_ids_of_value? hd) d hd i (by rw [hkind]; rfl)
        · exact honce b (mem_ids_of_mem_instsOf hb) c (mem_ids_of_mem_instsOf hc) i hb hc
        · by_cases hb : b ∈ k.blocks.ids
          · exact hnodup b hb
          · rw [hempty b hb]
            exact List.nodup_nil
        · exact hmade b (mem_ids_of_mem_instsOf hi) i hi
        · exact hlisted i (mem_ids_of_inst? (by rw [hd]; rfl)) d hd
      · intro h
        refine ⟨fun i _ v hv => h.defines i v hv, fun v _ d hd i hi => h.owned i v ?_,
          fun b _ c _ i => h.once b c i, fun b _ => h.nodup b,
          fun b _ => h.made b, fun i _ d hd => h.listed i d hd, h.layout, h.blocks⟩
        have hkind : d.kind = .inst i := by
          cases hk : d.kind with
          | inst j => rw [hk] at hi; rw [some.inj hi]
          | param _ | const _ | undef => rw [hk] at hi; exact absurd hi (by simp [ValueKind.definer?])
        rw [mem_def.mp hd, map_some, hkind])

namespace Coherent

variable {k' : Kernel} {j : InstId}

/-- An instruction that defines a value is the only one. -/
theorem result_inj (hk : k.Coherent) (hi : k.result? i = some v) (hj : k.result? j = some v) : i = j := by
  have h := (hk.defines i v hi).symm.trans (hk.defines j v hj)
  exact ValueKind.inst.inj (some.inj h)

theorem not_mem_nextId (hk : k.Coherent) (b : BlockId) : k.insts.nextId ∉ k.instsOf b := by
  intro h
  have := hk.made b _ h
  rw [inst?_nextId] at this
  cases this

/-! ## What editing keeps -/

section

variable (hk : k.Coherent)
include hk

theorem addValue {kind : ValueKind} (hkind : ∀ i, kind ≠ .inst i) (ty : Ty) :
    (k.addValue kind ty).1.Coherent where
  defines i v hv := by
    have h := hk.defines i v hv
    rw [value?_addValue, if_neg]
    · exact h
    · rintro rfl
      rw [value?_nextId] at h
      cases h
  owned i v hv := by
    rw [value?_addValue] at hv
    split at hv
    · exact absurd (some.inj hv) (hkind i)
    · exact hk.owned i v hv
  once := hk.once
  nodup := hk.nodup
  made := hk.made
  listed := hk.listed
  layout := hk.layout
  blocks := hk.blocks

theorem inserted {pre post : List InstId} {instr : Instr} {ty : Ty} (hb : b ∈ k.layout)
    (h : Inserted k b pre post instr ty k' j) : k'.Coherent := by
  have hfresh : ∀ c, j ∉ k.instsOf c := fun c => h.id ▸ hk.not_mem_nextId c
  have hdefines := h.defines_iff fun i v => ⟨hk.defines i v, hk.owned i v⟩
  refine ⟨fun i v => (hdefines i v).mp, fun i v => (hdefines i v).mpr, fun c c' i hc hc' => ?_,
    fun c => h.nodup_instsOf (hfresh c) (hk.nodup c), fun c i hi => ?_, fun i d hd halive => ?_, h.layout ▸ hk.layout,
    fun c hc => ?_⟩
  · rcases h.mem_instsOf_iff.mp hc with hc | ⟨rfl, rfl⟩
    · rcases h.mem_instsOf_iff.mp hc' with hc' | ⟨rfl, rfl⟩
      · exact hk.once c c' i hc hc'
      · exact absurd hc (hfresh c)
    · rcases h.mem_instsOf_iff.mp hc' with hc' | ⟨rfl, _⟩
      · exact absurd hc' (hfresh c')
      · rfl
  · rcases h.mem_instsOf_iff.mp hi with hi | ⟨_, rfl⟩
    · have hne : i ≠ j := fun heq => hfresh c (heq ▸ hi)
      rw [h.inst_old i hne]
      exact hk.made c i hi
    · rw [h.inst_new]
      rfl
  · by_cases hi : i = j
    · exact ⟨b, h.layout ▸ hb, h.mem_instsOf_iff.mpr (.inr ⟨rfl, hi⟩)⟩
    · rw [h.inst_old i hi] at hd
      obtain ⟨c, hc, hic⟩ := hk.listed i d hd halive
      exact ⟨c, h.layout ▸ hc, h.mem_instsOf_iff.mpr (.inl hic)⟩
  · exact block?_isSome_of_size h.blocks_size (hk.blocks c (h.layout ▸ hc))

/-- Changing what an instruction does, or marking it dead. -/
theorem modifyInst (i : InstId) (hresult : ∀ d, (f d).result = d.result)
    (hdead : ∀ d, (f d).dead = false → d.dead = false) : (k.modifyInst i f).Coherent := by
  have hinst : ∀ j d', (k.modifyInst i f).inst? j = some d' →
      ∃ d, k.inst? j = some d ∧ (d'.dead = false → d.dead = false) := by
    intro j d' hd
    rw [inst?_modifyInst] at hd
    split at hd
    · obtain ⟨d, hold, rfl⟩ := map_eq_some_iff.mp hd
      exact ⟨d, hold, hdead d⟩
    · exact ⟨d', hd, id⟩
  have hsame : ∀ j, (k.modifyInst i f).result? j = k.result? j := by
    intro j
    rw [result?, result?, inst?_modifyInst]
    split
    · rw [bind_map]
      exact congrArg (k.inst? j).bind (funext hresult)
    · rfl
  refine ⟨fun j v hv => hk.defines j v (hsame j ▸ hv), fun j v hv => (hsame j).symm ▸ hk.owned j v hv, hk.once,
    hk.nodup, fun b j hj => ?_, fun j d hd halive => ?_, hk.layout, hk.blocks⟩
  · rw [inst?_modifyInst]
    split
    · rw [isSome_map]
      exact hk.made b j hj
    · exact hk.made b j hj
  · obtain ⟨d', hd', halive'⟩ := hinst j d hd
    exact hk.listed j d' hd' (halive' halive)

/-- Changing what many instructions do, or marking them dead. -/
theorem foldl_modifyInst (is : List InstId) (hresult : ∀ d, (f d).result = d.result)
    (hdead : ∀ d, (f d).dead = false → d.dead = false) : (is.foldl (fun k i => k.modifyInst i f) k).Coherent := by
  induction is generalizing k with
  | nil => exact hk
  | cons i is ih => exact ih (hk.modifyInst i hresult hdead)

theorem replaceUses (old new : ValueId) : (k.replaceUses old new).Coherent :=
  hk.foldl_modifyInst k.instsInOrder (fun _ => rfl) fun _ h => h

theorem removed {d : InstDef} (h : Removed k i d k') : k'.Coherent := by
  have hmem : ∀ c j, j ∈ k'.instsOf c → j ∈ k.instsOf c := fun c _ hj => (h.instsOf_sublist c).subset hj
  refine ⟨fun j v hv => ?_, fun j v hv => ?_, fun c c' j hc hc' => hk.once c c' j (hmem c j hc) (hmem c' j hc'),
    fun c => (hk.nodup c).sublist (h.instsOf_sublist c), fun c j hj => ?_, fun j d' hd halive => ?_,
    h.layout ▸ hk.layout, fun c hc => ?_⟩
  · rw [h.value?]
    exact hk.defines j v (h.result? j ▸ hv)
  · rw [h.value?] at hv
    rw [h.result?]
    exact hk.owned j v hv
  · by_cases hji : j = i
    · rw [hji, h.inst_removed]
      rfl
    · rw [h.inst_ne j hji]
      exact hk.made c j (hmem c j hj)
  · by_cases hji : j = i
    · subst hji
      rw [h.inst_removed] at hd
      exact absurd halive (by rw [← some.inj hd]; simp)
    · rw [h.inst_ne j hji] at hd
      obtain ⟨c, hc, hj⟩ := hk.listed j d' hd halive
      exact ⟨c, h.layout ▸ hc, h.mem_instsOf_iff_home.mpr ⟨hj, fun _ => hji⟩⟩
  · exact block?_isSome_of_size h.blocks_size (hk.blocks c (h.layout ▸ hc))

end

end Coherent

end Kernel

end Spmd
