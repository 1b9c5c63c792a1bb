import Spmd.Proofs.Kernel.Coherent

/-!
# Linked kernels

The lists of a kernel and its arenas say the same thing twice: an instruction stands in the list of a block exactly if
it is not dead and linked to the block, and a value comes from an instruction exactly if it is the instruction's
result. `Linked` is what holds of every kernel, also of one with instructions in blocks that have left the layout.

An editing step gives out new ids and leaves all others their meaning (`Evolves`). Every editing operation is such a
step, and so is what is made of them:

* **`Linked.addValue`**, **`Linked.addBlock`**, **`Linked.inserted`** for what is added;
* **`Linked.foldl_modifyInst`** for what is rewritten;
* **`Linked.removed`**, **`Linked.cleared`** for what is removed.
-/

namespace Spmd

open List Arena
open Option (isSome_iff_exists map_eq_some_iff mem_unique)

/-- The id of something that a kernel is made of. -/
inductive Thing where
  | value (v : ValueId)
  | inst (i : InstId)
  | block (b : BlockId)
deriving DecidableEq

namespace Kernel

/-- The lists of a kernel and its arenas agree. -/
structure Linked (k : Kernel) : Prop where
  layout : k.layout.Nodup
  blocks : ∀ b ∈ k.layout, (k.block? b).isSome = true
  /-- What stands in a block is what is alive and linked to it, -/
  mem_iff : ∀ b i, i ∈ k.instsOf b ↔ ∃ d, k.inst? i = some d ∧ d.dead = false ∧ d.block = b
  /-- and stands there once. -/
  nodup : ∀ b, (k.instsOf b).Nodup
  home : ∀ i d, k.inst? i = some d → (k.block? d.block).isSome = true
  /-- Results and values name each other. -/
  defines_iff : ∀ i v, k.result? i = some v ↔ (k.value? v).map (·.kind) = some (.inst i)

/-- The kernel has the thing, be it removed or not. -/
def Has (k : Kernel) : Thing → Prop
  | .value v => (k.value? v).isSome = true
  | .inst i => (k.inst? i).isSome = true
  | .block b => (k.block? b).isSome = true

def IsDead (k : Kernel) (i : InstId) : Prop := ∃ d, k.inst? i = some d ∧ d.dead = true

/-- All ids of `k` mean the same in `k'`, and what was removed stays removed. -/
structure Persists (k k' : Kernel) : Prop where
  value : ∀ v d, k.value? v = some d → k'.value? v = some d
  inst : ∀ i d, k.inst? i = some d →
    ∃ d', k'.inst? i = some d' ∧ d'.result = d.result ∧ d'.block = d.block ∧ (d.dead = true → d'.dead = true)
  block : ∀ b blk, k.block? b = some blk → ∃ blk', k'.block? b = some blk' ∧ blk'.name = blk.name
  gone : ∀ b, k.Has (.block b) → b ∉ k.layout → b ∉ k'.layout
  /-- What a block held when it left is dead. -/
  left : ∀ b ∈ k.layout, b ∉ k'.layout → ∀ i ∈ k.instsOf b, k'.IsDead i

variable {k k' k'' : Kernel} {b c : BlockId} {i j : InstId} {v : ValueId}

theorem Persists.isDead (h : k.Persists k') (hi : k.IsDead i) : k'.IsDead i := by
  obtain ⟨d, hd, hdead⟩ := hi
  obtain ⟨d', hd', _, _, hdead'⟩ := h.inst i d hd
  exact ⟨d', hd', hdead' hdead⟩

theorem Persists.has {t : Thing} (h : k.Persists k') (ht : k.Has t) : k'.Has t := by
  cases t with
  | value v =>
    obtain ⟨d, hd⟩ := isSome_iff_exists.mp ht
    exact isSome_iff_exists.mpr ⟨d, h.value v d hd⟩
  | inst i =>
    obtain ⟨d, hd⟩ := isSome_iff_exists.mp ht
    obtain ⟨d', hd', _⟩ := h.inst i d hd
    exact isSome_iff_exists.mpr ⟨d', hd'⟩
  | block b =>
    obtain ⟨blk, hblk⟩ := isSome_iff_exists.mp ht
    obtain ⟨blk', hblk', _⟩ := h.block b blk hblk
    exact isSome_iff_exists.mpr ⟨blk', hblk'⟩

theorem Persists.refl (k : Kernel) : k.Persists k :=
  ⟨fun _ _ h => h, fun _ d h => ⟨d, h, rfl, rfl, id⟩, fun _ blk h => ⟨blk, h, rfl⟩, fun _ _ h => h,
    fun _ hb hb' => absurd hb hb'⟩

theorem Persists.trans (hk : k.Linked) (hk' : k'.Linked) (h : k.Persists k') (h' : k'.Persists k'') : k.Persists k'' where
  value v d hd := h'.value v d (h.value v d hd)
  inst i d hd := by
    obtain ⟨d', hd', hresult, hblock, hdead⟩ := h.inst i d hd
    obtain ⟨d'', hd'', hresult', hblock', hdead'⟩ := h'.inst i d' hd'
    exact ⟨d'', hd'', hresult'.trans hresult, hblock'.trans hblock, fun hd => hdead' (hdead hd)⟩
  block b blk hblk := by
    obtain ⟨blk', hblk', hname⟩ := h.block b blk hblk
    obtain ⟨blk'', hblk'', hname'⟩ := h'.block b blk' hblk'
    exact ⟨blk'', hblk'', hname'.trans hname⟩
  gone b hb hnot := h'.gone b (h.has hb) (h.gone b hb hnot)
  left b hb hnot i hi := by
    by_cases hb' : b ∈ k'.layout
    · -- what was not removed on its own still stands in the block when that leaves
      obtain ⟨d, hd, _, rfl⟩ := (hk.mem_iff b i).mp hi
      obtain ⟨d', hd', _, hblock, _⟩ := h.inst i d hd
      cases hdead : d'.dead with
      | true => exact h'.isDead ⟨d', hd', hdead⟩
      | false => exact h'.left d.block hb' hnot i ((hk'.mem_iff d.block i).mpr ⟨d', hd', hdead, hblock⟩)
    · exact h'.isDead (h.left b hb hb' i hi)

theorem Linked.once (hk : k.Linked) (hb : i ∈ k.instsOf b) (hc : i ∈ k.instsOf c) : b = c := by
  obtain ⟨d, hd, _, rfl⟩ := (hk.mem_iff b i).mp hb
  obtain ⟨d', hd', _, rfl⟩ := (hk.mem_iff c i).mp hc
  rw [mem_unique hd hd']

/-- A linked kernel is coherent exactly if nothing alive is linked to a block that has left the layout. -/
theorem Linked.coherent_iff (hk : k.Linked) :
    k.Coherent ↔ ∀ i d, k.inst? i = some d → d.dead = false → d.block ∈ k.layout := by
  constructor
  · intro h i d hd hdead
    obtain ⟨b, hb, hi⟩ := h.listed i d hd hdead
    rwa [hk.once ((hk.mem_iff d.block i).mpr ⟨d, hd, hdead, rfl⟩) hi]
  · intro hlive
    exact
      { defines := fun i v => (hk.defines_iff i v).mp
        owned := fun i v => (hk.defines_iff i v).mpr
        once := fun _ _ _ => hk.once
        nodup := hk.nodup
        made := fun b i hi => by
          obtain ⟨d, hd, _⟩ := (hk.mem_iff b i).mp hi
          rw [hd]; rfl
        listed := fun i d hd hdead => ⟨d.block, hlive i d hd hdead, (hk.mem_iff d.block i).mpr ⟨d, hd, hdead, rfl⟩⟩
        layout := hk.layout
        blocks := hk.blocks }

/-- `k'` comes from `k` by edits that gave out the ids `new`. -/
structure Evolves (k : Kernel) (new : List Thing) (k' : Kernel) : Prop where
  linked : k'.Linked
  persists : k.Persists k'
  nodup : new.Nodup
  fresh : ∀ t ∈ new, ¬k.Has t
  has_iff : ∀ t, k'.Has t ↔ k.Has t ∨ t ∈ new

theorem Evolves.refl (hk : k.Linked) : k.Evolves [] k :=
  ⟨hk, .refl k, nodup_nil, nofun, fun _ => by simp⟩

theorem Evolves.trans {new new' : List Thing} (hk : k.Linked) (h : k.Evolves new k') (h' : k'.Evolves new' k'') :
    k.Evolves (new ++ new') k'' where
  linked := h'.linked
  persists := h.persists.trans hk h.linked h'.persists
  nodup := nodup_append.mpr ⟨h.nodup, h'.nodup, fun t ht t' ht' heq =>
    h'.fresh t' ht' ((h.has_iff t').mpr (.inr (heq ▸ ht)))⟩
  fresh t ht hhas := by
    rcases mem_append.mp ht with ht | ht
    · exact h.fresh t ht hhas
    · exact h'.fresh t ht ((h.has_iff t).mpr (.inl hhas))
  has_iff t := by rw [h'.has_iff, h.has_iff, mem_append, or_assoc]

/-- What a kernel has is told by the sizes of its arenas. -/
theorem has_iff_lt (k : Kernel) (t : Thing) : k.Has t ↔
    match t with
    | .value v => v.index < k.values.size
    | .inst i => i.index < k.insts.size
    | .block b => b.index < k.blocks.size := by
  cases t <;> exact isSome_get?_iff _ _

/-- A step that gives out no ids. -/
theorem Evolves.of_sizes (hk' : k'.Linked) (h : k.Persists k') (hvalues : k'.values.size = k.values.size)
    (hinsts : k'.insts.size = k.insts.size) (hblocks : k'.blocks.size = k.blocks.size) : k.Evolves [] k' := by
  refine ⟨hk', h, nodup_nil, nofun, fun t => ?_⟩
  rw [has_iff_lt, has_iff_lt, hvalues, hinsts, hblocks]
  simp

theorem exists_block_of_names (hnames : ∀ c, (k'.block? c).map (·.name) = (k.block? c).map (·.name)) {blk : Block}
    (hblk : k.block? b = some blk) : ∃ blk', k'.block? b = some blk' ∧ blk'.name = blk.name := by
  have := hnames b
  rw [hblk] at this
  exact map_eq_some_iff.mp this

theorem linked_empty (name : String) (ret : Ty) : Linked { name, ret } where
  layout := nodup_nil
  blocks _ h := absurd h not_mem_nil
  mem_iff b i := by simp [instsOf, block?, inst?, get?]
  nodup b := by simp [instsOf, block?, get?]
  home i d h := absurd h (by simp [inst?, get?])
  defines_iff i v := by simp [result?, inst?, value?, get?]

/-- A coherent kernel is linked if its instructions name the blocks they stand in. -/
theorem linked_of_coherent (hk : k.Coherent)
    (hstands : ∀ b ∈ k.blocks.ids, ∀ i ∈ k.instsOf b, (k.inst? i).any (fun d => !d.dead && d.block = b) = true)
    (hnames : ∀ i ∈ k.insts.ids, (k.inst? i).all (fun d =>
      (k.block? d.block).isSome && (d.dead || (k.instsOf d.block).contains i)) = true) : k.Linked := by
  have hname : ∀ i d, k.inst? i = some d → (k.block? d.block).isSome = true ∧ (d.dead = false → i ∈ k.instsOf d.block) := by
    intro i d hd
    have := hnames i (mem_ids_of_inst? (by rw [hd]; rfl))
    rw [hd] at this
    simpa [or_iff_not_imp_left] using this
  refine ⟨hk.layout, hk.blocks, fun b i => ⟨fun hi => ?_, ?_⟩, hk.nodup, fun i d hd => (hname i d hd).1,
    fun i v => ⟨hk.defines i v, hk.owned i v⟩⟩
  · obtain ⟨d, hd, h⟩ := Option.any_eq_true _ _ |>.mp (hstands b (mem_ids_of_mem_instsOf hi) i hi)
    simp only [Bool.and_eq_true, Bool.not_eq_true', decide_eq_true_eq] at h
    exact ⟨d, hd, h.1, h.2⟩
  · rintro ⟨d, hd, halive, rfl⟩
    exact (hname i d hd).2 halive

namespace Linked

variable (hk : k.Linked)
include hk

theorem has_of_result? (h : k.result? i = some v) : k.Has (.value v) := by
  obtain ⟨d, hd, _⟩ := map_eq_some_iff.mp ((hk.defines_iff i v).mp h)
  exact isSome_iff_exists.mpr ⟨d, hd⟩

theorem inst?_of_mem (h : i ∈ k.instsOf b) : ∃ d, k.inst? i = some d ∧ d.dead = false :=
  have ⟨d, hd, halive, _⟩ := (hk.mem_iff b i).mp h
  ⟨d, hd, halive⟩

/-! ## What is added -/

theorem addValue {kind : ValueKind} {ty : Ty} (hkind : ∀ i, kind ≠ .inst i)
    (hvalues : k'.values = (k.values.alloc ⟨kind, ty⟩).1) (hinsts : k'.insts = k.insts) (hblocks : k'.blocks = k.blocks)
    (hlayout : k'.layout = k.layout) : k.Evolves [.value k.values.nextId] k' := by
  have hvalue : ∀ v, k'.value? v = if v = k.values.nextId then some ⟨kind, ty⟩ else k.value? v := fun v => by
    rw [value?, hvalues]
    exact get?_alloc k.values ⟨kind, ty⟩ v
  have hinst : ∀ i, k'.inst? i = k.inst? i := fun i => by rw [inst?, hinsts]; rfl
  have hblock : ∀ b, k'.block? b = k.block? b := fun b => by rw [block?, hblocks]; rfl
  have hlist : ∀ b, k'.instsOf b = k.instsOf b := fun b => by rw [instsOf, hblock]; rfl
  have hold : ∀ v d, k.value? v = some d → k'.value? v = some d := by
    intro v d hd
    rw [hvalue, if_neg]
    · exact hd
    · rintro rfl
      rw [value?_nextId] at hd
      cases hd
  refine ⟨⟨hlayout ▸ hk.layout, fun b hb => ?_, fun b i => ?_, fun b => hlist b ▸ hk.nodup b, fun i d hd => ?_,
    fun i v => ?_⟩, ⟨hold, fun i d hd => ⟨d, (hinst i).trans hd, rfl, rfl, id⟩,
    fun b blk hblk => ⟨blk, (hblock b).trans hblk, rfl⟩, fun b _ hb => hlayout ▸ hb,
    fun b hb hb' => absurd (hlayout ▸ hb) hb'⟩, nodup_singleton _, fun t ht hhas => ?_, fun t => ?_⟩
  · rw [hblock]
    exact hk.blocks b (hlayout ▸ hb)
  · rw [hlist, hinst]
    exact hk.mem_iff b i
  · rw [hblock]
    exact hk.home i d (hinst i ▸ hd)
  · rw [result?, hinst, hvalue]
    split
    next hv =>
      -- no instruction has a value for a result that was free before
      refine ⟨fun h => ?_, fun h => absurd (Option.some.inj h) (hkind i)⟩
      have := hk.has_of_result? h
      rw [hv, Has, value?_nextId] at this
      cases this
    · exact hk.defines_iff i v
  · rw [mem_singleton.mp ht, Has, value?_nextId] at hhas
    cases hhas
  · rw [mem_singleton]
    cases t with
    | value v =>
      rw [Has, Has, hvalue, Thing.value.injEq]
      split <;> simp_all
    | inst i => simp [Has, hinst]
    | block b => simp [Has, hblock]

theorem addBlock (name : String) : k.Evolves [.block k.blocks.nextId] (k.addBlock name).1 := by
  have hfree : ∀ {b}, k.Has (.block b) → b ≠ k.blocks.nextId := by
    rintro _ hb rfl
    rw [Has, block?_nextId] at hb
    cases hb
  refine ⟨⟨nodup_layout_addBlock hk.layout hk.blocks name, fun b => block?_isSome_addBlock hk.blocks name, fun b i => ?_,
    fun b => ?_, fun i d hd => ?_, hk.defines_iff⟩, ⟨fun _ _ h => h, fun _ d h => ⟨d, h, rfl, rfl, id⟩,
    fun b blk hblk => ⟨blk, ?_, rfl⟩, fun b hb hnot hin => ?_, fun b hb hnot => ?_⟩, nodup_singleton _,
    fun t ht hhas => ?_, fun t => ?_⟩
  · rw [instsOf_addBlock]
    exact hk.mem_iff b i
  · rw [instsOf_addBlock]
    exact hk.nodup b
  · rw [block?_addBlock]
    split
    · rfl
    · exact hk.home i d hd
  · rw [block?_addBlock, if_neg (hfree (isSome_iff_exists.mpr ⟨blk, hblk⟩))]
    exact hblk
  · rcases mem_append.mp hin with hin | hin
    · exact hnot hin
    · exact hfree hb (mem_singleton.mp hin)
  · exact absurd (mem_append_left _ hb) hnot
  · rw [mem_singleton.mp ht] at hhas
    exact hfree hhas rfl
  · rw [mem_singleton]
    cases t with
    | value v | inst i => simp only [Has, reduceCtorEq, or_false]; rfl
    | block b =>
      rw [Has, Has, block?_addBlock, Thing.block.injEq]
      split <;> simp_all

theorem inserted {pre post : List InstId} {instr : Instr} {ty : Ty} (hb : k.Has (.block b))
    (h : Inserted k b pre post instr ty k' j) : k.Evolves (.inst j :: (k'.result? j).toList.map .value) k' := by
  have hfresh : ∀ c, j ∉ k.instsOf c := by
    intro c hj
    obtain ⟨d, hd, _⟩ := hk.inst?_of_mem hj
    exact (h.inst?_of_some hd).2 rfl
  have hblock : ∀ c, k.Has (.block c) → k'.Has (.block c) := fun c => block?_isSome_of_size h.blocks_size
  have hnew : ∀ t, t ∈ Thing.inst j :: (k'.result? j).toList.map .value ↔
      t = .inst j ∨ ty.isVoid = false ∧ t = .value k.values.nextId := by
    intro t
    rw [h.result?_eq]
    cases ty.isVoid <;> simp
  refine ⟨⟨h.layout ▸ hk.layout, fun c hc => hblock c (hk.blocks c (h.layout ▸ hc)), fun c i => ?_,
    fun c => h.nodup_instsOf (hfresh c) (hk.nodup c), fun i d hd => ?_, h.defines_iff hk.defines_iff⟩,
    ⟨fun _ _ => h.value?_of_some, fun i d hd => ⟨d, (h.inst?_of_some hd).1, rfl, rfl, id⟩,
    fun _ _ => exists_block_of_names h.block_names, fun c _ hc => h.layout ▸ hc,
    fun c hc hc' => absurd (h.layout ▸ hc) hc'⟩, ?_, fun t ht hhas => ?_, fun t => ?_⟩
  · rw [h.mem_instsOf_iff]
    by_cases hi : i = j
    · subst hi
      rw [h.inst_new]
      refine ⟨fun hc => ?_, fun ⟨d, hd, _, hblock⟩ => .inr ⟨?_, rfl⟩⟩
      · exact ⟨_, rfl, rfl, (hc.resolve_left (hfresh c)).1.symm⟩
      · rw [← hblock, ← Option.some.inj hd]
    · rw [h.inst_old i hi, hk.mem_iff]
      simp [hi]
  · by_cases hi : i = j
    · rw [hi, h.inst_new] at hd
      rw [← Option.some.inj hd]
      exact hblock b hb
    · rw [h.inst_old i hi] at hd
      exact hblock d.block (hk.home i d hd)
  · rw [h.result?_eq]
    cases ty.isVoid <;> simp
  · rcases (hnew t).mp ht with rfl | ⟨_, rfl⟩
    · rw [Has, h.id, inst?_nextId] at hhas
      cases hhas
    · rw [Has, value?_nextId] at hhas
      cases hhas
  · rw [hnew]
    cases t with
    | value v =>
      by_cases hv : v = k.values.nextId
      · cases hvoid : ty.isVoid with
        | true => simp [Has, value?, h.value_void hvoid]
        | false => simp [Has, hv, h.value_new hvoid]
      · simp [Has, h.value_old v hv, hv]
    | inst i =>
      by_cases hi : i = j
      · simp [Has, hi, h.inst_new]
      · simp [Has, h.inst_old i hi, hi]
    | block c =>
      rw [has_iff_lt, has_iff_lt, h.blocks_size]
      simp

/-! ## What is rewritten -/

/-- Changing what an instruction does. -/
theorem modifyInst {f : InstDef → InstDef} (i : InstId) (hresult : ∀ d, (f d).result = d.result)
    (hblock : ∀ d, (f d).block = d.block) (hdead : ∀ d, (f d).dead = d.dead) : k.Evolves [] (k.modifyInst i f) := by
  have hinst : ∀ j, ∃ g : InstDef → InstDef, (k.modifyInst i f).inst? j = (k.inst? j).map g ∧
      ∀ d, (g d).result = d.result ∧ (g d).block = d.block ∧ (g d).dead = d.dead := by
    intro j
    rw [inst?_modifyInst]
    split
    · exact ⟨f, rfl, fun d => ⟨hresult d, hblock d, hdead d⟩⟩
    · exact ⟨id, Option.map_id_apply.symm, fun d => ⟨rfl, rfl, rfl⟩⟩
  refine .of_sizes ⟨hk.layout, hk.blocks, fun b j => ?_, hk.nodup, fun j d hd => ?_, fun j v => ?_⟩
    ⟨fun _ _ h => h, fun j d hd => ?_, fun _ blk h => ⟨blk, h, rfl⟩, fun _ _ h => h, fun _ hb hb' => absurd hb hb'⟩
    rfl (size_modify _ _ _) rfl
  · obtain ⟨g, hg, hsame⟩ := hinst j
    show j ∈ k.instsOf b ↔ _
    rw [hk.mem_iff, hg]
    simp only [map_eq_some_iff, exists_exists_and_eq_and, hsame]
  · obtain ⟨g, hg, hsame⟩ := hinst j
    rw [hg] at hd
    obtain ⟨d', hd', rfl⟩ := map_eq_some_iff.mp hd
    rw [(hsame d').2.1]
    exact hk.home j d' hd'
  · obtain ⟨g, hg, hsame⟩ := hinst j
    rw [result?, hg, Option.bind_map, show InstDef.result ∘ g = InstDef.result from funext fun d => (hsame d).1]
    exact hk.defines_iff j v
  · obtain ⟨g, hg, hsame⟩ := hinst j
    refine ⟨g d, by rw [hg, hd]; rfl, (hsame d).1, (hsame d).2.1, fun h => (hsame d).2.2.trans h⟩

theorem foldl_modifyInst {f : InstDef → InstDef} (is : List InstId)
    (hresult : ∀ d, (f d).result = d.result) (hblock : ∀ d, (f d).block = d.block) (hdead : ∀ d, (f d).dead = d.dead) :
    k.Evolves [] (is.foldl (fun k i => k.modifyInst i f) k) := by
  induction is generalizing k with
  | nil => exact .refl hk
  | cons i is ih =>
    have hstep := hk.modifyInst i hresult hblock hdead
    exact hstep.trans hk (ih hstep.linked)

/-! ## What is removed -/

theorem removed {d : InstDef} (h : Removed k i d k') : k.Evolves [] k' := by
  have hinst : ∀ j d', k.inst? j = some d' →
      ∃ d'', k'.inst? j = some d'' ∧ d''.result = d'.result ∧ d''.block = d'.block ∧ (d'.dead = true → d''.dead = true) := by
    intro j d' hd'
    by_cases hj : j = i
    · subst hj
      obtain rfl := mem_unique h.inst_before hd'
      exact ⟨_, h.inst_removed, rfl, rfl, fun _ => rfl⟩
    · exact ⟨d', (h.inst_ne j hj).trans hd', rfl, rfl, id⟩
  have hblock : ∀ c, k.Has (.block c) → k'.Has (.block c) := fun c => block?_isSome_of_size h.blocks_size
  refine .of_sizes ⟨h.layout ▸ hk.layout, fun c hc => hblock c (hk.blocks c (h.layout ▸ hc)), fun c j => ?_,
    fun c => (hk.nodup c).sublist (h.instsOf_sublist c), fun j d' hd' => ?_, fun j v => ?_⟩
    ⟨fun v d' hd' => (h.value? v).trans hd', hinst, fun _ _ => exists_block_of_names h.block_names,
      fun c _ hc => h.layout ▸ hc, fun c hc hc' => absurd (h.layout ▸ hc) hc'⟩
    (congrArg size h.values) h.insts_size h.blocks_size
  · rw [h.mem_instsOf_iff_home]
    by_cases hj : j = i
    · subst hj
      rw [hk.mem_iff, h.inst_removed, h.inst_before]
      constructor
      · rintro ⟨⟨e, he, _, hblock⟩, hne⟩
        cases he
        exact absurd rfl (hne hblock.symm)
      · rintro ⟨e, he, halive, _⟩
        rw [← Option.some.inj he] at halive
        cases halive
    · rw [h.inst_ne j hj, hk.mem_iff]
      simp [hj]
  · by_cases hj : j = i
    · rw [hj, h.inst_removed] at hd'
      rw [← Option.some.inj hd']
      exact hblock d.block (hk.home i d h.inst_before)
    · rw [h.inst_ne j hj] at hd'
      exact hblock d'.block (hk.home j d' hd')
  · rw [h.result?, h.value?]
    exact hk.defines_iff j v

theorem cleared (h : Cleared k b k') : k.Evolves [] k' := by
  have hblock : ∀ c, k.Has (.block c) → k'.Has (.block c) := fun c => block?_isSome_of_size h.blocks_size
  have hlayout : ∀ c, c ∈ k'.layout ↔ c ∈ k.layout ∧ c ≠ b := by
    intro c
    rw [h.layout, mem_filter, decide_eq_true_iff]
  have hdead : ∀ i d, k.inst? i = some d → i ∈ k.instsOf b → k'.inst? i = some { d with dead := true } := by
    intro i d hd hi
    rw [h.inst, hd, Option.map_some, if_pos hi]
  have halive : ∀ i, i ∉ k.instsOf b → k'.inst? i = k.inst? i := by
    intro i hi
    rw [h.inst]
    simp [hi]
  refine .of_sizes ⟨h.layout ▸ hk.layout.filter _, fun c hc => hblock c (hk.blocks c ((hlayout c).mp hc).1), fun c i => ?_,
    fun c => ?_, fun i d hd => ?_, fun i v => ?_⟩
    ⟨fun v d hd => (h.value? v).trans hd, fun i d hd => ?_, fun _ _ => exists_block_of_names h.block_names,
      fun c _ hc hc' => hc ((hlayout c).mp hc').1, fun c hc hc' i hi => ?_⟩
    (congrArg size h.values) h.insts_size h.blocks_size
  · rw [h.mem_instsOf_iff]
    by_cases hi : i ∈ k.instsOf b
    · obtain ⟨d, hd, _, rfl⟩ := (hk.mem_iff b i).mp hi
      rw [hk.mem_iff, hdead i d hd hi, hd]
      constructor
      · rintro ⟨⟨e, he, _, hc⟩, hne⟩
        cases he
        exact absurd hc.symm hne
      · rintro ⟨e, he, halive, _⟩
        rw [← Option.some.inj he] at halive
        cases halive
    · rw [halive i hi, ← hk.mem_iff]
      exact ⟨And.left, fun hc => ⟨hc, fun heq => hi (heq ▸ hc)⟩⟩
  · by_cases hc : c = b
    · rw [hc, h.instsOf_self]
      exact nodup_nil
    · rw [h.instsOf_ne hc]
      exact hk.nodup c
  · rw [h.inst] at hd
    obtain ⟨d', hd', rfl⟩ := map_eq_some_iff.mp hd
    have hhome := hblock d'.block (hk.home i d' hd')
    split <;> exact hhome
  · rw [h.result?, h.value?]
    exact hk.defines_iff i v
  · by_cases hi : i ∈ k.instsOf b
    · exact ⟨_, hdead i d hd hi, rfl, rfl, fun _ => rfl⟩
    · exact ⟨d, (halive i hi).trans hd, rfl, rfl, id⟩
  · have hcb : c = b := by_contra fun hne => hc' ((hlayout c).mpr ⟨hc, hne⟩)
    obtain ⟨d, hd, _⟩ := hk.inst?_of_mem hi
    exact ⟨_, hdead i d hd (hcb ▸ hi), rfl⟩

end Linked

end Kernel

end Spmd
