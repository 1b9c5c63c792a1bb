import Spmd.Proofs.Exec.Recast
import Spmd.Proofs.Exec.Typing
import Spmd.Proofs.Interleave.Combine
import Spmd.Proofs.Interleave.Stretch

/-!
# What merges rely on

Merging looks at the text of a kernel and concludes something about its runs: that distances are what they seem, that
objects lie apart, that some calls leave memory alone. Here this is said of the moments of a run (`Machine.Regular`), with
the bytes that are touched under the name of each object (`touched`), so that it can be handed on from a kernel to the one
that a merge makes of it:

* **`RegularAt.kept`** — it still holds of an instruction that stayed.
* **`RegularAt.of_computes`**, `Begins.memoryRoot_eq` — and it holds of the new ones.
-/

namespace Spmd

open Success

variable {b : BlockId} {τ : InstId → List InstId} {ρ : ValueId → ValueId} {k : Kernel} {i : InstId} {φ : Flow}
  {σ : Type} {instr : Instr} {w w' : World σ} {m' m : Machine}

namespace Kernel

/-! ## What is kept about calls and objects -/

namespace Recast

variable {k' : Kernel}

theorem constInt?_eq (hr : Recast k k' ρ τ) {v : ValueId} (hv : (k.value? v).isSome = true) :
    k'.constInt? (ρ v) = k.constInt? v := by
  obtain ⟨d, hd⟩ := isSome_iff_exists.mp hv
  obtain ⟨d', hd', _, hkind⟩ := hr.values v d hd
  have hvalue : k.value v = .ok d := some?_eq_ok.mpr hd
  have hvalue' : k'.value (ρ v) = .ok d' := some?_eq_ok.mpr hd'
  rw [constInt?, constInt?, const?, const?, hvalue, hvalue', ok_bind, ok_bind]
  rcases hkind with hkind | ⟨⟨i, hi⟩, j, hj⟩
  · rw [hkind]
  · rw [hi, hj]

/-- A call that stayed is of the kind it was. -/
theorem callKind?_eq (hr : Recast k k' ρ τ) (hk : k.Coherent) (hb : b ∈ k.layout) (hi : i ∈ k.instsOf b)
    (hkept : i ∈ τ i) (hinstr : k.instr? i = some instr) (hvalues : ∀ v ∈ instr.operands, (k.value? v).isSome = true)
    (classify : Classifier) : k'.callKind? classify i = k.callKind? classify i := by
  have hinstr' := hr.instr?_kept hb hi hkept hinstr
  obtain ⟨e, he, rfl⟩ := map_eq_some_iff.mp hinstr
  obtain ⟨e', he', heq⟩ := map_eq_some_iff.mp hinstr'
  have hinst : k.inst i = .ok e := some?_eq_ok.mpr he
  have hinst' : k'.inst i = .ok e' := some?_eq_ok.mpr he'
  unfold callKind? callSite?
  rw [hinst, hinst', ok_bind, ok_bind, heq, hr.resultTy_eq hk hb hi hkept]
  revert hvalues
  cases e.instr with
  | call callee args mask =>
    intro hvalues
    have hargs : ∀ v ∈ args, (k.value? v).isSome = true := fun v hv => hvalues v (List.mem_append_left _ hv)
    simp only [Instr.mapOperands, List.mapM_map]
    rw [mapM_congr (f := k'.constInt? ∘ ρ) fun v hv => hr.constInt?_eq (hargs v hv),
      mapM_congr (f := k'.valueTy ∘ ρ) fun v hv => hr.valueTy_eq (hargs v hv)]
  | _ => exact fun _ => rfl

end Recast

/-- The start of a stretch leads where the pointer leads that it is computed from. -/
theorem Begins.memoryRoot_eq {elem : ScalarTy} {ptr start : ValueId} {offset : Nat} {starts : List InstId}
    (h : k.Begins elem ptr offset starts start) (hs : k.Sound φ) (hreach : ∀ b ∈ k.layout, φ.Reached b)
    (hb : b ∈ k.layout) (hstarts : ∀ s ∈ starts, s ∈ k.instsOf b) {r : MemRoot} (hr : k.memoryRoot ptr = .ok r) :
    k.memoryRoot start = .ok r := by
  cases h with
  | here => exact hr
  | moved s index _ hinstr hresult _ =>
    obtain ⟨r', hr'⟩ := hs.exists_memoryRoot hreach (hs.typed_result hb (hstarts s (.head _)) hresult)
    rw [hr']
    obtain ⟨d, hd, hkind⟩ := map_eq_some_iff.mp (hs.coherent.defines s start hresult)
    obtain ⟨e, he, heq⟩ := map_eq_some_iff.mp hinstr
    have hvalue : k.value start = .ok d := some?_eq_ok.mpr hd
    have hinst : k.inst s = .ok e := some?_eq_ok.mpr he
    unfold memoryRoot rootFrom at hr'
    rw [hvalue, ok_bind, hkind] at hr'
    simp only [hinst, ok_bind, heq] at hr'
    rw [rootFrom_unique hr' hr]

end Kernel

theorem Access.touches_congr (h : m'.vscale = m.vscale) (ty : Ty) (access : Access) (a : Nat) :
    access.Touches m' ty a ↔ access.Touches m ty a := by
  cases access with
  | load mask address => rw [Touches, Touches, Machine.lanesOf_congr h]
  | store mask address x => exact Iff.rfl

theorem Machine.OfType.recast {v : ValueId} {x : Val} (h : m.OfType v x) (hr : Kernel.Recast m.kernel m'.kernel ρ τ)
    (hscale : m'.vscale = m.vscale) : m'.OfType (ρ v) x := by
  obtain ⟨d, hd, hconf⟩ := h
  obtain ⟨d', hd', hty, _⟩ := hr.values v d hd
  refine ⟨d', hd', ?_⟩
  rw [hty]
  generalize d.ty = ty at hconf
  cases ty with
  | void | scalar _ => exact hconf
  | vector shape =>
    unfold Conforms at hconf ⊢
    rwa [lanesOf_congr hscale]

/-- What has nothing to do with memory in one world has nothing to do with it in any other. -/
theorem Exec.Detached.of_env {α : Type} {x : Exec σ α} {u : World σ} {a : α} (h : Detached x w) (hw : x w = .ok a w')
    (henv : u.env = w.env) : Detached x u := by
  intro b u' hu
  obtain ⟨_, hall⟩ := h a w' hw
  obtain ⟨memory, env⟩ := u
  obtain rfl : env = w.env := henv
  have hsame := (hall memory).symm.trans hu
  cases hsame
  exact ⟨rfl, hall⟩

/-! ## Regular moments -/

/-- The accesses of a group. -/
def Merge.accesses (merge : Merge) : List StridedAccess :=
  merge.group.kind :: merge.group.first.1 :: merge.group.members.map (·.1)

/-- Memory may grow between the first load of a group and the last. -/
def Merge.Grows (merge : Merge) : Prop :=
  merge.group.kind.isStore = false ∧
    ∃ i ∈ merge.group.span merge.kernel merge.block, ∃ elem count, merge.kernel.instr? i = some (.alloca elem count)

namespace Machine

/-- The distances that a merge went by are those of the addresses in a frame. -/
def Spaced (m : Machine) (f : Frame) (merge : Merge) : Prop :=
  ∀ n ∈ merge.group.members, ∀ bytes, merge.kernel.distance? merge.group.kind.ptr n.1.ptr = .ok (some bytes) →
    ∀ x y, m.read f merge.group.kind.ptr = .ok x → m.read f n.1.ptr = .ok y →
      y.toUInt64 = x.toUInt64 + UInt64.ofInt bytes

instance (m : Machine) (f : Frame) (merge : Merge) : Decidable (m.Spaced f merge) :=
  decidable_of_iff (∀ n ∈ merge.group.members, ∀ o ∈ (merge.kernel.distance? merge.group.kind.ptr n.1.ptr).toOption,
      ∀ bytes ∈ o, ∀ x ∈ (m.read f merge.group.kind.ptr).toOption, ∀ y ∈ (m.read f n.1.ptr).toOption,
        y.toUInt64 = x.toUInt64 + UInt64.ofInt bytes) (by
    simp only [mem_toOption_iff]
    constructor
    · intro h n hn bytes hbytes x y hx hy
      exact h n hn _ hbytes bytes rfl x hx y hy
    · rintro h n hn _ hbytes bytes rfl x hx y hy
      exact h n hn bytes hbytes x y hx hy)

/-- The whole stretch of a group is allocated, as seen from its first member. -/
def Allocated (m : Machine) (f : Frame) (memory : Memory) (g : InterleaveGroup) : Prop :=
  ∀ x, m.read f g.first.1.ptr = .ok x → ∀ n < g.kind.stride.toNat * g.kind.lanes,
    memory.covers (x.toUInt64 + UInt64.ofInt ((n - g.first.2) * g.kind.elem.size)).toNat g.kind.elem.size = true

instance (m : Machine) (f : Frame) (memory : Memory) (g : InterleaveGroup) : Decidable (m.Allocated f memory g) :=
  decidable_of_iff (∀ x ∈ (m.read f g.first.1.ptr).toOption, ∀ n < g.kind.stride.toNat * g.kind.lanes,
      memory.covers (x.toUInt64 + UInt64.ofInt ((n - g.first.2) * g.kind.elem.size)).toNat g.kind.elem.size = true) (by
    simp only [mem_toOption_iff]
    exact Iff.rfl)

/-- What merges rely on when an instruction is carried out. -/
structure RegularAt (m : Machine) (env : Environment σ) (classify : Classifier) (touched : MemRoot → Nat → Prop)
    (ms : List Merge) (i : InstId) (instr : Instr) (f : Frame) (w : World σ) : Prop where
  touches : ∀ r access, m.kernel.accessRoot? i = .ok (some r) → m.access? f i instr = .ok (some access) →
    ∀ a, access.Touches m (m.kernel.resultTy i) a → touched r a
  /-- A call that could be left out has nothing to do with memory. -/
  quiet : ∀ kind, m.kernel.callKind? classify i = .ok (some kind) → kind.isRemovable = true →
    Exec.Detached (m.eval env f i instr) w
  typed : instr.isStrided = true → ∀ v ∈ instr.operands, ∀ x, m.read f v = .ok x → m.OfType v x
  /-- By the last member of a group, all its pointers are known. -/
  spaced : instr.isStrided = true → ∀ merge ∈ ms, merge.group.last.1.inst = i → m.Spaced f merge
  /-- Loads that move up past an allocation do not load from it. -/
  allocated : instr.isStrided = true → ∀ merge ∈ ms, merge.group.first.1.inst = i → merge.Grows →
    m.Allocated f w.memory merge.group

def Regular (m : Machine) (env : Environment σ) (classify : Classifier) (touched : MemRoot → Nat → Prop) (ms : List Merge)
    (c : Moment σ) : Prop :=
  ∀ i rest instr, c.state.todo = i :: rest → m.kernel.instr? i = some instr →
    m.RegularAt env classify touched ms i instr c.state.frame c.world

variable {env : Environment σ} {classify : Classifier} {touched : MemRoot → Nat → Prop} {ms ms' : List Merge}
  {f f' : Frame}

theorem RegularAt.regular {b : BlockId} {prev : Option BlockId} {rest : List InstId}
    (h : m.RegularAt env classify touched ms i instr f w) (hinstr : m.kernel.instr? i = some instr) :
    m.Regular env classify touched ms ⟨⟨b, prev, f, i :: rest⟩, w⟩ := by
  intro j todo instr' htodo hj
  cases htodo
  obtain rfl := mem_unique hj hinstr
  exact h

theorem access?_of_computes (m : Machine) (f : Frame) (i : InstId) (h : instr.onlyComputes = true) :
    m.access? f i instr = .ok none := by
  cases instr with
  | alloca | load | strideLoad | gather | store | strideStore | scatter | call => exact absurd h Bool.false_ne_true
  | _ => rfl

/-- For a plain access it matters what is touched. -/
theorem RegularAt.of_plain (hinstr : m.kernel.instr? i = some instr)
    (hplain : instr.isAccess = true ∨ instr.onlyComputes = true) (hstrided : instr.isStrided = false)
    (h : ∀ r access, m.kernel.accessRoot? i = .ok (some r) → m.access? f i instr = .ok (some access) →
      ∀ a, access.Touches m (m.kernel.resultTy i) a → touched r a) : m.RegularAt env classify touched ms i instr f w := by
  have hcall : m.kernel.callKind? classify i = .ok none := by
    refine Kernel.callKind?_of_not_call hinstr ?_ classify
    rintro callee args mask rfl
    exact hplain.elim nofun nofun
  refine ⟨h, fun kind hkind => ?_, fun hyes => ?_, fun hyes => ?_, fun hyes => ?_⟩
  · cases hcall.symm.trans hkind
  all_goals cases hstrided.symm.trans hyes

/-- Nothing is relied on when an instruction only computes. -/
theorem RegularAt.of_computes (hinstr : m.kernel.instr? i = some instr) (h : instr.onlyComputes = true) :
    m.RegularAt env classify touched ms i instr f w := by
  refine .of_plain hinstr (.inr h) ?_ fun r access _ haccess => ?_
  · cases instr with
    | strideLoad | strideStore => exact absurd h Bool.false_ne_true
    | _ => rfl
  · cases (access?_of_computes m f i h).symm.trans haccess

/-! ## Handing on -/

/-- A merge makes one kernel out of another. Pointers keep their names, so those of all merges to come are there
already. -/
structure HandsOn (m m' : Machine) (φ : Flow) (ρ : ValueId → ValueId) (τ : InstId → List InstId) (ms : List Merge) :
    Prop where
  recast : Kernel.Recast m.kernel m'.kernel ρ τ
  scale : m'.vscale = m.vscale
  sound : m.kernel.Sound φ
  sound' : m'.kernel.Sound φ
  verified : m.kernel.verify = .ok ()
  reach : ∀ b ∈ m.kernel.layout, φ.Reached b
  /-- What was replaced and what stands in its place gives no pointers. -/
  dark : ∀ v d i, m.kernel.value? v = some d → d.kind = .inst i → i ∉ τ i →
    (∀ instr, m.kernel.instr? i = some instr → instr.isPointing = false) ∧
      ∃ d' j instr', m'.kernel.value? (ρ v) = some d' ∧ d'.kind = .inst j ∧ m'.kernel.instr? j = some instr' ∧
        instr'.isPointing = false
  named : ∀ v, m.kernel.Typed v .ptr → ρ v = v
  pointers : ∀ merge ∈ ms, ∀ a ∈ merge.accesses, m.kernel.Typed a.ptr .ptr

namespace HandsOn

variable (h : HandsOn m m' φ ρ τ ms)

include h

/-- A pointer reads as before. -/
theorem read_ptr (hf : f.Agree m.kernel ρ f') {v : ValueId} (hv : m.kernel.Typed v .ptr) : m'.read f' v = m.read f v := by
  obtain ⟨d, hd, _⟩ := id hv
  have := h.recast.read_eq h.scale hf (v := v) (by rw [hd]; rfl)
  rwa [h.named v hv] at this

theorem memoryRoot_eq {v : ValueId} (hv : m.kernel.Typed v .ptr) : m'.kernel.memoryRoot v = m.kernel.memoryRoot v := by
  have := h.recast.memoryRoot_eq h.sound h.sound'.coherent h.dark h.reach hv
  rwa [h.named v hv] at this

/-- **What stays regular.** -/
theorem kept (hreg : m.RegularAt env classify touched ms i instr f w) (hb : b ∈ m.kernel.layout)
    (hi : i ∈ m.kernel.instsOf b) (hkept : i ∈ τ i) (hinstr : m.kernel.instr? i = some instr) (hf : f.Agree m.kernel ρ f')
    {x : Option Val} {v : World σ} (heval : m.eval env f i instr w = .ok x v) (henv : w'.env = w.env)
    (hsize : w'.memory.size = w.memory.size) :
    m'.RegularAt env classify touched ms i (instr.mapOperands ρ) f' w' := by
  have hvalues : ∀ v ∈ instr.operands, (m.kernel.value? v).isSome = true := fun v hv =>
    Kernel.Recast.isSome_of_mem_operands h.verified hb hi hinstr hv
  have hread := h.recast.read_operand_eq h.scale h.verified hf hb hi hinstr
  have hty := h.recast.resultTy_eq h.sound.coherent hb hi hkept
  have heval' : m'.eval env f' i (instr.mapOperands ρ) = m.eval env f i instr :=
    (h.recast.eval_eq h.scale h.sound.coherent h.verified hf hb hi hkept hinstr).2
  refine ⟨fun r access hroot haccess a ha => ?_, fun kind hkind hremovable => ?_, fun hstrided u hu y hy => ?_,
    fun hstrided merge hmerge hlast n hn bytes hdistance y z hy hz => ?_,
    fun hstrided merge hmerge hfirst hgrows y hy n hn => ?_⟩
  · rw [h.recast.accessRoot?_eq h.sound h.sound'.coherent h.dark h.reach hb hi hkept] at hroot
    rw [access?_rename i hread hty fun v hv => h.recast.valueTy_eq (hvalues v hv)] at haccess
    rw [Access.touches_congr h.scale, hty] at ha
    exact hreg.touches r access hroot haccess a ha
  · rw [h.recast.callKind?_eq h.sound.coherent hb hi hkept hinstr hvalues] at hkind
    rw [heval']
    exact (hreg.quiet kind hkind hremovable).of_env heval henv
  · rw [Instr.isStrided_mapOperands] at hstrided
    rw [Instr.operands_mapOperands] at hu
    obtain ⟨v, hv, rfl⟩ := List.mem_map.mp hu
    rw [hread v hv] at hy
    exact (hreg.typed hstrided v hv y hy).recast h.recast h.scale
  · rw [Instr.isStrided_mapOperands] at hstrided
    have hmember : n.1 ∈ merge.accesses := .tail _ (.tail _ (List.mem_map_of_mem hn))
    rw [h.read_ptr hf (h.pointers merge hmerge _ (.head _))] at hy
    rw [h.read_ptr hf (h.pointers merge hmerge _ hmember)] at hz
    exact hreg.spaced hstrided merge hmerge hlast n hn bytes hdistance y z hy hz
  · rw [Instr.isStrided_mapOperands] at hstrided
    rw [h.read_ptr hf (h.pointers merge hmerge _ (.tail _ (.head _)))] at hy
    exact Memory.covers_congr (Nat.le_of_eq hsize.symm) (hreg.allocated hstrided merge hmerge hfirst hgrows y hy n hn)

end HandsOn

end Machine

end Spmd
