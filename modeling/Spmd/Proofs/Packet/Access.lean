import Spmd.Packet.Widen
import Spmd.Proofs.Exec.Access
import Spmd.Proofs.Kernel.Listing
import Spmd.Proofs.Kernel.SoundEdit
import Spmd.Proofs.Packet.Extend

/-!
# Accesses of all lanes

A varying load or store becomes one instruction for all lanes if the lanes' addresses allow for it. However they are put
together, the lanes do what each of them would have done on its own, one after another: they read and write the same
addresses in lane order, a lane that the mask turns off does nothing, and where one of them traps, the lanes before
it have written what they write.

* **`Stride.stepped_contiguous`**, **`Stride.stepped_interleaved`** — the addresses that the instruction steps through
  are those of the lanes.
* **`Widening.Shows`** — what a value is in the lanes, seen from the widened kernel.
* **`LaneCopy`** — the instruction as it stands for one lane alone.
-/

namespace Spmd

open Success List Machine Build
open Std (TreeMap)
open Option (isSome_iff_exists some)

variable {v : ValueId} {address : Nat → UInt64} {α σ : Type} {instr : Instr} {j : InstId}
  {m : Machine} {align lanes : Nat} {mask' : Option ValueId} {stride : Stride} {gather : Bool}
  {f : Frame} {elem : ScalarTy} {s s' : Widening} {t : WidenTask} {ptr value : ValueId}

/-- The instructions that put the lanes' accesses together in this form. -/
def MemoryForm.Shapes : MemoryForm → Instr → Prop
  | contiguous, .load .. | contiguous, .store .. | gatherScatter, .gather .. | gatherScatter, .scatter .. => True
  | interleaved k, .strideLoad _ stride _ | interleaved k, .strideStore _ _ stride _ => stride = Int64.ofInt k
  | _, _ => False

/-! ## Addresses -/

/-- The lanes' addresses are the stride apart, if it is a fixed one. Addresses wrap. -/
def Stride.Spaces (stride : Stride) (lanes : Nat) (address : Nat → UInt64) : Prop :=
  ∀ step, stride = .linear step → ∀ n < lanes, address n = address 0 + UInt64.ofInt (n * step)

namespace Stride

variable {size : Nat} {n : Nat}

/-- Only fixed strides let one instruction step through the addresses. -/
theorem memoryForm_eq_contiguous (h : stride.memoryForm size gather = .contiguous) : stride = .linear size := by
  unfold memoryForm at h
  split at h <;> repeat' split at h
  all_goals cases h
  rename_i hstep
  rw [hstep]

theorem memoryForm_eq_interleaved {n : Int} (h : stride.memoryForm size gather = .interleaved n) :
    stride = .linear (size * n) := by
  unfold memoryForm at h
  split at h <;> repeat' split at h
  all_goals cases h
  rename_i hdvd
  rw [Int.mul_ediv_cancel' (Int.dvd_of_emod_eq_zero hdvd)]

theorem stepped_eq {step : Int} {distance : UInt64} (hdistance : distance = UInt64.ofInt step)
    (h : stride.Spaces lanes address) (hstride : stride = .linear step) (hn : n < lanes) :
    stepped (address 0) distance n = address n := by
  rw [stepped, hdistance, h step hstride n hn, UInt64.ofInt_mul, ofInt_natCast]

/-- Elements one behind another lie at the addresses of the lanes. -/
theorem stepped_contiguous (h : stride.Spaces lanes address) (hform : stride.memoryForm size gather = .contiguous)
    (hn : n < lanes) : stepped (address 0) (UInt64.ofNat size) n = address n :=
  stepped_eq (ofInt_natCast size).symm h (memoryForm_eq_contiguous hform) hn

/-- So do elements at a fixed distance, whatever its sign. -/
theorem stepped_interleaved {k : Int} (h : stride.Spaces lanes address)
    (hform : stride.memoryForm size gather = .interleaved k) (hn : n < lanes) :
    stepped (address 0) (UInt64.ofNat size * (Int64.ofInt k).toUInt64) n = address n := by
  refine stepped_eq ?_ h (memoryForm_eq_interleaved hform) hn
  rw [UInt64.ofInt_mul, ofInt_natCast, toUInt64_ofInt64]

end Stride

/-! ## Lanes in turn -/

section InTurn

variable {M : Type → Type} [Monad M] [LawfulMonad M] {β : Type}

theorem inTurn_congr {f g : Nat → M α} {count : Nat} (h : ∀ n < count, f n = g n) :
    inTurn count f = inTurn count g := by
  rw [inTurn_eq_mapM, inTurn_eq_mapM, mapM_congr fun n hn => h n (mem_range.mp hn)]

theorem inTurn_map (f : Nat → M α) (g : α → β) (count : Nat) :
    inTurn count (fun n => g <$> f n) = map g <$> inTurn count f := by
  rw [inTurn_eq_mapM, inTurn_eq_mapM]
  induction range count with
  | nil => simp
  | cons n ns ih => simp [mapM_cons, ih]

theorem inTurn_discard (f : Nat → M Unit) (b : β) (count : Nat) :
    (do (range count).forM f; return b : M β) = (fun _ => b) <$> inTurn count f := by
  rw [inTurn_eq_mapM, forM_eq_mapM]
  simp

end InTurn

namespace Machine

variable {shape : VectorTy} {mask : Option Val} {address' : Nat → UInt64} {on : Nat → Bool}

/-- What one lane reads. -/
def readLane (elem : ScalarTy) (on : Bool) (address : UInt64) : Exec σ Val :=
  if on then Exec.read address elem else pure (.zero elem)

/-- What one lane writes. -/
def writeLane (on : Bool) (address : UInt64) (x : Scalar) : Exec σ Unit :=
  if on then Exec.write address (.scalar x) else pure ()

/-- A load of all lanes reads lane after lane. -/
theorem load_lanes (hlanes : m.lanesOf (.vector shape) = .ok lanes) (hon : ∀ n < lanes, active mask n = on n)
    (haddress : ∀ n < lanes, address' n = address n) :
    (m.load (.vector shape) mask address' : Exec σ Val) =
      Val.vector <$> inTurn lanes fun n => readLane shape.elem (on n) (address n) := by
  rw [load_vector hlanes]
  congr 1
  refine inTurn_congr fun n hn => ?_
  rw [loadLane, readLane, hon n hn, haddress n hn]

/-- A store of all lanes writes lane after lane. -/
theorem store_lanes {x : Nat → Scalar} (hon : ∀ n < lanes, active mask n = on n)
    (haddress : ∀ n < lanes, address' n = address n) :
    (store mask address' (.vector ((range lanes).map fun n => .scalar (x n))) : Exec σ Unit) =
      (range lanes).forM fun n => writeLane (on n) (address n) (x n) := by
  rw [store_vector]
  rw [forM_eq_mapM, forM_eq_mapM, mapM_congr fun n hn => ?_]
  rw [storeLane, writeLane, hon n (mem_range.mp hn), haddress n (mem_range.mp hn)]

end Machine

/-! ## One lane alone -/

/-- An instruction as it stands for one lane alone: where it is carried out, and what each operand is there. -/
structure LaneCopy where
  machine : Machine
  frame : Frame
  inst : InstId
  rename : ValueId → ValueId

namespace LaneCopy

variable {copy : LaneCopy} {mask : Option ValueId} {p e x : Scalar}

/-- Carries out the copy of an instruction. -/
def run (copy : LaneCopy) (env : Environment σ) (instr : Instr) : Exec σ (Option Val) :=
  copy.machine.eval env copy.frame copy.inst (instr.mapOperands copy.rename)

/-- What a value is for the lane. -/
def Reads (copy : LaneCopy) (v : ValueId) (x : Scalar) : Prop :=
  copy.machine.read copy.frame (copy.rename v) = .ok (.scalar x)

theorem readMask_eq (h : ∀ v ∈ mask, copy.Reads v e) :
    ∃ M, copy.machine.readMask copy.frame (mask.map copy.rename) = .ok M ∧
      active M 0 = (mask.isNone || e.isTrue) := by
  cases mask with
  | none => exact ⟨none, rfl, rfl⟩
  | some v =>
    refine ⟨some (.scalar e), bind_eq_ok.mpr ⟨_, h v rfl, rfl⟩, ?_⟩
    simp [active, Val.lane, Val.isTrue]

theorem stepped_zero (base step : UInt64) : stepped base step 0 = base := by
  simp [stepped]

theorem run_load (env : Environment σ) (hty : copy.machine.kernel.resultTy copy.inst = .scalar elem)
    (hptr : copy.Reads ptr p) (hmask : ∀ v ∈ mask, copy.Reads v e) :
    copy.run env (.load ptr mask align) =
      some <$> readLane elem (mask.isNone || e.isTrue) p.toUInt64 := by
  obtain ⟨M, hM, hon⟩ := readMask_eq hmask
  have haccess : copy.machine.access? copy.frame copy.inst (.load (copy.rename ptr) (mask.map copy.rename) align) =
      .ok (some (.load M (stepped p.toUInt64 (UInt64.ofNat (copy.machine.elementOf copy.inst).size)))) :=
    bind_eq_ok.mpr ⟨_, hptr, bind_eq_ok.mpr ⟨M, hM, rfl⟩⟩
  rw [run, Instr.mapOperands, eval_of_access? rfl haccess, hty]
  show some <$> loadLane elem M _ 0 = _
  rw [loadLane, readLane, hon, stepped_zero]

theorem run_store (env : Environment σ) (hptr : copy.Reads ptr p) (hvalue : copy.Reads value x)
    (hmask : ∀ v ∈ mask, copy.Reads v e) :
    copy.run env (.store ptr value mask align) =
      (do writeLane (mask.isNone || e.isTrue) p.toUInt64 x; return none) := by
  obtain ⟨M, hM, hon⟩ := readMask_eq hmask
  obtain ⟨d, hd, -⟩ := bind_eq_ok.mp hvalue
  have hsize : ∃ size, copy.machine.elementSize (copy.rename value) = .ok size :=
    ⟨_, bind_eq_ok.mpr ⟨d.ty, bind_eq_ok.mpr ⟨d, hd, rfl⟩, rfl⟩⟩
  obtain ⟨size, hsize⟩ := hsize
  have haccess : copy.machine.access? copy.frame copy.inst
      (.store (copy.rename ptr) (copy.rename value) (mask.map copy.rename) align) =
      .ok (some (.store M (stepped p.toUInt64 (UInt64.ofNat size)) (.scalar x))) :=
    bind_eq_ok.mpr ⟨_, hptr, bind_eq_ok.mpr ⟨_, hvalue, bind_eq_ok.mpr ⟨M, hM,
      bind_eq_ok.mpr ⟨size, hsize, rfl⟩⟩⟩⟩
  rw [run, Instr.mapOperands, eval_of_access? rfl haccess]
  show (do storeLane M _ (.scalar x) 0; return none) = _
  rw [storeLane, writeLane, hon, stepped_zero]

end LaneCopy

/-! ## All lanes -/

/-- `j` is the given instruction, and stands right in front of `i`. -/
def Kernel.StandsAhead (k : Kernel) (j : InstId) (instr : Instr) (i : InstId) : Prop :=
  k.instr? j = some instr ∧ ∃ b pre post, k.instsOf b = pre ++ j :: i :: post

/-- What a value is in the lanes, seen from the widened kernel: its packet, its instances, and the value itself if all
lanes share it read accordingly. -/
structure Widening.Shows (s : Widening) (t : WidenTask) (m : Machine) (f : Frame) (lanes : Nat) (v : ValueId)
    (x : Nat → Scalar) : Prop where
  packet : ∀ p : ValueId, s.packets[v]? = some p →
    m.read f p = .ok (.vector ((range lanes).map fun n => .scalar (x n)))
  lane : ∀ (n : Nat) (y : ValueId), s.instances[(v, n)]? = some y → m.read f y = .ok (.scalar (x n))
  shared : t.plan.get v = .uniform ∨ t.divergence.isVarying s.kernel v = .ok false →
    ∀ n, m.read f v = .ok (.scalar (x n))

/-- The lanes' copies of an instruction read what the widened kernel shows. -/
structure Widening.Matches (s : Widening) (t : WidenTask) (m : Machine) (f : Frame) (lanes : Nat)
    (copy : Nat → LaneCopy) (v : ValueId) (x : Nat → Scalar) : Prop where
  shown : s.Shows t m f lanes v x
  reads : ∀ n < lanes, (copy n).Reads v (x n)

/-- `p` is what an instruction for all lanes takes for `v`. -/
def Widening.Serves (s : Widening) (t : WidenTask) (v p : ValueId) : Prop :=
  s.packets[v]? = some p ∨ t.divergence.isVarying s.kernel v = .ok false ∧ p = v

namespace Widening

variable {p : ValueId} {x : Nat → Scalar}

theorem Serves.grows (h : s.Serves t v p) (hgrows : s.Grows s') : s'.Serves t v p := by
  rcases h with hp | ⟨hv, rfl⟩
  · exact .inl (hgrows.packets v p hp)
  · exact .inr ⟨hgrows.kernel.isVarying hv, rfl⟩

/-- What an instruction for all lanes takes for a mask, if there is one. -/
def ServesMask (s : Widening) (t : WidenTask) (mask mask' : Option ValueId) : Prop := Option.Rel (s.Serves t) mask mask'

theorem ServesMask.grows_mask {mask : Option ValueId} (h : s.ServesMask t mask mask') (hgrows : s.Grows s') :
    s'.ServesMask t mask mask' := by
  cases h with
  | none => exact .none
  | some h => exact .some (h.grows hgrows)

theorem Serves.read (h : s.Serves t v p) (hx : s.Shows t m f lanes v x) :
    ∃ y, m.read f p = .ok y ∧ ∀ n < lanes, y.lane n = .scalar (x n) := by
  rcases h with hp | ⟨hv, rfl⟩
  · refine ⟨_, hx.packet p hp, fun n hn => ?_⟩
    simp [Val.lane, hn]
  · refine ⟨_, hx.shared (.inr hv) 0, fun n _ => ?_⟩
    exact Except.ok.inj ((hx.shared (.inr hv) 0).symm.trans (hx.shared (.inr hv) n))

end Widening

namespace Widen

variable {e x : Nat → Scalar} {k : Kernel} {ty : Ty} {action : Build α} {a : α} {M : Option Val}
  {copy : Nat → LaneCopy} {spaced : Nat → (Nat → Scalar) → Prop}

variable {p : ValueId} {mask : Option ValueId} {b : BlockId} {i : InstId} {form : MemoryForm}

theorem packetUnlessUniform_eq_ok (hs : s.Sized t) (h : packetUnlessUniform t v s = .ok p s') :
    s.Grows s' ∧ s'.Sized t ∧ s'.Serves t v p := by
  obtain ⟨uniform, s1, huniform, h⟩ := bind_eq_ok.mp h
  rw [isUniform, kernel_bind] at huniform
  obtain ⟨varying, hv, hpure⟩ := lift_bind_eq_ok.mp huniform
  obtain ⟨rfl, rfl⟩ := pure_eq_ok.mp hpure
  cases varying with
  | false =>
    obtain ⟨rfl, rfl⟩ := pure_eq_ok.mp h
    exact ⟨.of_packets (.refl _) rfl, hs, .inr ⟨hv, rfl⟩⟩
  | true =>
    obtain ⟨hgrows, hs', hp⟩ := packetOf_eq_ok hs h
    exact ⟨hgrows, hs', .inl hp⟩

/-- A mask for all lanes. -/
theorem maskOf_eq_ok (hs : s.Sized t) (h : maskOf t mask s = .ok mask' s') :
    s.Grows s' ∧ s'.Sized t ∧ s'.ServesMask t mask mask' := by
  cases mask with
  | none =>
    obtain ⟨rfl, rfl⟩ := pure_eq_ok.mp h
    exact ⟨.of_packets (.refl _) rfl, hs, .none⟩
  | some u =>
    rw [maskOf, ← bind_pure_comp] at h
    obtain ⟨q, s1, hq, hpure⟩ := bind_eq_ok.mp h
    obtain ⟨rfl, rfl⟩ := pure_eq_ok.mp hpure
    obtain ⟨hgrows, hs', hserves⟩ := packetUnlessUniform_eq_ok hs hq
    exact ⟨hgrows, hs', .some hserves⟩

theorem readMask_serves (h : s.ServesMask t mask mask')
    (he : ∀ u ∈ mask, s.Shows t m f lanes u e) :
    ∃ M, m.readMask f mask' = .ok M ∧ ∀ n < lanes, active M n = (mask.isNone || (e n).isTrue) := by
  cases h with
  | none => exact ⟨none, rfl, fun _ _ => rfl⟩
  | @some u u' hserves =>
    obtain ⟨y, hy, hlane⟩ := hserves.read (he u rfl)
    refine ⟨some y, Success.bind_eq_ok.mpr ⟨y, hy, rfl⟩, fun n hn => ?_⟩
    simp [active, hlane n hn, Val.isTrue]

/-- What is inserted in front of an instruction. -/
theorem insert_before {c : Cursor} (hk : k.Linked) (hi : i ∈ k.instsOf b)
    (h : insert instr ty ⟨k, .before i⟩ = .ok (j, c)) :
    k.Grows c.kernel ∧ c.kernel.StandsAhead j instr i ∧ c.kernel.resultTy j = ty ∧
      (ty.isVoid = false → c.kernel.result? j = some k.values.nextId) := by
  obtain ⟨pre, post, hat⟩ := hk.at_before hi
  have hmade : ∀ l ∈ k.instsOf b, (k.inst? l).isSome = true := fun l hl => by
    obtain ⟨d, hd, -⟩ := hk.inst?_of_mem hl
    rw [hd]
    rfl
  obtain ⟨hins, -⟩ := hat.insert_of_nodup (hk.nodup b) hmade h
  refine ⟨(grows_insert instr ty).kernel _ j c h, ⟨?_, b, pre, post, hins.after⟩, hins.resultTy_new, hins.result?_new⟩
  rw [Kernel.instr?, hins.inst_new]
  rfl

theorem before_emitValue (hk : s.kernel.Linked) (hi : i ∈ s.kernel.instsOf b)
    (hty : ∀ c, resultTy ty instr c = .ok (ty, c)) (hvoid : ty.isVoid = false)
    (h : before i (emitValue instr ty) s = .ok v s') :
    ∃ j, s'.kernel.StandsAhead j instr i ∧ s'.kernel.result? j = some v ∧ s'.kernel.resultTy j = ty ∧ s.Grows s' := by
  obtain ⟨c, hemit, rfl⟩ := before_eq_ok.mp h
  obtain ⟨ty', hty', hvalue⟩ := emitValue_eq_insertValue hemit
  cases ok_unique (hty _) hty'
  obtain ⟨j, hinsert, hv⟩ := insertValue_eq_ok hvalue
  obtain ⟨hgrows, hprecedes, hresultTy, hresult⟩ := insert_before hk hi hinsert
  exact ⟨j, hprecedes, (hv hvoid).1 ▸ hresult hvoid, hresultTy, hgrows, fun _ _ hp => hp⟩

theorem instances_before (h : before i action s = .ok a s') : s'.instances = s.instances := by
  obtain ⟨c, -, rfl⟩ := before_eq_ok.mp h
  rfl

theorem packets_before (h : before i action s = .ok a s') : s'.packets = s.packets := by
  obtain ⟨c, -, rfl⟩ := before_eq_ok.mp h
  rfl

/-- Lane 0 of an address is read as such. -/
theorem read_laneOf {base : ValueId} (h : s.instances[(v, 0)]? = some base ∨ t.plan.get v = .uniform ∧ base = v)
    (hx : s.Shows t m f lanes v x) : m.read f base = .ok (.scalar (x 0)) := by
  rcases h with hbase | ⟨huniform, rfl⟩
  · exact hx.lane 0 base hbase
  · exact hx.shared (.inl huniform) 0

/-! ## Loads -/

/-- A load with the addresses of the lanes gives what the lanes read one after another. -/
theorem eval_load_eq (env : Environment σ) {shape : VectorTy} {p : Nat → Scalar} (haccess : instr.isAccess = true)
    (hread : m.access? f j instr = .ok (some (.load M address)))
    (hty : m.kernel.resultTy j = .vector shape) (helem : shape.elem = elem)
    (hlanes : m.lanesOf (.vector shape) = .ok lanes)
    (hon : ∀ n < lanes, active M n = (mask.isNone || (e n).isTrue))
    (haddress : ∀ n < lanes, address n = (p n).toUInt64)
    (hcopy : ∀ n < lanes, (copy n).machine.kernel.resultTy (copy n).inst = .scalar elem)
    (hptr : ∀ n < lanes, (copy n).Reads ptr (p n)) (hmask : ∀ n < lanes, ∀ u ∈ mask, (copy n).Reads u (e n)) :
    m.eval env f j instr = (fun rs => (rs.mapM id).map Val.vector) <$>
      inTurn lanes fun n => (copy n).run env (.load ptr mask align) := by
  have hcopies : (inTurn lanes fun n => (copy n).run env (.load ptr mask align)) =
      map some <$> inTurn lanes fun n => readLane elem (mask.isNone || (e n).isTrue) (p n).toUInt64 := by
    rw [← inTurn_map]
    exact inTurn_congr fun n hn => LaneCopy.run_load env (hcopy n hn) (hptr n hn) (hmask n hn)
  rw [eval_of_access? haccess hread, hty, hcopies, Access.perform, load_lanes hlanes hon haddress,
    helem]
  simp only [Functor.map_map]
  congr 1
  funext vs
  have hsome : (vs.map some).mapM id = some vs := by
    induction vs with
    | nil => rfl
    | cons v vs ih => rw [map_cons, mapM_cons, ih]; rfl
  rw [hsome]
  rfl

/-- The instruction does what the copies of a load do in lane after lane. -/
def LoadsInTurn (t : WidenTask) (s : Widening) (j : InstId) (instr : Instr) (elem : ScalarTy) (ptr : ValueId)
    (mask : Option ValueId) (align : Nat) (spaced : Nat → (Nat → Scalar) → Prop) : Prop :=
  ∀ {σ : Type} (env : Environment σ) (m : Machine) (f : Frame) (lanes : Nat) (p e : Nat → Scalar)
    (copy : Nat → LaneCopy), m.kernel = s.kernel → m.lanesOf (widenTy t (.scalar elem)) = .ok lanes →
    s.Matches t m f lanes copy ptr p → (∀ u ∈ mask, s.Matches t m f lanes copy u e) →
    (∀ n < lanes, (copy n).machine.kernel.resultTy (copy n).inst = .scalar elem) → spaced lanes p →
    m.eval env f j instr = (fun rs => (rs.mapM id).map Val.vector) <$>
      inTurn lanes fun n => (copy n).run env (.load ptr mask align)

/-- The lanes of a load read one after another, if the instruction for all lanes has their addresses. -/
theorem emitted_load_inTurn (hk : s.kernel.Linked) (hi : i ∈ s.kernel.instsOf b)
    (hserves : s.ServesMask t mask mask') (haccess : instr.isAccess = true) (hshape : form.Shapes instr)
    (hty : ∀ c, resultTy (widenTy t (.scalar elem)) instr c = .ok (widenTy t (.scalar elem), c))
    (h : before i (emitValue instr (widenTy t (.scalar elem))) s = .ok v s')
    (hread : ∀ (m : Machine) f j lanes p M, m.readMask f mask' = .ok M → m.elementOf j = elem →
      s'.Shows t m f lanes ptr p → spaced lanes p → ∃ address, m.access? f j instr = .ok (some (.load M address)) ∧
      ∀ n < lanes, address n = (p n).toUInt64) :
    ∃ j instr, s'.kernel.StandsAhead j instr i ∧ form.Shapes instr ∧ s'.kernel.result? j = some v ∧
      LoadsInTurn t s' j instr elem ptr mask align spaced := by
  obtain ⟨j, hprecedes, hresult, hresultTy, hgrows⟩ := before_emitValue hk hi hty rfl h
  refine ⟨j, instr, hprecedes, hshape, hresult, fun env m f lanes p e copy hm hlanes hptr hmask hcopy hspaced => ?_⟩
  obtain ⟨M, hM, hon⟩ := readMask_serves (hserves.grows_mask hgrows) fun u hu => (hmask u hu).shown
  have hvector : m.kernel.resultTy j = .vector (shape t elem) := hm ▸ hresultTy
  have helem : m.elementOf j = elem := by
    rw [elementOf, hvector]
    rfl
  obtain ⟨address, haddress, heq⟩ := hread m f j lanes p M hM helem hptr.shown hspaced
  exact eval_load_eq env haccess haddress hvector rfl hlanes hon heq hcopy hptr.reads
    fun n hn u hu => (hmask u hu).reads n hn

/-- A load that became one instruction, whatever form it got. -/
theorem packetLoad_inTurn (hk : s.kernel.Linked) (hs : s.Sized t) (hi : i ∈ s.kernel.instsOf b)
    (hform : t.plan.memoryForm? i = some (stride.memoryForm elem.size gather))
    (h : packetLoad t i (widenTy t (.scalar elem)) ptr mask align s = .ok v s') :
    ∃ j instr, s'.kernel.StandsAhead j instr i ∧ (stride.memoryForm elem.size gather).Shapes instr ∧
      s'.kernel.result? j = some v ∧ LoadsInTurn t s' j instr elem ptr mask align fun lanes p =>
        stride.memoryForm elem.size gather ≠ .gatherScatter → stride.Spaces lanes fun n => (p n).toUInt64 := by
  rw [packetLoad] at h
  obtain ⟨mask', s1, hmask', h⟩ := bind_eq_ok.mp h
  obtain ⟨hgrows1, hs1, hserves⟩ := maskOf_eq_ok hs hmask'
  have hk1 := hgrows1.kernel.linked hk
  have hi1 := (hgrows1.kernel.sublist b).subset hi
  cases hpick : stride.memoryForm elem.size gather with
  | contiguous | interleaved k =>
    simp only [hform, hpick] at h
    obtain ⟨base, s2, hlane, h⟩ := bind_eq_ok.mp h
    obtain ⟨hconv, hbase⟩ := laneOf_spec (by omega) hlane
    refine emitted_load_inTurn (hconv.kernel.linked hk1) ((hconv.kernel.sublist b).subset hi1)
      (hserves.grows_mask hconv.grows) rfl (by first | exact trivial | exact rfl) (fun _ => rfl) h
      fun m f j lanes p M hM helem hptr hspaced =>
        ⟨_, Success.bind_eq_ok.mpr ⟨_, read_laneOf (instances_before h ▸ hbase) hptr,
          Success.bind_eq_ok.mpr ⟨M, hM, rfl⟩⟩, fun n hn => ?_⟩
    rw [helem]
    first
      | exact Stride.stepped_contiguous (hspaced (by simp)) hpick hn
      | exact Stride.stepped_interleaved (hspaced (by simp)) hpick hn
  | gatherScatter =>
    simp only [hform, hpick] at h
    obtain ⟨ptrs, s2, hpacket, h⟩ := bind_eq_ok.mp h
    obtain ⟨hgrows2, -, hptrs⟩ := packetOf_eq_ok hs1 hpacket
    refine emitted_load_inTurn (hgrows2.kernel.linked hk1) ((hgrows2.kernel.sublist b).subset hi1)
      (hserves.grows_mask hgrows2) rfl (by exact trivial) (fun _ => rfl) h fun m f j lanes p M hM helem hptr _ =>
        ⟨_, Success.bind_eq_ok.mpr ⟨_, hptr.packet ptrs (packets_before h ▸ hptrs),
          Success.bind_eq_ok.mpr ⟨M, hM, rfl⟩⟩, fun n hn => ?_⟩
    simp [Val.lane, hn, Val.toUInt64]
  | perLane =>
    simp only [hform, hpick] at h
    exact absurd h unsupported_ne_ok

/-! ## Stores -/

theorem before_emit {given : Ty} (hk : s.kernel.Linked) (hi : i ∈ s.kernel.instsOf b)
    (h : before i (emit instr given) s = .ok j s') : s'.kernel.StandsAhead j instr i ∧ s.Grows s' := by
  obtain ⟨c, hemit, rfl⟩ := before_eq_ok.mp h
  obtain ⟨ty, hinsert⟩ := emit_eq_ok hemit
  obtain ⟨hgrows, hprecedes, -⟩ := insert_before hk hi hinsert
  exact ⟨hprecedes, hgrows, fun _ _ hp => hp⟩

/-- A store with the addresses of the lanes writes what the lanes write one after another. -/
theorem eval_store_eq (env : Environment σ) {p : Nat → Scalar} (haccess : instr.isAccess = true)
    (hread : m.access? f j instr =
      .ok (some (.store M address (.vector ((range lanes).map fun n => .scalar (x n))))))
    (hon : ∀ n < lanes, active M n = (mask.isNone || (e n).isTrue))
    (haddress : ∀ n < lanes, address n = (p n).toUInt64) (hptr : ∀ n < lanes, (copy n).Reads ptr (p n))
    (hvalue : ∀ n < lanes, (copy n).Reads value (x n)) (hmask : ∀ n < lanes, ∀ u ∈ mask, (copy n).Reads u (e n)) :
    m.eval env f j instr = (fun _ => none) <$>
      inTurn lanes fun n => (copy n).run env (.store ptr value mask align) := by
  have hcopies : (inTurn lanes fun n => (copy n).run env (.store ptr value mask align)) =
      map (fun _ => none) <$>
        inTurn lanes fun n => writeLane (mask.isNone || (e n).isTrue) (p n).toUInt64 (x n) := by
    rw [← inTurn_map]
    refine inTurn_congr fun n hn => ?_
    rw [LaneCopy.run_store env (hptr n hn) (hvalue n hn) (hmask n hn), bind_pure_comp]
  rw [eval_of_access? haccess hread, hcopies, Access.perform, store_lanes hon haddress, inTurn_discard]
  simp only [Functor.map_map]

theorem discard_eq_ok {x : Widen α} {u : Unit} (h : discard x s = .ok u s') : ∃ a, x s = .ok a s' := by
  have hmap : (fun _ => ()) <$> x = x >>= fun _ => pure () := (bind_pure_comp _ _).symm
  obtain ⟨a, s1, hx, hpure⟩ := bind_eq_ok.mp ((congrFun hmap s).symm.trans h)
  obtain ⟨-, rfl⟩ := pure_eq_ok.mp hpure
  exact ⟨a, hx⟩

theorem replaced_eq_ok
    (h : (do replace i; modify fun s => { s with packetCount := s.packetCount + 1 } : Widen Unit) s = .ok () s') :
    s'.kernel = s.kernel ∧ s'.packets = s.packets ∧ s'.instances = s.instances ∧ i ∈ s'.replaced := by
  obtain ⟨_, _, hreplace, hcount⟩ := bind_eq_ok.mp h
  cases hreplace
  cases hcount
  exact ⟨rfl, rfl, rfl, mem_append_right _ (.head _)⟩

/-- The instruction does what the copies of a store do in lane after lane. -/
def StoresInTurn (t : WidenTask) (s : Widening) (j : InstId) (instr : Instr) (ptr value : ValueId) (mask : Option ValueId)
    (align : Nat) (spaced : Nat → (Nat → Scalar) → Prop) : Prop :=
  ∀ {σ : Type} (env : Environment σ) (m : Machine) (f : Frame) (lanes : Nat) (p e x : Nat → Scalar)
    (copy : Nat → LaneCopy), m.kernel = s.kernel → s.Matches t m f lanes copy ptr p →
    s.Matches t m f lanes copy value x → (∀ u ∈ mask, s.Matches t m f lanes copy u e) → spaced lanes p →
    m.eval env f j instr = (fun _ => none) <$> inTurn lanes fun n => (copy n).run env (.store ptr value mask align)

/-- The lanes of a store write one after another, if the instruction for all lanes has their addresses. -/
theorem emitted_store_inTurn {s3 : Widening} {data : ValueId} (hk : s.kernel.Linked) (hi : i ∈ s.kernel.instsOf b)
    (hserves : s.ServesMask t mask mask') (hdata : s.packets[value]? = some data)
    (helem : s.kernel.valueTy data = .ok (.vector (shape t elem))) (haccess : instr.isAccess = true)
    (hshape : form.Shapes instr) (h : before i (emit instr .void) s = .ok j s3)
    (hafter : (do replace i; modify fun s => { s with packetCount := s.packetCount + 1 } : Widen Unit) s3 = .ok () s')
    (hread : ∀ (m : Machine) f lanes p x M, m.read f data = .ok x → m.elementSize data = .ok elem.size →
      m.readMask f mask' = .ok M → s'.Shows t m f lanes ptr p → spaced lanes p → ∃ address, m.access? f j instr =
      .ok (some (.store M address x)) ∧ ∀ n < lanes, address n = (p n).toUInt64) :
    ∃ j instr, s'.kernel.StandsAhead j instr i ∧ form.Shapes instr ∧ i ∈ s'.replaced ∧
      StoresInTurn t s' j instr ptr value mask align spaced := by
  obtain ⟨hprecedes, hgrows⟩ := before_emit hk hi h
  obtain ⟨hkernel, hpackets, -, hreplaced⟩ := replaced_eq_ok hafter
  have hgrows' : s.Grows s' := hgrows.trans (.of_packets (hkernel ▸ .refl _) hpackets)
  refine ⟨j, instr, hkernel ▸ hprecedes, hshape, hreplaced,
    fun env m f lanes p e x copy hm hptr hvalue hmask hspaced => ?_⟩
  obtain ⟨M, hM, hon⟩ := readMask_serves (hserves.grows_mask hgrows') fun u hu => (hmask u hu).shown
  have hsize : m.elementSize data = .ok elem.size :=
    Success.bind_eq_ok.mpr ⟨_, hm ▸ hgrows'.kernel.valueTy helem, rfl⟩
  have hread' := hvalue.shown.packet data (hgrows'.packets value data hdata)
  obtain ⟨address, haddress, heq⟩ := hread m f lanes p _ M hread' hsize hM hptr.shown hspaced
  exact eval_store_eq env haccess haddress hon heq hptr.reads hvalue.reads fun n hn u hu => (hmask u hu).reads n hn

/-- A store that became one instruction, whatever form it got. -/
theorem packetStore_inTurn (hk : s.kernel.Linked) (hs : s.Sized t) (hi : i ∈ s.kernel.instsOf b)
    (hty : s.kernel.valueTy value = .ok (.scalar elem)) (hvector : stride.memoryForm elem.size gather ≠ .perLane)
    (h : packetStore t i (stride.memoryForm elem.size gather) ptr value mask align s = .ok () s') :
    ∃ j instr, s'.kernel.StandsAhead j instr i ∧ (stride.memoryForm elem.size gather).Shapes instr ∧ i ∈ s'.replaced ∧
      StoresInTurn t s' j instr ptr value mask align fun lanes p =>
        stride.memoryForm elem.size gather ≠ .gatherScatter → stride.Spaces lanes fun n => (p n).toUInt64 := by
  rw [packetStore] at h
  obtain ⟨data, s1, hpacket, h⟩ := bind_eq_ok.mp h
  obtain ⟨hgrows1, hs1, hdata1⟩ := packetOf_eq_ok hs hpacket
  obtain ⟨mask', s2, hmask', h⟩ := bind_eq_ok.mp h
  obtain ⟨hgrows2, hs2, hserves⟩ := maskOf_eq_ok hs1 hmask'
  have hgrows := hgrows1.trans hgrows2
  have hk2 := hgrows.kernel.linked hk
  have hi2 := (hgrows.kernel.sublist b).subset hi
  have hdata := hgrows2.packets value data hdata1
  have helem : s2.kernel.valueTy data = .ok (.vector (shape t elem)) := by
    obtain ⟨ty, elem', hty', helem', hvector⟩ := hs2 value data hdata
    obtain rfl := ok_unique (hgrows.kernel.valueTy hty) hty'
    exact (Option.some.inj helem') ▸ hvector
  cases hpick : stride.memoryForm elem.size gather with
  | contiguous | interleaved k =>
    simp only [hpick] at h
    obtain ⟨base, s3, hlane, h⟩ := bind_eq_ok.mp h
    obtain ⟨hconv, hbase⟩ := laneOf_spec (by omega) hlane
    obtain ⟨_, s4, hstore, hafter⟩ := bind_eq_ok.mp h
    obtain ⟨j, hstore⟩ := discard_eq_ok hstore
    refine emitted_store_inTurn (hconv.kernel.linked hk2) ((hconv.kernel.sublist b).subset hi2)
      (hserves.grows_mask hconv.grows) (hconv.packets ▸ hdata) (hconv.kernel.valueTy helem) rfl
      (by first | exact trivial | exact rfl) hstore hafter fun m f lanes p x M hx hsize hM hptr hspaced =>
        ⟨_, Success.bind_eq_ok.mpr ⟨_, read_laneOf ?_ hptr,
        Success.bind_eq_ok.mpr ⟨x, hx, Success.bind_eq_ok.mpr ⟨M, hM, Success.bind_eq_ok.mpr ⟨_, hsize, rfl⟩⟩⟩⟩,
        fun n hn => ?_⟩
    · rw [(replaced_eq_ok hafter).2.2.1, instances_before hstore]
      exact hbase
    · first
        | exact Stride.stepped_contiguous (hspaced (by simp)) hpick hn
        | exact Stride.stepped_interleaved (hspaced (by simp)) hpick hn
  | gatherScatter =>
    simp only [hpick] at h
    obtain ⟨ptrs, s3, hptrs, h⟩ := bind_eq_ok.mp h
    obtain ⟨hgrows3, -, hptrs⟩ := packetOf_eq_ok hs2 hptrs
    obtain ⟨_, s4, hstore, hafter⟩ := bind_eq_ok.mp h
    obtain ⟨j, hstore⟩ := discard_eq_ok hstore
    refine emitted_store_inTurn (hgrows3.kernel.linked hk2) ((hgrows3.kernel.sublist b).subset hi2)
      (hserves.grows_mask hgrows3) (hgrows3.packets value data hdata) (hgrows3.kernel.valueTy helem) rfl (by exact trivial)
      hstore hafter fun m f lanes p x M hx hsize hM hptr _ => ⟨_, Success.bind_eq_ok.mpr ⟨_, hptr.packet ptrs ?_,
        Success.bind_eq_ok.mpr ⟨x, hx, Success.bind_eq_ok.mpr ⟨M, hM, rfl⟩⟩⟩, fun n hn => ?_⟩
    · rw [(replaced_eq_ok hafter).2.1, packets_before hstore]
      exact hptrs
    · simp [Val.lane, hn, Val.toUInt64]
  | perLane => exact absurd hpick hvector

/-! ## What has been converted is enough -/

theorem laneOf_of_instance {lane : Nat} {x : ValueId} (h : s.instances[(v, lane)]? = some x) :
    laneOf t v lane s = .ok x s := by
  refine bind_eq_ok.mpr ⟨some x, s, ?_, rfl⟩
  rw [readyInstance?]
  refine bind_eq_ok.mpr ⟨s, s, rfl, ?_⟩
  simp only [h]
  rfl

theorem exists_maskOf (hs : s.Sized t) (h : ∀ u ∈ mask, (s.packets[u]?).isSome = true) :
    ∃ mask', maskOf t mask s = .ok mask' s := by
  cases mask with
  | none => exact ⟨none, rfl⟩
  | some u =>
    obtain ⟨q, hq⟩ := isSome_iff_exists.mp (h u rfl)
    obtain ⟨ty, -, hty, -⟩ := hs u q hq
    obtain ⟨d, hd, -⟩ := Success.bind_eq_ok.mp hty
    obtain ⟨uniform, huniform⟩ := exists_isUniform (t := t) (isSome_iff_exists.mpr ⟨d, some?_eq_ok.mp hd⟩)
    rw [maskOf, ← bind_pure_comp]
    cases uniform with
    | true => exact ⟨some u, bind_eq_ok.mpr ⟨u, s, bind_eq_ok.mpr ⟨true, s, huniform, rfl⟩, rfl⟩⟩
    | false =>
      exact ⟨some q, bind_eq_ok.mpr ⟨q, s, bind_eq_ok.mpr ⟨false, s, huniform, packetOf_of_packet hq⟩, rfl⟩⟩

theorem exists_insert_before (hk : k.Linked) (hi : i ∈ k.instsOf b) (instr : Instr)
    (ty : Ty) : ∃ j c, insert instr ty ⟨k, .before i⟩ = .ok (j, c) := by
  obtain ⟨d, hd, -⟩ := hk.inst?_of_mem hi
  have hfits : (InsertPoint.before i).Fits k := isSome_iff_exists.mpr ⟨d, hd⟩
  exact hk.exists_build hfits instr ty

theorem exists_before_emitValue (hk : s.kernel.Linked) (hi : i ∈ s.kernel.instsOf b)
    (instr : Instr) (given : Ty) (hty : ∀ c, resultTy given instr c = .ok (ty, c)) :
    ∃ v s', before i (emitValue instr given) s = .ok v s' := by
  obtain ⟨j, c, hinsert⟩ := exists_insert_before hk hi instr ty
  exact ⟨_, _, before_eq_ok.mpr ⟨c, stateBind_eq_ok.mpr ⟨ty, _, hty _,
    stateBind_eq_ok.mpr ⟨j, c, hinsert, rfl⟩⟩, rfl⟩⟩

theorem exists_before_emit (hk : s.kernel.Linked) (hi : i ∈ s.kernel.instsOf b)
    (instr : Instr) (given : Ty) (hty : ∀ c, resultTy given instr c = .ok (ty, c)) :
    ∃ s', discard (before i (emit instr given)) s = .ok () s' := by
  obtain ⟨j, c, hinsert⟩ := exists_insert_before hk hi instr ty
  have hbefore : before i (emit instr given) s = .ok j { s with kernel := c.kernel } :=
    before_eq_ok.mpr ⟨c, stateBind_eq_ok.mpr ⟨ty, _, hty _, hinsert⟩, rfl⟩
  refine ⟨{ s with kernel := c.kernel }, ?_⟩
  show ((fun _ => ()) <$> before i (emit instr given)) s = _
  rw [← bind_pure_comp]
  exact bind_eq_ok.mpr ⟨j, _, hbefore, rfl⟩

/-- A load for all lanes can be built from what its operands have been converted to. -/
theorem exists_packetLoad (ty : Ty) (hk : s.kernel.Linked) (hs : s.Sized t) (hi : i ∈ s.kernel.instsOf b)
    (hform : t.plan.memoryForm? i = some form) (hvector : form ≠ .perLane)
    (hmask : ∀ u ∈ mask, (s.packets[u]?).isSome = true) (hpacket : (s.packets[ptr]?).isSome = true)
    (hlane : (s.instances[(ptr, 0)]?).isSome = true) : ∃ v s', packetLoad t i ty ptr mask align s = .ok v s' := by
  obtain ⟨mask', hmask'⟩ := exists_maskOf hs hmask
  obtain ⟨ptrs, hptrs⟩ := isSome_iff_exists.mp hpacket
  obtain ⟨base, hbase⟩ := isSome_iff_exists.mp hlane
  rw [packetLoad, bind_of_eq_ok hmask', hform]
  cases form with
  | contiguous | interleaved k =>
    dsimp only
    rw [bind_of_eq_ok (laneOf_of_instance hbase)]
    exact exists_before_emitValue hk hi _ ty fun _ => rfl
  | gatherScatter =>
    dsimp only
    rw [bind_of_eq_ok (packetOf_of_packet hptrs)]
    exact exists_before_emitValue hk hi _ ty fun _ => rfl
  | perLane => exact absurd rfl hvector

/-- So can a store. -/
theorem exists_packetStore (hk : s.kernel.Linked) (hs : s.Sized t) (hi : i ∈ s.kernel.instsOf b)
    (hvalue : (s.packets[value]?).isSome = true) (hmask : ∀ u ∈ mask, (s.packets[u]?).isSome = true)
    (hpacket : (s.packets[ptr]?).isSome = true) (hlane : (s.instances[(ptr, 0)]?).isSome = true) :
    ∃ s', packetStore t i form ptr value mask align s = .ok () s' := by
  obtain ⟨mask', hmask'⟩ := exists_maskOf hs hmask
  obtain ⟨data, hdata⟩ := isSome_iff_exists.mp hvalue
  obtain ⟨ptrs, hptrs⟩ := isSome_iff_exists.mp hpacket
  obtain ⟨base, hbase⟩ := isSome_iff_exists.mp hlane
  rw [packetStore, bind_of_eq_ok (packetOf_of_packet hdata), bind_of_eq_ok hmask']
  cases form with
  | contiguous =>
    obtain ⟨s1, h⟩ := exists_before_emit hk hi (.store base data mask' align) .void fun _ => rfl
    exact ⟨_, bind_eq_ok.mpr ⟨base, s, laneOf_of_instance hbase, bind_eq_ok.mpr ⟨(), s1, h, rfl⟩⟩⟩
  | interleaved k =>
    obtain ⟨s1, h⟩ := exists_before_emit hk hi (.strideStore base data (Int64.ofInt k) mask') .void fun _ => rfl
    exact ⟨_, bind_eq_ok.mpr ⟨base, s, laneOf_of_instance hbase, bind_eq_ok.mpr ⟨(), s1, h, rfl⟩⟩⟩
  | gatherScatter | perLane =>
    obtain ⟨s1, h⟩ := exists_before_emit hk hi (.scatter ptrs data mask') .void fun _ => rfl
    exact ⟨_, bind_eq_ok.mpr ⟨ptrs, s, packetOf_of_packet hptrs, bind_eq_ok.mpr ⟨(), s1, h, rfl⟩⟩⟩

/-! ## From the plan to the accesses -/

/-- The form of an access comes from the stride of its address, if it is to become one instruction. -/
theorem memoryForm?_eq_ok {problem : PlanProblem} {site : Site}
    (haccess : problem.kernel.access? site.inst site.instr = .ok (some (ptr, elem)))
    (hpick : problem.memoryForm? site = .ok (some form)) (hvector : form ≠ .perLane) :
    ∃ gather, (problem.strides.get ptr).memoryForm elem.size gather = form := by
  obtain ⟨found, hfound, h⟩ := Success.bind_eq_ok.mp hpick
  obtain rfl := ok_unique haccess hfound
  dsimp only at h
  split at h
  · exact absurd (Option.some.inj (Success.pure_eq_ok.mp h)).symm hvector
  · exact ⟨_, Option.some.inj (Success.pure_eq_ok.mp h)⟩

theorem buildPacket_load {result : ValueId} (hinstr : s.kernel.instr? i = some (.load ptr mask align))
    (hty : s.kernel.valueTy result = .ok ty) :
    buildPacket t i result s = packetLoad t i (widenTy t ty) ptr mask align s := by
  obtain ⟨d, hd, hload⟩ := map_eq_some_iff.mp hinstr
  have hinst : s.kernel.inst i = .ok d := some?_eq_ok.mpr hd
  rw [buildPacket, bind_of_eq_ok (valueTy_eq_ok.mpr ⟨hty, rfl⟩), bind_of_eq_ok (kernel_eq_ok.mpr ⟨rfl, rfl⟩),
    bind_of_eq_ok (lift_eq_ok.mpr ⟨hinst, rfl⟩), hload]

theorem widenEffect_store (hinstr : s.kernel.instr? i = some (.store ptr value mask align))
    (hplan : t.plan.memoryForm? i = some form) (hvector : form ≠ .perLane) :
    widenEffect t i s = packetStore t i form ptr value mask align s := by
  obtain ⟨d, hd, hstore⟩ := map_eq_some_iff.mp hinstr
  have hinst : s.kernel.inst i = .ok d := some?_eq_ok.mpr hd
  rw [widenEffect, bind_of_eq_ok (kernel_eq_ok.mpr ⟨rfl, rfl⟩), bind_of_eq_ok (lift_eq_ok.mpr ⟨hinst, rfl⟩), hstore]
  simp only [hplan, Option.getD_some]

/-- **One instruction for all lanes does what the lanes do one after another.** An access whose form comes from the
stride of its address becomes one instruction right in front of it, as soon as its operands have been converted. Carried
out, it has the same outcome as the copies of the access for lane 0, 1, … have one after another: the same values, the
same memory, and the same trap with the same bytes written before. The lanes' addresses are as far apart as the stride
says unless the form takes one address per lane. -/
theorem accesses_inTurn {problem : PlanProblem} {site : Site} {elem : ScalarTy} (hk : s.kernel.Linked) (hs : s.Sized t)
    (hi : site.inst ∈ s.kernel.instsOf b) (hinstr : s.kernel.instr? site.inst = some site.instr)
    (haccess : problem.kernel.access? site.inst site.instr = .ok (some (ptr, elem)))
    (hpick : problem.memoryForm? site = .ok (some form)) (hplan : t.plan.memoryForm? site.inst = some form)
    (hvector : form ≠ .perLane) :
    (∀ result mask align, site.instr = .load ptr mask align → s.kernel.valueTy result = .ok (.scalar elem) →
      ((s.packets[ptr]?).isSome = true → (s.instances[(ptr, 0)]?).isSome = true →
        (∀ u ∈ mask, (s.packets[u]?).isSome = true) → ∃ v s', buildPacket t site.inst result s = .ok v s') ∧
      ∀ v s', buildPacket t site.inst result s = .ok v s' →
        ∃ j instr, s'.kernel.StandsAhead j instr site.inst ∧ form.Shapes instr ∧ s'.kernel.result? j = some v ∧
          ∀ {σ : Type} (env : Environment σ) (m : Machine) (f : Frame) (lanes : Nat) (p e : Nat → Scalar)
            (copy : Nat → LaneCopy), m.kernel = s'.kernel → m.lanesOf (widenTy t (.scalar elem)) = .ok lanes →
            s'.Matches t m f lanes copy ptr p → (∀ u ∈ mask, s'.Matches t m f lanes copy u e) →
            (∀ n < lanes, (copy n).machine.kernel.resultTy (copy n).inst = .scalar elem) →
            (form ≠ .gatherScatter → (problem.strides.get ptr).Spaces lanes fun n => (p n).toUInt64) →
            m.eval env f j instr = (fun rs => (rs.mapM id).map Val.vector) <$>
              inTurn lanes fun n => (copy n).run env (.load ptr mask align)) ∧
    ∀ value mask align, site.instr = .store ptr value mask align → s.kernel.valueTy value = .ok (.scalar elem) →
      ((s.packets[ptr]?).isSome = true → (s.instances[(ptr, 0)]?).isSome = true → (s.packets[value]?).isSome = true →
        (∀ u ∈ mask, (s.packets[u]?).isSome = true) → ∃ s', widenEffect t site.inst s = .ok () s') ∧
      ∀ s', widenEffect t site.inst s = .ok () s' →
        ∃ j instr, s'.kernel.StandsAhead j instr site.inst ∧ form.Shapes instr ∧ site.inst ∈ s'.replaced ∧
          ∀ {σ : Type} (env : Environment σ) (m : Machine) (f : Frame) (lanes : Nat) (p e x : Nat → Scalar)
            (copy : Nat → LaneCopy), m.kernel = s'.kernel → s'.Matches t m f lanes copy ptr p →
            s'.Matches t m f lanes copy value x → (∀ u ∈ mask, s'.Matches t m f lanes copy u e) →
            (form ≠ .gatherScatter → (problem.strides.get ptr).Spaces lanes fun n => (p n).toUInt64) →
            m.eval env f j instr = (fun _ => none) <$>
              inTurn lanes fun n => (copy n).run env (.store ptr value mask align) := by
  obtain ⟨gather, rfl⟩ := memoryForm?_eq_ok haccess hpick hvector
  refine ⟨fun result mask align hload hty => ?_, fun value mask align hstore hty => ?_⟩
  · rw [buildPacket_load (hload ▸ hinstr) hty]
    exact ⟨fun hpacket hlane hmask => exists_packetLoad _ hk hs hi hplan hvector hmask hpacket hlane,
      fun v s' h => packetLoad_inTurn hk hs hi hplan h⟩
  · rw [widenEffect_store (hstore ▸ hinstr) hplan hvector]
    exact ⟨fun hpacket hlane hvalue hmask => exists_packetStore hk hs hi hvalue hmask hpacket hlane,
      fun s' h => packetStore_inTurn hk hs hi hty hvector h⟩

end Widen

/-! ## Every other element, backwards -/

/-- Stores `x` through the pointer `q` in the lanes that `m` lets take part. What the lanes have for `x` and `m` come in
as vectors. -/
def backwards : Kernel := .ofListing "backwards" .void [("xs", .fixedVector .i32 2), ("ms", .fixedVector .bool 2)] []
  [("entry", [(.call "x" [] none, .scalar .i32), (.call "m" [] none, .scalar .bool),
      (.call "q" [] none, .ptr), (.store 4 2 (some 3) 4, .void)])]

def backwardsSite : Site := ⟨0, 3, .store 4 2 (some 3) 4, none⟩

/-- The pointer goes back by two elements from lane to lane. -/
def backwardsProblem : PlanProblem where
  kernel := backwards
  divergence := ⟨.ofList [0, 1, 2, 3], ∅, []⟩
  strides := ⟨(∅ : TreeMap ValueId Stride).insert 4 (.linear (-8))⟩
  target := .generic128
  options := {}
  sites := [backwardsSite]

def backwardsTask : WidenTask where
  divergence := backwardsProblem.divergence
  plan :=
    { plans := (∅ : TreeMap ValueId ValuePlan).insert 2 .packet |>.insert 3 .packet |>.insert 4 .perLane
      memory := (∅ : TreeMap InstId MemoryForm).insert 3 (.interleaved (-2)) }
  options := {}
  group := ⟨2, false⟩
  entry := 0
  calls := ∅

def backwardsState : Widening where
  kernel := backwards
  packets := (∅ : TreeMap ValueId ValueId).insert 2 0 |>.insert 3 1

/-- The state after the store has become one instruction. -/
def backwardsAfter : Widening :=
  match Widen.widenEffect backwardsTask 3 backwardsState with
  | .ok _ s => s
  | .error _ s => s

theorem widenEffect_backwards : Widen.widenEffect backwardsTask 3 backwardsState = .ok () backwardsAfter := by
  rfl

theorem instances_backwardsAfter : backwardsAfter.instances = (∅ : TreeMap _ _ _).insert (4, 0) 4 := by
  rfl

theorem packets_backwardsAfter : backwardsAfter.packets = backwardsState.packets := by
  rfl

theorem linked_backwards : backwards.Linked :=
  Kernel.linked_of_coherent (by decide +kernel) (by decide +kernel) (by decide +kernel)

theorem getElem?_backwardsState (v : ValueId) :
    backwardsState.packets[v]? = if v = 3 then some 1 else if v = 2 then some 0 else none := by
  simp only [backwardsState, TreeMap.getElem?_insert, Std.LawfulEqOrd.compare_eq_iff_eq, eq_comm (b := v)]
  simp

theorem sized_backwardsState : backwardsState.Sized backwardsTask := by
  intro v p hp
  rw [getElem?_backwardsState] at hp
  split at hp
  next hv =>
    cases hp
    exact hv ▸ ⟨.scalar .bool, .bool, rfl, rfl, rfl⟩
  · split at hp
    next hv =>
      cases hp
      exact hv ▸ ⟨.scalar .i32, .i32, rfl, rfl, rfl⟩
    · cases hp

/-- What the lanes have for `x`, `m` and `q`. -/
def backwardsX (n : Nat) : Scalar := .i32 (10 + Int32.ofNat n)
def backwardsM (n : Nat) : Scalar := .bool (n == 1)
def backwardsQ (n : Nat) : Scalar := .ptr (80 + UInt64.ofInt (n * -8))

/-- The frame for both lanes, with the address of lane 0. -/
def backwardsFrame : Frame where
  args := [.vector ((range 2).map fun n => .scalar (backwardsX n)),
    .vector ((range 2).map fun n => .scalar (backwardsM n))]
  results := (∅ : TreeMap ValueId Val).insert 4 (.scalar (backwardsQ 0))

/-- The store for one lane. -/
def backwardsCopy (n : Nat) : LaneCopy where
  machine := ⟨backwards, 1⟩
  frame :=
    { args := []
      results := (∅ : TreeMap ValueId Val).insert 2 (.scalar (backwardsX n))
        |>.insert 3 (.scalar (backwardsM n)) |>.insert 4 (.scalar (backwardsQ n)) }
  inst := 3
  rename := id

/-- All that is remembered for a lane is lane 0 of the pointer. -/
theorem eq_of_instance_backwards {y : ValueId} {n : Nat} (h : backwardsAfter.instances[(v, n)]? = some y) :
    v = 4 ∧ n = 0 ∧ y = 4 := by
  rw [instances_backwardsAfter, TreeMap.getElem?_insert] at h
  split at h
  next heq =>
    obtain ⟨hv, hn⟩ := Ordering.then_eq_eq.mp heq
    exact ⟨(Std.LawfulEqOrd.eq_of_compare hv).symm, (Std.LawfulEqOrd.eq_of_compare hn).symm, (some.inj h).symm⟩
  · cases h

theorem matches_backwards {x : Nat → Scalar} (hplan : backwardsTask.plan.get v ≠ .uniform)
    (hvarying : backwardsTask.divergence.isVarying backwardsAfter.kernel v = .ok true)
    (hpacket : ∀ p, backwardsState.packets[v]? = some p → read ⟨backwardsAfter.kernel, 1⟩ backwardsFrame p =
      .ok (.vector ((range 2).map fun n => .scalar (x n)))) (hlane : v = 4 → x 0 = backwardsQ 0)
    (hreads : ∀ n, (backwardsCopy n).Reads v (x n)) :
    backwardsAfter.Matches backwardsTask ⟨backwardsAfter.kernel, 1⟩ backwardsFrame 2 backwardsCopy v x := by
  refine ⟨⟨packets_backwardsAfter ▸ hpacket, fun n y hy => ?_, fun hshared => ?_⟩, fun n _ => hreads n⟩
  · obtain ⟨hv, rfl, rfl⟩ := eq_of_instance_backwards hy
    rw [hlane hv]
    rfl
  · rcases hshared with h | h
    · exact absurd h hplan
    · cases hvarying.symm.trans h

theorem store_backwards : Widen.widenEffect backwardsTask ⟨3⟩ backwardsState = .ok () backwardsAfter ∧
    ∃ j instr, backwardsAfter.kernel.StandsAhead j instr ⟨3⟩ ∧ (MemoryForm.interleaved (-2)).Shapes instr ∧
      eval ⟨backwardsAfter.kernel, 1⟩ (fun _ _ => pure none : Environment Unit) backwardsFrame j instr =
        (fun _ => none) <$> inTurn 2 fun n => (backwardsCopy n).run (fun _ _ => pure none : Environment Unit)
          (.store ⟨4⟩ ⟨2⟩ (some ⟨3⟩) 4) := by
  refine ⟨widenEffect_backwards, ?_⟩
  obtain ⟨-, hstore⟩ := Widen.accesses_inTurn (b := 0) (s := backwardsState) (t := backwardsTask) linked_backwards
    sized_backwardsState (show backwardsSite.inst ∈ backwards.instsOf 0 by decide +kernel) rfl
    (show backwardsProblem.kernel.access? backwardsSite.inst backwardsSite.instr = .ok (some (4, .i32)) from rfl)
    (show backwardsProblem.memoryForm? backwardsSite = .ok (some (.interleaved (-2))) from rfl) rfl (by decide)
  obtain ⟨j, instr, hprecedes, hshape, -, h⟩ := (hstore 2 (some 3) 4 rfl rfl).2 backwardsAfter widenEffect_backwards
  refine ⟨j, instr, hprecedes, hshape, h _ ⟨backwardsAfter.kernel, 1⟩ backwardsFrame 2 backwardsQ backwardsM backwardsX
    backwardsCopy rfl ?_ ?_ ?_ ?_⟩
  · exact matches_backwards (by decide) rfl (fun p hp => absurd hp (by simp [getElem?_backwardsState])) (fun _ => rfl)
      fun _ => rfl
  · refine matches_backwards (by decide) rfl (fun p hp => ?_) (fun h => by cases h) fun _ => rfl
    cases (getElem?_backwardsState _).symm.trans hp
    rfl
  · rintro u hu
    cases hu
    refine matches_backwards (by decide) rfl (fun p hp => ?_) (fun h => by cases h) fun _ => rfl
    cases (getElem?_backwardsState _).symm.trans hp
    rfl
  · intro _ step hstep n hn
    obtain rfl := Stride.linear.inj hstep
    rcases (by omega : n = 0 ∨ n = 1) with rfl | rfl <;> decide

end Spmd
