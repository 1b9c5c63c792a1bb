import Spmd.Exec.Run
import Spmd.Proofs.Exec.Action
import Spmd.Proofs.Kernel.Edit

/-!
# What an instruction does to the world

Most instructions only compute: their outcome does not depend on the world and leaves it as it is
(`Machine.eval_computes`). The others call, allocate, or access memory, and all accesses have one form.

* **`Access`** — the elements that an instruction reads or writes, and `Access.Touches`, the bytes of those
  that its mask leaves active. `Machine.eval_access` says that every memory instruction is its access.
* **`store_unchanged`**, `load_keeps` — a store changes only what it touches, and a load changes nothing.
-/

namespace Spmd

open Exec Instr List

variable {f f' : Frame} {instr : Instr} {τ σ : Type} {ρ : ValueId → ValueId} {m' m : Machine} {i : InstId} {w : World σ}

namespace Instr

/-- Whether the instruction only computes: it neither calls nor has to do with memory. -/
def onlyComputes : Instr → Bool
  | alloca .. | load .. | strideLoad .. | gather .. | store .. | strideStore .. | scatter .. | call .. => false
  | _ => true

/-- Whether the instruction reads or writes memory itself. -/
def isAccess : Instr → Bool
  | load .. | strideLoad .. | gather .. | store .. | strideStore .. | scatter .. => true
  | _ => false

end Instr

namespace Machine

variable {picks : List Nat}

open Exec in
/-- An instruction that only computes gives the same under every environment. -/
theorem eval_computes (m : Machine) (env : Environment σ) (env' : Environment τ) (f : Frame) (i : InstId)
    (h : instr.onlyComputes = true) : Computes (m.eval env f i instr) (m.eval env' f i instr) := by
  cases instr with
  | binary _ _ _ | compare _ _ _ | elementPtr _ _ _ | extract _ _ =>
    exact .bind (.liftChecked _) fun _ => .bind (.liftChecked _) fun _ => .map _ (.liftExcept _)
  | unary _ _ | cast _ _ | reduce _ _ => exact .bind (.liftChecked _) fun _ => .map _ (.liftExcept _)
  | select _ _ _ =>
    exact .bind (.liftChecked _) fun _ => .bind (.liftChecked _) fun _ =>
      .bind (.liftChecked _) fun _ => .pure _
  | splat _ => exact .bind (.liftChecked _) fun _ => .bind (.liftChecked _) fun _ => .pure _
  | stepVector => exact .bind (.liftChecked _) fun _ => .pure _
  | insert _ _ _ =>
    exact .bind (.liftChecked _) fun _ => .bind (.liftExcept _) fun _ =>
      .bind (.liftChecked _) fun _ => .bind (.liftExcept _) fun _ =>
      .bind (.liftChecked _) fun _ => .pure _
  | shuffle _ _ => exact .bind (.liftChecked _) fun _ => .bind (.liftExcept _) fun _ => .pure _
  | phi _ | br _ | condBr _ _ _ | switch _ _ _ | ret _ | unreachable => exact .pure _
  | alloca _ _ | load _ _ _ | strideLoad _ _ _ | gather _ _ | store _ _ _ _ | strideStore _ _ _ _ | scatter _ _ _
  | call _ _ _ => exact absurd h (by simp [onlyComputes])

/-! ## What an instruction reads of the frame -/

theorem read_eq (f : Frame) {v : ValueId} {d : ValueDef} (h : m.kernel.value? v = some d) :
    m.read f v = match d.kind with
      | .param position => .ok (f.args[position]?.getD (.bool false))
      | .const c => m.constant d.ty c
      | .undef => m.zeroOf d.ty
      | .inst _ => match f.results[v]? with
        | some x => .ok x
        | none => m.zeroOf d.ty := by
  rw [read, Kernel.value, h]
  rfl

section

variable (h : m'.vscale = m.vscale)
include h

theorem lanesOf_congr : m'.lanesOf = m.lanesOf := by
  funext ty
  cases ty with
  | vector shape => rw [lanesOf, lanesOf, h]
  | scalar _ | void => rfl

theorem zeroOf_congr : m'.zeroOf = m.zeroOf := by
  funext ty
  cases ty with
  | vector shape => rw [zeroOf, zeroOf, lanesOf_congr h]
  | scalar _ | void => rfl

theorem constant_congr : m'.constant = m.constant := by
  funext ty c
  cases ty with
  | vector shape => rw [constant, constant, lanesOf_congr h]
  | scalar _ | void => rfl

theorem load_congr (ty : Ty) (mask : Option Val) (address : Nat → UInt64) :
    (m'.load ty mask address : Exec σ Val) = m.load ty mask address := by
  rw [load, load, lanesOf_congr h]

theorem call_congr (env : Environment σ) (callee : String) (args : List Val) (mask : Option Val) (ty : Ty) :
    m'.call env callee args mask ty = m.call env callee args mask ty := by
  rw [call, call, zeroOf_congr h]

end

theorem readMask_rename (mask : Option ValueId) (h : ∀ v ∈ mask.toList, m'.read f' (ρ v) = m.read f v) :
    m'.readMask f' (mask.map ρ) = m.readMask f mask := by
  cases mask with
  | none => rfl
  | some v =>
    show (return some (← m'.read f' (ρ v))) = (return some (← m.read f v))
    rw [h v (by simp)]

theorem mapM_getElem?_eq_some {lanes : Array Val} (pick : Nat → Val) (h : ∀ p ∈ picks, lanes[p]? = some (pick p)) :
    picks.mapM (lanes[·]?) = some (picks.map pick) := by
  induction picks with
  | nil => rfl
  | cons p picks ih =>
    rw [mapM_cons, h p (.head _), ih fun q hq => h q (.tail _ hq)]
    rfl

theorem eval_shuffle {env : Environment σ} {sources : List ValueId} {xs : List Val} (pick : Nat → Val)
    (hread : sources.mapM (m.read f) = .ok xs) (hpicks : ∀ p ∈ picks, (xs.flatMap sourceLanes)[p]? = some (pick p)) :
    m.eval env f i (.shuffle sources picks) w = .ok (some (.vector (picks.map pick))) w := by
  refine bind_eq_ok.mpr ⟨xs, w, liftChecked_eq_ok.mpr ⟨hread, rfl⟩, ?_⟩
  refine bind_eq_ok.mpr ⟨picks.map pick, w, liftExcept_eq_ok.mpr ⟨?_, rfl⟩, rfl⟩
  rw [mapM_getElem?_eq_some pick fun p hp => by rw [getElem?_toArray]; exact hpicks p hp]
  rfl

end Machine

/-! ## Accesses -/

/-- The elements with their lanes; a scalar is an element in lane zero. -/
def Val.elements : Val → List (Val × Nat)
  | .vector lanes => lanes.zipIdx
  | x => [(x, 0)]

/-- How many bytes a stored element takes. -/
def Val.size : Val → Nat
  | .scalar s => s.ty.size
  | .vector _ => 0

/-- What an instruction does with memory, once its operands are read. -/
inductive Access where
  | load (mask : Option Val) (address : Nat → UInt64)
  | store (mask : Option Val) (address : Nat → UInt64) (x : Val)

namespace Access

/-- The access takes in the byte at this address. -/
def Touches (m : Machine) (ty : Ty) : Access → Nat → Prop
  | load mask address, a => ∃ lanes lane, m.lanesOf ty = .ok lanes ∧ lane < lanes ∧
      Machine.active mask lane = true ∧
      (address lane).toNat ≤ a ∧ a < (address lane).toNat + (ty.element?.getD .bool).size
  | store mask address x, a => ∃ y lane, (y, lane) ∈ x.elements ∧ Machine.active mask lane = true ∧
      (address lane).toNat ≤ a ∧ a < (address lane).toNat + y.size

def perform (m : Machine) (ty : Ty) : Access → Exec σ (Option Val)
  | load mask address => some <$> m.load ty mask address
  | store mask address x => do
    Machine.store mask address x
    return none

theorem perform_congr (h : m'.vscale = m.vscale) (ty : Ty) (access : Access) :
    (access.perform m' ty : Exec σ (Option Val)) = access.perform m ty := by
  cases access with
  | load mask address => rw [perform, perform, Machine.load_congr h]
  | store mask address x => rfl

end Access

namespace Machine

/-- The access that an instruction makes, from what its operands read as. -/
def access? (m : Machine) (f : Frame) (i : InstId) : Instr → Checked (Option Access)
  | .load ptr mask _ => do
    let base := (← m.read f ptr).toUInt64
    return some (.load (← m.readMask f mask) (stepped base (UInt64.ofNat (m.elementOf i).size)))
  | .strideLoad ptr stride mask => do
    let base := (← m.read f ptr).toUInt64
    return some (.load (← m.readMask f mask)
      (stepped base (UInt64.ofNat (m.elementOf i).size * stride.toUInt64)))
  | .gather ptrs mask => do
    let ptrs ← m.read f ptrs
    return some (.load (← m.readMask f mask) fun lane => (ptrs.lane lane).toUInt64)
  | .store ptr value mask _ => do
    let base := (← m.read f ptr).toUInt64
    let x ← m.read f value
    let mask ← m.readMask f mask
    return some (.store mask (stepped base (UInt64.ofNat (← m.elementSize value))) x)
  | .strideStore ptr value stride mask => do
    let base := (← m.read f ptr).toUInt64
    let x ← m.read f value
    let mask ← m.readMask f mask
    return some (.store mask (stepped base (UInt64.ofNat (← m.elementSize value) * stride.toUInt64)) x)
  | .scatter ptrs value mask => do
    let ptrs ← m.read f ptrs
    let x ← m.read f value
    let mask ← m.readMask f mask
    return some (.store mask (fun lane => (ptrs.lane lane).toUInt64) x)
  | _ => return none

/-- **A memory instruction is its access.** -/
theorem eval_access (m : Machine) (env : Environment σ) (f : Frame) (i : InstId) (h : instr.isAccess = true) :
    m.eval env f i instr = (do
      match ← (m.access? f i instr : Checked (Option Access)) with
      | some access => access.perform m (m.kernel.resultTy i)
      | none => return none) := by
  cases instr with
  | load ptr mask _ | strideLoad ptr _ mask | gather ptr mask =>
    rw [eval, access?]
    cases m.read f ptr with
    | error _ => rfl
    | ok base =>
      cases m.readMask f mask with
      | error _ => rfl
      | ok mask => rfl
  | store ptr value mask _ | strideStore ptr value _ mask =>
    rw [eval, access?]
    cases m.read f ptr with
    | error _ => rfl
    | ok base =>
      cases m.read f value with
      | error _ => rfl
      | ok x =>
        cases m.readMask f mask with
        | error _ => rfl
        | ok mask =>
          cases m.elementSize value with
          | error _ => rfl
          | ok size => rfl
  | scatter ptr value mask =>
    rw [eval, access?]
    cases m.read f ptr with
    | error _ => rfl
    | ok base =>
      cases m.read f value with
      | error _ => rfl
      | ok x =>
        cases m.readMask f mask with
        | error _ => rfl
        | ok mask => rfl
  | _ => exact absurd h (by simp [isAccess])

theorem elementOf_congr (h : m'.kernel.resultTy i = m.kernel.resultTy i) : m'.elementOf i = m.elementOf i := by
  rw [elementOf, elementOf, h]

theorem elementSize_rename {v : ValueId} (h : m'.kernel.valueTy (ρ v) = m.kernel.valueTy v) :
    m'.elementSize (ρ v) = m.elementSize v := by
  rw [elementSize, elementSize, h]

section

variable (i : InstId) (hread : ∀ v ∈ instr.operands, m'.read f' (ρ v) = m.read f v)
  (hresult : m'.kernel.resultTy i = m.kernel.resultTy i)
  (hty : ∀ v ∈ instr.operands, m'.kernel.valueTy (ρ v) = m.kernel.valueTy v)
include hread hresult hty

/-- An instruction with renamed operands makes the same access. -/
theorem access?_rename : m'.access? f' i (instr.mapOperands ρ) = m.access? f i instr := by
  cases instr with
  | load ptr mask _ | strideLoad ptr _ mask =>
    rw [mapOperands, access?, access?, hread ptr (by simp [operands]),
      readMask_rename mask fun v hv => hread v (.tail _ hv), elementOf_congr hresult]
  | gather ptr mask =>
    rw [mapOperands, access?, access?, hread ptr (by simp [operands]),
      readMask_rename mask fun v hv => hread v (.tail _ hv)]
  | store ptr value mask _ | strideStore ptr value _ mask =>
    rw [mapOperands, access?, access?, hread ptr (by simp [operands]), hread value (by simp [operands]),
      readMask_rename mask fun v hv => hread v (.tail _ (.tail _ hv)),
      elementSize_rename (hty value (by simp [operands]))]
  | scatter ptr value mask =>
    rw [mapOperands, access?, access?, hread ptr (by simp [operands]), hread value (by simp [operands]),
      readMask_rename mask fun v hv => hread v (.tail _ (.tail _ hv))]
  | _ => rfl

/-- An instruction with renamed operands does the same if they read as what the operands read as. -/
theorem eval_rename (env : Environment σ) (hscale : m'.vscale = m.vscale) :
    m'.eval env f' i (instr.mapOperands ρ) = m.eval env f i instr := by
  have helement := elementOf_congr hresult
  have hlanes := lanesOf_congr hscale
  have haccess := access?_rename i hread hresult hty
  cases instr with
  | binary _ x y | compare _ x y | elementPtr x y _ | extract x y =>
    rw [mapOperands, eval, eval, hread x (by simp [operands]), hread y (by simp [operands])]
  | unary op x | reduce op x => rw [mapOperands, eval, eval, hread x (by simp [operands])]
  | cast op x => rw [mapOperands, eval, eval, hread x (by simp [operands]), helement]
  | splat x => rw [mapOperands, eval, eval, hread x (by simp [operands]), hlanes, hresult]
  | select x y z | insert x y z =>
    rw [mapOperands, eval, eval, hread x (by simp [operands]), hread y (by simp [operands]),
      hread z (by simp [operands])]
  | load _ _ _ | strideLoad _ _ _ | gather _ _ | store _ _ _ _ | strideStore _ _ _ _ | scatter _ _ _ =>
    rw [eval_access m' env f' i rfl, haccess, eval_access m env f i rfl, hresult]
    simp only [Access.perform_congr hscale]
  | call callee args mask =>
    have hargs : (args.map ρ).mapM (m'.read f') = args.mapM (m.read f) := by
      rw [mapM_map]
      exact Success.mapM_congr fun v hv => hread v (mem_append_left _ hv)
    rw [mapOperands, eval, eval, hargs,
      readMask_rename mask fun v hv => hread v (mem_append_right _ hv), hresult]
    simp only [call_congr hscale]
  | shuffle sources picks =>
    have hsources : (sources.map ρ).mapM (m'.read f') = sources.mapM (m.read f) := by
      rw [mapM_map]
      exact Success.mapM_congr hread
    rw [mapOperands, eval, eval, hsources]
  | stepVector => rw [mapOperands, eval, eval, helement, hlanes, hresult]
  | alloca _ _ | phi _ | br _ | condBr _ _ _ | switch _ _ _ | ret _ | unreachable => rfl

end

/-- An instruction depends on the machine and the frame through what its operands read as. -/
theorem eval_congr (env : Environment σ) (i : InstId) (hscale : m'.vscale = m.vscale)
    (hread : ∀ v ∈ instr.operands, m'.read f' v = m.read f v) (hresult : m'.kernel.resultTy i = m.kernel.resultTy i)
    (hty : ∀ v ∈ instr.operands, m'.kernel.valueTy v = m.kernel.valueTy v) :
    m'.eval env f' i instr = m.eval env f i instr := by
  have := eval_rename (ρ := id) i hread hresult hty env hscale
  rwa [mapOperands_id (f := id) fun _ _ => rfl] at this

/-- A memory instruction performs its access. -/
theorem eval_of_access? {env : Environment σ} {access : Access} (hinstr : instr.isAccess = true)
    (h : m.access? f i instr = .ok (some access)) : m.eval env f i instr = access.perform m (m.kernel.resultTy i) := by
  rw [eval_access m env f i hinstr, h]
  rfl

end Machine

/-! ## Words from integers -/

theorem toUInt64_ofInt64 (i : Int) : (Int64.ofInt i).toUInt64 = UInt64.ofInt i := by
  refine UInt64.toBitVec_inj.mp (BitVec.eq_of_toNat_eq ?_)
  show (BitVec.ofInt 64 i).toNat = (UInt64.ofNat (i % 2 ^ 64).toNat).toNat
  rw [BitVec.toNat_ofInt, UInt64.toNat_ofNat']
  have := Int.emod_lt_of_pos i (b := 2 ^ 64) (by decide)
  have := Int.emod_nonneg i (b := 2 ^ 64) (by decide)
  exact (Nat.mod_eq_of_lt (by omega)).symm

theorem ofInt_natCast (n : Nat) : UInt64.ofInt n = UInt64.ofNat n := by
  show UInt64.ofNat ((n : Int) % 2 ^ 64).toNat = UInt64.ofNat n
  refine UInt64.toNat_inj.mp ?_
  rw [UInt64.toNat_ofNat', UInt64.toNat_ofNat']
  omega

/-! ## What an access depends on and what it changes -/

/-- The memories have one size and the same bytes, but for those that may differ. -/
def SameBytes {σ τ : Type} (differ : Nat → Prop) (w : World σ) (u : World τ) : Prop :=
  w.memory.size = u.memory.size ∧ ∀ a, ¬differ a → w.memory.byte? a = u.memory.byte? a

/-- The environment leaves memory alone. -/
def Environment.KeepsMemory {σ : Type} (env : Environment σ) : Prop :=
  ∀ callee args w x w', env callee args w = .ok x w' → w'.memory = w.memory

namespace Machine

variable {differ : Nat → Prop} {mask : Option Val} {address : Nat → UInt64} {lane size align : Nat} {ty : Ty} {x : Val}
  {w' : World σ}

theorem storeLane_eq_ok (h : storeLane mask address x lane w = .ok () w') :
    (active mask lane = false ∧ w' = w) ∨
      ∃ s, active mask lane = true ∧ x = .scalar s ∧
        w' = { w with memory := w.memory.put (address lane).toNat s } := by
  rw [storeLane] at h
  split at h
  next hactive =>
    obtain ⟨s, rfl, _, rfl⟩ := write_eq_ok.mp h
    exact .inr ⟨s, hactive, rfl, rfl⟩
  next hactive =>
    obtain ⟨_, rfl⟩ := pure_eq_ok.mp h
    exact .inl ⟨by simpa using hactive, rfl⟩

theorem store_eq_forM (mask : Option Val) (address : Nat → UInt64) (x : Val) :
    (store mask address x : Exec σ Unit) = x.elements.forM fun (y, lane) => storeLane mask address y lane := by
  cases x with
  | vector lanes => rfl
  | scalar s =>
    show storeLane mask address (.scalar s) 0 = (do storeLane mask address (.scalar s) 0; pure ())
    rw [bind_pure_unit]

/-- A store changes the bytes it touches and no others. -/
theorem store_unchanged (h : store mask address x w = .ok () w') :
    w'.memory.size = w.memory.size ∧
      ∀ a, ¬(Access.store mask address x).Touches m ty a → w'.memory.byte? a = w.memory.byte? a := by
  rw [store_eq_forM] at h
  refine forM_invariant (P := fun v => v.memory.size = w.memory.size ∧
    ∀ a, ¬(Access.store mask address x).Touches m ty a → v.memory.byte? a = w.memory.byte? a) ?_
    ⟨rfl, fun _ _ => rfl⟩ h
  rintro ⟨y, lane⟩ hmem v v' ⟨hsize, hbytes⟩ hv
  rcases storeLane_eq_ok hv with ⟨_, rfl⟩ | ⟨s, hon, rfl, rfl⟩
  · exact ⟨hsize, hbytes⟩
  · refine ⟨(Memory.size_put ..).trans hsize, fun a ha => ?_⟩
    rw [← hbytes a ha]
    exact Memory.byte?_put_of_not_covered fun hcovered => ha ⟨.scalar s, lane, hmem, hon, hcovered⟩

theorem load_keeps {γ : Type} (part : World σ → γ) (m : Machine) (ty : Ty) (mask : Option Val) (address : Nat → UInt64) :
    Keeps part (m.load ty mask address) := by
  have hlane : ∀ elem lane, Keeps part (loadLane elem mask address lane) := by
    intro elem lane w x w' h
    rw [loadLane] at h
    split at h
    · obtain ⟨_, _, _, rfl⟩ := read_eq_ok.mp h
      rfl
    · rw [(pure_eq_ok.mp h).2]
  rw [load]
  split
  · exact .bind (.liftChecked _) fun lanes => .bind (.inTurn (hlane _) lanes) fun _ => .pure _
  · exact hlane _ 0

/-- A load of a vector reads lane after lane. -/
theorem load_vector {shape : VectorTy} {lanes : Nat} (hlanes : m.lanesOf (.vector shape) = .ok lanes) :
    (m.load (.vector shape) mask address : Exec σ Val) = Val.vector <$> inTurn lanes (loadLane shape.elem mask address) := by
  rw [load, hlanes]
  rfl

/-- A store of a vector writes lane after lane. -/
theorem store_vector (mask : Option Val) (address : Nat → UInt64) (lanes : Nat) (s : Nat → Scalar) :
    (store mask address (.vector ((range lanes).map fun n => .scalar (s n))) : Exec σ Unit) =
      (range lanes).forM fun n => storeLane mask address (.scalar (s n)) n := by
  have hzip : ((range lanes).map fun n => Val.scalar (s n)).zipIdx =
      (range lanes).map fun n => (.scalar (s n), n) :=
    ext_getElem (by simp) fun n _ _ => by simp
  rw [store, hzip, forM_eq_forM, forM_map]
  rfl

/-! ## Allocating and calling -/

theorem alloc_eq_ok {p : Nat} (h : alloc size align w = .ok p w') :
    ∃ m', w.memory.alloc size align = .ok (m', p) ∧ w' = { w with memory := m' } := by
  obtain ⟨v, u, hget, h⟩ := bind_eq_ok.mp h
  cases hget
  obtain ⟨⟨m', q⟩, u, hlift, h⟩ := bind_eq_ok.mp h
  obtain ⟨halloc, rfl⟩ := liftChecked_eq_ok.mp hlift
  obtain ⟨_, u, hmodify, h⟩ := bind_eq_ok.mp h
  obtain ⟨_, rfl⟩ := EStateM.Result.ok.inj hmodify
  obtain ⟨rfl, rfl⟩ := pure_eq_ok.mp h
  exact ⟨m', halloc, rfl⟩

/-- A call leaves alone what the answers to it leave alone. -/
theorem call_keeps {γ : Type} {part : World σ → γ} {env : Environment σ} {callee : String}
    (h : ∀ xs, Keeps part (env callee xs)) (args : List Val) (mask : Option Val) (ty : Ty) :
    Keeps part (m.call env callee args mask ty) := by
  rw [call]
  split
  · split
    · exact h args
    · split
      · exact .pure _
      · exact .bind (.liftChecked _) fun _ => .pure _
  · refine .bind (.inTurn (fun lane => ?_) _) fun _ => .pure _
    split
    · exact .bind (h _) fun _ => .pure _
    · exact .pure _

end Machine

end Spmd
