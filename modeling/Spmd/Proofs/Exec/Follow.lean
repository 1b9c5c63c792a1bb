import Spmd.Proofs.Exec.Access

/-!
# Acting in a world that differs

Two worlds are the same but for some bytes (`SameBut`). What touches none of these bytes does the same in both, and
succeeds in the one if it does in the other (`Exec.Follows`); for one instruction this is **`Machine.eval_follows`**. Calls
are followed if they have nothing to do with memory (`Exec.Detached`).

An instruction that does not write to some bytes leaves them as they were (**`Machine.eval_keeps`**).
-/

namespace Spmd

open Success Exec

variable {callee : String} {align : Nat} {mask : Option Val} {address : Nat → UInt64} {keep : Nat → Prop}
  {instr : Instr} {i : InstId}

variable {σ τ α β : Type} {differ : Nat → Prop} {m : Machine} {env : Environment σ}

/-- The worlds are the same but for bytes that may differ. -/
def SameBut (differ : Nat → Prop) (w u : World σ) : Prop := SameBytes differ w u ∧ u.env = w.env

/-- The same for worlds whose environments are related. -/
def Alongside {σ τ : Type} (differ : Nat → Prop) (E : σ → τ → Prop) (w : World σ) (u : World τ) : Prop :=
  SameBytes differ w u ∧ E w.env u.env

namespace Exec

/-- What succeeds in a world succeeds with the same answer in every related one. -/
def Follows (R : World σ → World τ → Prop) (x : Exec σ α) (y : Exec τ α) : Prop :=
  ∀ w u, R w u → ∀ a w', x w = .ok a w' → ∃ u', y u = .ok a u' ∧ R w' u'

/-- From this world on, the action neither reads nor writes memory. -/
def Detached (x : Exec σ α) (w : World σ) : Prop :=
  ∀ a w', x w = .ok a w' → w'.memory = w.memory ∧ ∀ memory, x ⟨memory, w.env⟩ = .ok a ⟨memory, w'.env⟩

theorem Detached.follows {x : Exec σ α} {w u : World σ} (hx : Detached x w) (h : SameBut differ w u) {a : α} {w' : World σ}
    (hw : x w = .ok a w') : ∃ u', x u = .ok a u' ∧ SameBut differ w' u' := by
  obtain ⟨hmemory, hany⟩ := hx a w' hw
  have hu := hany u.memory
  rw [← h.2] at hu
  refine ⟨_, hu, ?_, rfl⟩
  unfold SameBytes
  rw [hmemory]
  exact h.1

/-- What neither reads nor writes memory keeps it, and follows itself in every world with the same environment. -/
theorem detached_iff {x : Exec σ α} :
    (∀ w, Detached x w) ↔ Keeps World.memory x ∧ Follows (fun w u => u.env = w.env) x x := by
  constructor
  · refine fun h => ⟨fun w a w' hx => (h w a w' hx).1, fun w u hR a w' hx => ?_⟩
    have hu := (h w a w' hx).2 u.memory
    rw [← hR] at hu
    exact ⟨_, hu, rfl⟩
  · rintro ⟨hkeeps, hfollows⟩ w a w' hx
    refine ⟨hkeeps w a w' hx, fun memory => ?_⟩
    obtain ⟨u', hu, henv⟩ := hfollows w ⟨memory, w.env⟩ rfl a w' hx
    have hmemory := hkeeps _ a u' hu
    obtain ⟨_, _⟩ := u'
    cases hmemory
    cases henv
    exact hu

namespace Follows

variable {R : World σ → World τ → Prop} {x : Exec σ α} {y : Exec τ α}

theorem eq_ok {w w' : World σ} {u u' : World τ} {a b : α} (h : Follows R x y) (hR : R w u) (hx : x w = .ok a w')
    (hy : y u = .ok b u') : a = b ∧ R w' u' := by
  obtain ⟨v, hv, hR'⟩ := h w u hR a w' hx
  obtain ⟨rfl, rfl⟩ := EStateM.Result.ok.inj (hv.symm.trans hy)
  exact ⟨rfl, hR'⟩

theorem pure (a : α) : Follows R (Pure.pure a : Exec σ α) (Pure.pure a : Exec τ α) := by
  intro w u hR b w' h
  obtain ⟨rfl, rfl⟩ := pure_eq_ok.mp h
  exact ⟨u, rfl, hR⟩

theorem bind {f : α → Exec σ β} {g : α → Exec τ β} (hx : Follows R x y) (hf : ∀ a, Follows R (f a) (g a)) :
    Follows R (x >>= f) (y >>= g) := by
  intro w u hR b w' h
  obtain ⟨a, w1, ha, hb⟩ := bind_eq_ok.mp h
  obtain ⟨u1, ha', hR1⟩ := hx w u hR a w1 ha
  obtain ⟨u', hb', hR'⟩ := hf a w1 u1 hR1 b w' hb
  exact ⟨u', bind_eq_ok.mpr ⟨a, u1, ha', hb'⟩, hR'⟩

theorem map (f : α → β) (hx : Follows R x y) : Follows R (f <$> x) (f <$> y) := by
  rw [← bind_pure_comp, ← bind_pure_comp]
  exact hx.bind fun a => pure (f a)

theorem mapM {f : α → Exec σ β} {g : α → Exec τ β} {xs : List α} (h : ∀ x ∈ xs, Follows R (f x) (g x)) :
    Follows R (xs.mapM f) (xs.mapM g) := by
  induction xs with
  | nil => exact pure _
  | cons x xs ih =>
    rw [List.mapM_cons, List.mapM_cons]
    refine (h x (.head _)).bind fun y => ?_
    exact (ih fun z hz => h z (.tail _ hz)).bind fun ys => pure _

theorem forM {f : α → Exec σ Unit} {g : α → Exec τ Unit} {xs : List α} (h : ∀ x ∈ xs, Follows R (f x) (g x)) :
    Follows R (xs.forM f) (xs.forM g) := by
  rw [forM_eq_mapM, forM_eq_mapM]
  exact map _ (mapM h)

theorem of_computes (hx : Computes x y) : Follows R x y := by
  intro w u hR a w' h
  obtain ⟨e, rfl, rfl⟩ := hx
  obtain ⟨he, rfl⟩ := liftExcept_eq_ok.mp h
  exact ⟨u, liftExcept_eq_ok.mpr ⟨he, rfl⟩, hR⟩

end Follows

end Exec

open Exec

/-- Memories of one size have room for the same. -/
theorem Memory.alloc_of_size {m n m' : Memory} {size p : Nat} (hsize : m.size = n.size)
    (h : m.alloc size align = .ok (m', p)) : ∃ n', n.alloc size align = .ok (n', p) := by
  unfold alloc at h ⊢
  rw [hsize] at h
  obtain ⟨address, haddress, h⟩ := bind_eq_ok.mp h
  obtain ⟨top, htop, h⟩ := bind_eq_ok.mp h
  refine ⟨⟨n.bytes ++ Array.replicate (top - n.size) 0⟩, bind_eq_ok.mpr ⟨address, haddress, ?_⟩⟩
  refine bind_eq_ok.mpr ⟨top, htop, ?_⟩
  split at h
  · exact absurd h (by simp [bind, Except.bind, throw, throwThe, MonadExceptOf.throw])
  next hlt =>
    rw [if_neg hlt]
    obtain ⟨_, rfl⟩ := Prod.mk.inj (pure_eq_ok.mp h)
    rfl

namespace Machine

variable {m : Machine} {E : σ → τ → Prop}

theorem loadLane_follows {elem : ScalarTy} {lane : Nat}
    (h : active mask lane = true → ∀ a, (address lane).toNat ≤ a → a < (address lane).toNat + elem.size → ¬differ a) :
    Follows (Alongside differ E) (loadLane elem mask address lane) (loadLane elem mask address lane) := by
  unfold loadLane
  split
  next hactive =>
    intro w u hR x w' hx
    obtain ⟨s, hs, rfl, rfl⟩ := read_eq_ok.mp hx
    refine ⟨u, read_eq_ok.mpr ⟨s, ?_, rfl, rfl⟩, hR⟩
    rw [← hs]
    exact (Memory.read_congr hR.1.1 fun a hge hlt => hR.1.2 a (h hactive a hge hlt)).symm
  · exact .pure _

theorem load_follows {ty : Ty} (h : ∀ a, (Access.load mask address).Touches m ty a → ¬differ a) :
    Follows (Alongside differ E) (m.load ty mask address) (m.load ty mask address) := by
  have hlane : ∀ lanes lane, m.lanesOf ty = .ok lanes → lane < lanes → Follows (Alongside differ E)
      (loadLane (ty.element?.getD .bool) mask address lane) (loadLane (ty.element?.getD .bool) mask address lane) :=
    fun lanes lane hlanes hlt => loadLane_follows fun hactive a hge hlt' => h a ⟨lanes, lane, hlanes, hlt, hactive, hge, hlt'⟩
  unfold load
  split
  · intro w u hR x w' hx
    obtain ⟨lanes, hlanes, hx⟩ := bind_liftChecked_eq_ok.mp hx
    rw [inTurn_eq_mapM] at hx
    obtain ⟨u', hu, hR'⟩ := (Follows.mapM fun lane hlane' => hlane lanes lane hlanes (List.mem_range.mp hlane')).bind
      (fun xs => Follows.pure (Val.vector xs)) w u hR x w' hx
    refine ⟨u', bind_liftChecked_eq_ok.mpr ⟨lanes, hlanes, ?_⟩, hR'⟩
    rw [inTurn_eq_mapM]
    exact hu
  next hscalar =>
    refine hlane 1 0 ?_ Nat.one_pos
    cases ty with
    | vector shape => exact absurd rfl hscalar
    | scalar _ | void => rfl

theorem store_follows {x : Val} : Follows (Alongside differ E) (store mask address x) (store mask address x) := by
  rw [store_eq_forM, store_eq_forM]
  refine Follows.forM ?_
  rintro ⟨y, lane⟩ _
  dsimp only
  unfold storeLane
  split
  · intro w u hR _ w' hw
    obtain ⟨s, rfl, hcovers, rfl⟩ := write_eq_ok.mp hw
    refine ⟨_, write_eq_ok.mpr ⟨s, rfl, ?_, rfl⟩, ⟨?_, fun a ha => Memory.byte?_put_congr hR.1.1 (hR.1.2 a ha)⟩, hR.2⟩
    · unfold Memory.covers at hcovers ⊢
      rwa [← hR.1.1]
    · rw [Memory.size_put, Memory.size_put]
      exact hR.1.1
  · exact .pure _

theorem perform_follows {access : Access} {ty : Ty}
    (h : (∃ mask address, access = .load mask address) → ∀ a, access.Touches m ty a → ¬differ a) :
    Follows (Alongside differ E) (access.perform m ty) (access.perform m ty) := by
  cases access with
  | load mask address => exact (load_follows (h ⟨mask, address, rfl⟩)).map some
  | store mask address y => exact store_follows.bind fun _ => .pure none

theorem alloc_follows {size : Nat} : Follows (Alongside differ E) (alloc size align) (alloc size align) := by
  intro w u hR p w' hp
  obtain ⟨m', hm, rfl⟩ := alloc_eq_ok hp
  obtain ⟨n', hn⟩ := Memory.alloc_of_size hR.1.1 hm
  obtain ⟨_, hsize, hbytes⟩ := Memory.alloc_congr hR.1.1 hm hn
  refine ⟨{ u with memory := n' }, ?_, ⟨hsize, fun a ha => hbytes a (hR.1.2 a ha)⟩, hR.2⟩
  refine bind_eq_ok.mpr ⟨u, u, rfl, bind_liftChecked_eq_ok.mpr ⟨(n', p), hn, ?_⟩⟩
  exact bind_eq_ok.mpr ⟨(), { u with memory := n' }, rfl, rfl⟩

/-- **An instruction that touches no byte that differs does the same.** -/
theorem eval_follows {env : Environment σ} {f : Frame} {w u w' : World σ} {x : Option Val} (hR : SameBut differ w u)
    (haccess : ∀ access, m.access? f i instr = .ok (some access) → ∀ a, access.Touches m (m.kernel.resultTy i) a → ¬differ a)
    (hcall : ∀ callee args mask, instr = .call callee args mask → Detached (m.eval env f i instr) w)
    (h : m.eval env f i instr w = .ok x w') : ∃ u', m.eval env f i instr u = .ok x u' ∧ SameBut differ w' u' := by
  change Alongside differ (fun a b => b = a) w u at hR
  by_cases hcomputes : instr.onlyComputes = true
  · exact Follows.of_computes (eval_computes m env env f i hcomputes) w u hR x w' h
  by_cases hmemory : instr.isAccess = true
  · rw [eval_access m env f i hmemory] at h ⊢
    obtain ⟨o, ho', h⟩ := bind_liftChecked_eq_ok.mp h
    cases o with
    | none =>
      obtain ⟨u', hu, hR'⟩ := Follows.pure none w u hR x w' h
      exact ⟨u', bind_liftChecked_eq_ok.mpr ⟨none, ho', hu⟩, hR'⟩
    | some access =>
      obtain ⟨u', hu, hR'⟩ := perform_follows (fun _ => haccess _ ho') w u hR x w' h
      exact ⟨u', bind_liftChecked_eq_ok.mpr ⟨some access, ho', hu⟩, hR'⟩
  cases instr with
  | call callee args mask => exact (hcall callee args mask rfl).follows hR h
  | alloca elem count => exact (alloc_follows.bind fun _ => .pure _) w u hR x w' h
  | load | strideLoad | gather | store | strideStore | scatter => exact absurd rfl hmemory
  | _ => exact absurd rfl hcomputes

end Machine

/-! ## Calls -/

/-- The environment answers calls of this name without looking at memory. -/
def Environment.Ignores (env : Environment σ) (callee : String) : Prop := ∀ args w, Detached (env callee args) w

/-- The environment keeps a record of its calls. -/
def Environment.recorded (env : Environment σ) : Environment (σ × List (String × List Val)) := fun callee args w =>
  match env callee args ⟨w.memory, w.env.1⟩ with
  | .ok x w' => .ok x ⟨w'.memory, (w'.env, w.env.2 ++ [(callee, args)])⟩
  | .error e w' => .error e ⟨w'.memory, (w'.env, w.env.2 ++ [(callee, args)])⟩

theorem Environment.Ignores.recorded {env : Environment σ} (h : env.Ignores callee) : env.recorded.Ignores callee := by
  intro args w x w' hx
  unfold Environment.recorded at hx ⊢
  split at hx
  next y u hy =>
    obtain ⟨rfl, rfl⟩ := EStateM.Result.ok.inj hx
    obtain ⟨hmemory, hall⟩ := h args _ y u hy
    refine ⟨hmemory, fun memory => ?_⟩
    rw [show env callee args ⟨memory, w.env.1⟩ = .ok y ⟨memory, u.env⟩ from hall memory]
  · cases hx

/-- Calls are followed if the answers to them are. -/
theorem Machine.call_follows {R : World σ → World σ → Prop} (h : ∀ xs, Follows R (env callee xs) (env callee xs))
    (args : List Val) (mask : Option Val) (ty : Ty) :
    Follows R (m.call env callee args mask ty) (m.call env callee args mask ty) := by
  unfold call
  dsimp only
  split
  · split
    · exact h _
    · split
      · exact .pure _
      · exact .bind (.of_computes (.liftChecked _)) fun _ => .pure _
  · rw [inTurn_eq_mapM]
    refine .bind (.mapM fun lane _ => ?_) fun _ => .pure _
    split
    · exact .bind (h _) fun _ => .pure _
    · exact .pure _

theorem Machine.eval_call_detached (h : env.Ignores callee) (f : Frame) (i : InstId) (args : List ValueId)
    (mask : Option ValueId) (w : World σ) : Detached (m.eval env f i (.call callee args mask)) w := by
  have hcall := fun xs => detached_iff.mp (h xs)
  refine detached_iff.mpr ⟨?_, ?_⟩ w
  · exact .bind (.liftChecked _) fun _ => .bind (.liftChecked _) fun _ => call_keeps (fun xs => (hcall xs).1) _ _ _
  · exact .bind (.of_computes (.liftChecked _)) fun _ => .bind (.of_computes (.liftChecked _)) fun _ =>
      call_follows (fun xs => (hcall xs).2) _ _ _

/-! ## What is kept -/

/-- Memory has grown at most, and some of its bytes are as they were. -/
structure Memory.Kept (keep : Nat → Prop) (m m' : Memory) : Prop where
  size : m.size ≤ m'.size
  bytes : ∀ a, keep a → a < m.size → m'.byte? a = m.byte? a

namespace Memory.Kept

variable {m m' m'' : Memory}

theorem refl (keep : Nat → Prop) (m : Memory) : Kept keep m m := ⟨Nat.le_refl _, fun _ _ _ => rfl⟩

theorem of_eq (h : m' = m) : Kept keep m m' := h ▸ refl keep m

theorem trans (h : Kept keep m m') (h' : Kept keep m' m'') : Kept keep m m'' :=
  ⟨Nat.le_trans h.size h'.size, fun a ha hlt =>
    (h'.bytes a ha (Nat.lt_of_lt_of_le hlt h.size)).trans (h.bytes a ha hlt)⟩

end Memory.Kept

namespace Machine

variable {m : Machine} {f : Frame}

theorem mayWrite_of_store {x : Val} (h : m.access? f i instr = .ok (some (.store mask address x))) :
    instr.mayWrite = true := by
  cases instr with
  | store | strideStore | scatter => rfl
  | load ptr | strideLoad ptr | gather ptr =>
    obtain ⟨_, _, h⟩ := bind_eq_ok.mp h
    obtain ⟨_, _, h⟩ := bind_eq_ok.mp h
    cases pure_eq_ok.mp h
  | _ => cases pure_eq_ok.mp h

/-- **An instruction leaves alone what it does not write to.** -/
theorem eval_keeps {env : Environment σ} {w w' : World σ} {x : Option Val}
    (hwrite : instr.mayWrite = true → ∀ access, m.access? f i instr = .ok (some access) →
      ∀ a, access.Touches m (m.kernel.resultTy i) a → ¬keep a)
    (hcall : ∀ callee args mask, instr = .call callee args mask → Detached (m.eval env f i instr) w)
    (h : m.eval env f i instr w = .ok x w') :
    Memory.Kept keep w.memory w'.memory ∧
      ((∀ elem count, instr ≠ .alloca elem count) → w'.memory.size = w.memory.size) := by
  have hsame : w'.memory = w.memory → Memory.Kept keep w.memory w'.memory ∧
      ((∀ elem count, instr ≠ .alloca elem count) → w'.memory.size = w.memory.size) :=
    fun heq => ⟨.of_eq heq, fun _ => congrArg Memory.size heq⟩
  by_cases hcomputes : instr.onlyComputes = true
  · exact hsame (congrArg World.memory ((eval_computes m env env f i hcomputes).eq_ok h h).2.1)
  by_cases hmemory : instr.isAccess = true
  · rw [eval_access m env f i hmemory] at h
    obtain ⟨o, haccess, h⟩ := bind_liftChecked_eq_ok.mp h
    cases o with
    | none => exact hsame (congrArg World.memory (pure_eq_ok.mp h).2.symm)
    | some access =>
      cases access with
      | load mask address =>
        obtain ⟨y, hload, _⟩ := map_eq_ok.mp h
        exact hsame (load_keeps World.memory m _ _ _ w y w' hload)
      | store mask address y =>
        obtain ⟨_, hstore, _⟩ := bind_pure_eq_ok.mp h
        obtain ⟨hsize, hbytes⟩ := @store_unchanged σ m _ _ _ (m.kernel.resultTy i) _ _ hstore
        refine ⟨⟨Nat.le_of_eq hsize.symm, fun a ha _ => hbytes a fun htouch => ?_⟩, fun _ => hsize⟩
        exact hwrite (mayWrite_of_store haccess) _ haccess a htouch ha
  cases instr with
  | call callee args mask => exact hsame (hcall callee args mask rfl x w' h).1
  | alloca elem count =>
    obtain ⟨p, hp, _⟩ := bind_pure_eq_ok.mp h
    obtain ⟨m', hm, rfl⟩ := alloc_eq_ok hp
    obtain ⟨hsize, hbytes⟩ := Memory.alloc_keeps hm
    exact ⟨⟨hsize, fun a _ hlt => hbytes a hlt⟩, fun hno => absurd rfl (hno elem count)⟩
  | load | strideLoad | gather | store | strideStore | scatter => exact absurd rfl hmemory
  | _ => exact absurd rfl hcomputes

end Machine

end Spmd
