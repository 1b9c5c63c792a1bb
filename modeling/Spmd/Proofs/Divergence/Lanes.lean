import Mathlib.Data.List.TakeWhile
import Mathlib.Tactic.IntervalCases
import Spmd.Proofs.Divergence.Uniform
import Spmd.Proofs.Exec.Follow
import Spmd.Proofs.Exec.Step
import Spmd.Proofs.Kernel.Listing

/-!
# Uniform instructions do not depend on the lane

Two runs of a convergent kernel stand for two lanes: the environments answer alike but for calls that ask
for the lane. They go through the same places, and at every moment hold the same values for all uniform
instructions.

The runs are kept in step. Frames agree on the results of uniform instructions (`AgreeOn`), and memories
agree on every byte that no varying instruction writes in either run (`Stained`). A uniform load touches no
such byte, because its object is none that a varying store writes and different objects have different
bytes (`ObjectsApart`). One step keeps the two runs in step (`Lockstep.step`), so the whole runs stay in step
(`Lockstep.trails`).
-/

namespace Spmd

open Success List Kernel Machine Exec Instr
open Option (any_eq_true mem_unique some)

variable {i : InstId} {instr : Instr} {f f' : Frame} {dimension : Nat} {g : FlowGraph} {d : Divergence} {m : Machine}
  {s s' : RunState} {prev : Option BlockId} {b : BlockId} {x x' : Option Val}

variable {σ τ : Type}

/-! ## What is asked of a run -/

/-- Calls that do not ask for the lane are answered by the callee, the arguments and the type asked for. -/
def AnsweredBy (m : Machine) (env : Environment σ) (classify : Classifier) (dimension : Nat)
    (answer : String → List Val → Ty → Option Val) (moments : List (Moment σ)) : Prop :=
  ∀ c ∈ moments, ∀ i callee args mask kind values x w, c.inst? = some i →
    m.kernel.instr? i = some (.call callee args mask) → m.kernel.callKind? classify i = .ok (some kind) →
    kind.asksLane dimension = false → args.mapM (m.read c.state.frame) = .ok values →
    m.call env callee values none (m.kernel.resultTy i) c.world = .ok x w →
    x = answer callee values (m.kernel.resultTy i)

/-! ## Frames that agree -/

/-- The frames hold the same for all values that do not vary. -/
structure AgreeOn (k : Kernel) (d : Divergence) (f f' : Frame) : Prop where
  args : f.args = f'.args
  results : ∀ v def' i, k.value? v = some def' → def'.kind = .inst i → d.isVaryingInst i = false →
    f.results[v]? = f'.results[v]?

namespace AgreeOn

variable {k : Kernel} {classify : Classifier}

theorem read (h : AgreeOn m.kernel d f f') {v : ValueId} (hv : d.isVarying m.kernel v = .ok false) :
    m.read f v = m.read f' v := by
  obtain ⟨def', hdef, hv⟩ := bind_eq_ok.mp hv
  have hvalue := some?_eq_ok.mp hdef
  rw [read_eq f hvalue, read_eq f' hvalue]
  cases hkind : def'.kind with
  | param position => rw [h.args]
  | const c => rfl
  | undef => rfl
  | inst i =>
    rw [hkind] at hv
    rw [h.results v def' i hvalue hkind (Except.ok.inj hv)]

/-- Recording a result keeps frames in agreement if the results of a uniform instruction are the same. -/
theorem record (hk : k.Coherent) (h : AgreeOn k d f f') (hx : d.isVaryingInst i = false → x = x') :
    AgreeOn k d (f.record (k.result? i) x) (f'.record (k.result? i) x') := by
  cases hv : k.result? i with
  | none => exact h
  | some v =>
    have hnames : (k.value? v).map (·.kind) = some (.inst i) :=
      hk.defines i v hv
    refine ⟨by rw [Frame.args_record, Frame.args_record, h.args], fun u def' j hdef hkind huniform => ?_⟩
    by_cases huv : u = v
    · -- the result names its instruction, so it is the one recorded now
      subst huv
      rw [hdef, Option.map_some, hkind, some.injEq, ValueKind.inst.injEq] at hnames
      subst hnames
      rw [hx huniform]
      cases x' with
      | none => exact h.results u def' j hdef hkind huniform
      | some y => rw [Frame.getElem?_record_self, Frame.getElem?_record_self]
    · have hne : some v ≠ some u := fun heq => huv (some.inj heq).symm
      rw [Frame.getElem?_record hne, Frame.getElem?_record hne]
      exact h.results u def' j hdef hkind huniform

theorem definePhis (hk : m.kernel.Coherent) (phis : List InstId) {xs xs' : List Val}
    (hlen : xs.length = phis.length) (hlen' : xs'.length = phis.length)
    (hx : ∀ (n : Nat) i x x', phis[n]? = some i → xs[n]? = some x → xs'[n]? = some x' → d.isVaryingInst i = false → x = x')
    (h : AgreeOn m.kernel d f f') :
    AgreeOn m.kernel d (m.definePhis f (phis.zip xs)) (m.definePhis f' (phis.zip xs')) := by
  induction phis generalizing xs xs' f f' with
  | nil => exact h
  | cons i phis ih =>
    obtain ⟨x, xs, rfl⟩ := exists_cons_of_length_eq_add_one hlen
    obtain ⟨x', xs', rfl⟩ := exists_cons_of_length_eq_add_one hlen'
    refine ih (by simpa using hlen) (by simpa using hlen') (fun n => hx (n + 1)) (h.record hk fun huniform => ?_)
    exact congrArg some (hx 0 i x x' rfl rfl rfl huniform)

/-- Entering a reachable block by the same way keeps frames in agreement. -/
theorem enter (hK : LaneBlindKernel m.kernel classify dimension d) (hg : m.kernel.flowGraph = .ok g)
    (h : AgreeOn m.kernel d f f') (hb : b ∈ g.order) (hs : m.enter f b prev = .ok s) (hs' : m.enter f' b prev = .ok s') :
    AgreeOn m.kernel d s.frame s'.frame := by
  obtain ⟨xs, hxs, _, _, hframe, _⟩ := enter_eq_ok hs
  obtain ⟨xs', hxs', _, _, hframe', _⟩ := enter_eq_ok hs'
  rw [hframe, hframe']
  rw [mapM_eq_ok] at hxs hxs'
  refine h.definePhis hK.coherent _ hxs.length_eq.symm hxs'.length_eq.symm ?_
  intro n i x x' hi hx hx' huniform
  have hvalue : ∀ {f : Frame} {xs : List Val} {x : Val},
      Forall₂ (fun i x => m.phiValue f prev i = .ok x) (m.kernel.leadingPhis b) xs → xs[n]? = some x →
      m.phiValue f prev i = .ok x := by
    intro f xs x hall hx
    have hlt := (List.getElem?_eq_some_iff.mp hi).1
    have hlt' := (List.getElem?_eq_some_iff.mp hx).1
    have := hall.get hlt hlt'
    rw [getElem?_eq_getElem hlt] at hi
    rw [getElem?_eq_getElem hlt'] at hx
    rwa [get_eq_getElem, get_eq_getElem, some.inj hi, some.inj hx] at this
  have hmem : i ∈ m.kernel.instsOf b :=
    (takeWhile_sublist m.kernel.isPhi).subset (mem_of_getElem? hi)
  -- a phi that does not vary has inputs that do not vary
  have hsame : m.phiValue f prev i = m.phiValue f' prev i := by
    obtain ⟨incoming, hinstr⟩ := exists_of_isPhi (mem_takeWhile_imp (mem_of_getElem? hi))
    have hoperands := hK.operands_uniform hg hb hmem hinstr huniform
    rw [phiValue_eq f prev hinstr, phiValue_eq f' prev hinstr]
    cases hfind : incoming.find? fun x => some x.1 == prev with
    | none => rfl
    | some input => exact h.read (hoperands input.2 (mem_map_of_mem (mem_of_find?_eq_some hfind)))
  exact Except.ok.inj ((hvalue hxs hx).symm.trans (hsame.trans (hvalue hxs' hx')))

end AgreeOn

/-! ## One instruction in both runs -/

section

variable {classify : Classifier} {moments : List (Moment σ)} {c : Moment σ} {env : Environment σ} {w : World σ}

/-- A varying instruction of one of the runs writes the byte. -/
def Stained (m : Machine) (d : Divergence) (moments : List (Moment σ)) (a : Nat) : Prop :=
  ∃ c ∈ moments, c.Touches m a ∧ ∃ i instr, c.inst? = some i ∧ m.kernel.instr? i = some instr ∧
    instr.isAccess = true ∧ instr.mayWrite = true ∧ d.isVaryingInst i = true

/-- A uniform load touches no byte that a varying instruction of its run writes. -/
theorem not_stained (hK : ConvergentKernel m.kernel classify dimension d) (hg : m.kernel.flowGraph = .ok g)
    (htrack : ∀ c ∈ moments, OnTrack m g c.state) (hapart : ObjectsApart m moments) (hc : c ∈ moments)
    (hi : c.inst? = some i) (hinstr : m.kernel.instr? i = some instr)
    (hload : (DivergenceProblem.loaded? instr).isSome = true) (huniform : d.isVaryingInst i = false) {a : Nat}
    (ha : c.Touches m a) : ¬Stained m d moments a := by
  rintro ⟨c', hc', ha', j, store, hj, hstore, haccess, hwrites, hvaries⟩
  obtain ⟨ptr?, hptr⟩ := isSome_iff_exists.mp hload
  have hmem : i ∈ m.kernel.instsOf c.state.block := (htrack c hc).todo i (mem_of_head? hi)
  have hmem' : j ∈ m.kernel.instsOf c'.state.block := (htrack c' hc').todo j (mem_of_head? hj)
  obtain ⟨r, r', hr, hr', halias⟩ := hK.apart hg (htrack c hc).block hmem hinstr hptr huniform
    (htrack c' hc').block hmem' hstore hwrites
    (fun callee args mask heq => by subst heq; exact absurd haccess (by simp [isAccess])) hvaries
  exact hapart c' hc' c hc j i r r' hj hi hr hr' halias a ⟨ha', ha⟩

/-- A memory instruction makes an access: a store if it may write, and a load if not. -/
theorem access?_kind (haccess : instr.isAccess = true) {access? : Option Access} (h : m.access? f i instr = .ok access?) :
    (instr.mayWrite = true ∧ ∃ mask address x, access? = some (.store mask address x)) ∨
      ((DivergenceProblem.loaded? instr).isSome = true ∧ ∃ mask address, access? = some (.load mask address)) := by
  cases instr with
  | load ptr mask _ | strideLoad ptr _ mask | gather ptr mask =>
    obtain ⟨_, _, h⟩ := bind_eq_ok.mp h
    obtain ⟨mask', _, h⟩ := bind_eq_ok.mp h
    exact .inr ⟨rfl, mask', _, (pure_eq_ok.mp h).symm⟩
  | store ptr value mask _ | strideStore ptr value _ mask =>
    obtain ⟨_, _, h⟩ := bind_eq_ok.mp h
    obtain ⟨x, _, h⟩ := bind_eq_ok.mp h
    obtain ⟨mask', _, h⟩ := bind_eq_ok.mp h
    obtain ⟨_, _, h⟩ := bind_eq_ok.mp h
    exact .inl ⟨rfl, mask', _, x, (pure_eq_ok.mp h).symm⟩
  | scatter ptr value mask =>
    obtain ⟨_, _, h⟩ := bind_eq_ok.mp h
    obtain ⟨x, _, h⟩ := bind_eq_ok.mp h
    obtain ⟨mask', _, h⟩ := bind_eq_ok.mp h
    exact .inl ⟨rfl, mask', _, x, (pure_eq_ok.mp h).symm⟩
  | _ => exact absurd haccess (by simp [isAccess])

/-- What a memory instruction that succeeds did. -/
theorem eval_eq_ok_of_isAccess {w' : World σ} (haccess : instr.isAccess = true) (h : m.eval env f i instr w = .ok x w') :
    ∃ access, m.access? f i instr = .ok (some access) ∧ access.perform m (m.kernel.resultTy i) w = .ok x w' := by
  rw [eval_access m env f i haccess] at h
  obtain ⟨access?, hok, h⟩ := bind_liftChecked_eq_ok.mp h
  rcases access?_kind haccess hok with ⟨_, _, _, _, rfl⟩ | ⟨_, _, _, rfl⟩
  · exact ⟨_, hok, h⟩
  · exact ⟨_, hok, h⟩

/-- A varying access changes stained bytes only. -/
theorem varying_access_unchanged (hc : c ∈ moments) (hi : c.inst? = some i) (hinstr : m.kernel.instr? i = some instr)
    (haccess : instr.isAccess = true) (hvaries : d.isVaryingInst i = true)
    (h : m.eval env c.state.frame i instr c.world = .ok x w) :
    w.memory.size = c.world.memory.size ∧
      ∀ a, ¬Stained m d moments a → w.memory.byte? a = c.world.memory.byte? a := by
  obtain ⟨access, hok, h⟩ := eval_eq_ok_of_isAccess haccess h
  rcases access?_kind haccess hok with ⟨hwrites, mask, address, y, heq⟩ | ⟨_, mask, address, heq⟩
  · cases heq
    obtain ⟨_, hstore, _⟩ := bind_pure_eq_ok.mp h
    obtain ⟨hsize, hbytes⟩ := store_unchanged hstore
    refine ⟨hsize, fun a ha => hbytes a fun htouches => ha ?_⟩
    exact ⟨c, hc, ⟨i, instr, _, hi, hinstr, hok, htouches⟩, i, instr, hi, hinstr, haccess, hwrites, hvaries⟩
  · cases heq
    obtain ⟨y, hload, _⟩ := map_eq_ok.mp h
    rw [load_keeps World.memory m _ _ _ _ _ _ hload]
    exact ⟨rfl, fun _ _ => rfl⟩

/-- What is asked of two runs that stand for two lanes. -/
structure TwoLanes (m : Machine) (classify : Classifier) (dimension : Nat) (d : Divergence) (g : FlowGraph)
    (env : Environment σ) (env' : Environment τ) (moments : List (Moment σ)) (moments' : List (Moment τ)) : Prop where
  kernel : LaneBlindKernel m.kernel classify dimension d
  graph : m.kernel.flowGraph = .ok g
  track : ∀ c ∈ moments, OnTrack m g c.state
  track' : ∀ c ∈ moments', OnTrack m g c.state
  keeps : Environment.KeepsMemory env
  keeps' : Environment.KeepsMemory env'
  apart : ObjectsApart m moments
  apart' : ObjectsApart m moments'
  answers : ∃ answer, AnsweredBy m env classify dimension answer moments ∧
    AnsweredBy m env' classify dimension answer moments'

namespace TwoLanes

variable {env : Environment σ} {env' : Environment τ} {moments : List (Moment σ)} {moments' : List (Moment τ)}
  {c : Moment σ} {c' : Moment τ} {w : World σ} {w' : World τ} {u : World σ} {u' : World τ}

/-- The worlds agree on all bytes that no varying instruction writes. -/
def Alike (m : Machine) (d : Divergence) (moments : List (Moment σ)) (moments' : List (Moment τ)) :
    World σ → World τ → Prop :=
  SameBytes fun a => Stained m d moments a ∨ Stained m d moments' a

/-- Steps that leave the unstained bytes of their own run alone keep worlds alike. -/
theorem alike_of_unchanged (h : Alike m d moments moments' u u')
    (hw : w.memory.size = u.memory.size ∧ ∀ a, ¬Stained m d moments a → w.memory.byte? a = u.memory.byte? a)
    (hw' : w'.memory.size = u'.memory.size ∧ ∀ a, ¬Stained m d moments' a → w'.memory.byte? a = u'.memory.byte? a) :
    Alike m d moments moments' w w' := by
  refine ⟨hw.1.trans (h.1.trans hw'.1.symm), fun a ha => ?_⟩
  rw [not_or] at ha
  rw [hw.2 a ha.1, hw'.2 a ha.2]
  exact h.2 a (not_or.mpr ha)

theorem alike_of_same_memory (h : Alike m d moments moments' u u') (hw : w.memory = u.memory)
    (hw' : w'.memory = u'.memory) : Alike m d moments moments' w w' :=
  alike_of_unchanged h ⟨by rw [hw], fun _ _ => by rw [hw]⟩ ⟨by rw [hw'], fun _ _ => by rw [hw']⟩

section

variable (R : TwoLanes m classify dimension d g env env' moments moments') (hc : c ∈ moments) (hc' : c' ∈ moments')
  (hi : c.inst? = some i) (hi' : c'.inst? = some i) (hinstr : m.kernel.instr? i = some instr)
  (hf : AgreeOn m.kernel d c.state.frame c'.state.frame) (hw : Alike m d moments moments' c.world c'.world)
  (h : m.eval env c.state.frame i instr c.world = .ok x w)
  (h' : m.eval env' c'.state.frame i instr c'.world = .ok x' w')

include R hc hi hinstr hf

theorem reads_agree (huniform : d.isVaryingInst i = false) :
    ∀ v ∈ instr.operands, m.read c.state.frame v = m.read c'.state.frame v := fun v hv =>
  hf.read (R.kernel.operands_uniform R.graph (R.track c hc).block
    ((R.track c hc).todo i (mem_of_head? hi)) hinstr huniform v hv)

include hc' hi' hw h h'

theorem eval_access_alike (haccess : instr.isAccess = true) :
    Alike m d moments moments' w w' ∧ (d.isVaryingInst i = false → x = x') := by
  cases huniform : d.isVaryingInst i with
  | true =>
    refine ⟨alike_of_unchanged hw ?_ ?_, fun hfalse => by cases hfalse⟩
    · exact varying_access_unchanged hc hi hinstr haccess huniform h
    · exact varying_access_unchanged hc' hi' hinstr haccess huniform h'
  | false =>
    -- both runs make the same access
    obtain ⟨access, hok, hperform⟩ := eval_eq_ok_of_isAccess haccess h
    obtain ⟨access', hok', hperform'⟩ := eval_eq_ok_of_isAccess haccess h'
    have hsame := access?_rename (ρ := id) i (reads_agree R hc hi hinstr hf huniform) rfl fun _ _ => rfl
    rw [mapOperands_id (f := id) fun _ _ => rfl] at hsame
    cases ok_unique hok (hsame.trans hok')
    have hclean : (∃ mask address, access = .load mask address) → ∀ a, access.Touches m (m.kernel.resultTy i) a →
        ¬(Stained m d moments a ∨ Stained m d moments' a) := by
      rintro ⟨mask, address, rfl⟩ a ha
      rcases access?_kind haccess hok with ⟨_, _, _, _, heq⟩ | ⟨hload, _⟩
      · cases heq
      rw [not_or]
      exact ⟨not_stained R.kernel.toConvergentKernel R.graph R.track R.apart hc hi hinstr hload huniform
          ⟨i, instr, _, hi, hinstr, hok, ha⟩,
        not_stained R.kernel.toConvergentKernel R.graph R.track' R.apart' hc' hi' hinstr hload huniform
          ⟨i, instr, _, hi', hinstr, hok', ha⟩⟩
    obtain ⟨rfl, hw, _⟩ := (perform_follows (E := fun _ _ => True) hclean).eq_ok ⟨hw, trivial⟩ hperform hperform'
    exact ⟨hw, fun _ => rfl⟩

theorem eval_call_alike {callee : String} {args : List ValueId} {mask : Option ValueId}
    (hcall : instr = .call callee args mask) :
    Alike m d moments moments' w w' ∧ (d.isVaryingInst i = false → x = x') := by
  subst hcall
  have hblock := (R.track c hc).block
  have hmem := (R.track c hc).todo i (mem_of_head? hi)
  obtain ⟨rfl, _⟩ := R.kernel.calls i (R.kernel.mem_instsInOrder R.graph hblock hmem) callee args mask hinstr
  obtain ⟨values, hvalues, hrest⟩ := bind_liftChecked_eq_ok.mp h
  obtain ⟨values', hvalues', hrest'⟩ := bind_liftChecked_eq_ok.mp h'
  have hcall : m.call env callee values none (m.kernel.resultTy i) c.world = .ok x w := hrest
  have hcall' : m.call env' callee values' none (m.kernel.resultTy i) c'.world = .ok x' w' := hrest'
  refine ⟨alike_of_same_memory hw (call_keeps (R.keeps callee) _ _ _ _ _ _ hcall)
    (call_keeps (R.keeps' callee) _ _ _ _ _ _ hcall'), fun huniform => ?_⟩
  have hsame : args.mapM (m.read c.state.frame) = args.mapM (m.read c'.state.frame) :=
    mapM_congr fun v hv =>
      reads_agree R hc hi hinstr hf huniform v (mem_append_left _ hv)
  obtain rfl := ok_unique hvalues (hsame.trans hvalues')
  obtain ⟨_, kind, hkind, hasks⟩ := R.kernel.call_uniform R.graph hblock hmem hinstr huniform
  obtain ⟨answer, hanswer, hanswer'⟩ := R.answers
  rw [hanswer c hc i callee args none kind values x w hi hinstr hkind hasks hvalues hcall,
    hanswer' c' hc' i callee args none kind values x' w' hi' hinstr hkind hasks hvalues' hcall']

/-- **One instruction in both runs** keeps the worlds alike, and gives the same if it is uniform. -/
theorem eval_alike : Alike m d moments moments' w w' ∧ (d.isVaryingInst i = false → x = x') := by
  by_cases haccess : instr.isAccess = true
  · exact eval_access_alike R hc hc' hi hi' hinstr hf hw h h' haccess
  by_cases hcomputes : instr.onlyComputes = true
  · have hsame := (m.eval_computes env env c.state.frame i hcomputes).eq_ok h h
    have hsame' := (m.eval_computes env' env' c'.state.frame i hcomputes).eq_ok h' h'
    refine ⟨alike_of_same_memory hw (by rw [hsame.2.1]) (by rw [hsame'.2.1]), fun huniform => ?_⟩
    rw [eval_congr env i rfl (reads_agree R hc hi hinstr hf huniform) rfl fun _ _ => rfl] at h
    exact ((m.eval_computes env env' c'.state.frame i hcomputes).eq_ok h h').1
  cases instr with
  | alloca elem count =>
    obtain ⟨p, u, hp, hpure⟩ := bind_eq_ok.mp h
    obtain ⟨q, u', hq, hpure'⟩ := bind_eq_ok.mp h'
    obtain ⟨rfl, rfl⟩ := pure_eq_ok.mp hpure
    obtain ⟨rfl, rfl⟩ := pure_eq_ok.mp hpure'
    obtain ⟨rfl, hw, _⟩ := (alloc_follows (E := fun _ _ => True)).eq_ok ⟨hw, trivial⟩ hp hq
    exact ⟨hw, fun _ => rfl⟩
  | call callee args mask => exact eval_call_alike R hc hc' hi hi' hinstr hf hw h h' rfl
  | load _ _ _ | strideLoad _ _ _ | gather _ _ | store _ _ _ _ | strideStore _ _ _ _ | scatter _ _ _ =>
    exact absurd rfl haccess
  | _ => exact absurd rfl hcomputes

end

end TwoLanes

/-! ## Runs in step -/

/-- The runs are at the same place, their frames agree and their worlds are alike. -/
structure Lockstep (m : Machine) (d : Divergence) (moments : List (Moment σ)) (moments' : List (Moment τ))
    (c : Moment σ) (c' : Moment τ) : Prop where
  block : c.state.block = c'.state.block
  prev : c.state.prev = c'.state.prev
  todo : c.state.todo = c'.state.todo
  frame : AgreeOn m.kernel d c.state.frame c'.state.frame
  world : TwoLanes.Alike m d moments moments' c.world c'.world

namespace Lockstep

variable {env : Environment σ} {env' : Environment τ} {moments : List (Moment σ)} {moments' : List (Moment τ)}
  {c : Moment σ} {c' : Moment τ} {w : World σ} {w' : World τ}

section

variable (R : TwoLanes m classify dimension d g env env' moments moments')
include R

theorem enter (hf : AgreeOn m.kernel d f f') (hw : TwoLanes.Alike m d moments moments' w w') (hb : b ∈ g.order)
    (h : m.enter f b prev = .ok s) (h' : m.enter f' b prev = .ok s') :
    Lockstep m d moments moments' ⟨s, w⟩ ⟨s', w'⟩ := by
  have hframe := hf.enter R.kernel R.graph hb h h'
  obtain ⟨_, _, hblock, hprev, _, htodo, _⟩ := enter_eq_ok h
  obtain ⟨_, _, hblock', hprev', _, htodo', _⟩ := enter_eq_ok h'
  exact ⟨hblock.trans hblock'.symm, hprev.trans hprev'.symm, htodo.trans htodo'.symm, hframe, hw⟩

/-- Both runs jump to the same block, since no branch varies. -/
theorem jump?_eq (hc : c ∈ moments) (h : Lockstep m d moments moments' c c') (hi : c.inst? = some i)
    (hinstr : m.kernel.instr? i = some instr) : m.jump? c.state.frame instr = m.jump? c'.state.frame instr := by
  have hblock := (R.track c hc).block
  have hmem := (R.track c hc).todo i (mem_of_head? hi)
  cases instr with
  | condBr cond t e =>
    have hread := TwoLanes.reads_agree R hc hi hinstr h.frame
      (R.kernel.branch_uniform R.graph hblock hmem hinstr) cond (.head _)
    rw [jump?, jump?, hread]
  | switch v cases default =>
    exact absurd hinstr (R.kernel.noSwitch i (R.kernel.mem_instsInOrder R.graph hblock hmem) v cases default)
  | _ => rfl

/-- **One step in both runs.** They both go on, and stay in step, or they both return. -/
theorem step (hc : c ∈ moments) (hc' : c' ∈ moments') (h : Lockstep m d moments moments' c c') {p p' : Progress}
    (hstep : m.step env c.state c.world = .ok p w) (hstep' : m.step env' c'.state c'.world = .ok p' w') :
    (∃ s s', p = .next s ∧ p' = .next s' ∧ Lockstep m d moments moments' ⟨s, w⟩ ⟨s', w'⟩) ∨
      ∃ r r', p = .done r ∧ p' = .done r' := by
  obtain ⟨i, rest, instr, htodo, hinstr, hcase⟩ := step_cases hstep
  obtain ⟨i', rest', instr', htodo', hinstr', hcase'⟩ := step_cases hstep'
  cases htodo.symm.trans (h.todo.trans htodo')
  obtain rfl := mem_unique hinstr hinstr'
  have hi : c.inst? = some i := by rw [Moment.inst?, htodo]; rfl
  have hi' : c'.inst? = some i := by rw [Moment.inst?, htodo']; rfl
  have hverified := R.kernel.verified
  cases hcase with
  | jump target s hterm htarget henter =>
    cases hcase' with
    | jump target' s' _ htarget' henter' =>
      rw [h.jump?_eq R hc hi hinstr, htarget'] at htarget
      cases htarget
      have hsucc := (R.track' c' hc').jump hverified R.graph htodo' hinstr hterm htarget'
      have horder := succs_mem_order R.graph (R.track' c' hc').block hsucc
      rw [h.block] at henter
      exact .inl ⟨s, s', rfl, rfl, enter R h.frame h.world horder henter henter'⟩
    | ret v? x? heq _ =>
      subst heq
      cases Except.ok.inj htarget
    | again _ _ _ hterm' | onward _ _ hterm' => cases hterm.symm.trans hterm'
  | ret v? x? heq _ =>
    subst heq
    cases hcase' with
    | jump _ _ _ htarget' => cases Except.ok.inj htarget'
    | ret _ x?' _ _ => exact .inr ⟨x?, x?', rfl, rfl⟩
    | again _ _ _ hterm' | onward _ _ hterm' => exact absurd hterm' (by simp [isTerminator])
  | again x u s hterm heval hrest henter =>
    cases hcase' with
    | jump _ _ hterm' => cases hterm.symm.trans hterm'
    | ret _ _ heq =>
      subst heq
      exact absurd hterm (by simp [isTerminator])
    | again x' u' s' _ heval' _ henter' =>
      obtain ⟨hw, hx⟩ := TwoLanes.eval_alike R hc hc' hi hi' hinstr h.frame h.world heval heval'
      rw [h.block, h.prev] at henter
      exact .inl ⟨s, s', rfl, rfl,
        enter R (h.frame.record R.kernel.coherent hx) hw (R.track' c' hc').block henter henter'⟩
    | onward _ _ _ _ hrest' => exact absurd hrest hrest'
  | onward x u hterm heval hrest =>
    cases hcase' with
    | jump _ _ hterm' => cases hterm.symm.trans hterm'
    | ret _ _ heq =>
      subst heq
      exact absurd hterm (by simp [isTerminator])
    | again _ _ _ _ _ hrest' => exact absurd hrest' hrest
    | onward x' u' _ heval' _ =>
      obtain ⟨hw, hx⟩ := TwoLanes.eval_alike R hc hc' hi hi' hinstr h.frame h.world heval heval'
      exact .inl ⟨_, _, rfl, rfl, h.block, h.prev, rfl, h.frame.record R.kernel.coherent hx, hw⟩

/-- **Runs that start in step and return stay in step to the end.** -/
theorem trails {limit limit' : Nat} {r r' : Option Val} {wend : World σ} {wend' : World τ} {budget budget' : Nat}
    (h : Lockstep m d moments moments' c c') (hsub : ∀ x ∈ m.trail env budget c, x ∈ moments)
    (hsub' : ∀ x ∈ m.trail env' budget' c', x ∈ moments')
    (hrun : m.advance env limit budget c.state c.world = .ok r wend)
    (hrun' : m.advance env' limit' budget' c'.state c'.world = .ok r' wend') :
    Forall₂ (Lockstep m d moments moments') (m.trail env budget c) (m.trail env' budget' c') := by
  induction budget generalizing budget' c c' with
  | zero => exact absurd hrun throw_ne_ok
  | succ budget ih =>
    cases budget' with
    | zero => exact absurd hrun' throw_ne_ok
    | succ budget' =>
      have hc : c ∈ moments := hsub c (by rw [trail]; exact .head _)
      have hc' : c' ∈ moments' := hsub' c' (by rw [trail]; exact .head _)
      rw [trail] at hsub hsub' ⊢
      rw [trail]
      refine .cons h ?_
      rcases advance_succ hrun with ⟨s, u, hstep, hrun⟩ | hstep
      · rcases advance_succ hrun' with ⟨s', u', hstep', hrun'⟩ | hstep'
        · rcases h.step R hc hc' hstep hstep' with ⟨t, t', ht, ht', hnext⟩ | ⟨_, _, hdone, _⟩
          · obtain rfl := Progress.next.inj ht
            obtain rfl := Progress.next.inj ht'
            rw [hstep] at hsub ⊢
            rw [hstep'] at hsub' ⊢
            exact ih hnext (fun x hx => hsub x (.tail _ hx))
              (fun x hx => hsub' x (.tail _ hx)) hrun hrun'
          · cases hdone
        · rcases h.step R hc hc' hstep hstep' with ⟨_, _, _, hnext, _⟩ | ⟨_, _, hdone, _⟩
          · cases hnext
          · cases hdone
      · rcases advance_succ hrun' with ⟨s', u', hstep', hrun'⟩ | hstep'
        · rcases h.step R hc hc' hstep hstep' with ⟨_, _, hnext, _⟩ | ⟨_, _, _, hdone⟩
          · cases hnext
          · cases hdone
        · rw [hstep, hstep']
          exact .nil

end

end Lockstep

end

/-! ## Uniform values -/

/-- What two lanes share: the place in the kernel, and the values that uniform instructions gave. -/
structure SameUniform (k : Kernel) (d : Divergence) (c : Moment σ) (c' : Moment τ) : Prop where
  block : c.state.block = c'.state.block
  prev : c.state.prev = c'.state.prev
  todo : c.state.todo = c'.state.todo
  values : ∀ i v, k.result? i = some v → d.isVaryingInst i = false →
    c.state.frame.results[v]? = c'.state.frame.results[v]?

theorem Lockstep.sameUniform {moments : List (Moment σ)} {moments' : List (Moment τ)} {c : Moment σ} {c' : Moment τ}
    (hk : m.kernel.Coherent) (h : Lockstep m d moments moments' c c') : SameUniform m.kernel d c c' := by
  refine ⟨h.block, h.prev, h.todo, fun i v hv huniform => ?_⟩
  obtain ⟨def', hdef, hkind⟩ := map_eq_some_iff.mp (hk.defines i v hv)
  exact h.frame.results v def' i hdef hkind huniform

/-- **Uniform values do not depend on the lane.** Two runs from one memory and the same arguments, whose
calls are answered alike unless they ask for the lane, go through the same places, and at every moment
uniform instructions have the same values in both. -/
theorem sameUniform_of_runs {m : Machine} {classify : Classifier} {dimension : Nat} {d : Divergence}
    {env : Environment σ} {env' : Environment τ} {args : List Val} {limit limit' : Nat} {w wend : World σ}
    {w' wend' : World τ} {r r' : Option Val} {answer : String → List Val → Ty → Option Val}
    (hk : LaneBlindKernel m.kernel classify dimension d) (hmemory : w.memory = w'.memory)
    (hrun : m.run env args limit w = .ok r wend) (hrun' : m.run env' args limit' w' = .ok r' wend')
    (hkeeps : env.KeepsMemory) (hkeeps' : env'.KeepsMemory)
    (hanswer : AnsweredBy m env classify dimension answer (m.moments env args limit w))
    (hanswer' : AnsweredBy m env' classify dimension answer (m.moments env' args limit' w'))
    (hapart : ObjectsApart m (m.moments env args limit w))
    (hapart' : ObjectsApart m (m.moments env' args limit' w')) :
    Forall₂ (SameUniform m.kernel d) (m.moments env args limit w) (m.moments env' args limit' w') := by
  have hanalysed := hk.analysed
  obtain ⟨g, hg, _⟩ := bind_eq_ok.mp hanalysed
  cases hentry : m.kernel.entry? with
  | none =>
    rw [moments, moments, hentry]
    exact .nil
  | some entry =>
    have R : TwoLanes m classify dimension d g env env' (m.moments env args limit w) (m.moments env' args limit' w') :=
      ⟨hk, hg, fun c hc => OnTrack.moments hk.verified hg hc, fun c hc => OnTrack.moments hk.verified hg hc,
        hkeeps, hkeeps', hapart, hapart', answer, hanswer, hanswer'⟩
    obtain ⟨s, henter, hadvance, hmoments⟩ := run_eq_ok hentry hrun
    obtain ⟨s', henter', hadvance', hmoments'⟩ := run_eq_ok hentry hrun'
    have hstart : Lockstep m d (m.moments env args limit w) (m.moments env' args limit' w') ⟨s, w⟩ ⟨s', w'⟩ :=
      Lockstep.enter R ⟨rfl, fun _ _ _ _ _ _ => rfl⟩ ⟨by rw [hmemory], fun _ _ => by rw [hmemory]⟩
        (entry_mem_order hg hentry) henter henter'
    have htrails := Lockstep.trails R hstart (fun x hx => hmoments ▸ hx) (fun x hx => hmoments' ▸ hx) hadvance hadvance'
    rw [← hmoments, ← hmoments'] at htrails
    exact htrails.imp fun c c' h => h.sameUniform hk.coherent

/-! ## Two kernels -/

/-- Answers `lane` with the index of the lane, and everything else with the first argument, or 7. -/
def laneEnv (lane : Int64) : Environment Unit := fun callee args =>
  return some (if callee = "lane" then .scalar (.i64 lane) else args.headD (.scalar (.i64 7)))

theorem laneEnv_keepsMemory (lane : Int64) : (laneEnv lane).KeepsMemory := by
  intro callee args w x w' h
  rw [(pure_eq_ok.mp h).2]

/-- `lane` asks for the index in dimension 0, everything else for the index in dimension 1. -/
def gridCalls : Classifier := fun site => .laneIdentity (.index (if site.callee = "lane" then 0 else 1))

/-- Asks for its lane and its row, and loads from its argument unless the row is past the eighth. -/
def rowLoad : Kernel := .ofListing "row_load" .void [("src", .ptr)] [(.int 8, .scalar .i64)]
  [("entry", [(.call "lane" [] none, .scalar .i64), (.call "row" [] none, .scalar .i64),
      (.compare .slt 3 1, .scalar .bool), (.condBr 4 1 2, .void)]),
    ("body", [(.load 0 none 8, .scalar .i64), (.br 2, .void)]), ("exit", [(.ret none, .void)])]

set_option maxRecDepth 4000 in
theorem flowGraph_rowLoad : rowLoad.flowGraph = .ok
    { entry := some 0, succTable := ⟨#[[1, 2], [2], []], []⟩, predTable := ⟨#[[], [0], [0, 1]], []⟩, order := [0, 1, 2]
      exits := [2] } := by
  cbv

theorem laneBlind_rowLoad : ∃ d, LaneBlindKernel rowLoad gridCalls 0 d ∧ d.isVaryingInst 0 = true ∧
    d.isVaryingInst 3 = false ∧ d.isVaryingInst 4 = false := by
  have hanalysed : (rowLoad.divergence gridCalls 0).toOption.any (fun d => d.branches = [] ∧
      d.isVaryingInst 0 = true ∧ d.isVaryingInst 3 = false ∧ d.isVaryingInst 4 = false) = true := by
    rw [divergence, flowGraph_rowLoad]
    decide +kernel
  obtain ⟨d, hd, hvalues⟩ := exists_of_any hanalysed
  obtain ⟨hbranches, hvalues⟩ := of_decide_eq_true hvalues
  have hcall : ∀ {callee args mask} {i : InstId}, rowLoad.instr? i = some (.call callee args mask) → args = [] ∧ mask = none ∧
        ∃ n, rowLoad.callKind? gridCalls i = .ok (some (.laneIdentity (.index n))) := by
    rintro callee args mask ⟨n⟩ hinstr
    have hn : n < 7 := lt_size_of_instr? hinstr
    interval_cases n <;> cases some.inj hinstr
    · exact ⟨rfl, rfl, 0, rfl⟩
    · exact ⟨rfl, rfl, 1, rfl⟩
  refine ⟨d, ⟨⟨by decide +kernel, ?_, hd, hbranches, ?_, ?_⟩, ?_⟩, hvalues⟩
  · rw [verify, flowGraph_rowLoad]
    rfl
  · rintro ⟨n⟩ _ v cases default hinstr
    have hn : n < 7 := lt_size_of_instr? hinstr
    interval_cases n <;> cases some.inj hinstr
  · intro i _ callee args mask hinstr
    obtain ⟨_, hmask, n, hkind⟩ := hcall hinstr
    exact ⟨hmask, _, hkind, rfl⟩
  · intro i _ callee args mask hinstr n _ _ v hv
    rw [(hcall hinstr).1] at hv
    exact absurd hv not_mem_nil

/-- Room for one number. -/
def oneCell : World Unit := ⟨⟨Array.replicate 72 0⟩, ()⟩

def rowArgs : List Val := [.scalar (.ptr 64)]

theorem run_rowLoad (lane : Int64) : ∃ w, (mk rowLoad 1).run (laneEnv lane) rowArgs 7 oneCell = .ok none w :=
  ⟨_, rfl⟩

theorem rowLoad_answers (lane : Int64) (moments : List (Moment Unit)) :
    AnsweredBy ⟨rowLoad, 1⟩ (laneEnv lane) gridCalls 0 (fun _ _ _ => some (.scalar (.i64 7))) moments := by
  rintro c _ ⟨n⟩ callee args mask kind values x w _ hinstr hkind hasks hvalues hcall
  have hn : n < 7 := lt_size_of_instr? hinstr
  interval_cases n <;> cases some.inj hinstr
  · cases hkind
    cases hasks
  · cases hvalues
    exact (pure_eq_ok.mp hcall).1.symm

/-- There is one instruction only that accesses memory. -/
theorem rowLoad_apart (moments : List (Moment Unit)) : ObjectsApart ⟨rowLoad, 1⟩ moments := by
  have hload : ∀ (c : Moment Unit) i a, c.inst? = some i → c.Touches ⟨rowLoad, 1⟩ a → i = 4 := by
    rintro c ⟨n⟩ a hi ⟨j, instr, access, hj, hinstr, haccess, _⟩
    obtain rfl := mem_unique hi hj
    have hn : n < 7 := lt_size_of_instr? hinstr
    interval_cases n <;> first
      | rfl
      | cases hinstr
        cases Except.ok.inj haccess
  rintro c _ c' _ i j r r' hi hj hr hr' halias a ⟨ha, ha'⟩
  obtain rfl := hload c i a hi ha
  obtain rfl := hload c' j a hj ha'
  cases hr
  cases hr'
  cases halias

theorem sameUniform_rowLoad : ∃ d, d.isVaryingInst 0 = true ∧ d.isVaryingInst 3 = false ∧
    d.isVaryingInst 4 = false ∧
    Forall₂ (SameUniform rowLoad d) ((mk rowLoad 1).moments (laneEnv 0) rowArgs 7 oneCell)
      ((mk rowLoad 1).moments (laneEnv 1) rowArgs 7 oneCell) := by
  obtain ⟨d, hk, hlane, hbranch, hload⟩ := laneBlind_rowLoad
  obtain ⟨_, hrun⟩ := run_rowLoad 0
  obtain ⟨_, hrun'⟩ := run_rowLoad 1
  refine ⟨d, hlane, hbranch, hload, ?_⟩
  exact sameUniform_of_runs hk rfl hrun hrun' (laneEnv_keepsMemory 0) (laneEnv_keepsMemory 1)
    (rowLoad_answers 0 _) (rowLoad_answers 1 _) (rowLoad_apart _) (rowLoad_apart _)

/-- Asks for its lane, and in the next block for its row, with the lane as an argument. -/
def laneOfRow : Kernel := .ofListing "lane_of_row" .void [] []
  [("entry", [(.call "lane" [] none, .scalar .i64), (.br 1, .void)]),
    ("row", [(.call "row" [0] none, .scalar .i64), (.ret none, .void)])]

set_option maxRecDepth 4000 in
theorem flowGraph_laneOfRow : laneOfRow.flowGraph = .ok
    { entry := some 0, succTable := ⟨#[[1], []], []⟩, predTable := ⟨#[[], [0]], []⟩, order := [0, 1]
      exits := [1] } := by
  cbv

theorem convergent_laneOfRow : ∃ d, ConvergentKernel laneOfRow gridCalls 0 d ∧ d.isVaryingInst 2 = false := by
  have hanalysed : (laneOfRow.divergence gridCalls 0).toOption.any
      (fun d => d.branches = [] ∧ d.isVaryingInst 2 = false) = true := by
    rw [divergence, flowGraph_laneOfRow]
    decide +kernel
  obtain ⟨d, hd, hvalues⟩ := exists_of_any hanalysed
  obtain ⟨hbranches, hrow⟩ := of_decide_eq_true hvalues
  refine ⟨d, ⟨by decide +kernel, eq_ok_of_toOption ?_, hd, hbranches, ?_, ?_⟩, hrow⟩
  · rw [verify, flowGraph_laneOfRow]
    decide +kernel
  · rintro ⟨n⟩ _ v cases default hinstr
    have hn : n < 4 := lt_size_of_instr? hinstr
    interval_cases n <;> cases some.inj hinstr
  · rintro ⟨n⟩ _ callee args mask hinstr
    have hn : n < 4 := lt_size_of_instr? hinstr
    interval_cases n <;> cases some.inj hinstr
    · exact ⟨rfl, .laneIdentity (.index 0), rfl, rfl⟩
    · exact ⟨rfl, .laneIdentity (.index 1), rfl, rfl⟩

theorem laneOfRow_apart (moments : List (Moment Unit)) : ObjectsApart ⟨laneOfRow, 1⟩ moments := by
  rintro c _ c' _ i j r r' hi hj hr hr' halias a ⟨⟨⟨n⟩, instr, access, hl, hinstr, haccess, _⟩, _⟩
  have hn : n < 4 := lt_size_of_instr? hinstr
  interval_cases n <;>
  · cases hinstr
    cases Except.ok.inj haccess

/-- The frame of a lane behind its first call. -/
def laneFrame (lane : Int64) : Frame := Frame.define { args := [] } 0 (.scalar (.i64 lane))

/-- The frame of a lane behind its last call. -/
def rowFrame (lane : Int64) : Frame := (laneFrame lane).define 1 (.scalar (.i64 lane))

theorem read_laneFrame (lane : Int64) : (mk laneOfRow 1).read (laneFrame lane) 0 = .ok (.scalar (.i64 lane)) := by
  rw [read_eq _ (show laneOfRow.value? 0 = some ⟨.inst 0, .scalar .i64⟩ from rfl), laneFrame]
  rw [Frame.getElem?_define, if_pos rfl]

theorem moments_laneOfRow (lane : Int64) (w : World Unit) :
    (∃ r, (mk laneOfRow 1).run (laneEnv lane) [] 4 w = .ok r w) ∧
      (mk laneOfRow 1).moments (laneEnv lane) [] 4 w =
        [⟨⟨0, none, { args := [] }, [0, 1]⟩, w⟩, ⟨⟨0, none, laneFrame lane, [1]⟩, w⟩,
          ⟨⟨1, some 0, laneFrame lane, [2, 3]⟩, w⟩, ⟨⟨1, some 0, rowFrame lane, [3]⟩, w⟩] := by
  have hlane : (mk laneOfRow 1).step (laneEnv lane) ⟨0, none, { args := [] }, [0, 1]⟩ w =
    .ok (.next ⟨0, none, laneFrame lane, [1]⟩) w := rfl
  have hjump : (mk laneOfRow 1).step (laneEnv lane) ⟨0, none, laneFrame lane, [1]⟩ w =
    .ok (.next ⟨1, some 0, laneFrame lane, [2, 3]⟩) w := rfl
  have hrow : (mk laneOfRow 1).step (laneEnv lane) ⟨1, some 0, laneFrame lane, [2, 3]⟩ w =
      .ok (.next ⟨1, some 0, rowFrame lane, [3]⟩) w := by
    refine step_of_case rfl rfl (.onward (some (.scalar (.i64 lane))) w rfl ?_ (by simp))
    refine bind_eq_ok.mpr ⟨[.scalar (.i64 lane)], w, liftChecked_eq_ok.mpr ⟨?_, rfl⟩, rfl⟩
    exact mapM_eq_ok.mpr (.cons (read_laneFrame lane) .nil)
  have hret : (mk laneOfRow 1).step (laneEnv lane) ⟨1, some 0, rowFrame lane, [3]⟩ w =
    .ok (.done none) w := rfl
  constructor
  · refine ⟨none, ?_⟩
    show (mk laneOfRow 1).advance (laneEnv lane) 4 4 ⟨0, none, { args := [] }, [0, 1]⟩ w = _
    rw [advance_next hlane, advance_next hjump, advance_next hrow, advance_done hret]
  · show (mk laneOfRow 1).trail (laneEnv lane) 4 ⟨⟨0, none, { args := [] }, [0, 1]⟩, w⟩ = _
    rw [trail_next hlane, trail_next hjump, trail_next hrow, trail_done hret]

theorem laneOfRow_answers (lane : Int64) (w : World Unit) :
    AnsweredBy ⟨laneOfRow, 1⟩ (laneEnv lane) gridCalls 0 (fun _ values _ => values.head?)
      ((mk laneOfRow 1).moments (laneEnv lane) [] 4 w) := by
  rw [(moments_laneOfRow lane w).2]
  rintro c hc ⟨n⟩ callee args mask kind values x u hi hinstr hkind hasks hvalues hcall
  have hplace : n = 2 → c.state.frame = laneFrame lane := by
    rintro rfl
    simp only [mem_cons, not_mem_nil, or_false] at hc
    rcases hc with rfl | rfl | rfl | rfl
    · exact absurd hi (by simp [Moment.inst?])
    · rfl
    · rfl
    · exact absurd hi (by simp [Moment.inst?])
  have hn : n < 4 := lt_size_of_instr? hinstr
  interval_cases n <;> cases some.inj hinstr
  · cases hkind
    cases hasks
  · have hread : [(0 : ValueId)].mapM ((mk laneOfRow 1).read (laneFrame lane)) = .ok [.scalar (.i64 lane)] :=
      mapM_eq_ok.mpr (.cons (read_laneFrame lane) .nil)
    rw [hplace rfl, hread] at hvalues
    cases hvalues
    exact (pure_eq_ok.mp hcall).1.symm

/-- A row that is asked for with the lane as an argument is taken to be uniform, and is not. -/
theorem uniform_row_differs : ∃ d, ConvergentKernel laneOfRow gridCalls 0 d ∧
    (∀ lane, (∃ r, (mk laneOfRow 1).run (laneEnv lane) [] 4 oneCell = .ok r oneCell) ∧
      (laneEnv lane).KeepsMemory ∧
      AnsweredBy ⟨laneOfRow, 1⟩ (laneEnv lane) gridCalls 0 (fun _ values _ => values.head?)
        ((mk laneOfRow 1).moments (laneEnv lane) [] 4 oneCell) ∧
      ObjectsApart ⟨laneOfRow, 1⟩ ((mk laneOfRow 1).moments (laneEnv lane) [] 4 oneCell)) ∧
    ¬Forall₂ (SameUniform laneOfRow d) ((mk laneOfRow 1).moments (laneEnv 0) [] 4 oneCell)
      ((mk laneOfRow 1).moments (laneEnv 1) [] 4 oneCell) := by
  obtain ⟨d, hk, hrow⟩ := convergent_laneOfRow
  refine ⟨d, hk, fun lane => ⟨(moments_laneOfRow lane oneCell).1, laneEnv_keepsMemory lane,
    laneOfRow_answers lane oneCell, laneOfRow_apart _⟩, fun hsame => ?_⟩
  rw [(moments_laneOfRow 0 oneCell).2, (moments_laneOfRow 1 oneCell).2] at hsame
  obtain ⟨_, _, _, ⟨_, _, _, hvalues⟩, _⟩ : _ ∧ _ ∧ _ ∧ _ ∧ _ := by
    simpa only [forall₂_cons] using hsame
  have hvalue := hvalues 2 1 rfl hrow
  cases hvalue

end Spmd
