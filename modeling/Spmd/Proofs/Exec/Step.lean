import Mathlib.Data.List.Forall2
import Spmd.Pointer.Root
import Spmd.Proofs.Exec.Access
import Spmd.Proofs.Kernel.Verified

/-!
# The steps of a run

* **`Machine.step_cases`** — everything one step can do: jump, return, or carry out an instruction and go on
  behind it. `Machine.enter_eq_ok` does the same for entering a block.
* **`Machine.trail`** — the moments that a run goes through. The run's outcome is that of its last moment,
  and what a step keeps holds at every moment (`Machine.trail_invariant`).
* **`ObjectsApart`** — what different objects ask of the moments of a run: they touch different bytes.
* **`OnTrack.moments`** — a run of a verified kernel never leaves the blocks that control reaches.
-/

namespace Spmd

open Success List Kernel Exec

variable {prev : Option BlockId} {instr : Instr} {σ : Type} {w w' : World σ} {env : Environment σ} {rest : List InstId}
  {b target : BlockId} {i : InstId} {s s' : RunState} {m : Machine} {limit : Nat} {args : List Val}

/-- The frame with a result added, if the instruction has one. -/
def Frame.record (f : Frame) : Option ValueId → Option Val → Frame
  | some v, some x => f.define v x
  | _, _ => f

theorem Frame.getElem?_define (f : Frame) (v u : ValueId) (x : Val) :
    (f.define v x).results[u]? = if v = u then some x else f.results[u]? := by
  rw [Frame.define]
  simp only [Std.TreeMap.getElem?_insert, Std.LawfulEqOrd.compare_eq_iff_eq]

theorem Frame.args_record (f : Frame) (result : Option ValueId) (x : Option Val) : (f.record result x).args = f.args := by
  cases result <;> cases x <;> rfl

theorem Frame.getElem?_record {f : Frame} {result : Option ValueId} {v : ValueId} (h : result ≠ some v)
    (x : Option Val) : (f.record result x).results[v]? = f.results[v]? := by
  cases result with
  | none => rfl
  | some u =>
    cases x with
    | none => rfl
    | some x => rw [record, getElem?_define, if_neg fun heq => h (congrArg some heq)]

theorem Frame.getElem?_record_self (f : Frame) (v : ValueId) (x : Val) :
    (f.record (some v) (some x)).results[v]? = some x := by
  rw [record, getElem?_define, if_pos rfl]

namespace Machine

variable {p : Progress} {f : Frame}

/-- The block that a jump goes to. -/
def jump? (m : Machine) (f : Frame) : Instr → Checked (Option BlockId)
  | .br target => return some target
  | .condBr cond thenBlock elseBlock => return some (if (← m.read f cond).isTrue then thenBlock else elseBlock)
  | .switch value cases default => do
    let x := (← m.read f value).toInt64
    return some (((cases.find? fun (c, _) => c == x).map (·.2)).getD default)
  | _ => return none

/-- Everything that one step can do. -/
inductive StepCase (m : Machine) (env : Environment σ) (s : RunState) (w : World σ) (i : InstId) (rest : List InstId)
    (instr : Instr) : Progress → World σ → Prop where
  | jump (target : BlockId) (s' : RunState) (hterm : instr.isTerminator = true)
      (htarget : m.jump? s.frame instr = .ok (some target))
      (henter : m.enter s.frame target (some s.block) = .ok s') : StepCase m env s w i rest instr (.next s') w
  | ret (v? : Option ValueId) (x? : Option Val) (hinstr : instr = .ret v?) (hread : m.readMask s.frame v? = .ok x?) :
      StepCase m env s w i rest instr (.done x?) w
  | again (x : Option Val) (w' : World σ) (s' : RunState) (hterm : instr.isTerminator = false)
      (heval : m.eval env s.frame i instr w = .ok x w') (hrest : rest = [])
      (henter : m.enter (s.frame.record (m.kernel.result? i) x) s.block s.prev = .ok s') :
      StepCase m env s w i rest instr (.next s') w'
  | onward (x : Option Val) (w' : World σ) (hterm : instr.isTerminator = false)
      (heval : m.eval env s.frame i instr w = .ok x w') (hrest : rest ≠ []) :
      StepCase m env s w i rest instr
        (.next { s with frame := s.frame.record (m.kernel.result? i) x, todo := rest }) w'

/-- An instruction that is no jump is carried out, and its block goes on behind it or starts over. -/
def carryOut (m : Machine) (env : Environment σ) (s : RunState) (i : InstId) (rest : List InstId) (instr : Instr) :
    Exec σ Progress := do
  let x ← m.eval env s.frame i instr
  let frame := s.frame.record (m.kernel.result? i) x
  match rest with
  | [] => .next <$> m.enter frame s.block s.prev
  | _ => return .next { s with frame, todo := rest }

/-- A terminator ends the visit of a block: control goes to the start of another, or the run returns or traps. -/
def leave (m : Machine) (s : RunState) (i : InstId) : Instr → Exec σ Progress
  | .ret v? => return .done (← m.readMask s.frame v?)
  | instr => do
    match ← m.jump? s.frame instr with
    | some target => .next <$> m.enter s.frame target (some s.block)
    | none => throw (.unreachable i)

/-- A step is one or the other. -/
theorem step_eq (env : Environment σ) (htodo : s.todo = i :: rest) (hinstr : m.kernel.instr? i = some instr) :
    m.step env s = if instr.isTerminator then m.leave s i instr else m.carryOut env s i rest instr := by
  obtain ⟨d, hd, rfl⟩ := map_eq_some_iff.mp hinstr
  rw [step, htodo]
  dsimp only
  rw [show m.kernel.inst i = .ok d from some?_eq_ok.mpr hd]
  refine (pure_bind d _).trans ?_
  cases d.instr with
  | condBr _ _ _ | switch _ _ _ =>
    rw [leave, jump?, bind_liftChecked_bind]
    · rfl
    · exact fun _ => Instr.noConfusion
  | ret v? =>
    cases v? with
    | none => rfl
    | some v =>
      rw [leave, readMask, bind_liftChecked_bind]
      rfl
  | _ => rfl

theorem leave_eq_ok : m.leave s i instr w = .ok p w' ↔ w = w' ∧
    ((∃ v? x?, instr = .ret v? ∧ m.readMask s.frame v? = .ok x? ∧ p = .done x?) ∨
      ∃ target s', m.jump? s.frame instr = .ok (some target) ∧ m.enter s.frame target (some s.block) = .ok s' ∧
        p = .next s') := by
  unfold leave
  split <;> rw [bind_liftChecked_eq_ok]
  next v? =>
    constructor
    · rintro ⟨x?, hread, h⟩
      obtain ⟨rfl, rfl⟩ := pure_eq_ok.mp h
      exact ⟨rfl, .inl ⟨v?, x?, rfl, hread, rfl⟩⟩
    · rintro ⟨rfl, ⟨_, x?, heq, hread, rfl⟩ | ⟨_, _, htarget, _⟩⟩
      · cases heq
        exact ⟨x?, hread, rfl⟩
      · cases Except.ok.inj htarget
  next hret =>
    constructor
    · rintro ⟨target?, htarget, h⟩
      cases target? with
      | none => exact absurd h throw_ne_ok
      | some target =>
        obtain ⟨s', henter, rfl⟩ := map_eq_ok.mp h
        obtain ⟨henter', rfl⟩ := liftChecked_eq_ok.mp henter
        exact ⟨rfl, .inr ⟨target, s', htarget, henter', rfl⟩⟩
    · rintro ⟨rfl, ⟨v?, _, heq, _⟩ | ⟨target, s', htarget, henter, rfl⟩⟩
      · exact absurd heq (hret v?)
      · exact ⟨some target, htarget, map_eq_ok.mpr ⟨s', liftChecked_eq_ok.mpr ⟨henter, rfl⟩, rfl⟩⟩

theorem step_cases (h : m.step env s w = .ok p w') :
    ∃ i rest instr, s.todo = i :: rest ∧ m.kernel.instr? i = some instr ∧ StepCase m env s w i rest instr p w' := by
  cases htodo : s.todo with
  | nil =>
    rw [step, htodo] at h
    exact absurd h throw_ne_ok
  | cons i rest =>
    have hd : ∃ d, m.kernel.inst i = .ok d := by
      rw [step, htodo] at h
      obtain ⟨d, hd, _⟩ := bind_liftChecked_eq_ok.mp h
      exact ⟨d, hd⟩
    obtain ⟨d, hd⟩ := hd
    have hinstr : m.kernel.instr? i = some d.instr := by
      rw [instr?, some?_eq_ok.mp hd]
      rfl
    refine ⟨i, rest, d.instr, rfl, hinstr, ?_⟩
    rw [step_eq env htodo hinstr] at h
    cases hterm : d.instr.isTerminator with
    | true =>
      rw [if_pos hterm] at h
      obtain ⟨rfl, ⟨v?, x?, hret, hread, rfl⟩ | ⟨target, s', htarget, henter, rfl⟩⟩ := leave_eq_ok.mp h
      · exact .ret v? x? hret hread
      · exact .jump target s' hterm htarget henter
    | false =>
      rw [hterm] at h
      obtain ⟨x, u, heval, h⟩ := bind_eq_ok.mp h
      cases rest with
      | nil =>
        obtain ⟨s', henter, rfl⟩ := map_eq_ok.mp h
        obtain ⟨henter', rfl⟩ := liftChecked_eq_ok.mp henter
        exact .again x u s' hterm heval rfl henter'
      | cons j rest =>
        obtain ⟨rfl, rfl⟩ := pure_eq_ok.mp h
        exact .onward x u hterm heval (by simp)

/-- What a step can do, it does. -/
theorem step_of_case (htodo : s.todo = i :: rest) (hinstr : m.kernel.instr? i = some instr)
    (h : StepCase m env s w i rest instr p w') : m.step env s w = .ok p w' := by
  rw [step_eq env htodo hinstr]
  cases h with
  | jump target s' hterm htarget henter =>
    rw [if_pos hterm]
    exact leave_eq_ok.mpr ⟨rfl, .inr ⟨target, s', htarget, henter, rfl⟩⟩
  | ret v? x? heq hread =>
    subst heq
    show m.leave s i (.ret v?) w = _
    exact leave_eq_ok.mpr ⟨rfl, .inl ⟨v?, x?, rfl, hread, rfl⟩⟩
  | again x _ s' hterm heval hrest henter =>
    subst hrest
    rw [hterm]
    exact bind_eq_ok.mpr ⟨x, w', heval, map_eq_ok.mpr ⟨s', liftChecked_eq_ok.mpr ⟨henter, rfl⟩, rfl⟩⟩
  | onward x _ hterm heval hrest =>
    rw [hterm]
    refine bind_eq_ok.mpr ⟨x, w', heval, ?_⟩
    cases rest with
    | nil => exact absurd rfl hrest
    | cons j rest => rfl

/-! ## Entering a block -/

theorem phiValue_eq (f : Frame) (prev : Option BlockId) {incoming : List (BlockId × ValueId)}
    (h : m.kernel.instr? i = some (.phi incoming)) :
    m.phiValue f prev i = match incoming.find? fun x => some x.1 == prev with
      | some x => m.read f x.2
      | none => m.zeroOf (m.kernel.resultTy i) := by
  obtain ⟨d, hd, hinstr⟩ := map_eq_some_iff.mp h
  have hinst : m.kernel.inst i = .ok d := some?_eq_ok.mpr hd
  rw [phiValue, hinst, ok_bind, hinstr]
  split <;> rename_i heq
  · cases heq
    split <;> rename_i hfind
    · rw [hfind]
    · rw [hfind]
  · exact absurd rfl (heq incoming)

/-- Phis with their values written into the frame, one after another. -/
def definePhis (m : Machine) (f : Frame) (phis : List (InstId × Val)) : Frame :=
  phis.foldl (fun f (i, x) => f.record (m.kernel.result? i) (some x)) f

theorem enterPhis_eq (f : Frame) (prev : Option BlockId) (phis : List InstId) :
    m.enterPhis f prev phis = (fun values => m.definePhis f (phis.zip values)) <$> phis.mapM (m.phiValue f prev) := by
  rw [enterPhis, map_eq_pure_bind]
  congr
  funext values
  rw [definePhis]
  congr
  funext f x
  obtain ⟨i, x⟩ := x
  cases hresult : m.kernel.result? i <;> simp only [hresult, Frame.record]

/-- Entering a block gives its phis their values, and there has to be something to do behind them. -/
theorem enter_eq (f : Frame) (prev : Option BlockId) (hblock : (m.kernel.block? b).isSome = true) :
    m.enter f b prev = (do
      let values ← (m.kernel.leadingPhis b).mapM (m.phiValue f prev)
      if (m.kernel.instsOf b).filter (fun i => !m.kernel.isPhi i) = [] then throw .endless
      else return ⟨b, prev, m.definePhis f ((m.kernel.leadingPhis b).zip values),
        (m.kernel.instsOf b).filter fun i => !m.kernel.isPhi i⟩) := by
  obtain ⟨blk, hblk⟩ := isSome_iff_exists.mp hblock
  have hinsts : m.kernel.instsOf b = blk.insts := by
    unfold instsOf
    rw [hblk]
    rfl
  rw [enter, show m.kernel.block b = .ok blk from some?_eq_ok.mpr hblk, ok_bind, enterPhis_eq, bind_map_left, ← hinsts]
  refine bind_congr fun values => ?_
  cases (m.kernel.instsOf b).filter fun i => !m.kernel.isPhi i with
  | nil => rfl
  | cons i rest => rfl

theorem enter_eq_ok (h : m.enter f b prev = .ok s) :
    ∃ values, (m.kernel.leadingPhis b).mapM (m.phiValue f prev) = .ok values ∧
      s.block = b ∧ s.prev = prev ∧ s.frame = m.definePhis f ((m.kernel.leadingPhis b).zip values) ∧
      s.todo = (m.kernel.instsOf b).filter (fun i => !m.kernel.isPhi i) ∧ s.todo ≠ [] := by
  have hblock : (m.kernel.block? b).isSome = true := by
    obtain ⟨blk, hblk, _⟩ := bind_eq_ok.mp h
    exact isSome_iff_exists.mpr ⟨blk, some?_eq_ok.mp hblk⟩
  rw [enter_eq f prev hblock] at h
  obtain ⟨values, hvalues, h⟩ := bind_eq_ok.mp h
  split at h
  · exact absurd h throw_ne_ok
  next htodo =>
    obtain rfl := pure_eq_ok.mp h
    exact ⟨values, hvalues, rfl, rfl, rfl, rfl, htodo⟩

/-- A block can be entered if its phis have values and there is something to do behind them. -/
theorem enter_of_phis {values : List Val} (hblock : (m.kernel.block? b).isSome = true)
    (hvalues : (m.kernel.leadingPhis b).mapM (m.phiValue f prev) = .ok values)
    (htodo : (m.kernel.instsOf b).filter (fun i => !m.kernel.isPhi i) ≠ []) :
    m.enter f b prev = .ok ⟨b, prev, m.definePhis f ((m.kernel.leadingPhis b).zip values),
      (m.kernel.instsOf b).filter fun i => !m.kernel.isPhi i⟩ := by
  rw [enter_eq f prev hblock, hvalues, ok_bind, if_neg htodo]
  rfl

/-! ## Trails -/

end Machine

/-- A state of a run with the world as it is then. -/
structure Moment (σ : Type) where
  state : RunState
  world : World σ

namespace Moment

/-- The instruction that is carried out next. -/
def inst? (c : Moment σ) : Option InstId := c.state.todo.head?

/-- What is carried out next takes in the byte at this address. -/
def Touches (m : Machine) (c : Moment σ) (a : Nat) : Prop :=
  ∃ i instr access, c.inst? = some i ∧ m.kernel.instr? i = some instr ∧
    m.access? c.state.frame i instr = .ok (some access) ∧ access.Touches m (m.kernel.resultTy i) a

end Moment

/-- Accesses to different objects touch different bytes. -/
def ObjectsApart {σ : Type} (m : Machine) (moments : List (Moment σ)) : Prop :=
  ∀ c ∈ moments, ∀ c' ∈ moments, ∀ i j r r', c.inst? = some i → c'.inst? = some j →
    m.kernel.accessRoot? i = .ok (some r) → m.kernel.accessRoot? j = .ok (some r') →
    m.kernel.rootsMayAlias r r' = false → ∀ a, ¬(c.Touches m a ∧ c'.Touches m a)

namespace Machine

variable {budget limit' : Nat} {c : Moment σ} {u : World σ} {r : Option Val} {entry : BlockId} {f : Frame}

/-- The moments that a run goes through in at most `budget` steps. -/
def trail (m : Machine) (env : Environment σ) : Nat → Moment σ → List (Moment σ)
  | 0, _ => []
  | budget + 1, c => c :: match m.step env c.state c.world with
    | .ok (.next s) w => m.trail env budget ⟨s, w⟩
    | _ => []

/-- What holds of the first moment and is kept by every step holds at all moments. -/
theorem trail_invariant {P : Moment σ → Prop} (hc : P c)
    (hstep : ∀ c' ∈ m.trail env budget c, ∀ s w, P c' → m.step env c'.state c'.world = .ok (.next s) w → P ⟨s, w⟩) :
    ∀ c' ∈ m.trail env budget c, P c' := by
  induction budget generalizing c with
  | zero => exact nofun
  | succ budget ih =>
    rw [trail] at hstep ⊢
    intro c' hc'
    rcases mem_cons.mp hc' with rfl | hc'
    · exact hc
    · split at hc'
      next s w hnext =>
        rw [hnext] at hstep
        exact ih (hstep c (.head _) s w hc hnext) (fun c' hc' => hstep c' (.tail _ hc')) c' hc'
      · exact absurd hc' not_mem_nil

/-- The moments of a whole run. -/
def moments (m : Machine) (env : Environment σ) (args : List Val) (limit : Nat) (w : World σ) : List (Moment σ) :=
  match m.kernel.entry? with
  | none => []
  | some entry =>
    match m.enter { args } entry none with
    | .ok s => m.trail env limit ⟨s, w⟩
    | .error _ => []

/-- What holds at the start of a run and is kept by every step holds all along. -/
theorem moments_invariant {P : RunState → Prop}
    (henter : ∀ entry s, m.kernel.entry? = some entry → m.enter { args } entry none = .ok s → P s)
    (hstep : ∀ {s s' u u'}, ⟨s, u⟩ ∈ m.moments env args limit w → P s → m.step env s u = .ok (.next s') u' → P s') :
    ∀ c ∈ m.moments env args limit w, P c.state := by
  unfold moments at hstep ⊢
  split
  · exact nofun
  next entry hentry =>
    rw [hentry] at hstep
    dsimp only at hstep
    split
    next s hs =>
      rw [hs] at hstep
      exact trail_invariant (P := fun c => P c.state) (henter entry s hentry hs) fun c hc s w => hstep hc
    · exact nofun

theorem length_args_of_run (h : m.run env args limit w = .ok r w') : args.length = m.kernel.params.length := by
  by_contra hargs
  rw [run, if_pos hargs] at h
  obtain ⟨_, _, hthrow, _⟩ := bind_eq_ok.mp h
  exact absurd hthrow throw_ne_ok

theorem run_eq (env : Environment σ) (limit : Nat) (hentry : m.kernel.entry? = some entry)
    (hargs : args.length = m.kernel.params.length) :
    m.run env args limit = (liftM (m.enter { args } entry none) : Exec σ RunState) >>= m.advance env limit limit := by
  rw [run, if_neg fun hne => hne hargs]
  rw [hentry]

section

variable (hentry : m.kernel.entry? = some entry)
include hentry

theorem run_of_enter (hargs : args.length = m.kernel.params.length)
    (henter : m.enter { args } entry none = .ok s) (h : m.advance env limit limit s w = .ok r w') :
    m.run env args limit w = .ok r w' := by
  rw [run_eq env limit hentry hargs]
  exact bind_liftChecked_eq_ok.mpr ⟨s, henter, h⟩

theorem moments_of_enter (henter : m.enter { args } entry none = .ok s) :
    m.moments env args limit w = m.trail env limit ⟨s, w⟩ := by
  rw [moments, hentry]
  dsimp only
  rw [henter]

/-- A run that returns entered its first block and went on from there. -/
theorem run_eq_ok (h : m.run env args limit w = .ok r w') :
    ∃ s, m.enter { args } entry none = .ok s ∧ m.advance env limit limit s w = .ok r w' ∧
      m.moments env args limit w = m.trail env limit ⟨s, w⟩ := by
  rw [run_eq env limit hentry (length_args_of_run h)] at h
  obtain ⟨s, henter, h⟩ := bind_liftChecked_eq_ok.mp h
  exact ⟨s, henter, h, moments_of_enter hentry henter⟩

end

/-- A run that has steps left takes one. -/
theorem advance_succ (h : m.advance env limit (budget + 1) s w = .ok r w') :
    (∃ s' u, m.step env s w = .ok (.next s') u ∧ m.advance env limit budget s' u = .ok r w') ∨
      m.step env s w = .ok (.done r) w' := by
  obtain ⟨p, u, hstep, h⟩ := bind_eq_ok.mp h
  cases p with
  | next s' => exact .inl ⟨s', u, hstep, h⟩
  | done r' =>
    obtain ⟨rfl, rfl⟩ := pure_eq_ok.mp h
    exact .inr hstep

theorem advance_next (h : m.step env s w = .ok (.next s') u) :
    m.advance env limit (budget + 1) s w = m.advance env limit budget s' u := by
  rw [advance, Stateful.bind_of_eq_ok h]

theorem advance_done (h : m.step env s w = .ok (.done r) u) : m.advance env limit (budget + 1) s w = .ok r u := by
  rw [advance]
  exact bind_eq_ok.mpr ⟨_, u, h, rfl⟩

/-- What returned within some steps returns within any more. -/
theorem advance_mono {budget' : Nat} (h : m.advance env limit budget s w = .ok r w') (hle : budget ≤ budget') :
    m.advance env limit' budget' s w = .ok r w' := by
  induction budget generalizing s w budget' with
  | zero => exact absurd h throw_ne_ok
  | succ budget ih =>
    obtain ⟨budget', rfl⟩ := Nat.exists_eq_add_of_le' (Nat.le_trans (Nat.le_add_left 1 budget) hle)
    rcases advance_succ h with ⟨s', u, hstep, hnext⟩ | hstep
    · rw [advance_next hstep]
      exact ih hnext (by omega)
    · exact advance_done hstep

theorem run_mono (h : m.run env args limit w = .ok r w') (hle : limit ≤ limit') :
    m.run env args limit' w = .ok r w' := by
  cases hentry : m.kernel.entry? with
  | none =>
    have hargs := length_args_of_run h
    rw [run, if_neg fun hne => hne hargs, hentry] at h ⊢
    exact h
  | some entry =>
    obtain ⟨s, henter, hadvance, _⟩ := run_eq_ok hentry h
    exact run_of_enter hentry (length_args_of_run h) henter (advance_mono hadvance hle)

theorem trail_next (h : m.step env c.state c.world = .ok (.next s) w) :
    m.trail env (budget + 1) c = c :: m.trail env budget ⟨s, w⟩ := by
  rw [trail, h]

theorem trail_done (h : m.step env c.state c.world = .ok (.done r) w) : m.trail env (budget + 1) c = [c] := by
  rw [trail, h]

/-- A jump goes to one of the blocks that the terminator names. -/
theorem mem_successors_of_jump? (h : m.jump? f instr = .ok (some target)) : target ∈ instr.successors := by
  cases instr with
  | br b => exact mem_singleton.mpr (Option.some.inj (Except.ok.inj h)).symm
  | condBr cond t e =>
    obtain ⟨x, _, h⟩ := bind_eq_ok.mp h
    cases pure_eq_ok.mp h
    split
    · exact .head _
    · exact .tail _ (.head _)
  | switch value cases default =>
    obtain ⟨x, _, h⟩ := bind_eq_ok.mp h
    cases pure_eq_ok.mp h
    cases hfind : cases.find? fun (c, _) => c == x.toInt64 with
    | none => exact .head _
    | some found => exact mem_cons_of_mem _ (mem_map_of_mem (mem_of_find?_eq_some hfind))
  | _ => cases Except.ok.inj h

/-- In a verified kernel these are the successors of its block. -/
theorem mem_successors_of_verify (hv : m.kernel.verify = .ok ()) (hb : b ∈ m.kernel.layout)
    (hi : i ∈ m.kernel.instsOf b) (hinstr : m.kernel.instr? i = some instr) (hterm : instr.isTerminator = true)
    (h : m.jump? f instr = .ok (some target)) : target ∈ m.kernel.successors b := by
  have hlast := terminator?_of_verify hv hb hi (by rw [hinstr]; exact hterm)
  rw [successors, terminatorInstr?, hlast, Option.bind_some, hinstr]
  exact mem_successors_of_jump? h

end Machine

/-! ## Runs of verified kernels -/

/-- A run is in a block that control reaches, and some of what stands behind the phis of that block is left to do. -/
structure OnTrack (m : Machine) (g : FlowGraph) (s : RunState) : Prop where
  block : s.block ∈ g.order
  rest : ∃ pre, m.kernel.instsOf s.block = pre ++ s.todo
  plain : ∀ i ∈ s.todo, m.kernel.isPhi i = false
  busy : s.todo ≠ []

namespace OnTrack

variable {g : FlowGraph}

theorem todo (h : OnTrack m g s) : ∀ i ∈ s.todo, i ∈ m.kernel.instsOf s.block := by
  obtain ⟨pre, hpre⟩ := h.rest
  exact fun i hi => hpre ▸ mem_append_right _ hi

variable (hk : m.kernel.verify = .ok ()) (hg : m.kernel.flowGraph = .ok g)
include hk hg

theorem enter {f : Frame} (hb : b ∈ g.order) (h : m.enter f b prev = .ok s) : OnTrack m g s := by
  obtain ⟨_, _, rfl, _, _, htodo, hne⟩ := Machine.enter_eq_ok h
  refine ⟨hb, ⟨m.kernel.leadingPhis s.block, ?_⟩, fun i hi => ?_, hne⟩
  · rw [htodo]
    exact instsOf_eq_of_verify hk (order_subset_layout hk hg hb)
  · rw [htodo] at hi
    simpa using (mem_filter.mp hi).2

/-- What comes next ends the block exactly if nothing is left to do behind it. -/
theorem next (h : OnTrack m g s) : ∃ i rest instr, s.todo = i :: rest ∧ m.kernel.instr? i = some instr ∧
    instr.isPhi = false ∧ (instr.isTerminator = true ↔ rest = []) := by
  have hlayout := order_subset_layout hk hg h.block
  obtain ⟨i, rest, htodo⟩ := exists_cons_of_ne_nil h.busy
  obtain ⟨pre, hpre⟩ := h.rest
  obtain ⟨d, hd, _⟩ := linked_of_verify hk hg hlayout (h.todo i (htodo ▸ .head _))
  have hinstr : m.kernel.instr? i = some d.instr := by rw [instr?, hd, Option.map_some]
  have hphi := h.plain i (htodo ▸ .head _)
  have hend := isTerminator_iff_of_verify hk hlayout (htodo ▸ hpre)
  rw [hinstr] at hend
  rw [isPhi, hinstr] at hphi
  exact ⟨i, rest, d.instr, htodo, hinstr, hphi, hend⟩

/-- A jump out of a block that control reaches goes to one that control reaches. -/
theorem jump (h : OnTrack m g s) (htodo : s.todo = i :: rest) (hinstr : m.kernel.instr? i = some instr)
    (hterm : instr.isTerminator = true) (htarget : m.jump? s.frame instr = .ok (some target)) :
    target ∈ g.succs s.block := by
  have hb := order_subset_layout hk hg h.block
  have hmem : i ∈ m.kernel.instsOf s.block := h.todo i (htodo ▸ (.head _))
  exact (mem_succs_iff hg).mpr ⟨hb, Machine.mem_successors_of_verify hk hb hmem hinstr hterm htarget⟩

theorem step (h : OnTrack m g s) (hstep : m.step env s w = .ok (.next s') w') : OnTrack m g s' := by
  obtain ⟨i, rest, instr, htodo, hinstr, hcase⟩ := Machine.step_cases hstep
  cases hcase with
  | jump target _ hterm htarget henter =>
    exact enter hk hg (succs_mem_order hg h.block (h.jump hk hg htodo hinstr hterm htarget)) henter
  | again x _ _ _ _ _ henter => exact enter hk hg h.block henter
  | onward x _ _ _ hrest =>
    obtain ⟨pre, hpre⟩ := h.rest
    refine ⟨h.block, ⟨pre ++ [i], ?_⟩, fun j hj => h.plain j (htodo ▸ .tail _ hj), hrest⟩
    rw [hpre, htodo, append_cons]

/-- **A run of a verified kernel stays on track.** -/
theorem moments {c : Moment σ} (hc : c ∈ m.moments env args limit w) : OnTrack m g c.state :=
  Machine.moments_invariant (fun _ _ hentry henter => enter hk hg (entry_mem_order hg hentry) henter)
    (fun _ h hstep => h.step hk hg hstep) c hc

end OnTrack

end Spmd
