import Spmd.Proofs.Exec.Recast
import Spmd.Proofs.Kernel.Listing
import Spmd.Proofs.Unused.Remove

/-!
# Runs without what is unused

A kernel without an idle instruction does what the kernel did. The frames of the two differ in the result of that
instruction at most (`Frame.AgreeBut`), which nothing else reads, and the instruction itself leaves the world alone
(`Machine.eval_still`).

* **`Idle.step_removed`** — a step of the kernel is a step of the other or, at the removed instruction, none.
* **`Sheds.run`** — so a run that returns does so without the removed instructions, within the same steps, with the same
  result and world and the same calls.
* **`removeUnused_of_verify`** — removing what is unused is sound and complete.
-/

namespace Spmd

open Success List Machine Instr

variable {v : ValueId} {instr : Instr} {d : InstDef} {r : Option Val} {limit : Nat} {i : InstId} {args : List Val}

variable {σ α β : Type}

/-! ## Actions that leave the world alone -/

/-- An action that leaves the world as it was whenever it succeeds. -/
def Exec.Still (x : Exec σ α) : Prop := ∀ w a w', x w = .ok a w' → w' = w

namespace Machine

open Exec

variable {m : Machine} {env : Environment σ}

/-- An instruction that makes no room in memory and writes at most by calls that leave the world alone. -/
theorem eval_still (f : Frame) (i : InstId) (halloca : ∀ elem count, instr ≠ .alloca elem count)
    (hwrite : instr.mayWrite = true → ∃ callee args mask, instr = .call callee args mask ∧ ∀ xs, Still (env callee xs)) :
    Still (m.eval env f i instr) := by
  change Keeps id (m.eval env f i instr)
  cases instr with
  | alloca elem count => exact absurd rfl (halloca elem count)
  | load | strideLoad | gather =>
    exact .bind (.liftChecked _) fun _ => .bind (.liftChecked _) fun _ => .map _ (load_keeps id m _ _ _)
  | store | strideStore | scatter =>
    obtain ⟨_, _, _, heq, _⟩ := hwrite rfl
    cases heq
  | call callee args mask =>
    obtain ⟨_, _, _, heq, henv⟩ := hwrite rfl
    cases heq
    exact .bind (.liftChecked _) fun _ => .bind (.liftChecked _) fun _ => call_keeps henv _ _ _
  | _ => exact .of_computes (eval_computes m env env f i rfl)

end Machine

/-- The calls that could be left out do nothing but answer. -/
def Environment.Quiet (env : Environment σ) (k : Kernel) (classify : Classifier) : Prop :=
  ∀ i ∈ k.instsInOrder, ∀ callee args mask kind, k.instr? i = some (.call callee args mask) →
    k.callKind? classify i = .ok (some kind) → kind.isRemovable = true → ∀ xs, Exec.Still (env callee xs)

/-- The kernel makes no room in memory. -/
def Kernel.AllocatesNothing (k : Kernel) : Prop :=
  ∀ i ∈ k.instsInOrder, ∀ elem count, k.instr? i ≠ some (.alloca elem count)

/-! ## The calls of a run -/

/-- The call that is made next, with what is handed over, unless it could be left out. -/
def Moment.lastingCall? (m : Machine) (classify : Classifier) (c : Moment σ) : Option (String × List Val × Option Val) :=
  c.inst?.bind fun i =>
    match m.kernel.instr? i with
    | some (.call callee args mask) =>
      if ((m.kernel.callKind? classify i).toOption.bind id).any CallKind.isRemovable then none
      else (do return (callee, ← args.mapM (m.read c.state.frame), ← m.readMask c.state.frame mask) : Checked _).toOption
    | _ => none

/-- The calls that a run makes, in order, without those that could be left out. -/
def Machine.lastingCalls (m : Machine) (classify : Classifier) (env : Environment σ) (args : List Val) (limit : Nat)
    (w : World σ) : List (String × List Val × Option Val) :=
  (m.moments env args limit w).filterMap (·.lastingCall? m classify)

/-! ## Frames -/

/-- Frames that hold the same, except for one value. -/
structure Frame.AgreeBut (v : ValueId) (f f' : Frame) : Prop where
  args : f'.args = f.args
  results : ∀ u, u ≠ v → f'.results[u]? = f.results[u]?

namespace Frame.AgreeBut

variable {f f' : Frame}

theorem record (h : f.AgreeBut v f') (result : Option ValueId) (x : Option Val) :
    (f.record result x).AgreeBut v (f'.record result x) := by
  cases result with
  | none => exact h
  | some u =>
    cases x with
    | none => exact h
    | some x =>
      refine ⟨h.args, fun t ht => ?_⟩
      show (f'.define u x).results[t]? = (f.define u x).results[t]?
      rw [getElem?_define, getElem?_define, h.results t ht]

theorem record_left (h : f.AgreeBut v f') (x : Option Val) : (f.record (some v) x).AgreeBut v f' := by
  refine ⟨h.args.trans (f.args_record _ x).symm, fun t ht => ?_⟩
  rw [getElem?_record (fun heq => ht (Option.some.inj heq).symm), h.results t ht]

end Frame.AgreeBut

namespace Kernel

/-! ## One instruction less -/

/-- A state of the kernel and the state without the instruction `i`, which defines `v`. -/
structure Shadows (k : Kernel) (i : InstId) (v : ValueId) (s s' : RunState) : Prop where
  layout : s.block ∈ k.layout
  mem : ∀ j ∈ s.todo, j ∈ k.instsOf s.block
  /-- What is left to do ends with the terminator. -/
  ends : ∃ init last, s.todo = init ++ [last] ∧ (k.instr? last).any isTerminator = true
  block : s'.block = s.block
  prev : s'.prev = s.prev
  frame : s.frame.AgreeBut v s'.frame
  todo : s'.todo = s.todo.filter (· ≠ i)

namespace Idle

variable {m m' : Machine} {classify : Classifier} {env : Environment σ} {b : BlockId} {j : InstId} {u : ValueId}
  {f f' : Frame} {prev : Option BlockId} {s s1 s' : RunState} {w w1 w' : World σ} (hidle : m.kernel.Idle classify i v)
  (h : Removed m.kernel i d m'.kernel) (hscale : m'.vscale = m.vscale) (hk : m.kernel.Coherent)
  (hv : m.kernel.verify = .ok ()) {rest : List InstId}

include h hscale in
theorem read_eq (hf : f.AgreeBut v f') (hu : u ≠ v) : m'.read f' u = m.read f u := by
  rw [Machine.read, Machine.read, h.value_eq, hf.args, hf.results u hu, zeroOf_congr hscale,
    constant_congr hscale]

include hidle h hscale

section

variable (hf : f.AgreeBut v f') (hj : j ∈ m.kernel.instsInOrder) (hne : j ≠ i)
include hf hj hne

theorem read_operand (hinstr : m.kernel.instr? j = some instr) : ∀ u ∈ instr.operands, m'.read f' u = m.read f u :=
  fun _ hu => read_eq h hscale hf (hidle.ne_operand hj hne hinstr hu)

/-- Every other instruction does the same. -/
theorem eval_eq (hinstr : m.kernel.instr? j = some instr) : m'.eval env f' j instr = m.eval env f j instr :=
  eval_congr env j hscale (hidle.read_operand h hscale hf hj hne hinstr) (h.resultTy j)
    fun u _ => by rw [valueTy, valueTy, h.value_eq]

theorem phiValue_eq (hphi : m.kernel.isPhi j = true) : m'.phiValue f' prev j = m.phiValue f prev j := by
  obtain ⟨incoming, hinstr⟩ := exists_of_isPhi hphi
  refine phiValue_rename (ρ := id) prev hscale hinstr ?_ (h.resultTy j)
    (hidle.read_operand h hscale hf hj hne hinstr)
  rw [h.instr?_ne hne, hinstr, mapOperands_id (f := id) fun _ _ => rfl]

end

/-- The phis of a block take the same values, if one of them is not there. -/
theorem phis_removed {phis : List InstId} (hmem : ∀ j ∈ phis, j ∈ m.kernel.instsInOrder ∧ m.kernel.isPhi j = true)
    (hf : f.AgreeBut v f') {values : List Val} (hvalues : phis.mapM (m.phiValue f prev) = .ok values) :
    ∃ values', (phis.filter (· ≠ i)).mapM (m'.phiValue f' prev) = .ok values' ∧ ∀ g g', g.AgreeBut v g' →
      (m.definePhis g (phis.zip values)).AgreeBut v (m'.definePhis g' ((phis.filter (· ≠ i)).zip values')) := by
  induction phis generalizing values with
  | nil => exact ⟨[], rfl, fun _ _ hg => hg⟩
  | cons j phis ih =>
    rw [mapM_cons] at hvalues
    obtain ⟨x, hx, hvalues⟩ := bind_eq_ok.mp hvalues
    obtain ⟨xs, hxs, rfl⟩ := bind_pure_eq_ok.mp hvalues
    obtain ⟨values', hvalues', hagree⟩ := ih (fun l hl => hmem l (.tail _ hl)) hxs
    by_cases hne : j = i
    · subst hne
      rw [filter_cons_of_neg (by simp)]
      refine ⟨values', hvalues', fun g g' hg => ?_⟩
      have hrecord : (g.record (m.kernel.result? j) (some x)).AgreeBut v g' := by
        rw [hidle.result]
        exact hg.record_left (some x)
      exact hagree _ _ hrecord
    · obtain ⟨hj, hphi⟩ := hmem j (.head _)
      rw [filter_cons_of_pos (by simpa using hne)]
      refine ⟨x :: values', ?_, fun g g' hg => ?_⟩
      · rw [mapM_cons, hidle.phiValue_eq h hscale hf hj hne hphi, hx, ok_bind, hvalues']
        rfl
      · have hrecord : (g.record (m.kernel.result? j) (some x)).AgreeBut v (g'.record (m'.kernel.result? j) (some x)) := by
          rw [h.result?]
          exact hg.record _ _
        exact hagree _ _ hrecord

include hk hv

/-- Entering a block leads to states that shadow each other. -/
theorem enter_removed (hf : f.AgreeBut v f') (hb : b ∈ m.kernel.layout) (henter : m.enter f b prev = .ok s) :
    ∃ s', m'.enter f' b prev = .ok s' ∧ m.kernel.Shadows i v s s' := by
  obtain ⟨values, hvalues, hblock, hprev, hframe, htodo, _⟩ := enter_eq_ok henter
  obtain ⟨body, last, heq, hphis, hbody, _, hlast, hne, heq'⟩ := hidle.parts h hk hv hb
  have hrest : ∀ j ∈ body ++ [last], m.kernel.isPhi j = false := by
    intro j hj
    rcases mem_append.mp hj with hj | hj
    · exact hbody j hj
    · exact mem_singleton.mp hj ▸ isPhi_of_isTerminator hlast
  have hkept : ∀ {js : List InstId} {j}, j ∈ js.filter (· ≠ i) → j ∈ js ∧ m'.kernel.isPhi j = m.kernel.isPhi j := fun hj =>
    ⟨(mem_filter.mp hj).1, h.isPhi_ne (of_decide_eq_true (mem_filter.mp hj).2)⟩
  have hlastKept : body.filter (· ≠ i) ++ [last] = (body ++ [last]).filter (· ≠ i) := by
    rw [filter_append, filter_cons_of_pos (by simpa using hne), filter_nil]
  rw [hlastKept] at heq'
  obtain ⟨hphis', hrest'⟩ := phis_and_rest heq' (fun j hj => (hkept hj).2.trans (hphis j (hkept hj).1))
    fun j hj => (hkept hj).2.trans (hrest j (hkept hj).1)
  obtain ⟨_, hfilter⟩ := phis_and_rest heq hphis hrest
  have hmem : ∀ j ∈ m.kernel.leadingPhis b, j ∈ m.kernel.instsInOrder ∧ m.kernel.isPhi j = true := fun j hj =>
    ⟨mem_flatMap.mpr ⟨b, hb, by rw [heq]; exact mem_append_left _ hj⟩, hphis j hj⟩
  obtain ⟨values', hvalues', hagree⟩ := hidle.phis_removed h hscale hmem hf hvalues
  rw [← hphis'] at hvalues' hagree
  refine ⟨_, enter_of_phis (block?_isSome_of_size h.blocks_size (hk.blocks b hb)) hvalues' ?_, ?_⟩
  · rw [hrest', ← hlastKept]
    simp
  · rw [hfilter] at htodo
    refine ⟨hblock ▸ hb, fun j hj => ?_, ⟨body, last, htodo, hlast⟩, hblock.symm, hprev.symm, hframe ▸ hagree f f' hf, ?_⟩
    · rw [hblock, heq]
      exact mem_append_right _ (htodo ▸ hj)
    · rw [htodo]
      exact hrest'

/-- **Without the removed instruction a step does the same**, and that instruction's step does nothing. -/
theorem step_removed (hno : m.kernel.AllocatesNothing) (hquiet : env.Quiet m.kernel classify) {p : Progress}
    (hs : m.kernel.Shadows i v s s') (hstep : m.step env s w = .ok p w1) :
    (∃ rest s1, s.todo = i :: rest ∧ p = .next s1 ∧ w1 = w ∧ m.kernel.Shadows i v s1 s') ∨
      (∃ j rest, s.todo = j :: rest ∧ j ≠ i) ∧
        ((∃ s1 s1', p = .next s1 ∧ m'.step env s' w = .ok (.next s1') w1 ∧ m.kernel.Shadows i v s1 s1') ∨
          ∃ r, p = .done r ∧ m'.step env s' w = .ok (.done r) w1) := by
  obtain ⟨j, rest, instr, htodo, hinstr, hcase⟩ := step_cases hstep
  obtain ⟨init, last, hinit, hlast⟩ := hs.ends
  have hj : j ∈ m.kernel.instsOf s.block := hs.mem j (htodo ▸ (.head _))
  have hmem : j ∈ m.kernel.instsInOrder := mem_flatMap.mpr ⟨s.block, hs.layout, hj⟩
  have hlastNe : last ≠ i := by
    rintro rfl
    obtain ⟨instr, hinstr, hyes⟩ := (Option.any_eq_true _ _).mp hlast
    cases hyes.symm.trans (hidle.not_isTerminator hinstr)
  -- nothing but the terminator comes last
  have hrest : instr.isTerminator = false → ∃ init', rest = init' ++ [last] := by
    intro hterm
    rw [htodo] at hinit
    cases init with
    | nil =>
      obtain ⟨rfl, _⟩ := cons.inj hinit
      rw [hinstr] at hlast
      cases hlast.symm.trans hterm
    | cons _ init' => exact ⟨init', (cons.inj hinit).2⟩
  have honward : ∀ {f1 f1' : Frame}, instr.isTerminator = false → f1.AgreeBut v f1' →
      m.kernel.Shadows i v { s with frame := f1, todo := rest } { s' with frame := f1', todo := rest.filter (· ≠ i) } := by
    intro f1 f1' hterm hf
    obtain ⟨init', hinit'⟩ := hrest hterm
    exact ⟨hs.layout, fun l hl => hs.mem l (htodo ▸ .tail _ hl), ⟨init', last, hinit', hlast⟩, hs.block, hs.prev,
      hf, rfl⟩
  have htodo' := hs.todo
  rw [htodo] at htodo'
  by_cases hji : j = i
  · subst hji
    have hterm := hidle.not_isTerminator hinstr
    rw [filter_cons_of_neg (by simp)] at htodo'
    cases hcase with
    | jump _ _ hyes => cases hyes.symm.trans hterm
    | ret _ _ heq => exact absurd hterm (by simp [heq, isTerminator])
    | again _ _ _ _ _ hnil =>
      obtain ⟨init', hinit'⟩ := hrest hterm
      exact absurd (hnil.symm.trans hinit') (by simp)
    | onward x _ _ heval _ =>
      refine .inl ⟨rest, _, htodo, rfl, ?_, ?_⟩
      · refine eval_still s.frame j (fun elem count heq => hno j hidle.mem elem count (heq ▸ hinstr)) (fun hwrite => ?_)
          w x w1 heval
        obtain ⟨callee, args, mask, kind, rfl, hkind, hyes⟩ := (isRemovable_eq_true hinstr hidle.removable).2 hwrite
        exact ⟨callee, args, mask, rfl, hquiet j hidle.mem callee args mask kind hinstr hkind hyes⟩
      · have := honward hterm (hs.frame.record_left x)
        rw [← htodo'] at this
        rw [hidle.result]
        exact this
  · have hread := hidle.read_operand h hscale hs.frame hmem hji hinstr
    have hinstr' : m'.kernel.instr? j = some instr := (h.instr?_ne hji).trans hinstr
    rw [filter_cons_of_pos (by simpa using hji)] at htodo'
    refine .inr ⟨⟨j, rest, htodo, hji⟩, ?_⟩
    cases hcase with
    | jump target s1 hterm htarget henter =>
      obtain ⟨_, _, _, _, _, _, _, _, hsuccs⟩ := shape_of_verify hv hs.layout
      have hlayout := hsuccs target (mem_successors_of_verify hv hs.layout hj hinstr hterm htarget)
      obtain ⟨s1', henter', hshadows⟩ := hidle.enter_removed h hscale hk hv hs.frame hlayout henter
      refine .inl ⟨s1, s1', rfl, step_of_case htodo' hinstr' (.jump target s1' hterm ?_ (hs.block ▸ henter')), hshadows⟩
      have := jump?_rename (ρ := id) hread
      rwa [mapOperands_id (f := id) fun _ _ => rfl, htarget] at this
    | ret v? x? heq hx =>
      subst heq
      refine .inr ⟨x?, rfl, step_of_case htodo' hinstr' (.ret v? x? rfl ?_)⟩
      have := readMask_rename (ρ := id) v? hread
      rwa [Option.map_id, hx] at this
    | again _ _ _ hterm _ hnil =>
      obtain ⟨init', hinit'⟩ := hrest hterm
      exact absurd (hnil.symm.trans hinit') (by simp)
    | onward x _ hterm heval _ =>
      obtain ⟨init', hinit'⟩ := hrest hterm
      have hne : rest.filter (· ≠ i) ≠ [] := by
        rw [hinit', filter_append, filter_cons_of_pos (by simpa using hlastNe)]
        simp
      refine .inl ⟨_, _, rfl, step_of_case htodo' hinstr' (.onward x w1 hterm ?_ hne), ?_⟩
      · rw [hidle.eval_eq h hscale hs.frame hmem hji hinstr]
        exact heval
      · rw [h.result?]
        exact honward hterm (hs.frame.record _ x)

omit h hscale hk hv in
/-- The removed instruction makes no call that could not be left out. -/
theorem lastingCall?_removed (htodo : s.todo = i :: rest) : Moment.lastingCall? m classify ⟨s, w⟩ = none := by
  rw [Moment.lastingCall?, Moment.inst?, htodo, head?_cons, Option.bind_some]
  cases hinstr : m.kernel.instr? i with
  | none => rfl
  | some instr =>
    cases instr with
    | call callee args mask =>
      obtain ⟨_, _, _, kind, _, hkind, hyes⟩ := (isRemovable_eq_true hinstr hidle.removable).2 rfl
      exact if_pos (by rw [hkind]; exact hyes)
    | _ => rfl

omit hk hv in
/-- Every other instruction makes the calls it made. -/
theorem lastingCall?_eq (hs : m.kernel.Shadows i v s s') (htodo : s.todo = j :: rest) (hji : j ≠ i) :
    Moment.lastingCall? m' classify ⟨s', w⟩ = Moment.lastingCall? m classify ⟨s, w⟩ := by
  have hmem := mem_flatMap.mpr ⟨s.block, hs.layout, hs.mem j (htodo ▸ (.head _))⟩
  have htodo' := hs.todo
  rw [htodo, filter_cons_of_pos (by simpa using hji)] at htodo'
  rw [Moment.lastingCall?, Moment.lastingCall?, Moment.inst?, Moment.inst?, htodo, htodo', head?_cons, head?_cons,
    Option.bind_some, Option.bind_some, h.instr?_ne hji, h.callKind?_eq hji]
  cases hinstr : m.kernel.instr? j with
  | none => rfl
  | some instr =>
    cases instr with
    | call callee args mask =>
      have hread := hidle.read_operand h hscale hs.frame hmem hji hinstr
      have hmask : m'.readMask s'.frame mask = m.readMask s.frame mask := by
        have := readMask_rename (ρ := id) mask fun u hu => hread u (mem_append_right _ hu)
        rwa [Option.map_id] at this
      dsimp only
      rw [mapM_congr fun u hu => hread u (mem_append_left _ hu), hmask]
    | _ => rfl

variable (hno : m.kernel.AllocatesNothing) (hquiet : env.Quiet m.kernel classify)
include hno hquiet

/-- A run goes on the same, within the same steps at most. -/
theorem advance_removed {budget budget' : Nat}
    (hs : m.kernel.Shadows i v s s') (hle : budget ≤ budget') (hrun : m.advance env limit budget s w = .ok r w') :
    m'.advance env limit budget' s' w = .ok r w' ∧
      (m'.trail env budget' ⟨s', w⟩).filterMap (·.lastingCall? m' classify) =
        (m.trail env budget ⟨s, w⟩).filterMap (·.lastingCall? m classify) := by
  induction budget generalizing s s' w budget' with
  | zero => exact absurd hrun Exec.throw_ne_ok
  | succ budget ih =>
    obtain ⟨rest', rfl⟩ : ∃ rest', budget' = rest' + 1 := Nat.exists_eq_add_of_le' (Nat.le_trans (Nat.le_add_left 1 budget) hle)
    rcases advance_succ hrun with ⟨s1, w1, hstep, hnext⟩ | hstep
    · rw [trail_next (m := m) (c := ⟨s, w⟩) hstep]
      rcases hidle.step_removed h hscale hk hv hno hquiet hs hstep with
        ⟨rest, _, htodo, heq, rfl, hs1⟩ | ⟨⟨j, rest, htodo, hji⟩, ⟨_, s1', heq, hstep', hs1⟩ | ⟨_, heq, _⟩⟩
      · obtain rfl := Progress.next.inj heq
        rw [filterMap_cons_none (hidle.lastingCall?_removed htodo)]
        exact ih hs1 (Nat.le_of_succ_le hle) hnext
      · obtain rfl := Progress.next.inj heq
        obtain ⟨hrun', hcalls⟩ := ih hs1 (Nat.le_of_succ_le_succ hle) hnext
        rw [advance_next hstep', trail_next (m := m') (c := ⟨s', w⟩) hstep', filterMap_cons, filterMap_cons,
          hidle.lastingCall?_eq h hscale hs htodo hji, hcalls]
        exact ⟨hrun', rfl⟩
      · cases heq
    · rw [trail_done (m := m) (c := ⟨s, w⟩) hstep]
      rcases hidle.step_removed h hscale hk hv hno hquiet hs hstep with
        ⟨_, _, _, heq, _⟩ | ⟨⟨j, rest, htodo, hji⟩, ⟨_, _, heq, _⟩ | ⟨_, heq, hstep'⟩⟩
      · cases heq
      · cases heq
      · obtain rfl := Progress.done.inj heq
        rw [trail_done (m := m') (c := ⟨s', w⟩) hstep', filterMap_cons, filterMap_cons,
          hidle.lastingCall?_eq h hscale hs htodo hji]
        exact ⟨advance_done hstep', rfl⟩

/-- A run that returns does so without the removed instruction, and makes the same calls. -/
theorem run_removed (hrun : m.run env args limit w = .ok r w') :
    m'.run env args limit w = .ok r w' ∧
      m'.lastingCalls classify env args limit w = m.lastingCalls classify env args limit w := by
  obtain ⟨entry, hentry⟩ := exists_entry?_of_verify hv
  have hentry' : m'.kernel.entry? = some entry := by rw [ entry?, h.layout]; exact hentry
  obtain ⟨s, henter, hadvance, hmoments⟩ := run_eq_ok hentry hrun
  have hstart : Frame.AgreeBut v { args } { args } := ⟨rfl, fun _ _ => rfl⟩
  obtain ⟨s', henter', hs⟩ := hidle.enter_removed h hscale hk hv hstart (mem_of_head? hentry) henter
  obtain ⟨hadvance', hcalls⟩ := hidle.advance_removed h hscale hk hv hno hquiet hs (Nat.le_refl limit) hadvance
  refine ⟨run_of_enter hentry' ?_ henter' hadvance', ?_⟩
  · rw [h.params]
    exact length_args_of_run hrun
  · rw [lastingCalls, lastingCalls, hmoments, moments_of_enter hentry' henter', hcalls]

end Idle

/-! ## All of them -/

variable {k k' : Kernel} {classify : Classifier} {φ : Flow} {n : Nat}

theorem AllocatesNothing.removed (h : k.AllocatesNothing) (hremoved : Removed k i d k') (hs : k.Sound φ) :
    k'.AllocatesNothing := by
  intro j hj
  rw [hremoved.instsInOrder_eq hs, mem_filter, decide_eq_true_iff] at hj
  rw [hremoved.instr?_ne hj.2]
  exact h j hj.1

theorem quiet_removed {env : Environment σ} (h : env.Quiet k classify) (hremoved : Removed k i d k')
    (hs : k.Sound φ) : env.Quiet k' classify := by
  intro j hj callee args mask kind
  rw [hremoved.instsInOrder_eq hs, mem_filter, decide_eq_true_iff] at hj
  rw [hremoved.instr?_ne hj.2, hremoved.callKind?_eq hj.2]
  exact h j hj.1 callee args mask kind

/-- **Without idle instructions a kernel does what it did.** -/
theorem Sheds.run (h : Sheds classify n k k') (hk : k.Coherent) (hv : k.verify = .ok ()) (hno : k.AllocatesNothing)
    {env : Environment σ} (hquiet : env.Quiet k classify) (vscale : Nat) {w w' : World σ}
    (hrun : run ⟨k, vscale⟩ env args limit w = .ok r w') :
    run ⟨k', vscale⟩ env args limit w = .ok r w' ∧
      lastingCalls ⟨k', vscale⟩ classify env args limit w = lastingCalls ⟨k, vscale⟩ classify env args limit w := by
  induction h with
  | refl => exact ⟨hrun, rfl⟩
  | @step n k k1 k' i v d hidle hremoved _ ih =>
    obtain ⟨entry, hentry⟩ := exists_entry?_of_verify hv
    have hs := sound_of_verify hentry hk hv
    have hremoved' : Removed (Machine.mk k vscale).kernel i d (Machine.mk k1 vscale).kernel := hremoved
    obtain ⟨hrun1, hcalls1⟩ := hidle.run_removed hremoved' rfl hk hv hno hquiet hrun
    obtain ⟨hrun', hcalls'⟩ := ih (hk.removed hremoved) (hidle.verify_removed hremoved hk hv) (hno.removed hremoved hs)
      (quiet_removed hquiet hremoved hs) hrun1
    exact ⟨hrun', hcalls'.trans hcalls1⟩

/-- **Removing what is unused is sound and complete.** It answers with the number of instructions that went. What is left
is verified and has no instruction that could go and whose result no other reads, so removing again changes nothing. If no
instruction makes room in memory and the calls that could be left out do nothing but answer, then whatever the kernel
returned, and what it left of the world, comes of the rest as well, within the same steps and with the same other calls. -/
theorem removeUnused_of_verify (hk : k.Coherent) (hv : k.verify = .ok ()) (classify : Classifier) :
    ∃ k' n, k.removeUnused classify = .ok (k', n) ∧ k'.liveCount + n = k.liveCount ∧ k'.verify = .ok () ∧
      (∀ i v, ¬k'.Idle classify i v) ∧ k'.removeUnused classify = .ok (k', 0) ∧
      (k.AllocatesNothing → ∀ (σ : Type) (env : Environment σ), env.Quiet k classify → ∀ vscale args limit w r w',
        run ⟨k, vscale⟩ env args limit w = .ok r w' →
          run ⟨k', vscale⟩ env args limit w = .ok r w' ∧
            lastingCalls ⟨k', vscale⟩ classify env args limit w =
              lastingCalls ⟨k, vscale⟩ classify env args limit w) := by
  obtain ⟨k', n, hremove, hsheds, hnone⟩ := exists_removeUnused hk hv classify
  obtain ⟨hk', hv', hcount⟩ := hsheds.verify hk hv
  refine ⟨k', n, hremove, hcount, hv', hnone, ?_, fun hno σ env hquiet vscale args limit w r w' hrun =>
    hsheds.run hk hv hno hquiet vscale hrun⟩
  obtain ⟨k'', n', hagain, hsheds', _⟩ := exists_removeUnused hk' hv' classify
  cases hsheds' with
  | refl => exact hagain
  | step hidle => exact absurd hidle (hnone _ _)

end Kernel

/-- Counts to two and notes it. In the loop a phi reads only itself, a loaded word is multiplied for nothing, and an answer is
not used. -/
def busyLoop : Kernel := .ofListing "busy_loop" (.scalar .i32) [("p", .scalar .ptr)]
  [(.int 0, .scalar .i32), (.int 1, .scalar .i32), (.int 2, .scalar .i32)]
  [("entry", [(.br 1, .void)]),
    ("loop", [(.phi [(0, 1), (1, 4)], .scalar .i32), (.phi [(0, 1), (1, 8)], .scalar .i32),
      (.load 0 none 4, .scalar .i32), (.binary .mul 6 5, .scalar .i32),
      (.binary .add 5 2, .scalar .i32), (.call "get_global_id" [1] none, .scalar .i64),
      (.compare .slt 8 3, .bool), (.condBr 10 1 2, .void)]),
    ("exit", [(.call "note" [8] none, .void), (.ret (some 8), .void)])]

/-- Keeps what is noted and answers everything else. -/
def notes : Environment (List Val) := fun callee args w =>
  if callee = "note" then .ok none { w with env := w.env ++ args } else .ok (some (.scalar (.i64 0))) w

/-- A word for the loop to load, and no notes yet. -/
def blankWorld : World (List Val) := ⟨⟨Array.replicate 68 0⟩, []⟩

theorem allocatesNothing_busyLoop : busyLoop.AllocatesNothing := by
  have hkind : ∀ i ∈ busyLoop.instsInOrder, (busyLoop.instr? i).all (fun x => x.onlyComputes || x.mayRead) = true := by
    decide +kernel
  intro i hi elem count hinstr
  have := hkind i hi
  rw [hinstr] at this
  exact absurd this (by simp [onlyComputes, mayRead])

theorem quiet_busyLoop : notes.Quiet busyLoop (Builtins.classify {}) := by
  have hcalls : ∀ i ∈ busyLoop.instsInOrder,
      ((busyLoop.callKind? (Builtins.classify {}) i).toOption.bind id).any CallKind.isRemovable = true →
        busyLoop.instr? i = some (.call "get_global_id" [1] none) := by decide +kernel
  intro i hi callee args mask kind hinstr hcall hyes xs w x w' h
  obtain ⟨rfl, _⟩ := call.inj (mem_unique (hcalls i hi (by rw [hcall]; exact hyes)) hinstr)
  rw [notes, if_neg (by decide)] at h
  exact (EStateM.Result.ok.inj h).2.symm

/-- The phi, the product and the unused answer go first, and then the load that only the product read. -/
theorem removed_busyLoop : busyLoop.Coherent ∧ busyLoop.verify = .ok () ∧ ∃ k',
    busyLoop.removeUnused (Builtins.classify {}) = .ok (k', 4) ∧ k'.liveCount = 7 ∧ k'.verify = .ok () ∧
    k'.removeUnused (Builtins.classify {}) = .ok (k', 0) ∧
    run ⟨k', 1⟩ notes [.scalar (.ptr 64)] 100 blankWorld =
      .ok (some (.scalar (.i32 2))) { blankWorld with env := [.scalar (.i32 2)] } ∧
    lastingCalls ⟨k', 1⟩ (Builtins.classify {}) notes [.scalar (.ptr 64)] 100 blankWorld =
      [("note", [.scalar (.i32 2)], none)] := by
  have hk : busyLoop.Coherent := by decide +kernel
  have hv : busyLoop.verify = .ok () := by decide +kernel
  have hcount : (busyLoop.removeUnused (Builtins.classify {})).toOption.map (·.2) = some 4 := by decide +kernel
  obtain ⟨k', n, hremove, hlive, hv', _, hagain, hruns⟩ := Kernel.removeUnused_of_verify hk hv (Builtins.classify {})
  rw [hremove] at hcount
  obtain rfl : n = 4 := Option.some.inj hcount
  obtain ⟨hrun, hcalls⟩ := hruns allocatesNothing_busyLoop _ notes quiet_busyLoop 1 [.scalar (.ptr 64)] 100 blankWorld _ _ rfl
  exact ⟨hk, hv, k', hremove, Nat.add_right_cancel hlive, hv', hagain, hrun, hcalls⟩

end Spmd
