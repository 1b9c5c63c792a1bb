import Spmd.Proofs.Exec.Step
import Spmd.Proofs.Kernel.Sound

/-!
# Values are written before they are read

A value that nothing wrote reads as zero. In a run of a verified kernel this never happens to the value of an
instruction, and a phi never lacks an input or has two (**`Machine.written_of_reads`**).

* **`Exec.Yields`** — an action that gives a value whenever it succeeds. Every instruction that defines a value
  yields one (`Machine.yields_eval`).
* **`Informed`** — the invariant of a run: what is ready at its place has been written. It holds when the entry is
  entered, and a step keeps it (`Informed.step`).
-/

namespace Spmd

open List Kernel Machine Option

variable {σ : Type} {env : Environment σ} {m : Machine} {args : List Val} {rest : List InstId} {i : InstId}
  {entry : BlockId}

/-! ## Instructions that give a value -/

namespace Exec

variable {α : Type} {v : Val}

/-- The action gives a value if it succeeds. -/
def Yields (x : Exec σ (Option Val)) : Prop := ∀ w r w', x w = .ok r w' → r.isSome = true

namespace Yields

theorem pure_some : Yields (pure (some v) : Exec σ (Option Val)) := by
  intro w r w' h
  obtain ⟨rfl, _⟩ := pure_eq_ok.mp h
  rfl

theorem map_some (x : Exec σ Val) : Yields (some <$> x) := by
  intro w r w' h
  obtain ⟨v, _, rfl⟩ := map_eq_ok.mp h
  rfl

theorem bind {x : Exec σ α} {f : α → Exec σ (Option Val)} (hf : ∀ a, Yields (f a)) : Yields (x >>= f) := by
  intro w r w' h
  obtain ⟨a, u, _, h⟩ := bind_eq_ok.mp h
  exact hf a u r w' h

end Yields

end Exec

/-- Instructions that give no value: stores, scatters and terminators. -/
def Instr.isSilent : Instr → Bool
  | store .. | strideStore .. | scatter .. | br _ | condBr .. | switch .. | ret _ | unreachable => true
  | _ => false

theorem Instr.isSilent_of_isTerminator {instr : Instr} (h : instr.isTerminator = true) : instr.isSilent = true := by
  cases instr with
  | br _ | condBr _ _ _ | switch _ _ _ | ret _ | unreachable => rfl
  | _ => exact absurd h (by simp [isTerminator])

namespace Machine

theorem yields_call {callee : String} {mask : Option Val} {ty : Ty} (hty : ty.isVoid = false)
    (henv : ∀ xs, (env callee xs).Yields) : Exec.Yields (m.call env callee args mask ty) := by
  unfold call
  split
  · split
    · exact henv args
    · rw [hty]
      exact .bind fun _ => .pure_some
  · refine .bind fun results => ?_
    rw [hty]
    exact .pure_some

/-- **What defines a value gives one**, if the environment does. -/
theorem yields_eval (m : Machine) (env : Environment σ) (f : Frame) (i : InstId) {instr : Instr}
    (hsilent : instr.isSilent = false) (hphi : instr.isPhi = false)
    (hcall : ∀ callee args mask, instr = .call callee args mask →
      (m.kernel.resultTy i).isVoid = false ∧ ∀ xs, (env callee xs).Yields) : (m.eval env f i instr).Yields := by
  cases instr with
  | binary _ _ _ | compare _ _ _ | elementPtr _ _ _ | load _ _ _ | strideLoad _ _ _ | gather _ _ | extract _ _ =>
    exact .bind fun _ => .bind fun _ => .map_some _
  | unary _ _ | cast _ _ | reduce _ _ => exact .bind fun _ => .map_some _
  | select _ _ _ => exact .bind fun _ => .bind fun _ => .bind fun _ => .pure_some
  | alloca _ _ | stepVector => exact .bind fun _ => .pure_some
  | call callee args mask =>
    obtain ⟨hty, henv⟩ := hcall callee args mask rfl
    exact .bind fun _ => .bind fun _ => yields_call hty henv
  | splat _ | shuffle _ _ => exact .bind fun _ => .bind fun _ => .pure_some
  | insert _ _ _ => exact .bind fun _ => .bind fun _ => .bind fun _ => .bind fun _ => .bind fun _ => .pure_some
  | phi _ => exact absurd hphi (by simp [Instr.isPhi])
  | store _ _ _ _ | strideStore _ _ _ _ | scatter _ _ _ | br _ | condBr _ _ _ | switch _ _ _ | ret _ | unreachable =>
    exact absurd hsilent (by simp [Instr.isSilent])

/-- Every linked instruction with a result can be trusted to give one: stores, scatters and terminators have none, and
a call with a result is not void and is answered with a value. -/
structure Answering (m : Machine) (env : Environment σ) : Prop where
  silent : ∀ b ∈ m.kernel.layout, ∀ i ∈ m.kernel.instsOf b, ∀ instr, m.kernel.instr? i = some instr →
    instr.isSilent = true → m.kernel.result? i = none
  answers : ∀ b ∈ m.kernel.layout, ∀ i ∈ m.kernel.instsOf b, ∀ callee args mask,
    m.kernel.instr? i = some (.call callee args mask) → (m.kernel.result? i).isSome = true →
      (m.kernel.resultTy i).isVoid = false ∧ ∀ xs, (env callee xs).Yields

/-- The values that the step from a state reads: the operands of the next instruction, and if that one jumps, the
inputs of the phis behind the jump for the block that is left. -/
inductive Reads (m : Machine) (s : RunState) : ValueId → Prop where
  | operand {i : InstId} {rest : List InstId} {instr : Instr} {v : ValueId} (htodo : s.todo = i :: rest)
      (hinstr : m.kernel.instr? i = some instr) (hv : v ∈ instr.operands) : Reads m s v
  | input {i phi : InstId} {rest : List InstId} {instr : Instr} {target : BlockId} {incoming : List (BlockId × ValueId)}
      {v : ValueId} (htodo : s.todo = i :: rest) (hinstr : m.kernel.instr? i = some instr)
      (htarget : m.jump? s.frame instr = .ok (some target)) (hphi : phi ∈ m.kernel.leadingPhis target)
      (hincoming : m.kernel.instr? phi = some (.phi incoming)) (hv : (s.block, v) ∈ incoming) : Reads m s v

end Machine

/-! ## Frames -/

/-- The frame holds the value, unless no instruction defines it. -/
def Frame.Knows (f : Frame) (k : Kernel) (v : ValueId) : Prop :=
  ∀ d j, k.value? v = some d → d.kind = .inst j → v ∈ f.results

namespace Frame

variable {f : Frame} {v w : ValueId} {x : Val}

theorem mem_define : w ∈ (f.define v x).results ↔ w = v ∨ w ∈ f.results := by
  rw [define, Std.TreeMap.mem_insert, Std.LawfulEqOrd.compare_eq_iff_eq, eq_comm]

/-- Recording a result loses none. -/
theorem mem_record_of_mem (h : w ∈ f.results) (v? : Option ValueId) (x? : Option Val) : w ∈ (f.record v? x?).results := by
  cases v? with
  | none => exact h
  | some v =>
    cases x? with
    | none => exact h
    | some x => exact mem_define.mpr (.inr h)

end Frame

namespace Machine

variable {f : Frame} {v : ValueId}

/-- Phis lose no results and add their own. -/
theorem mem_definePhis {phis : List (InstId × Val)}
    (h : v ∈ f.results ∨ ∃ p ∈ phis, m.kernel.result? p.1 = some v) : v ∈ (m.definePhis f phis).results := by
  induction phis generalizing f with
  | nil =>
    rcases h with h | ⟨p, hp, _⟩
    · exact h
    · exact absurd hp not_mem_nil
  | cons p phis ih =>
    unfold definePhis
    rw [foldl_cons]
    refine ih ?_
    rcases h with h | ⟨q, hq, hv⟩
    · exact .inl (Frame.mem_record_of_mem h _ _)
    · rcases mem_cons.mp hq with rfl | hq
      · refine .inl ?_
        show v ∈ (f.record (m.kernel.result? q.1) (some q.2)).results
        rw [hv]
        exact Frame.mem_define.mpr (.inl rfl)
      · exact .inr ⟨q, hq, hv⟩

end Machine

/-! ## The invariant of a run -/

/-- What is ready where a run stands has been written. The instructions in front of that place are the ones that
were carried out since the block was entered. -/
structure Informed (m : Machine) (φ : Flow) (s : RunState) : Prop where
  reached : φ.Reached s.block
  knows : ∃ pre, m.kernel.instsOf s.block = pre ++ s.todo ∧ (∀ i ∈ s.todo, m.kernel.isPhi i = false) ∧
    ∀ v, m.kernel.Ready φ s.block pre v → s.frame.Knows m.kernel v

namespace Informed

variable {φ : Flow} {s s' : RunState} {w w' : World σ}

section

variable (hs : m.kernel.Sound φ) (hv : m.kernel.verify = .ok ())
include hs hv

/-- Entering a block: what is ready behind its phis is one of them, or was ready in front of them. -/
theorem enter {f : Frame} {b : BlockId} {prev : Option BlockId} (hb : φ.Reached b) (henter : m.enter f b prev = .ok s)
    (hf : ∀ v, m.kernel.Ready φ b [] v → f.Knows m.kernel v) : Informed m φ s := by
  obtain ⟨values, hvalues, rfl, _, hframe, htodo, _⟩ := enter_eq_ok henter
  have hsplit := instsOf_eq_of_verify hv (hs.reach s.block hb)
  refine ⟨hb, m.kernel.leadingPhis s.block, htodo ▸ hsplit, fun i hi => ?_, fun v hready d j hd hj => ?_⟩
  · rw [htodo] at hi
    simpa using (mem_filter.mp hi).2
  · rw [hframe]
    refine mem_definePhis ?_
    by_cases hphi : j ∈ m.kernel.leadingPhis s.block
    · -- a phi of this block
      have hresult : m.kernel.result? j = some v := hs.coherent.owned j v (by rw [hd, map_some, hj])
      have hlen := (Success.mapM_eq_ok.mp hvalues).length_eq
      obtain ⟨n, hn, hget⟩ := mem_iff_getElem.mp hphi
      refine .inr ⟨(j, values[n]), mem_iff_getElem.mpr ⟨n, by simp; omega, ?_⟩, hresult⟩
      simp [hget]
    · refine .inl (hf v ?_ d j hd hj)
      obtain ⟨d', hd', hplace⟩ := hready
      obtain rfl := mem_unique hd hd'
      refine ⟨d, hd, fun j' hj' => ?_⟩
      cases hj.symm.trans hj'
      obtain ⟨e, he, halive, ⟨_, hin⟩ | hother⟩ := hplace j hj
      · exact absurd hin hphi
      · exact ⟨e, he, halive, .inr hother⟩

/-- The start of a run. -/
theorem start (henter : m.enter { args } φ.root none = .ok s) : Informed m φ s := by
  refine enter hs hv .refl henter fun v hready d j hd hj => ?_
  -- nothing is ready at the start of the root: no other block is above it
  obtain ⟨d', hd', hplace⟩ := hready
  obtain rfl := mem_unique hd hd'
  obtain ⟨e, _, _, ⟨_, hin⟩ | ⟨hne, _, hdom⟩⟩ := hplace j hj
  · exact absurd hin not_mem_nil
  · rcases hdom with hroot | hnot
    · exact absurd hroot hne
    · exact absurd .refl hnot

end

section

variable (hs : m.kernel.Sound φ) (hv : m.kernel.verify = .ok ()) (hanswering : m.Answering env) {instr : Instr}
  {v : ValueId}
include hs

/-- The operands of the next instruction have been written. -/
theorem knows_operand (h : Informed m φ s) (htodo : s.todo = i :: rest) (hinstr : m.kernel.instr? i = some instr)
    (hmem : v ∈ instr.operands) : s.frame.Knows m.kernel v := by
  obtain ⟨pre, hsplit, hphi, hknows⟩ := h.knows
  have hnotPhi : instr.isPhi = false := by
    have := hphi i (htodo ▸ (.head _))
    rwa [isPhi, hinstr] at this
  exact hknows v (hs.ordered s.block h.reached pre i rest (htodo ▸ hsplit) instr hinstr hnotPhi v hmem)

include hanswering in
/-- What is ready at the end of a block has been written once only the terminator is left. -/
theorem knows_end (h : Informed m φ s) (htodo : s.todo = i :: rest) (hrest : rest = [])
    (hinstr : m.kernel.instr? i = some instr) (hterm : instr.isTerminator = true)
    (hready : m.kernel.Ready φ s.block (m.kernel.instsOf s.block) v) : s.frame.Knows m.kernel v := by
  obtain ⟨pre, hsplit, _, hknows⟩ := h.knows
  subst hrest
  have hnone : m.kernel.result? i = none :=
    hanswering.silent s.block (hs.reach s.block h.reached) i (by simp [hsplit, htodo]) instr hinstr
      (Instr.isSilent_of_isTerminator hterm)
  refine hknows v ?_
  obtain ⟨d, hd, hplace⟩ := hready
  refine ⟨d, hd, fun j hj => ?_⟩
  obtain ⟨e, he, halive, ⟨hblock, hin⟩ | hother⟩ := hplace j hj
  · refine ⟨e, he, halive, .inl ⟨hblock, ?_⟩⟩
    rw [hsplit, htodo, mem_append, mem_singleton] at hin
    refine hin.resolve_right fun hji => ?_
    -- the terminator defines nothing
    have hresult := hs.coherent.owned j v (by rw [hd, map_some, hj])
    rw [hji, hnone] at hresult
    cases hresult
  · exact ⟨e, he, halive, .inr hother⟩

include hv in
/-- A terminator is the last thing left to do in its block. -/
theorem rest_eq_nil_iff (h : Informed m φ s) (htodo : s.todo = i :: rest) (hinstr : m.kernel.instr? i = some instr) :
    rest = [] ↔ instr.isTerminator = true := by
  obtain ⟨pre, hsplit, _, _⟩ := h.knows
  have := isTerminator_iff_of_verify hv (hs.reach s.block h.reached) (htodo ▸ hsplit)
  rw [hinstr] at this
  exact this.symm

include hanswering in
/-- What an instruction computes is written before the run goes on. -/
theorem onward (h : Informed m φ s) {x : Option Val} (htodo : s.todo = i :: rest)
    (hinstr : m.kernel.instr? i = some instr) (hterm : instr.isTerminator = false)
    (heval : m.eval env s.frame i instr w = .ok x w') :
    Informed m φ { s with frame := s.frame.record (m.kernel.result? i) x, todo := rest } := by
  obtain ⟨pre, hsplit, hphi, hknows⟩ := h.knows
  have hlayout := hs.reach s.block h.reached
  have hmem : i ∈ m.kernel.instsOf s.block := by simp [hsplit, htodo]
  have hnotPhi : instr.isPhi = false := by
    have := hphi i (htodo ▸ (.head _))
    rwa [isPhi, hinstr] at this
  refine ⟨h.reached, pre ++ [i], ?_, fun j hj => hphi j (htodo ▸ .tail _ hj), fun v hready d j hd hj => ?_⟩
  · rw [hsplit, htodo]
    simp
  · by_cases hji : j = i
    · -- the value of the instruction itself
      subst hji
      have hresult : m.kernel.result? j = some v := hs.coherent.owned j v (by rw [hd, map_some, hj])
      have hsome : (m.kernel.result? j).isSome = true := by rw [hresult]; rfl
      have hsilent : instr.isSilent = false := by
        by_contra hsilent
        have hnone := hanswering.silent s.block hlayout j hmem instr hinstr (by simpa using hsilent)
        rw [hresult] at hnone
        cases hnone
      have hyields := yields_eval m env s.frame j hsilent hnotPhi (by
        rintro callee args mask rfl
        exact hanswering.answers s.block hlayout j hmem callee args mask hinstr hsome)
      obtain ⟨y, rfl⟩ := isSome_iff_exists.mp (hyields w x w' heval)
      rw [hresult]
      exact Frame.mem_define.mpr (.inl rfl)
    · refine Frame.mem_record_of_mem (hknows v ?_ d j hd hj) _ _
      obtain ⟨d', hd', hplace⟩ := hready
      obtain rfl := mem_unique hd hd'
      refine ⟨d, hd, fun j' hj' => ?_⟩
      cases hj.symm.trans hj'
      obtain ⟨e, he, halive, ⟨hblock, hin⟩ | hother⟩ := hplace j hj
      · refine ⟨e, he, halive, .inl ⟨hblock, ?_⟩⟩
        exact (mem_append.mp hin).resolve_right fun hin => hji (mem_singleton.mp hin)
      · exact ⟨e, he, halive, .inr hother⟩

end

section

variable (hk : m.kernel.Coherent) (hv : m.kernel.verify = .ok ()) (hentry : m.kernel.entry? = some entry)
  (hanswering : m.Answering env)
include hk hv hentry

omit hk in
/-- A jump goes from the block where the run stands to one of its successors, when nothing else is left to do there. -/
theorem next_of_jump (h : Informed m (m.kernel.flow entry) s) {instr : Instr} {target : BlockId}
    (htodo : s.todo = i :: rest) (hinstr : m.kernel.instr? i = some instr)
    (htarget : m.jump? s.frame instr = .ok (some target)) :
    instr.isTerminator = true ∧ (m.kernel.flow entry).next s.block target := by
  obtain ⟨_, _, g, hg, _⟩ := verify_eq_ok.mp hv
  have hsucc := mem_successors_of_jump? htarget
  have hterm : instr.isTerminator = true := by
    cases instr with
    | br _ | condBr _ _ _ | switch _ _ _ => rfl
    | _ => exact absurd hsucc (by simp [Instr.successors])
  obtain ⟨pre, hsplit, _, _⟩ := h.knows
  have hb := order_subset_layout hv hg ((mem_order_iff_reached hg hentry).mpr h.reached)
  exact ⟨hterm, hb, mem_successors_of_verify hv hb (by simp [hsplit, htodo]) hinstr hterm htarget⟩

include hanswering

/-- **A step keeps a run informed.** -/
theorem step (h : Informed m (m.kernel.flow entry) s) (hstep : m.step env s w = .ok (.next s') w') :
    Informed m (m.kernel.flow entry) s' := by
  have hs := sound_of_verify hentry hk hv
  obtain ⟨i, rest, instr, htodo, hinstr, hcase⟩ := step_cases hstep
  cases hcase with
  | jump target _ hterm htarget henter =>
    obtain ⟨_, hnext⟩ := h.next_of_jump hv hentry htodo hinstr htarget
    have hrest := (h.rest_eq_nil_iff hs hv htodo hinstr).mpr hterm
    refine enter hs hv (h.reached.step hnext) henter fun v hready => ?_
    exact h.knows_end hs hanswering htodo hrest hinstr hterm (hready.up hs hnext)
  | again x _ _ hterm _ hrest _ =>
    -- a verified block ends with a terminator
    exact absurd ((h.rest_eq_nil_iff hs hv htodo hinstr).mp hrest) (by simp [hterm])
  | onward x _ hterm heval _ => exact h.onward hs hanswering htodo hinstr hterm heval

/-- What a step reads has been written. -/
theorem knows_of_reads (h : Informed m (m.kernel.flow entry) s) {v : ValueId} (hreads : m.Reads s v) :
    s.frame.Knows m.kernel v := by
  have hs := sound_of_verify hentry hk hv
  cases hreads with
  | operand htodo hinstr hmem => exact h.knows_operand hs htodo hinstr hmem
  | input htodo hinstr htarget hphi hincoming hmem =>
    obtain ⟨hterm, hnext⟩ := h.next_of_jump hv hentry htodo hinstr htarget
    have hrest := (h.rest_eq_nil_iff hs hv htodo hinstr).mpr hterm
    refine h.knows_end hs hanswering htodo hrest hinstr hterm ?_
    exact hs.phis _ (h.reached.step hnext) _ (takeWhile_subset _ hphi) _ hincoming _ hmem h.reached

end

/-- A run of a verified kernel stays informed. -/
theorem moments (hk : m.kernel.Coherent) (hv : m.kernel.verify = .ok ()) (hentry : m.kernel.entry? = some entry)
    (hanswering : m.Answering env) {limit : Nat} {c : Moment σ} (hc : c ∈ m.moments env args limit w) :
    Informed m (m.kernel.flow entry) c.state := by
  have hs := sound_of_verify hentry hk hv
  refine moments_invariant (P := Informed m (m.kernel.flow entry)) (fun entry' s hentry' henter => ?_)
    (fun _ h hstep => h.step hk hv hentry hanswering hstep) c hc
  obtain rfl := mem_unique hentry hentry'
  exact start hs hv henter

end Informed

/-- **Nothing is read before it is written.** Wherever a run of a verified kernel gets to, the instruction results that
its next step reads are in the frame, and every phi behind a jump has exactly one input for the block that is left. -/
theorem Machine.written_of_reads {σ : Type} {m : Machine} {env : Environment σ} (hk : m.kernel.Coherent)
    (hv : m.kernel.verify = .ok ()) (hanswering : m.Answering env) {args : List Val} {limit : Nat} {w : World σ}
    {c : Moment σ} (hc : c ∈ m.moments env args limit w) :
    (∀ v, m.Reads c.state v → ∀ d j, m.kernel.value? v = some d → d.kind = .inst j → v ∈ c.state.frame.results) ∧
    ∀ i rest instr target, c.state.todo = i :: rest → m.kernel.instr? i = some instr →
      m.jump? c.state.frame instr = .ok (some target) → ∀ phi ∈ m.kernel.leadingPhis target, ∀ incoming,
        m.kernel.instr? phi = some (.phi incoming) → incoming.countP (·.1 = c.state.block) = 1 := by
  obtain ⟨entry, hentry⟩ : ∃ entry, m.kernel.entry? = some entry := by
    cases hentry : m.kernel.entry? with
    | some entry => exact ⟨entry, rfl⟩
    | none =>
      rw [moments, hentry] at hc
      exact absurd hc not_mem_nil
  have h := Informed.moments hk hv hentry hanswering hc
  refine ⟨fun v hreads => h.knows_of_reads hk hv hentry hanswering hreads, ?_⟩
  intro i rest instr target htodo hinstr htarget phi hphi incoming hincoming
  obtain ⟨_, hnext⟩ := h.next_of_jump hv hentry htodo hinstr htarget
  have hmatch := phisMatch_of_verify hentry hv target (h.reached.step hnext) phi (takeWhile_subset _ hphi)
    incoming hincoming
  exact hmatch.1 c.state.block h.reached hnext

/-- Counts from zero up to what a call answers. -/
def countUp : Kernel where
  name := "count_up"
  ret := .scalar .i64
  values := ⟨#[⟨.inst 0, .scalar .i64⟩, ⟨.const (.int 0), .scalar .i64⟩, ⟨.const (.int 1), .scalar .i64⟩,
    ⟨.inst 2, .scalar .i64⟩, ⟨.inst 3, .scalar .i64⟩, ⟨.inst 4, .bool⟩]⟩
  insts := ⟨#[⟨.call "bound" [] none, some 0, 0, false⟩, ⟨.br 1, none, 0, false⟩,
    ⟨.phi [(0, 1), (1, 4)], some 3, 1, false⟩, ⟨.binary .add 3 2, some 4, 1, false⟩,
    ⟨.compare .slt 4 0, some 5, 1, false⟩, ⟨.condBr 5 1 2, none, 1, false⟩,
    ⟨.ret (some 4), none, 2, false⟩]⟩
  blocks := ⟨#[⟨"entry", [0, 1]⟩, ⟨"loop", [2, 3, 4, 5]⟩, ⟨"exit", [6]⟩]⟩
  layout := [0, 1, 2]

/-- Answers every call with 3. -/
def threeEnv : Environment Unit := fun _ _ => return some (.scalar (.i64 3))

/-- When the loop goes round again, the sum that the phi will read is in the frame, and the phi has one input for it. -/
theorem written_countUp : ∃ c ∈ moments ⟨countUp, 1⟩ threeEnv [] 100 ⟨.empty, ()⟩,
    c.state.block = ⟨1⟩ ∧ c.state.todo = [⟨5⟩] ∧ ⟨4⟩ ∈ c.state.frame.results ∧
      countP (·.1 = c.state.block) [((⟨0⟩, ⟨1⟩) : BlockId × ValueId), (⟨1⟩, ⟨4⟩)] = 1 := by
  have hany : (moments ⟨countUp, 1⟩ threeEnv [] 100 ⟨.empty, ()⟩).any (fun c => c.state.block = 1 &&
      c.state.todo = [5] && (jump? ⟨countUp, 1⟩ c.state.frame (.condBr 5 1 2)).toOption = some (some 1)) =
      true := by
    decide +kernel
  obtain ⟨c, hc, hcond⟩ := any_eq_true.mp hany
  simp only [Bool.and_eq_true, decide_eq_true_eq] at hcond
  obtain ⟨⟨hblock, htodo⟩, hjump⟩ := hcond
  have htarget := Success.eq_ok_of_toOption hjump
  have nonvoid : ∀ b ∈ countUp.layout, ∀ i ∈ countUp.instsOf b, (countUp.result? i).isSome = true →
      (countUp.resultTy i).isVoid = false := by
    decide
  have hanswering : Answering ⟨countUp, 1⟩ threeEnv :=
    ⟨by decide, fun b hb i hi _ _ _ _ hsome => ⟨nonvoid b hb i hi hsome, fun _ => Exec.Yields.pure_some⟩⟩
  obtain ⟨hreads, hphis⟩ := written_of_reads (m := ⟨countUp, 1⟩) (by decide +kernel) (by decide +kernel) hanswering hc
  have hphi : (2 : InstId) ∈ countUp.leadingPhis 1 := by decide
  have hincoming : countUp.instr? 2 = some (.phi [(0, 1), (1, 4)]) := rfl
  refine ⟨c, hc, hblock, htodo, ?_, hphis 5 [] _ 1 htodo rfl htarget 2 hphi _ hincoming⟩
  refine hreads 4 (.input htodo rfl htarget hphi hincoming ?_) _ 3 rfl rfl
  rw [hblock]
  decide

end Spmd
