import Spmd.Proofs.Exec.Passage
import Spmd.Proofs.Kernel.Recast

/-!
# Kernels that do the same

A kernel is recast if other instructions stand in the place of some of its instructions and what is read is renamed
accordingly (`Kernel.Recast`). Frames of the two agree if they hold the same under corresponding names
(`Frame.Agree`). Then instructions that stayed do the same (**`Recast.eval_eq`**), and if the blocks can be passed
in both with the same outcome, the runs have the same outcome (**`Recast.run_of_passes`**).
-/

namespace Spmd

open Success List Machine Instr

variable {instr : Instr} {ρ : ValueId → ValueId} {σ : Type} {m' m : Machine} {v : ValueId} {i : InstId}

/-! ## Renaming what instructions read -/

namespace Machine

variable {f f' : Frame}

theorem jump?_rename (hread : ∀ v ∈ instr.operands, m'.read f' (ρ v) = m.read f v) :
    m'.jump? f' (instr.mapOperands ρ) = m.jump? f instr := by
  cases instr with
  | condBr cond t e => rw [mapOperands, jump?, jump?, hread cond (by simp [operands])]
  | switch value cases default => rw [mapOperands, jump?, jump?, hread value (by simp [operands])]
  | _ => rfl

theorem phiValue_rename (prev : Option BlockId) {incoming : List (BlockId × ValueId)} (hscale : m'.vscale = m.vscale)
    (hinstr : m.kernel.instr? i = some (.phi incoming))
    (hinstr' : m'.kernel.instr? i = some ((phi incoming).mapOperands ρ))
    (hresult : m'.kernel.resultTy i = m.kernel.resultTy i)
    (hread : ∀ v ∈ (phi incoming).operands, m'.read f' (ρ v) = m.read f v) :
    m'.phiValue f' prev i = m.phiValue f prev i := by
  rw [phiValue_eq f' prev hinstr', phiValue_eq f prev hinstr, find?_map, hresult, zeroOf_congr hscale]
  have hpred : (fun x : BlockId × ValueId => some x.1 == prev) ∘ (fun x : BlockId × ValueId => (x.1, ρ x.2)) =
      fun x => some x.1 == prev := rfl
  rw [hpred]
  cases hfind : incoming.find? fun x => some x.1 == prev with
  | none => rfl
  | some x => exact hread x.2 (mem_map_of_mem (mem_of_find?_eq_some hfind))

end Machine

/-! ## Agreeing frames -/

/-- The frames hold the same under corresponding names. -/
structure Frame.Agree (k : Kernel) (ρ : ValueId → ValueId) (f f' : Frame) : Prop where
  args : f'.args = f.args
  results : ∀ v, (k.value? v).isSome = true → f'.results[ρ v]? = f.results[v]?

namespace Frame.Agree

variable {k : Kernel} {f f' : Frame}

/-- Corresponding values are defined. -/
theorem define (h : f.Agree k ρ f') (x : Val) (hinj : ∀ u, (k.value? u).isSome = true → ρ u = ρ v → u = v) :
    (f.define v x).Agree k ρ (f'.define (ρ v) x) := by
  refine ⟨h.args, fun u hu => ?_⟩
  rw [getElem?_define, getElem?_define, h.results u hu]
  by_cases heq : v = u
  · subst heq
    rw [if_pos rfl, if_pos rfl]
  · rw [if_neg heq, if_neg fun hρ => heq (hinj u hu hρ.symm).symm]

/-- A new value is defined that corresponds to none. -/
theorem define_new (h : f.Agree k ρ f') (x : Val) (hnew : ∀ u, (k.value? u).isSome = true → ρ u ≠ v) :
    f.Agree k ρ (f'.define v x) := by
  refine ⟨h.args, fun u hu => ?_⟩
  rw [getElem?_define, if_neg fun heq => hnew u hu heq.symm, h.results u hu]

end Frame.Agree

namespace Kernel.Recast

variable {τ : InstId → List InstId} {f f' : Frame} {b : BlockId}

theorem read_eq (hr : Recast m.kernel m'.kernel ρ τ) (hscale : m'.vscale = m.vscale) (hf : f.Agree m.kernel ρ f')
    (hv : (m.kernel.value? v).isSome = true) : m'.read f' (ρ v) = m.read f v := by
  obtain ⟨d, hd⟩ := isSome_iff_exists.mp hv
  obtain ⟨d', hd', hty, hkind⟩ := hr.values v d hd
  rw [Machine.read_eq f hd, Machine.read_eq f' hd', hf.results v hv, hf.args, hty, zeroOf_congr hscale, constant_congr hscale]
  rcases hkind with hkind | ⟨⟨i, hi⟩, j, hj⟩
  · rw [hkind]
  · rw [hi, hj]

variable {env : Environment σ} {P P' : Moment σ → Prop} (hr : Recast m.kernel m'.kernel ρ τ)
  (hscale : m'.vscale = m.vscale) (hk : m.kernel.Coherent) (hv : m.kernel.verify = .ok ())

include hv in
theorem isSome_of_mem_operands (hb : b ∈ m.kernel.layout) (hi : i ∈ m.kernel.instsOf b)
    (hinstr : m.kernel.instr? i = some instr) (hv' : v ∈ instr.operands) : (m.kernel.value? v).isSome = true :=
  isSome_iff_exists.mpr ((operand_of_verify hv hb hi hinstr hv').imp fun _ h => h.1)

include hr hscale hv

theorem read_operand_eq (hf : f.Agree m.kernel ρ f') (hb : b ∈ m.kernel.layout) (hi : i ∈ m.kernel.instsOf b)
    (hinstr : m.kernel.instr? i = some instr) : ∀ v ∈ instr.operands, m'.read f' (ρ v) = m.read f v :=
  fun _ hv' => hr.read_eq hscale hf (isSome_of_mem_operands hv hb hi hinstr hv')

include hk

/-- **An instruction that stayed does the same.** -/
theorem eval_eq (hf : f.Agree m.kernel ρ f') (hb : b ∈ m.kernel.layout) (hi : i ∈ m.kernel.instsOf b) (hkept : i ∈ τ i)
    (hinstr : m.kernel.instr? i = some instr) :
    m'.kernel.instr? i = some (instr.mapOperands ρ) ∧
      m'.eval env f' i (instr.mapOperands ρ) = m.eval env f i instr :=
  ⟨hr.instr?_kept hb hi hkept hinstr,
    eval_rename i (hr.read_operand_eq hscale hv hf hb hi hinstr) (hr.resultTy_eq hk hb hi hkept)
      (fun _ hv' => hr.valueTy_eq (isSome_of_mem_operands hv hb hi hinstr hv')) env hscale⟩

omit hscale hv in
/-- Recording the result of an instruction that stayed keeps frames in agreement. -/
theorem agree_record (hf : f.Agree m.kernel ρ f') (hb : b ∈ m.kernel.layout) (hi : i ∈ m.kernel.instsOf b)
    (hkept : i ∈ τ i) (x : Option Val) :
    (f.record (m.kernel.result? i) x).Agree m.kernel ρ (f'.record (m'.kernel.result? i) x) := by
  obtain ⟨_, hresult, hsame⟩ := hr.kept b hb i hi hkept
  rw [hresult]
  cases hv : m.kernel.result? i with
  | none => exact hf
  | some v =>
    cases x with
    | none => exact hf
    | some x =>
      obtain ⟨d, hd, _⟩ := map_eq_some_iff.mp (hk.defines i v hv)
      have := hf.define (v := v) x fun u hu hρ => hr.injective u v hu (by rw [hd]; rfl) hρ
      rw [hsame v hv] at this
      exact this

omit hk in
/-- A phi takes the same value. -/
theorem phiValue_eq (hk : m.kernel.Coherent) (hf : f.Agree m.kernel ρ f') (hb : b ∈ m.kernel.layout)
    (hi : i ∈ m.kernel.instsOf b) (hphi : m.kernel.isPhi i = true) (prev : Option BlockId) :
    m'.phiValue f' prev i = m.phiValue f prev i := by
  obtain ⟨incoming, hinstr⟩ := exists_of_isPhi hphi
  have hkept := mem_of_eq_singleton (hr.replaced_of_isPhi hb hi hphi)
  exact phiValue_rename prev hscale hinstr (hr.instr?_kept hb hi hkept hinstr)
    (hr.resultTy_eq hk hb hi hkept) (hr.read_operand_eq hscale hv hf hb hi hinstr)

omit hscale hv in
/-- The values of the phis of a block are recorded under corresponding names. -/
theorem agree_definePhis (hf : f.Agree m.kernel ρ f') (hb : b ∈ m.kernel.layout) {phis : List (InstId × Val)}
    (hmem : ∀ x ∈ phis, x.1 ∈ m.kernel.instsOf b ∧ x.1 ∈ τ x.1) :
    (m.definePhis f phis).Agree m.kernel ρ (m'.definePhis f' phis) := by
  induction phis generalizing f f' with
  | nil => exact hf
  | cons x phis ih =>
    obtain ⟨hi, hkept⟩ := hmem x (.head _)
    exact ih (hr.agree_record hk hf hb hi hkept (some x.2)) fun y hy => hmem y (.tail _ hy)

/-- Entering a block gives frames that agree. -/
theorem enter_eq (hf : f.Agree m.kernel ρ f') (hb : b ∈ m.kernel.layout) {prev : Option BlockId} {s : RunState}
    (h : m.enter f b prev = .ok s) :
    ∃ f1', m'.enter f' b prev = .ok ⟨b, prev, f1', (m'.kernel.instsOf b).filter fun i => !m'.kernel.isPhi i⟩ ∧
      s.frame.Agree m.kernel ρ f1' := by
  obtain ⟨values, hvalues, _, _, hframe, _⟩ := enter_eq_ok h
  obtain ⟨body, last, heq, _, _, _, _, _, hphis, htodo⟩ := hr.parts hv hb
  obtain ⟨_, _, _, _, hisPhi, _⟩ := todo_of_verify hv hb
  have hmem : ∀ i ∈ m.kernel.leadingPhis b, i ∈ m.kernel.instsOf b := fun i hi => heq ▸ mem_append_left _ hi
  have hvalues' : (m'.kernel.leadingPhis b).mapM (m'.phiValue f' prev) = .ok values := by
    rw [hphis, ← hvalues]
    exact mapM_congr fun i hi => hr.phiValue_eq hscale hv hk hf hb (hmem i hi) (hisPhi i hi) prev
  refine ⟨_, enter_of_phis (hr.blocks b hb) hvalues' (by rw [htodo]; simp), ?_⟩
  rw [hframe, hphis]
  refine hr.agree_definePhis hk hf hb fun x hx => ?_
  have hx := (of_mem_zip hx).1
  exact ⟨hmem _ hx, mem_of_eq_singleton (hr.replaced_of_isPhi hb (hmem _ hx) (hisPhi _ hx))⟩

variable
  (hbody : ∀ b ∈ m.kernel.layout, ∀ body last, (m.kernel.instsOf b).filter (fun i => !m.kernel.isPhi i) = body ++ [last] →
    ∀ prev f f' w g u, f.Agree m.kernel ρ f' → m.Passes env P b prev [last] body f w g u →
      ∃ g', m'.Passes env P' b prev [last] (body.flatMap τ) f' w g' u ∧ g.Agree m.kernel ρ g')
  (hend : ∀ b ∈ m.kernel.layout, ∀ prev f f' last w, P ⟨⟨b, prev, f, [last]⟩, w⟩ → last ∈ m.kernel.instsOf b → last ∈ τ last →
    (m.kernel.instr? last).any isTerminator = true → f.Agree m.kernel ρ f' → P' ⟨⟨b, prev, f', [last]⟩, w⟩)
include hbody hend

/-- A run that returns from a block on is followed by a run of the recast kernel, if the blocks can be passed there
as well. -/
theorem advance_of_passes {limit budget : Nat} {prev : Option BlockId} {s : RunState} {w w' : World σ} {r : Option Val}
    (hf : f.Agree m.kernel ρ f') (hb : b ∈ m.kernel.layout) (henter : m.enter f b prev = .ok s)
    (h : m.advance env limit budget s w = .ok r w') (hP : ∀ c ∈ m.trail env budget ⟨s, w⟩, P c) :
    ∃ s' budget', m'.enter f' b prev = .ok s' ∧ (∀ limit', m'.advance env limit' budget' s' w = .ok r w') ∧
      ∀ c ∈ m'.trail env budget' ⟨s', w⟩, P' c := by
  -- one visit after another; every visit takes at least the step of its terminator
  induction budget using Nat.strong_induction_on generalizing b prev f f' s w with
  | _ budget ih =>
    obtain ⟨f1', henter', hf1⟩ := hr.enter_eq hscale hk hv hf hb henter
    obtain ⟨body, last, heq, hfilter, hgo, hlast, hτ, _, _, hfilter'⟩ := hr.parts hv hb
    obtain ⟨_, _, hblock, hprev, _, htodo, _⟩ := enter_eq_ok henter
    obtain ⟨sb, sp, sf, st⟩ := s
    subst hblock hprev
    rw [hfilter] at htodo
    subst htodo
    have hterm : ∀ i ∈ body, ∀ instr, m.kernel.instr? i = some instr → instr.isTerminator = false := by
      intro i hi instr hinstr
      have := hgo i hi
      rwa [GoesOn, hinstr] at this
    obtain ⟨g, v, budget1, hle, hpass, hadvance, hlater⟩ :=
      passes_of_advance (by simp) hterm h hP
    obtain ⟨g', hpass', hg⟩ := hbody sb hb body last hfilter sp sf f1' w g v hf1 hpass
    rw [hfilter'] at henter'
    cases budget1 with
    | zero => exact absurd hadvance Exec.throw_ne_ok
    | succ budget1 =>
      have hmem : last ∈ m.kernel.instsOf sb := by rw [heq]; simp
      have hkept := mem_of_eq_singleton hτ
      have hmoment : P' ⟨⟨sb, sp, g', [last]⟩, v⟩ :=
        hend sb hb sp g g' last v (hlater _ (by rw [trail]; exact .head _)) hmem hkept
          hlast hg
      -- it is enough to follow the terminator
      suffices hsuff : ∃ budget', (∀ limit', m'.advance env limit' budget' ⟨sb, sp, g', [last]⟩ v = .ok r w') ∧
          ∀ c ∈ m'.trail env budget' ⟨⟨sb, sp, g', [last]⟩, v⟩, P' c by
        obtain ⟨budget', hrun, htrail⟩ := hsuff
        have hall := fun limit' => advance_of_passes (by simp) hpass' limit' budget'
        refine ⟨_, budget' + (body.flatMap τ).length, henter', fun limit' => (hall limit').1.trans (hrun limit'), ?_⟩
        intro c hc
        exact ((hall limit).2 c hc).elim id (htrail c)
      rcases advance_succ hadvance with ⟨s2, v2, hstep, hnext⟩ | hstep
      · obtain ⟨i, rest, instr, hcons, hinstr, hcase⟩ := step_cases hstep
        cases hcons
        have hyes : instr.isTerminator = true := by rwa [hinstr] at hlast
        cases hcase with
        | again _ _ _ hno => cases hno.symm.trans hyes
        | onward _ _ hno => cases hno.symm.trans hyes
        | jump target _ _ htarget henter2 =>
          have hsucc : target ∈ m.kernel.layout := by
            obtain ⟨_, _, _, _, _, _, _, _, hsuccs⟩ := shape_of_verify hv hb
            exact hsuccs target (mem_successors_of_verify hv hb hmem hinstr hyes htarget)
          have hlater2 : ∀ c ∈ m.trail env budget1 ⟨s2, v⟩, P c := by
            intro c hc
            refine hlater c ?_
            rw [trail_next hstep]
            exact .tail _ hc
          obtain ⟨s2', budget2, henter2', hrun2, htrail2⟩ :=
            ih budget1 (by omega) hg hsucc henter2 hnext hlater2
          have hstep' : m'.step env ⟨sb, sp, g', [last]⟩ v = .ok (.next s2') v := by
            refine step_of_case rfl (hr.instr?_kept hb hmem hkept hinstr) (.jump target s2' ?_ ?_ henter2')
            · rw [isTerminator_mapOperands, hyes]
            · rw [← htarget]
              exact jump?_rename (hr.read_operand_eq hscale hv hg hb hmem hinstr)
          refine ⟨budget2 + 1, fun limit' => (advance_next hstep').trans (hrun2 limit'), fun c hc => ?_⟩
          rw [trail_next hstep'] at hc
          rcases mem_cons.mp hc with rfl | hc
          · exact hmoment
          · exact htrail2 c hc
      · obtain ⟨i, rest, instr, hcons, hinstr, hcase⟩ := step_cases hstep
        cases hcons
        cases hcase with
        | ret v? _ heqInstr hread =>
          subst heqInstr
          have hstep' : m'.step env ⟨sb, sp, g', [last]⟩ w' = .ok (.done r) w' := by
            refine step_of_case rfl (hr.instr?_kept hb hmem hkept hinstr) (.ret (v?.map ρ) r rfl ?_)
            rw [← hread]
            exact readMask_rename v? (hr.read_operand_eq hscale hv hg hb hmem hinstr)
          refine ⟨1, fun limit' => advance_done hstep', fun c hc => ?_⟩
          rw [trail_done hstep'] at hc
          exact mem_singleton.mp hc ▸ hmoment

/-- **Runs of a recast kernel have the same outcome** if its blocks can be passed with the same outcome. -/
theorem run_of_passes {limit : Nat} {args : List Val} {w w' : World σ} {r : Option Val} (h : m.run env args limit w = .ok r w')
    (hP : ∀ c ∈ m.moments env args limit w, P c) :
    ∃ limit', m'.run env args limit' w = .ok r w' ∧ ∀ c ∈ m'.moments env args limit' w, P' c := by
  obtain ⟨entry, hentry⟩ := exists_entry?_of_verify hv
  have hentry' : m'.kernel.entry? = some entry := by
    unfold Kernel.entry? at hentry ⊢
    rw [hr.layout, hentry]
  obtain ⟨s, henter, hadvance, hmoments⟩ := run_eq_ok hentry h
  rw [hmoments] at hP
  have hargs : args.length = m.kernel.params.length := length_args_of_run h
  have hstart : Frame.Agree m.kernel ρ { args } { args } := ⟨rfl, fun _ _ => by simp⟩
  obtain ⟨s', limit', henter', hrun, htrail⟩ :=
    hr.advance_of_passes hscale hk hv hbody hend hstart (mem_of_head? hentry) henter hadvance hP
  refine ⟨limit', ?_, ?_⟩
  · exact run_of_enter hentry' (by rw [hargs, hr.params]) henter' (hrun limit')
  · rw [moments_of_enter hentry' henter']
    exact htrail

end Kernel.Recast

end Spmd
