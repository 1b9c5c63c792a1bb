import Spmd.Proofs.Exec.Step

/-!
# Passing through a block

Between the phis and the terminator of a block control goes straight on.

* **`Machine.Passes`** — the instructions of a list are carried out one after another, and every moment on the way
  has some property.
* **`Machine.passes_of_advance`** — a run that returns passes through whatever stands in front of it, and
  `Machine.advance_of_passes` — what can be passed, a run does pass.
-/

namespace Spmd.Machine

variable {σ : Type} {m : Machine} {env : Environment σ} {P Q : Moment σ → Prop} {b : BlockId} {prev : Option BlockId}
  {rest is js : List InstId} {f g : Frame} {w u : World σ} {result : Option ValueId} {v : ValueId}

/-- The instructions of a list, behind which `rest` stands, are carried out one after another, and `P` holds at every
moment on the way. -/
inductive Passes (m : Machine) (env : Environment σ) (P : Moment σ → Prop) (b : BlockId) (prev : Option BlockId)
    (rest : List InstId) : List InstId → Frame → World σ → Frame → World σ → Prop where
  | nil {f : Frame} {w : World σ} : Passes m env P b prev rest [] f w f w
  | cons {i : InstId} {is : List InstId} {instr : Instr} {x : Option Val} {f g : Frame} {w v u : World σ}
      (hinstr : m.kernel.instr? i = some instr) (hterm : instr.isTerminator = false)
      (hmoment : P ⟨⟨b, prev, f, i :: (is ++ rest)⟩, w⟩) (heval : m.eval env f i instr w = .ok x v)
      (h : Passes m env P b prev rest is (f.record (m.kernel.result? i) x) v g u) :
      Passes m env P b prev rest (i :: is) f w g u

theorem read_record (h : result ≠ some v) (x : Option Val) : m.read (f.record result x) v = m.read f v := by
  unfold read
  rw [f.args_record, Frame.getElem?_record h]

namespace Passes

variable {i : InstId}

theorem mono (h : m.Passes env P b prev rest is f w g u) (hPQ : ∀ c, P c → Q c) : m.Passes env Q b prev rest is f w g u := by
  induction h with
  | nil => exact .nil
  | cons hinstr hterm hmoment heval _ ih => exact .cons hinstr hterm (hPQ _ hmoment) heval ih

/-- Two lists are passed one after the other. -/
theorem append {f1 : Frame} {w1 : World σ} (h : m.Passes env P b prev (js ++ rest) is f w f1 w1)
    (h' : m.Passes env P b prev rest js f1 w1 g u) : m.Passes env P b prev rest (is ++ js) f w g u := by
  induction h with
  | nil => exact h'
  | @cons i is instr x f g w v u hinstr hterm hmoment heval _ ih =>
    refine .cons hinstr hterm ?_ heval (ih h')
    show P ⟨⟨b, prev, f, i :: (is ++ js ++ rest)⟩, w⟩
    rw [List.append_assoc]
    exact hmoment

/-- What is passed can be cut in two. -/
theorem split (h : m.Passes env P b prev rest (is ++ js) f w g u) :
    ∃ f1 w1, m.Passes env P b prev (js ++ rest) is f w f1 w1 ∧ m.Passes env P b prev rest js f1 w1 g u := by
  induction is generalizing f w with
  | nil => exact ⟨f, w, .nil, h⟩
  | cons i is ih =>
    cases h with
    | cons hinstr hterm hmoment heval h =>
      obtain ⟨f1, w1, h1, h2⟩ := ih h
      refine ⟨f1, w1, .cons hinstr hterm ?_ heval h1, h2⟩
      rw [← List.append_assoc]
      exact hmoment

/-- An instruction that is passed has its moment. -/
theorem at_cons (h : m.Passes env P b prev rest (is ++ i :: js) f w g u) :
    ∃ f1 w1 instr x w2, m.Passes env P b prev (i :: (js ++ rest)) is f w f1 w1 ∧ m.kernel.instr? i = some instr ∧
      P ⟨⟨b, prev, f1, i :: (js ++ rest)⟩, w1⟩ ∧ m.eval env f1 i instr w1 = .ok x w2 ∧
      m.Passes env P b prev rest js (f1.record (m.kernel.result? i) x) w2 g u := by
  obtain ⟨f1, w1, h1, h2⟩ := h.split
  cases h2 with
  | cons hinstr _ hmoment heval h => exact ⟨f1, w1, _, _, _, h1, hinstr, hmoment, heval, h⟩

theorem single {instr : Instr} {x : Option Val} (hinstr : m.kernel.instr? i = some instr)
    (hterm : instr.isTerminator = false) (hmoment : P ⟨⟨b, prev, f, i :: rest⟩, w⟩)
    (heval : m.eval env f i instr w = .ok x u) :
    m.Passes env P b prev rest [i] f w (f.record (m.kernel.result? i) x) u :=
  .cons hinstr hterm hmoment heval .nil

section

variable (h : m.Passes env P b prev rest is f w g u)
include h

/-- What every instruction of the list keeps is kept. -/
theorem invariant {I : Frame → World σ → Prop} (hI : I f w)
    (hstep : ∀ i ∈ is, ∀ f w instr x v js, I f w → m.kernel.instr? i = some instr → P ⟨⟨b, prev, f, i :: js⟩, w⟩ →
      m.eval env f i instr w = .ok x v → I (f.record (m.kernel.result? i) x) v) : I g u := by
  induction h with
  | nil => exact hI
  | @cons i is instr x f g w v u hinstr _ hmoment heval _ ih =>
    refine ih (hstep i (.head _) f w instr x v _ hI hinstr hmoment heval) ?_
    exact fun j hj => hstep j (.tail _ hj)

/-- Every moment cuts what is passed in two. -/
theorem cut :
    m.Passes env (fun c => P c ∧ ∃ p q, is = p ++ q ∧ c.state.todo = q ++ rest ∧
      m.Passes env P b prev (q ++ rest) p f w c.state.frame c.world ∧
      m.Passes env P b prev rest q c.state.frame c.world g u) b prev rest is f w g u := by
  induction h with
  | nil => exact .nil
  | @cons i is instr x f g w v u hinstr hterm hmoment heval h ih =>
    refine .cons hinstr hterm ⟨hmoment, [], i :: is, rfl, rfl, .nil, .cons hinstr hterm hmoment heval h⟩ heval (ih.mono ?_)
    rintro c ⟨hP, p, q, rfl, htodo, hpast, hfuture⟩
    refine ⟨hP, i :: p, q, rfl, htodo, .cons hinstr hterm ?_ heval hpast, hfuture⟩
    rw [← List.append_assoc]
    exact hmoment

/-- What none of the instructions defines reads as before. -/
theorem read_eq {v : ValueId} (hv : ∀ i ∈ is, m.kernel.result? i ≠ some v) : m.read g v = m.read f v := by
  refine h.invariant (I := fun g _ => m.read g v = m.read f v) rfl fun i hi f' _ _ x _ _ hread _ _ _ => ?_
  rw [read_record (hv i hi), hread]

end

/-- What follows each instruction follows the list. -/
theorem follow (m' : Machine) (P' : Moment σ → Prop) (τ : InstId → List InstId) (R : Frame → World σ → Frame → World σ → Prop)
    (rest' : List InstId) (h : m.Passes env P b prev rest is f w g u) {f' : Frame} {w' : World σ} (hR : R f w f' w')
    (hchunk : ∀ i ∈ is, ∀ f w f' w' instr x v todo todo', P ⟨⟨b, prev, f, i :: todo⟩, w⟩ → m.kernel.instr? i = some instr →
      instr.isTerminator = false → R f w f' w' → m.eval env f i instr w = .ok x v →
      ∃ g' v', m'.Passes env P' b prev todo' (τ i) f' w' g' v' ∧ R (f.record (m.kernel.result? i) x) v g' v') :
    ∃ g' u', m'.Passes env P' b prev rest' (is.flatMap τ) f' w' g' u' ∧ R g u g' u' := by
  induction h generalizing f' w' with
  | nil => exact ⟨f', w', .nil, hR⟩
  | @cons i is instr x f g w v u hinstr hterm hmoment heval _ ih =>
    obtain ⟨f1', v', hpass, hR1⟩ := hchunk i (.head _) f w f' w' instr x v _ (is.flatMap τ ++ rest')
      hmoment hinstr hterm hR heval
    obtain ⟨g', u', hpass', hR'⟩ := ih hR1 fun j hj => hchunk j (.tail _ hj)
    exact ⟨g', u', hpass.append hpass', hR'⟩

end Passes

/-! ## Runs -/

/-- A run that returns passes through the instructions in front of it. -/
theorem passes_of_advance {limit budget : Nat} {r : Option Val} (hrest : rest ≠ [])
    (hterm : ∀ i ∈ is, ∀ instr, m.kernel.instr? i = some instr → instr.isTerminator = false)
    (h : m.advance env limit budget ⟨b, prev, f, is ++ rest⟩ w = .ok r u)
    (hP : ∀ c ∈ m.trail env budget ⟨⟨b, prev, f, is ++ rest⟩, w⟩, P c) :
    ∃ g v budget', budget' ≤ budget ∧ m.Passes env P b prev rest is f w g v ∧
      m.advance env limit budget' ⟨b, prev, g, rest⟩ v = .ok r u ∧
      ∀ c ∈ m.trail env budget' ⟨⟨b, prev, g, rest⟩, v⟩, P c := by
  induction is generalizing f w budget with
  | nil => exact ⟨f, w, budget, Nat.le_refl _, .nil, h, hP⟩
  | cons i is ih =>
    cases budget with
    | zero => exact absurd h Exec.throw_ne_ok
    | succ budget =>
      have hmoment := hP _ (by rw [trail]; exact .head _)
      -- the instruction does not end the block, so the run goes on behind it
      have honward : ∃ x v instr, m.kernel.instr? i = some instr ∧ instr.isTerminator = false ∧
          m.eval env f i instr w = .ok x v ∧
          m.step env ⟨b, prev, f, i :: is ++ rest⟩ w =
            .ok (.next ⟨b, prev, f.record (m.kernel.result? i) x, is ++ rest⟩) v ∧
          m.advance env limit budget ⟨b, prev, f.record (m.kernel.result? i) x, is ++ rest⟩ v = .ok r u := by
        have hcase : ∃ p v, m.step env ⟨b, prev, f, i :: is ++ rest⟩ w = .ok p v := by
          rcases advance_succ h with ⟨s', v, hstep, _⟩ | hstep
          · exact ⟨_, _, hstep⟩
          · exact ⟨_, _, hstep⟩
        obtain ⟨p, v, hstep⟩ := hcase
        obtain ⟨i', rest', instr, htodo, hinstr, hstepCase⟩ := step_cases hstep
        cases htodo
        have hgoes := hterm i (.head _) instr hinstr
        cases hstepCase with
        | jump _ _ hterm' => cases hterm'.symm.trans hgoes
        | ret _ _ heq => exact absurd (heq ▸ hgoes) (by simp [Instr.isTerminator])
        | again _ _ _ _ _ hnil => exact absurd (List.append_eq_nil_iff.mp hnil).2 hrest
        | onward x _ _ heval _ =>
          exact ⟨x, v, instr, hinstr, hgoes, heval, hstep, (advance_next hstep).symm.trans h⟩
      obtain ⟨x, v, instr, hinstr, hgoes, heval, hstep, hnext⟩ := honward
      have hP' : ∀ c ∈ m.trail env budget ⟨⟨b, prev, f.record (m.kernel.result? i) x, is ++ rest⟩, v⟩, P c := by
        intro c hc
        refine hP c ?_
        rw [trail_next hstep]
        exact .tail _ hc
      obtain ⟨g, v', budget', hle, hpass, hadvance, hlater⟩ :=
        ih (fun j hj => hterm j (.tail _ hj)) hnext hP'
      exact ⟨g, v', budget', Nat.le_succ_of_le hle, .cons hinstr hgoes hmoment heval hpass, hadvance, hlater⟩

/-- What can be passed, a run does pass. -/
theorem advance_of_passes (hrest : rest ≠ []) (h : m.Passes env P b prev rest is f w g u) (limit budget : Nat) :
    m.advance env limit (budget + is.length) ⟨b, prev, f, is ++ rest⟩ w = m.advance env limit budget ⟨b, prev, g, rest⟩ u ∧
      ∀ c ∈ m.trail env (budget + is.length) ⟨⟨b, prev, f, is ++ rest⟩, w⟩,
        P c ∨ c ∈ m.trail env budget ⟨⟨b, prev, g, rest⟩, u⟩ := by
  induction h with
  | nil => exact ⟨rfl, fun c hc => .inr hc⟩
  | @cons i is instr x f g w v u hinstr hterm hmoment heval _ ih =>
    have hstep : m.step env ⟨b, prev, f, i :: is ++ rest⟩ w =
        .ok (.next ⟨b, prev, f.record (m.kernel.result? i) x, is ++ rest⟩) v :=
      step_of_case rfl hinstr (.onward x v hterm heval (fun hnil => hrest (List.append_eq_nil_iff.mp hnil).2))
    rw [List.length_cons, ← Nat.add_assoc]
    refine ⟨(advance_next hstep).trans ih.1, fun c hc => ?_⟩
    rw [trail_next hstep] at hc
    rcases List.mem_cons.mp hc with rfl | hc
    · exact .inl hmoment
    · exact ih.2 c hc

end Spmd.Machine
