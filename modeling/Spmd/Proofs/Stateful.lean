import Spmd.Exec.InTurn
import Spmd.Proofs.Success

/-!
# Actions on a state

A run of a kernel acts on the world, and widening acts on what has been made so far. Such actions may fail.

* **`bind_eq_ok`** — the parts of an action that succeeded.
* **`mapM_invariant`**, `forM_invariant` — what every step of a list keeps is kept.
* **`Moves`** — how an action that succeeds relates the states before and behind it.
* **`Fails`** — what an action that does not succeed fails for.
-/

namespace Spmd.Stateful

open List

variable {ε τ α β : Type} {x : EStateM ε τ α} {f : α → EStateM ε τ β} {s s' : τ} {a : α} {b : β} {xs : List α}
  {P : τ → Prop}

/-! ## Actions that succeed -/

theorem bind_eq_ok : (x >>= f) s = .ok b s' ↔ ∃ a u, x s = .ok a u ∧ f a u = .ok b s' := by
  show EStateM.bind x f s = .ok b s' ↔ _
  rw [EStateM.bind]
  cases h : x s with
  | ok a u => simp
  | error e u => simp

theorem bind_of_eq_ok (h : x s = .ok a s') : (x >>= f) s = f a s' := by
  show EStateM.bind x f s = f a s'
  rw [EStateM.bind, h]

theorem map_eq_ok {f : α → β} : (f <$> x) s = .ok b s' ↔ ∃ a, x s = .ok a s' ∧ f a = b := by
  show EStateM.map f x s = .ok b s' ↔ _
  rw [EStateM.map]
  cases h : x s with
  | ok a u => simp [and_comm, eq_comm]
  | error e u => simp

theorem bind_pure_eq_ok {f : α → β} : (x >>= fun a => pure (f a)) s = .ok b s' ↔ ∃ a, x s = .ok a s' ∧ f a = b := by
  rw [bind_pure_comp, map_eq_ok]

theorem pure_eq_ok {b : α} : (pure a : EStateM ε τ α) s = .ok b s' ↔ a = b ∧ s = s' := by
  show EStateM.Result.ok a s = .ok b s' ↔ _
  rw [EStateM.Result.ok.injEq]

theorem throw_ne_ok {e : ε} : (throw e : EStateM ε τ α) s ≠ .ok a s' := by
  show EStateM.Result.error e s ≠ _
  simp

/-! ## Actions over a list -/

theorem mapM_invariant (h : ∀ x ∈ xs, ∀ s b s', P s → f x s = .ok b s' → P s') {bs : List β} (hs : P s)
    (hf : xs.mapM f s = .ok bs s') : P s' := by
  induction xs generalizing s bs with
  | nil =>
    obtain ⟨_, rfl⟩ := pure_eq_ok.mp (mapM_nil (f := f) ▸ hf)
    exact hs
  | cons x xs ih =>
    rw [mapM_cons] at hf
    obtain ⟨b, u, hx, hf⟩ := bind_eq_ok.mp hf
    obtain ⟨bs1, hxs, _⟩ := bind_pure_eq_ok.mp hf
    exact ih (fun y hy => h y (.tail _ hy)) (h x (.head _) s b u hs hx) hxs

/-- What every step of a list keeps is kept. -/
theorem forM_invariant {f : α → EStateM ε τ Unit} (h : ∀ x ∈ xs, ∀ s s', P s → f x s = .ok () s' → P s') (hs : P s)
    (hf : xs.forM f s = .ok () s') : P s' := by
  rw [Success.forM_eq_mapM] at hf
  obtain ⟨_, hf, _⟩ := map_eq_ok.mp hf
  exact mapM_invariant (fun x hx s _ => h x hx s) hs hf

/-! ## Where actions lead -/

/-- What can be done once or more often, or not at all. -/
class Onward (R : τ → τ → Prop) : Prop where
  refl : ∀ s, R s s
  trans : ∀ {s u s'}, R s u → R u s' → R s s'

/-- The action leads from each state to one that `R` relates to it. -/
def Moves (R : τ → τ → Prop) (x : EStateM ε τ α) : Prop := ∀ s a s', x s = .ok a s' → R s s'

namespace Moves

variable {R : τ → τ → Prop} [Onward R]

theorem pure (a : α) : Moves R (Pure.pure a : EStateM ε τ α) := by
  intro s b s' h
  obtain ⟨-, rfl⟩ := pure_eq_ok.mp h
  exact Onward.refl s

theorem bind (hx : Moves R x) (hf : ∀ a, Moves R (f a)) : Moves R (x >>= f) := by
  intro s b s' h
  obtain ⟨a, u, ha, hb⟩ := bind_eq_ok.mp h
  exact Onward.trans (hx s a u ha) (hf a u b s' hb)

theorem map (f : α → β) (hx : Moves R x) : Moves R (f <$> x) := by
  rw [← bind_pure_comp]
  exact hx.bind fun a => pure (f a)

theorem mapM (hf : ∀ a ∈ xs, Moves R (f a)) : Moves R (xs.mapM f) := by
  induction xs with
  | nil => exact pure []
  | cons a xs ih =>
    rw [mapM_cons]
    exact bind (hf a (.head _)) fun _ => bind (ih fun b hb => hf b (.tail _ hb)) fun _ => pure _

theorem forM {f : α → EStateM ε τ Unit} (hf : ∀ a ∈ xs, Moves R (f a)) : Moves R (xs.forM f) := by
  rw [Success.forM_eq_mapM]
  exact map _ (mapM hf)

theorem inTurn {f : Nat → EStateM ε τ α} (hf : ∀ n, Moves R (f n)) (count : Nat) : Moves R (Spmd.inTurn count f) := by
  rw [inTurn_eq_mapM]
  exact mapM fun n _ => hf n

end Moves

/-! ## How actions fail -/

/-- From a state the action fails for reasons in `E` only. -/
def Fails (E : ε → Prop) (x : EStateM ε τ α) (s : τ) : Prop := ∀ e s', x s = .error e s' → E e

namespace Fails

variable {E : ε → Prop}

theorem of_ok (h : x s = .ok a s') : Fails E x s := fun e s1 he => by cases h.symm.trans he

theorem pure (a : α) : Fails E (Pure.pure a : EStateM ε τ α) s := of_ok rfl

theorem throw {e : ε} (h : E e) : Fails E (MonadExcept.throw e : EStateM ε τ α) s := by
  intro e' s1 he
  cases he
  exact h

theorem bind (hx : Fails E x s) (hf : ∀ a s1, x s = .ok a s1 → Fails E (f a) s1) : Fails E (x >>= f) s := by
  intro e s' h
  cases hrun : x s with
  | ok a s1 => exact hf a s1 hrun e s' ((bind_of_eq_ok hrun).symm.trans h)
  | error e1 s1 =>
    have hbind : (x >>= f) s = .error e1 s1 := by
      show EStateM.bind x f s = _
      rw [EStateM.bind, hrun]
    obtain ⟨rfl, -⟩ := EStateM.Result.error.inj (hbind.symm.trans h)
    exact hx e1 s1 hrun

/-- What comes after an action of which more is known. -/
theorem bind_and {R : α → τ → Prop} (hx : Fails E x s ∧ ∀ a s1, x s = .ok a s1 → R a s1)
    (hf : ∀ a s1, R a s1 → Fails E (f a) s1) : Fails E (x >>= f) s :=
  hx.1.bind fun a s1 hrun => hf a s1 (hx.2 a s1 hrun)

/-- What comes after an action that gives something. -/
theorem bind_of_ok (hx : x s = .ok a s') (hf : Fails E (f a) s') : Fails E (x >>= f) s := fun e s1 h =>
  hf e s1 ((bind_of_eq_ok hx).symm.trans h)

theorem map (f : α → β) (hx : Fails E x s) : Fails E (f <$> x) s := by
  rw [← bind_pure_comp]
  exact hx.bind fun a _ _ => pure (f a)

/-- One action after the other, where each keeps what the later ones need. -/
theorem mapM (hf : ∀ a ∈ xs, ∀ s, P s → Fails E (f a) s) (hP : ∀ a ∈ xs, ∀ s b s', P s → f a s = .ok b s' → P s')
    (hs : P s) : Fails E (xs.mapM f) s := by
  induction xs generalizing s with
  | nil => exact pure []
  | cons a xs ih =>
    rw [mapM_cons]
    refine bind (hf a (.head _) s hs) fun b s1 hb => bind ?_ fun _ _ _ => pure _
    exact ih (fun a ha => hf a (.tail _ ha)) (fun a ha => hP a (.tail _ ha)) (hP a (.head _) s b s1 hs hb)

theorem forM {f : α → EStateM ε τ Unit} (hf : ∀ a ∈ xs, ∀ s, P s → Fails E (f a) s)
    (hP : ∀ a ∈ xs, ∀ s b s', P s → f a s = .ok b s' → P s') (hs : P s) : Fails E (xs.forM f) s := by
  rw [Success.forM_eq_mapM]
  exact map _ (mapM hf hP hs)

end Fails

end Spmd.Stateful
