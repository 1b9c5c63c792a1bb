import Spmd.Exec.Machine
import Spmd.Proofs.Exec.Memory
import Spmd.Proofs.Stateful

/-!
# Actions on the world

* **`read_eq_ok`**, `write_eq_ok` — the parts of an action that succeeded.
* **`Computes`** — two actions, on worlds of maybe different kinds, that compute the same and leave the
  world alone.
* **`Keeps`** — an action that leaves a part of the world alone.
-/

namespace Spmd

open Success List
open EStateM (Result)

namespace Exec

variable {σ τ α β : Type} {x : Exec σ α} {f : α → Exec σ β} {w w' : World σ} {b : β} {a : α} {address : UInt64}
  {xs : List α} {P : World σ → Prop}

/-! ## Actions that succeed -/

export Stateful (bind_eq_ok map_eq_ok bind_pure_eq_ok pure_eq_ok throw_ne_ok mapM_invariant forM_invariant)

theorem liftChecked_eq_ok {x : Checked α} : (liftM x : Exec σ α) w = .ok a w' ↔ x = .ok a ∧ w = w' := by
  cases x with
  | ok b =>
    show Result.ok b w = .ok a w' ↔ _
    rw [Result.ok.injEq, Except.ok.injEq]
  | error f =>
    show Result.error (Trap.fault f) w = .ok a w' ↔ _
    simp

theorem liftExcept_eq_ok {x : Except Trap α} : (liftM x : Exec σ α) w = .ok a w' ↔ x = .ok a ∧ w = w' := by
  cases x with
  | ok b =>
    show Result.ok b w = .ok a w' ↔ _
    rw [Result.ok.injEq, Except.ok.injEq]
  | error t =>
    show Result.error t w = .ok a w' ↔ _
    simp

theorem bind_liftChecked_eq_ok {x : Checked α} :
    ((liftM x : Exec σ α) >>= f) w = .ok b w' ↔ ∃ a, x = .ok a ∧ f a w = .ok b w' := by
  rw [bind_eq_ok]
  constructor
  · rintro ⟨a, u, hlift, h⟩
    obtain ⟨hx, rfl⟩ := liftChecked_eq_ok.mp hlift
    exact ⟨a, hx, h⟩
  · rintro ⟨a, hx, h⟩
    exact ⟨a, w, liftChecked_eq_ok.mpr ⟨hx, rfl⟩, h⟩

theorem bind_liftChecked_bind {γ : Type} (x : Checked α) (f : α → Checked β) (g : β → Exec σ γ) :
    ((liftM (x >>= f) : Exec σ β) >>= g) = (liftM x : Exec σ α) >>= fun a => (liftM (f a) : Exec σ β) >>= g := by
  cases x <;> rfl

theorem some_map_liftExcept_eq_ok {x : Except Trap α} :
    (some <$> (liftM x : Exec σ α)) w = .ok (some a) w' ↔ x = .ok a ∧ w = w' := by
  rw [map_eq_ok]
  constructor
  · rintro ⟨a', hx, heq⟩
    exact Option.some.inj heq ▸ liftExcept_eq_ok.mp hx
  · intro hx
    exact ⟨a, liftExcept_eq_ok.mpr hx, rfl⟩

theorem read_eq_ok {elem : ScalarTy} {x : Val} :
    (read address elem : Exec σ Val) w = .ok x w' ↔
      ∃ s, w.memory.read address.toNat elem = .ok s ∧ x = .scalar s ∧ w' = w := by
  rw [read, bind_eq_ok]
  constructor
  · rintro ⟨u, v, hget, h⟩
    cases hget
    obtain ⟨s, v, hs, h⟩ := bind_eq_ok.mp h
    obtain ⟨hread, rfl⟩ := liftExcept_eq_ok.mp hs
    obtain ⟨rfl, rfl⟩ := pure_eq_ok.mp h
    exact ⟨s, hread, rfl, rfl⟩
  · rintro ⟨s, hread, rfl, rfl⟩
    exact ⟨w', w', rfl, bind_eq_ok.mpr ⟨s, w', liftExcept_eq_ok.mpr ⟨hread, rfl⟩, rfl⟩⟩

theorem write_eq_ok {x : Val} :
    (write address x : Exec σ Unit) w = .ok () w' ↔
      ∃ s, x = .scalar s ∧ w.memory.covers address.toNat s.ty.size = true ∧
        w' = { w with memory := w.memory.put address.toNat s } := by
  rw [write, bind_eq_ok]
  constructor
  · rintro ⟨u, v, hget, h⟩
    cases hget
    obtain ⟨s, v, hs, h⟩ := bind_eq_ok.mp h
    obtain ⟨hs', rfl⟩ := liftExcept_eq_ok.mp hs
    obtain ⟨_, hw⟩ := Result.ok.inj h
    exact ⟨s, (Memory.writable_eq_ok.mp hs').1, (Memory.writable_eq_ok.mp hs').2, hw.symm⟩
  · rintro ⟨s, hx, hcovers, rfl⟩
    exact ⟨w, w, rfl, bind_eq_ok.mpr ⟨s, w, liftExcept_eq_ok.mpr ⟨Memory.writable_eq_ok.mpr ⟨hx, hcovers⟩, rfl⟩, rfl⟩⟩

/-! ## Actions that only compute -/

/-- Both actions compute the same, whatever the worlds, and leave them alone. -/
def Computes (x : Exec σ α) (y : Exec τ α) : Prop := ∃ e : Except Trap α, x = liftM e ∧ y = liftM e

namespace Computes

variable {x : Exec σ α} {y : Exec τ α}

theorem pure (a : α) : Computes (Pure.pure a : Exec σ α) (Pure.pure a : Exec τ α) := ⟨.ok a, rfl, rfl⟩

theorem liftExcept (e : Except Trap α) : Computes (liftM e : Exec σ α) (liftM e : Exec τ α) := ⟨e, rfl, rfl⟩

theorem liftChecked (c : Checked α) : Computes (liftM c : Exec σ α) (liftM c : Exec τ α) := by
  cases c with
  | ok a => exact ⟨.ok a, rfl, rfl⟩
  | error f => exact ⟨.error (.fault f), rfl, rfl⟩

theorem bind {f : α → Exec σ β} {g : α → Exec τ β} (hxy : Computes x y) (hfg : ∀ a, Computes (f a) (g a)) :
    Computes (x >>= f) (y >>= g) := by
  obtain ⟨e, rfl, rfl⟩ := hxy
  cases e with
  | error t => exact ⟨.error t, rfl, rfl⟩
  | ok a => exact hfg a

theorem map (f : α → β) (hxy : Computes x y) : Computes (f <$> x) (f <$> y) := by
  obtain ⟨e, rfl, rfl⟩ := hxy
  cases e with
  | error t => exact ⟨.error t, rfl, rfl⟩
  | ok a => exact ⟨.ok (f a), rfl, rfl⟩

/-- What it means for two runs of the actions that both succeed. -/
theorem eq_ok (hxy : Computes x y) {w w' : World σ} {u u' : World τ} {a b : α} (hx : x w = .ok a w')
    (hy : y u = .ok b u') : a = b ∧ w' = w ∧ u' = u := by
  obtain ⟨e, rfl, rfl⟩ := hxy
  obtain ⟨ha, rfl⟩ := liftExcept_eq_ok.mp hx
  obtain ⟨hb, rfl⟩ := liftExcept_eq_ok.mp hy
  exact ⟨ok_unique ha hb, rfl, rfl⟩

end Computes

/-! ## Actions that leave something alone -/

/-- Whenever the action succeeds, this part of the world is as it was. -/
def Keeps {γ : Type} (part : World σ → γ) (x : Exec σ α) : Prop := Stateful.Moves (fun w w' => part w' = part w) x

instance {γ : Type} {part : World σ → γ} : Stateful.Onward fun w w' => part w' = part w :=
  ⟨fun _ => rfl, fun h h' => h'.trans h⟩

theorem Keeps.of_computes {γ : Type} {part : World σ → γ} (h : Computes x x) : Keeps part x :=
  fun _ _ _ hx => congrArg part (h.eq_ok hx hx).2.1

end Exec

theorem Stateful.Moves.liftChecked {σ α : Type} {R : World σ → World σ → Prop} [Onward R] (c : Checked α) :
    Moves R (liftM c : Exec σ α) := by
  intro w a w' h
  obtain ⟨-, rfl⟩ := Exec.liftChecked_eq_ok.mp h
  exact Onward.refl w

end Spmd
