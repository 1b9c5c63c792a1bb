import Mathlib.Data.List.Forall2
import Spmd.Fault

/-!
# What a successful computation did

A computation that may fail is a chain of steps, and it succeeds exactly if every step does. These facts
open such a chain:

* `bind_eq_ok` and `map_eq_ok` for one step behind another;
* `forM_eq_ok`, `mapM_eq_ok`, `anyM_eq_ok_false` and `allM_eq_ok_true` for the same step at every element of a list;
* `exists_of_mem_filterMapM` and `exists_of_findSomeM?` for a step that may skip elements;
* `foldlM_invariant` for a list of steps that hand on a state;
* `stateBind_eq_ok` and the like for steps that also change a state.
-/

namespace Spmd.Success

export Option (mem_unique map_eq_some_iff isSome_iff_exists bind_eq_some_iff)

open List

variable {ε α β : Type} {x : Except ε α} {f : α → Except ε β} {b y : β} {a : α} {xs : List α} {ys : List β}

/-- A sequence of two steps succeeds exactly if the first does, and the second on what the first gave. -/
theorem bind_eq_ok : (x >>= f) = .ok b ↔ ∃ a, x = .ok a ∧ f a = .ok b := by
  cases x with
  | error e => simp [bind, Except.bind]
  | ok a => simp [bind, Except.bind]

theorem ok_bind (a : α) (f : α → Except ε β) : (Except.ok a >>= f) = f a := rfl

theorem pure_eq_ok {b : α} : (pure a : Except ε α) = .ok b ↔ a = b := by
  simp [pure, Except.pure]

theorem ok_unique {b : α} (ha : x = .ok a) (hb : x = .ok b) : a = b := Except.ok.inj (ha.symm.trans hb)

theorem throw_ne_ok {e : ε} : (throw e : Except ε α) ≠ .ok a := by
  simp [throw, throwThe, MonadExceptOf.throw]

theorem map_eq_ok {f : α → β} : (f <$> x) = .ok b ↔ ∃ a, x = .ok a ∧ f a = b := by
  cases x with
  | error e => simp [Functor.map, Except.map]
  | ok a => simp [Functor.map, Except.map]

theorem bind_pure_eq_ok {f : α → β} : (x >>= fun a => pure (f a)) = .ok b ↔ ∃ a, x = .ok a ∧ f a = b := by
  rw [bind_pure_comp, map_eq_ok]

theorem mem_toOption_iff : a ∈ x.toOption ↔ x = .ok a := by
  cases x with
  | error e => simp [Except.toOption]
  | ok b => simp [Except.toOption]

theorem eq_ok_of_toOption (h : x.toOption = some a) : x = .ok a := by
  cases x with
  | error e => exact absurd h (by simp [Except.toOption])
  | ok b => exact congrArg Except.ok (Option.some.inj h)

theorem exists_of_any {p : α → Bool} (h : x.toOption.any p = true) : ∃ a, x = .ok a ∧ p a = true :=
  ((Option.any_eq_true _ _).mp h).imp fun _ => And.imp_left eq_ok_of_toOption

theorem exists_of_map {f : α → β} (h : x.toOption.map f = some b) : ∃ a, x = .ok a ∧ f a = b :=
  (map_eq_some_iff.mp h).imp fun _ => And.imp_left eq_ok_of_toOption

theorem exists_of_bind {f : α → Option β} (h : x.toOption.bind f = some b) : ∃ a, x = .ok a ∧ f a = some b :=
  (bind_eq_some_iff.mp h).imp fun _ => And.imp_left eq_ok_of_toOption

/-- A look-up that has to succeed succeeds exactly if there is something to find. -/
theorem some?_eq_ok {f : Fault} {o : Option α} : Checked.some? f o = .ok a ↔ o = some a := by
  cases o with
  | none => simp [Checked.some?, throw, throwThe, MonadExceptOf.throw]
  | some x => simp [Checked.some?, pure, Except.pure]

/-! ## Lists of steps -/

/-- Doing something at every element succeeds exactly if it succeeds at each. -/
theorem forM_eq_ok {f : α → Except ε Unit} : xs.forM f = .ok () ↔ ∀ x ∈ xs, f x = .ok () := by
  induction xs with
  | nil => simp [List.forM, pure, Except.pure]
  | cons x xs ih =>
    rw [List.forM, bind_eq_ok, forall_mem_cons, ← ih]
    constructor
    · rintro ⟨_, hx, hrest⟩
      exact ⟨hx, hrest⟩
    · rintro ⟨hx, hrest⟩
      exact ⟨(), hx, hrest⟩

/-- The results of a step at every element stand in the order of the elements. -/
theorem mapM_eq_ok : xs.mapM f = .ok ys ↔ List.Forall₂ (fun x y => f x = .ok y) xs ys := by
  induction xs generalizing ys with
  | nil =>
    rw [mapM_nil, pure_eq_ok, forall₂_nil_left_iff]
    exact eq_comm
  | cons x xs ih =>
    rw [mapM_cons, bind_eq_ok, forall₂_cons_left_iff]
    constructor
    · rintro ⟨y, hy, h⟩
      obtain ⟨zs, hzs, h⟩ := bind_eq_ok.mp h
      exact ⟨y, zs, hy, ih.mp hzs, (pure_eq_ok.mp h).symm⟩
    · rintro ⟨y, zs, hy, hzs, rfl⟩
      exact ⟨y, hy, bind_eq_ok.mpr ⟨zs, ih.mpr hzs, rfl⟩⟩

/-- Doing something at every element is to forget what comes of it. -/
theorem forM_eq_mapM {M : Type → Type} [Monad M] [LawfulMonad M] (f : α → M Unit) (xs : List α) :
    xs.forM f = (fun _ => ()) <$> xs.mapM f := by
  induction xs with
  | nil => simp [List.forM]
  | cons x xs ih => simp [List.forM, mapM_cons, ih]

/-- Steps that do the same at every element have the same results. -/
theorem mapM_congr {M : Type → Type} [Monad M] [LawfulMonad M] {f g : α → M β} (h : ∀ x ∈ xs, f x = g x) :
    xs.mapM f = xs.mapM g := by
  induction xs with
  | nil => rw [mapM_nil, mapM_nil]
  | cons x xs ih =>
    rw [mapM_cons, mapM_cons, h x (.head _), ih fun y hy => h y (.tail _ hy)]

theorem mapM_of_ok {g : α → β} (h : ∀ x ∈ xs, f x = .ok (g x)) :
    xs.mapM f = .ok (xs.map g) := (mapM_congr h).trans mapM_pure

theorem exists_mapM (h : ∀ x ∈ xs, ∃ y, f x = .ok y) : ∃ ys, xs.mapM f = .ok ys := by
  induction xs with
  | nil => exact ⟨[], rfl⟩
  | cons x xs ih =>
    obtain ⟨y, hy⟩ := h x (.head _)
    obtain ⟨ys, hys⟩ := ih fun z hz => h z (.tail _ hz)
    exact ⟨y :: ys, by rw [mapM_cons, hy, ok_bind, hys]; rfl⟩

theorem exists_of_mem_mapM (h : xs.mapM f = .ok ys) (hy : y ∈ ys) : ∃ x ∈ xs, f x = .ok y := by
  rw [mapM_eq_ok] at h
  induction h with
  | nil => simp at hy
  | cons hxy _ ih =>
    rcases mem_cons.mp hy with rfl | hy
    · exact ⟨_, .head _, hxy⟩
    · obtain ⟨x, hx, hfx⟩ := ih hy
      exact ⟨x, .tail _ hx, hfx⟩

theorem mem_mapM_of_mem (h : xs.mapM f = .ok ys) {x : α} (hx : x ∈ xs) : ∃ y ∈ ys, f x = .ok y := by
  rw [mapM_eq_ok] at h
  induction h with
  | nil => simp at hx
  | cons hxy _ ih =>
    rcases mem_cons.mp hx with rfl | hx
    · exact ⟨_, .head _, hxy⟩
    · obtain ⟨y, hy, hfy⟩ := ih hx
      exact ⟨y, .tail _ hy, hfy⟩

/-- A search finds nothing exactly if it says no at every element. -/
theorem anyM_eq_ok_false {f : α → Except ε Bool} : xs.anyM f = .ok false ↔ ∀ x ∈ xs, f x = .ok false := by
  induction xs with
  | nil => simp [anyM, pure, Except.pure]
  | cons x xs ih =>
    rw [anyM, bind_eq_ok]
    simp only [mem_cons, forall_eq_or_imp]
    constructor
    · rintro ⟨b, hb, h⟩
      cases b with
      | true => simp [pure, Except.pure] at h
      | false => exact ⟨hb, ih.mp h⟩
    · rintro ⟨hx, hxs⟩
      exact ⟨false, hx, ih.mpr hxs⟩

theorem allM_eq_ok_true {f : α → Except ε Bool} : xs.allM f = .ok true ↔ ∀ x ∈ xs, f x = .ok true := by
  induction xs with
  | nil => simp [allM, pure, Except.pure]
  | cons x xs ih =>
    rw [allM, bind_eq_ok]
    simp only [mem_cons, forall_eq_or_imp]
    constructor
    · rintro ⟨b, hb, h⟩
      cases b with
      | true => exact ⟨hb, ih.mp h⟩
      | false => simp [pure, Except.pure] at h
    · rintro ⟨hx, hxs⟩
      exact ⟨true, hx, ih.mpr hxs⟩

theorem filterM_of_ok {f : α → Except ε Bool} {p : α → Bool} (h : ∀ x ∈ xs, f x = .ok (p x)) :
    xs.filterM f = .ok (xs.filter p) := by
  have haux : ∀ (ys acc : List α), (∀ y ∈ ys, f y = .ok (p y)) → ys.filterAuxM f acc = .ok ((ys.filter p).reverse ++ acc) := by
    intro ys
    induction ys with
    | nil => exact fun _ _ => rfl
    | cons y ys ih =>
      intro acc hys
      show (f y >>= fun b => ys.filterAuxM f (cond b (y :: acc) acc)) = _
      rw [hys y (.head _), ok_bind, ih _ fun z hz => hys z (.tail _ hz)]
      cases hp : p y <;> simp [hp]
  show (xs.filterAuxM f [] >>= fun ys => pure ys.reverse) = _
  rw [haux xs [] h, ok_bind, append_nil, reverse_reverse]
  rfl

/-- What a step that may skip elements collects comes from the elements. -/
theorem exists_of_mem_filterMapM {f : α → Except ε (Option β)} (h : xs.filterMapM f = .ok ys) (hy : y ∈ ys) :
    ∃ x ∈ xs, f x = .ok (some y) := by
  induction xs generalizing ys with
  | nil =>
    obtain rfl := pure_eq_ok.mp (filterMapM_nil (f := f) ▸ h)
    exact absurd hy not_mem_nil
  | cons x xs ih =>
    rw [filterMapM_cons] at h
    obtain ⟨o, ho, h⟩ := bind_eq_ok.mp h
    cases o with
    | none =>
      obtain ⟨z, hz, hfz⟩ := ih h hy
      exact ⟨z, .tail _ hz, hfz⟩
    | some b =>
      obtain ⟨zs, hzs, h⟩ := bind_eq_ok.mp h
      obtain rfl := pure_eq_ok.mp h
      rcases mem_cons.mp hy with rfl | hy
      · exact ⟨x, .head _, ho⟩
      · obtain ⟨z, hz, hfz⟩ := ih hzs hy
        exact ⟨z, .tail _ hz, hfz⟩

theorem exists_of_findSomeM? {f : α → Except ε (Option β)} (h : xs.findSomeM? f = .ok (some y)) :
    ∃ x ∈ xs, f x = .ok (some y) := by
  induction xs with
  | nil => cases pure_eq_ok.mp h
  | cons x xs ih =>
    rw [List.findSomeM?] at h
    obtain ⟨o, ho, h⟩ := bind_eq_ok.mp h
    cases o with
    | none =>
      obtain ⟨z, hz, hfz⟩ := ih h
      exact ⟨z, .tail _ hz, hfz⟩
    | some b =>
      cases pure_eq_ok.mp h
      exact ⟨x, .head _, ho⟩

/-- What every step keeps holds of the state at the end. -/
theorem foldlM_invariant {f : β → α → Except ε β} {s t : β} (P : β → Prop)
    (hstep : ∀ s x s', x ∈ xs → P s → f s x = .ok s' → P s') (hs : P s) (h : xs.foldlM f s = .ok t) : P t := by
  induction xs generalizing s with
  | nil =>
    rw [foldlM_nil, pure_eq_ok] at h
    exact h ▸ hs
  | cons x xs ih =>
    rw [foldlM_cons, bind_eq_ok] at h
    obtain ⟨s', hs', h⟩ := h
    refine ih (fun s y s' hy => hstep s y s' (.tail _ hy)) ?_ h
    exact hstep s x s' (.head _) hs hs'

/-! ## Steps that change a state -/

variable {τ : Type} {s t : τ}

theorem stateBind_eq_ok {x : StateT τ (Except ε) α} {f : α → StateT τ (Except ε) β} :
    (x >>= f) s = .ok (b, t) ↔ ∃ a u, x s = .ok (a, u) ∧ f a u = .ok (b, t) := by
  show (x s >>= fun p => f p.1 p.2) = .ok (b, t) ↔ _
  rw [bind_eq_ok]
  exact ⟨fun ⟨p, hx, hf⟩ => ⟨p.1, p.2, hx, hf⟩, fun ⟨a, u, hx, hf⟩ => ⟨(a, u), hx, hf⟩⟩

theorem statePure_eq_ok {b : α} : (pure a : StateT τ (Except ε) α) s = .ok (b, t) ↔ a = b ∧ s = t := by
  show (pure (a, s) : Except ε (α × τ)) = .ok (b, t) ↔ _
  rw [pure_eq_ok, Prod.mk.injEq]

theorem stateGet_eq_ok {a : τ} : (get : StateT τ (Except ε) τ) s = .ok (a, t) ↔ s = a ∧ s = t := by
  show (pure (s, s) : Except ε (τ × τ)) = .ok (a, t) ↔ _
  rw [pure_eq_ok, Prod.mk.injEq]

theorem stateSet_eq_ok {u : τ} {x : PUnit} : (set u : StateT τ (Except ε) PUnit) s = .ok (x, t) ↔ u = t := by
  show (pure (PUnit.unit, u) : Except ε (PUnit × τ)) = .ok (x, t) ↔ _
  rw [pure_eq_ok, Prod.mk.injEq]
  exact ⟨fun h => h.2, fun h => ⟨rfl, h⟩⟩

theorem stateLift_eq_ok : (liftM x : StateT τ (Except ε) α) s = .ok (a, t) ↔ x = .ok a ∧ s = t := by
  show (x >>= fun a => pure (a, s)) = .ok (a, t) ↔ _
  rw [bind_eq_ok]
  constructor
  · rintro ⟨b, hx, hb⟩
    cases pure_eq_ok.mp hb
    exact ⟨hx, rfl⟩
  · rintro ⟨hx, rfl⟩
    exact ⟨a, hx, rfl⟩

end Spmd.Success
