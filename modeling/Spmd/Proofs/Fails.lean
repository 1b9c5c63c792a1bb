import Spmd.Proofs.Success

/-!
# How a computation can fail

`Fails S x` says that the errors in `S` are the only ones that `x` can end with. What holds of all errors of the parts of
a computation holds of its own.
-/

namespace Spmd

variable {ε α β : Type} {S : ε → Prop}

/-- The computation fails with errors in `S` only. -/
def Fails (S : ε → Prop) (x : Except ε α) : Prop := ∀ e, x = .error e → S e

namespace Fails

theorem ok (a : α) : Fails S (.ok a : Except ε α) := fun _ h => by cases h

theorem pure (a : α) : Fails S (Pure.pure a : Except ε α) := ok a

theorem of_ok {x : Except ε α} {a : α} (h : x = .ok a) : Fails S x := h ▸ ok a

theorem throw {e : ε} (h : S e) : Fails S (MonadExcept.throw e : Except ε α) := by
  intro e' h'
  cases h'
  exact h

theorem bind {x : Except ε α} {g : α → Except ε β} (hx : Fails S x) (hg : ∀ a, x = .ok a → Fails S (g a)) :
    Fails S (x >>= g) := by
  intro f h
  cases x with
  | error f' =>
    cases h
    exact hx _ rfl
  | ok a => exact hg a rfl f h

theorem of_exists {x : Except ε α} (h : ∃ a, x = .ok a) : Fails S x := by
  obtain ⟨a, ha⟩ := h
  exact of_ok ha

theorem mapM {xs : List α} {g : α → Except ε β} (h : ∀ x ∈ xs, Fails S (g x)) : Fails S (xs.mapM g) := by
  induction xs with
  | nil => exact pure _
  | cons x xs ih =>
    rw [List.mapM_cons]
    refine (h x (.head _)).bind fun y _ => ?_
    exact (ih fun z hz => h z (.tail _ hz)).bind fun ys _ => pure _

theorem some? {S : Fault → Prop} {f : Fault} {o : Option α} (h : o = none → S f) : Fails S (Checked.some? f o) := by
  cases o with
  | none => exact throw (h rfl)
  | some a => exact pure a

theorem filterMapM {xs : List α} {g : α → Except ε (Option β)} (h : ∀ x ∈ xs, Fails S (g x)) : Fails S (xs.filterMapM g) := by
  induction xs with
  | nil => exact pure _
  | cons x xs ih =>
    have hrest := ih fun y hy => h y (.tail _ hy)
    rw [List.filterMapM_cons]
    refine (h x (.head _)).bind fun o _ => ?_
    cases o with
    | none => exact hrest
    | some y => exact hrest.bind fun ys _ => pure _

theorem findSomeM? {xs : List α} {g : α → Except ε (Option β)} (h : ∀ x ∈ xs, Fails S (g x)) : Fails S (xs.findSomeM? g) := by
  induction xs with
  | nil => exact pure _
  | cons x xs ih =>
    refine (h x (.head _)).bind fun o _ => ?_
    cases o with
    | none => exact ih fun y hy => h y (.tail _ hy)
    | some y => exact pure _

theorem allM {xs : List α} {g : α → Except ε Bool} (h : ∀ x ∈ xs, Fails S (g x)) : Fails S (xs.allM g) := by
  induction xs with
  | nil => exact pure _
  | cons x xs ih =>
    refine (h x (.head _)).bind fun a _ => ?_
    cases a with
    | false => exact pure _
    | true => exact ih fun y hy => h y (.tail _ hy)

end Fails

end Spmd
