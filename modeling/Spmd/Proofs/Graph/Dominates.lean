import Mathlib.Logic.Relation
import Mathlib.Tactic.ByContra

/-!
# Dominance by walks

A node dominates another if every walk from the root to the second goes through the first. Dominance in this
sense is an order on the nodes that can be reached, and it goes down from a node to the nodes in front of it
(`Dominates.of_step`).
-/

namespace Spmd

open Relation (ReflTransGen)

variable {α : Type} {next : α → α → Prop} {root a b c : α}

/-- There is a walk from the root to the node that does not enter `a` on its way. -/
def Avoiding (next : α → α → Prop) (a root b : α) : Prop :=
  ReflTransGen (fun x y => next x y ∧ y ≠ a) root b

/-- Every walk from the root to `b` goes through `a`. -/
def Dominates (next : α → α → Prop) (root a b : α) : Prop := a = root ∨ ¬Avoiding next a root b

theorem Avoiding.ne (h : Avoiding next a root b) (hroot : a ≠ root) : b ≠ a := by
  cases h with
  | refl => exact hroot.symm
  | tail _ hstep => exact hstep.2

/-- A walk goes through a node, or it avoids it. -/
theorem avoiding_or_through {p : α → α → Prop} (a : α) (h : ReflTransGen p root b) :
    Avoiding p a root b ∨ ReflTransGen p root a := by
  induction h with
  | refl => exact .inl .refl
  | @tail x y hwalk hstep ih =>
    rcases ih with ih | ih
    · by_cases hy : y = a
      · exact .inr (hy ▸ hwalk.tail hstep)
      · exact .inl (ih.tail ⟨hstep, hy⟩)
    · exact .inr ih

namespace Dominates

theorem refl (next : α → α → Prop) (root a : α) : Dominates next root a a := by
  by_cases hroot : a = root
  · exact .inl hroot
  · exact .inr fun h => h.ne hroot rfl

theorem root_left (next : α → α → Prop) (root b : α) : Dominates next root root b := .inl rfl

/-- What dominates a node dominates all nodes in front of it. -/
theorem of_step (h : Dominates next root a b) (hne : a ≠ b) {p : α} (hp : next p b) : Dominates next root a p := by
  rcases h with h | h
  · exact .inl h
  · exact .inr fun hwalk => h (hwalk.tail ⟨hp, hne.symm⟩)

theorem trans (hab : Dominates next root a b) (hbc : Dominates next root b c) : Dominates next root a c := by
  rcases hab with hab | hab
  · exact .inl hab
  rcases hbc with rfl | hbc
  · exact absurd .refl hab
  · refine .inr fun hwalk => ?_
    rcases avoiding_or_through b hwalk with hboth | hb
    · exact hbc (ReflTransGen.mono (fun _ _ h => ⟨h.1.1, h.2⟩) _ _ hboth)
    · exact hab hb

/-- Two nodes that can be reached and dominate each other are the same. -/
theorem antisymm (hab : Dominates next root a b) (hba : Dominates next root b a)
    (hb : ReflTransGen next root b) : a = b := by
  by_contra hne
  -- a walk to `b` has a first node among the two
  have hfirst : ∀ {x}, ReflTransGen next root x →
      (a = root ∨ b = root) ∨ Avoiding next a root b ∨ Avoiding next b root a ∨
        ReflTransGen (fun x y => next x y ∧ y ≠ a ∧ y ≠ b) root x := by
    intro x hx
    induction hx with
    | refl => exact .inr (.inr (.inr .refl))
    | @tail x y _ hstep ih =>
      rcases ih with ih | ih | ih | ih
      · exact .inl ih
      · exact .inr (.inl ih)
      · exact .inr (.inr (.inl ih))
      · by_cases hya : y = a
        · subst hya
          exact .inr (.inr (.inl ((ReflTransGen.mono (fun _ _ h => ⟨h.1, h.2.2⟩) _ _ ih).tail ⟨hstep, hne⟩)))
        · by_cases hyb : y = b
          · subst hyb
            exact .inr (.inl ((ReflTransGen.mono (fun _ _ h => ⟨h.1, h.2.1⟩) _ _ ih).tail ⟨hstep, hya⟩))
          · exact .inr (.inr (.inr (ih.tail ⟨hstep, hya, hyb⟩)))
  have hroot : ∀ {x y}, Dominates next root x y → Dominates next root y x → x ≠ y → x ≠ root := by
    rintro x y - hyx hxy rfl
    exact hyx.elim (fun h => hxy h.symm) fun h => h .refl
  have haroot := hroot hab hba hne
  have hbroot := hroot hba hab (Ne.symm hne)
  rcases hfirst hb with h | h | h | h
  · exact h.elim haroot hbroot
  · exact hab.elim haroot fun hnot => hnot h
  · exact hba.elim hbroot fun hnot => hnot h
  · rcases ReflTransGen.cases_tail h with heq | ⟨_, _, hstep⟩
    · exact hbroot heq
    · exact hstep.2.2 rfl

end Dominates

end Spmd
