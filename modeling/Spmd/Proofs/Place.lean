import Mathlib.Data.List.Nodup

/-!
# Places in lists

A place in a list is a way to write it as `pre ++ x :: post`. In a list without duplicates every element has
one place (`Place.unique`), and inserting or dropping elements moves places (`Place.split_insert`,
`Place.split_filter`). `List.eraseDups` leaves one place to every element.
-/

namespace Spmd.Place

open List

variable {α : Type} {x y : α} {l pre post pre' post' : List α}

theorem unique (hnodup : l.Nodup) (h : l = pre ++ x :: post) (h' : l = pre' ++ x :: post') :
    pre = pre' ∧ post = post' := by
  subst h
  induction pre generalizing pre' with
  | nil =>
    cases pre' with
    | nil => exact ⟨rfl, (cons.inj h').2⟩
    | cons z pre' =>
      obtain ⟨rfl, hpost⟩ := cons.inj h'
      exact absurd (by rw [hpost]; simp) (nodup_cons.mp hnodup).1
  | cons z pre ih =>
    cases pre' with
    | nil =>
      obtain ⟨rfl, hpost⟩ := cons.inj h'
      exact absurd (by simp) (nodup_cons.mp hnodup).1
    | cons z' pre' =>
      obtain ⟨rfl, htail⟩ := cons.inj h'
      obtain ⟨rfl, rfl⟩ := ih (nodup_cons.mp hnodup).2 htail
      exact ⟨rfl, rfl⟩

theorem idxOf?_eq [BEq α] [LawfulBEq α] (hnot : x ∉ pre) : (pre ++ x :: post).idxOf? x = some pre.length := by
  rw [idxOf?, findIdx?_append, findIdx?_eq_none_iff.mpr fun y hy => by
    have hne : y ≠ x := fun heq => hnot (heq ▸ hy)
    simpa using hne]
  simp [findIdx?_cons]

/-- The places of a list that got a new element. -/
theorem split_insert (h : pre ++ y :: post = pre' ++ x :: post') :
    (∃ mid, pre = pre' ++ x :: mid ∧ post' = mid ++ y :: post) ∨ (pre' = pre ∧ x = y ∧ post' = post) ∨
      ∃ mid, pre' = pre ++ y :: mid ∧ post = mid ++ x :: post' := by
  rcases append_eq_append_iff.mp h with ⟨mid, rfl, hmid⟩ | ⟨mid, rfl, hmid⟩
  · rcases cons_eq_append_iff.mp hmid with ⟨rfl, hpost⟩ | ⟨mid', rfl, rfl⟩
    · cases hpost
      exact .inr (.inl ⟨by simp, rfl, rfl⟩)
    · exact .inr (.inr ⟨mid', rfl, rfl⟩)
  · rcases cons_eq_append_iff.mp hmid with ⟨rfl, hpost⟩ | ⟨mid', rfl, rfl⟩
    · cases hpost
      exact .inr (.inl ⟨by simp, rfl, rfl⟩)
    · exact .inl ⟨mid', rfl, rfl⟩

/-- A place in a filtered list is a place in the whole one. -/
theorem split_filter {p : α → Bool} (h : l.filter p = pre ++ x :: post) :
    ∃ pre' post', l = pre' ++ x :: post' ∧ pre'.filter p = pre ∧ post'.filter p = post := by
  obtain ⟨l1, l2, rfl, rfl, htail⟩ := filter_eq_append_iff.mp h
  obtain ⟨m1, m2, rfl, hm1, _, rfl⟩ := filter_eq_cons_iff.mp htail
  refine ⟨l1 ++ m1, m2, by simp, ?_, rfl⟩
  rw [filter_append, filter_eq_nil_iff.mpr hm1, append_nil]

theorem nodup_eraseDups [BEq α] [LawfulBEq α] (l : List α) : l.eraseDups.Nodup := by
  cases l with
  | nil => exact nodup_nil
  | cons x l =>
    have := length_filter_le (fun y => !y == x) l
    rw [eraseDups_cons, nodup_cons, mem_eraseDups]
    exact ⟨by simp, nodup_eraseDups _⟩
termination_by l.length

theorem eraseDups_sublist [BEq α] [LawfulBEq α] (l : List α) : l.eraseDups.Sublist l := by
  cases l with
  | nil => exact .slnil
  | cons x l =>
    have := length_filter_le (fun y => !y == x) l
    rw [eraseDups_cons]
    exact ((eraseDups_sublist _).trans filter_sublist).cons_cons x
termination_by l.length

end Spmd.Place
