import Mathlib.Algebra.BigOperators.Group.List.Basic
import Mathlib.Algebra.Order.BigOperators.Group.List
import Mathlib.Algebra.Order.Group.Nat
import Spmd.Graph.Ascent
import Spmd.Proofs.Graph.Dominates

/-!
# The iteration finds the closest dominators

A graph is given by the predecessors of its positions, `0` is its root, and every other position has a predecessor
in front of it.

* **`mem_chain_meet`** — the ways up from two known positions have the way up from their meeting point in common.
* **`Visiting`** — the invariant of a sweep at a position. Nothing on the way up of a position gets lost that
  dominates it, and no position goes up further than its known predecessors allow.
* **`Visiting.visit`** — a visit keeps the invariant and lowers the weight, or changes nothing. From it follow
  what a sweep does (`Visiting.sweep`) and that the repetition ends (`Visiting.settle`).
* **`Settled.mem_chain_iff`** — once nothing changes, the way up from a position lists its dominators.
-/

namespace Spmd.Ascent

open List Option

variable {t : Ascent} {a b c i j p x y : Nat}

/-! ## Ways up -/

theorem mem_chain_iff : a ∈ t.chain b ↔ a = b ∨ ∃ p, t.up? b = some p ∧ a ∈ t.chain p := by
  rw [chain]
  split
  next p hp =>
    simp [hp]
  next hp =>
    simp [hp]

theorem self_mem_chain (t : Ascent) (a : Nat) : a ∈ t.chain a := mem_chain_iff.mpr (.inl rfl)

theorem mem_chain_of_up? (hp : t.up? b = some p) (h : a ∈ t.chain p) : a ∈ t.chain b :=
  mem_chain_iff.mpr (.inr ⟨p, hp, h⟩)

/-- What holds of a position and of where each position goes up to holds on its whole way up. -/
theorem chain_induction {P : Nat → Prop} (hb : P b) (hup : ∀ i p, P i → t.up? i = some p → P p) :
    ∀ a ∈ t.chain b, P a := by
  fun_induction chain t b with
  | case1 b p hp ih =>
    intro a ha
    rcases mem_cons.mp ha with rfl | ha
    · exact hb
    · exact ih (hup b p hb hp) a ha
  | case2 b hp =>
    intro a ha
    exact mem_singleton.mp ha ▸ hb

theorem mem_chain_trans (hab : a ∈ t.chain b) (hbc : b ∈ t.chain c) : a ∈ t.chain c := by
  fun_induction chain t c with
  | case1 c p hp ih =>
    rcases mem_cons.mp hbc with rfl | hbc
    · rcases mem_chain_iff.mp hab with rfl | ⟨r, hr, hab⟩
      · exact .head _
      · obtain rfl := mem_unique hp hr
        exact .tail _ hab
    · exact .tail _ (ih hbc)
  | case2 c hp =>
    obtain rfl := mem_singleton.mp hbc
    rcases mem_chain_iff.mp hab with rfl | ⟨r, hr, _⟩
    · exact .head _
    · rw [hp] at hr
      cases hr

/-- A way up goes to the front. -/
theorem le_of_mem_chain : a ∈ t.chain b → a ≤ b := by
  refine chain_induction (P := (· ≤ b)) (Nat.le_refl b) (fun i p hi hp => ?_) a
  have := up?_lt hp
  omega

theorem up?_zero (t : Ascent) : t.up? 0 = none := by
  cases h : t.up? 0 with
  | none => rfl
  | some p => exact absurd (up?_lt h) (Nat.not_lt_zero p)

theorem mem_chain_zero : a ∈ t.chain 0 ↔ a = 0 := by
  rw [mem_chain_iff, up?_zero]
  simp

/-! ## Known positions -/

theorem known_iff : t.known i = true ↔ i = 0 ∨ ∃ p, t.up? i = some p := by
  rw [known, Bool.or_eq_true, decide_eq_true_iff, isSome_iff_exists]

theorem known_zero (t : Ascent) : t.known 0 = true := known_iff.mpr (.inl rfl)

theorem known_of_up? (h : t.up? i = some p) : t.known i = true := known_iff.mpr (.inr ⟨p, h⟩)

/-- Known positions go up to known positions. -/
def Grounded (t : Ascent) : Prop := ∀ i p, t.up? i = some p → t.known p = true

/-- A finger on a known position that is not the root goes up. -/
theorem up?_eq_some_up (h : t.known i = true) (hi : 0 < i) : t.up? i = some (t.up i) := by
  rcases known_iff.mp h with rfl | ⟨p, hp⟩
  · exact absurd hi (Nat.lt_irrefl 0)
  · rw [up, hp]
    rfl

theorem known_meet (ht : t.Grounded) (ha : t.known a = true) (hb : t.known b = true) : t.known (t.meet a b) = true := by
  fun_induction meet t a b with
  | case1 b => exact ha
  | case2 a b hne hlt ih => exact ih (ht a _ (up?_eq_some_up ha (by omega))) hb
  | case3 a b hne hlt ih => exact ih ha (ht b _ (up?_eq_some_up hb (by omega)))

/-- **Two ways up have in common what is on the way up from where they meet.** -/
theorem mem_chain_meet (ht : t.Grounded) (ha : t.known a = true) (hb : t.known b = true) :
    y ∈ t.chain (t.meet a b) ↔ y ∈ t.chain a ∧ y ∈ t.chain b := by
  -- the finger further back leaves a position that is not on the other way up
  have hleave : ∀ {a b}, t.known a = true → b < a → (y ∈ t.chain a ∧ y ∈ t.chain b ↔ y ∈ t.chain (t.up a) ∧ y ∈ t.chain b) := by
    intro a b ha hlt
    have hup := up?_eq_some_up ha (by omega)
    constructor
    · rintro ⟨hya, hyb⟩
      rcases mem_chain_iff.mp hya with rfl | ⟨p, hp, hya⟩
      · exact absurd (le_of_mem_chain hyb) (by omega)
      · exact ⟨mem_unique hp hup ▸ hya, hyb⟩
    · rintro ⟨hya, hyb⟩
      exact ⟨mem_chain_of_up? hup hya, hyb⟩
  fun_induction meet t a b with
  | case1 b => simp
  | case2 a b hne hlt ih =>
    have hup := up?_eq_some_up ha (by omega)
    exact (ih (ht a _ hup) hb).trans (hleave ha hlt).symm
  | case3 a b hne hlt ih =>
    have hup := up?_eq_some_up hb (by omega)
    refine (ih ha (ht b _ hup)).trans ?_
    rw [and_comm, ← hleave hb (by omega), and_comm]

/-- The two fingers of `meet`, and one move of the one that is further back. -/
def move (t : Ascent) (f : Nat × Nat) : Nat × Nat :=
  if f.1 = f.2 then f else if f.2 < f.1 then (t.up f.1, f.2) else (f.1, t.up f.2)

/-- The fingers come together. -/
theorem exists_iterate_move (t : Ascent) (a b : Nat) :
    ∃ n ≤ a + b, t.move^[n] (a, b) = (t.meet a b, t.meet a b) := by
  fun_induction meet t a b with
  | case1 b => exact ⟨0, Nat.zero_le _, rfl⟩
  | case2 a b hne hlt ih =>
    obtain ⟨n, hn, hmoves⟩ := ih
    have := t.up_lt (i := a) (by omega)
    refine ⟨n + 1, by omega, ?_⟩
    rw [Function.iterate_succ_apply, move, if_neg hne, if_pos hlt, hmoves]
  | case3 a b hne hlt ih =>
    obtain ⟨n, hn, hmoves⟩ := ih
    have := t.up_lt (i := b) (by omega)
    refine ⟨n + 1, by omega, ?_⟩
    rw [Function.iterate_succ_apply, move, if_neg hne, if_neg hlt, hmoves]

/-- The candidate is where the ways up from all known predecessors meet. -/
theorem candidate?_eq_some (ht : t.Grounded) {preds : List Nat} (hq : j ∈ preds) (hj : t.known j = true) :
    ∃ c, t.candidate? preds = some c ∧ t.known c = true ∧
      ∀ y, y ∈ t.chain c ↔ ∀ p ∈ preds, t.known p = true → y ∈ t.chain p := by
  have hfold : ∀ (ps : List Nat) (c : Nat), t.known c = true → (∀ p ∈ ps, t.known p = true) →
      t.known (ps.foldl (fun c p => t.meet p c) c) = true ∧
        ∀ y, y ∈ t.chain (ps.foldl (fun c p => t.meet p c) c) ↔ y ∈ t.chain c ∧ ∀ p ∈ ps, y ∈ t.chain p := by
    intro ps
    induction ps with
    | nil => intro c hc _; simp [hc]
    | cons p ps ih =>
      intro c hc hps
      have hp := hps p (.head _)
      obtain ⟨hknown, hmem⟩ := ih (t.meet p c) (known_meet ht hp hc) fun r hr => hps r (.tail _ hr)
      refine ⟨hknown, fun y => ?_⟩
      rw [foldl_cons, hmem, mem_chain_meet ht hp hc, forall_mem_cons, and_comm (a := y ∈ t.chain p), and_assoc]
  have hmem : ∀ p, p ∈ preds.filter t.known ↔ p ∈ preds ∧ t.known p = true := fun p => mem_filter
  unfold candidate?
  cases hps : preds.filter t.known with
  | nil => exact absurd ((hmem j).mpr ⟨hq, hj⟩) (by simp [hps])
  | cons p ps =>
    have hall : ∀ r ∈ p :: ps, t.known r = true := fun r hr => ((hmem r).mp (hps ▸ hr)).2
    obtain ⟨hknown, hchain⟩ := hfold ps p (hall p (.head _)) fun r hr => hall r (.tail _ hr)
    refine ⟨_, rfl, hknown, fun y => ?_⟩
    refine (hchain y).trans (forall_mem_cons (p := (y ∈ t.chain ·)).symm.trans ?_)
    rw [← hps]
    exact ⟨fun h r hr hk => h r ((hmem r).mpr ⟨hr, hk⟩), fun h r hr => h r ((hmem r).mp hr).1 ((hmem r).mp hr).2⟩

/-! ## Changing one way up -/

theorem up?_set (hp : p < i) (hi : i < t.cells.size) : (t.set i p hp).up? j = if j = i then some p else t.up? j := by
  unfold up? set
  rw [Array.getElem?_setIfInBounds]
  by_cases hij : j = i
  · subst hij
    simp [hi]
  · rw [if_neg (Ne.symm hij), if_neg hij]

theorem size_set (hp : p < i) : (t.set i p hp).cells.size = t.cells.size := Array.size_setIfInBounds

/-- A way up that does not pass the changed position stays. -/
theorem mem_chain_set_of_not_mem (hp : p < i) (hi : i < t.cells.size) (hx : i ∉ t.chain x) :
    y ∈ (t.set i p hp).chain x ↔ y ∈ t.chain x := by
  have hne : x ≠ i := fun h => hx (h ▸ self_mem_chain t x)
  fun_induction chain t x with
  | case1 x r hr ih =>
    have hi' : i ∉ t.chain r := fun h => hx (.tail _ h)
    rw [mem_chain_iff, up?_set hp hi, if_neg hne, mem_cons]
    simp only [hr, some.injEq, exists_eq_left']
    exact or_congr Iff.rfl (ih hi' fun h => hi' (h ▸ self_mem_chain t r))
  | case2 x hr =>
    rw [mem_chain_iff, up?_set hp hi, if_neg hne, hr]
    simp

/-- A way up that passes the changed position keeps what lies behind it and goes on from there in the new way. -/
theorem mem_chain_set_of_mem (hp : p < i) (hi : i < t.cells.size) (hx : i ∈ t.chain x) :
    y ∈ (t.set i p hp).chain x ↔ (y ∈ t.chain x ∧ i ≤ y) ∨ y ∈ t.chain p := by
  have hfront : i ∉ t.chain p := fun h => absurd (le_of_mem_chain h) (by omega)
  fun_induction chain t x with
  | case1 x r hr ih =>
    rw [mem_chain_iff, up?_set hp hi]
    by_cases hxi : x = i
    · subst hxi
      simp only [if_pos, some.injEq, exists_eq_left', mem_chain_set_of_not_mem hp hi hfront, mem_cons]
      constructor
      · rintro (rfl | h)
        · exact .inl ⟨.inl rfl, Nat.le_refl y⟩
        · exact .inr h
      · rintro (⟨rfl | h, hle⟩ | h)
        · exact .inl rfl
        · have := le_of_mem_chain h
          have := up?_lt hr
          omega
        · exact .inr h
    · have hir := (mem_cons.mp hx).resolve_left (Ne.symm hxi)
      have hle : i ≤ x := Nat.le_trans (le_of_mem_chain hir) (Nat.le_of_lt (up?_lt hr))
      simp only [if_neg hxi, hr, some.injEq, exists_eq_left', ih hir, mem_cons]
      constructor
      · rintro (rfl | ⟨h, hi⟩ | h)
        · exact .inl ⟨.inl rfl, hle⟩
        · exact .inl ⟨.inr h, hi⟩
        · exact .inr h
      · rintro (⟨rfl | h, hi⟩ | h)
        · exact .inl rfl
        · exact .inr (.inl ⟨h, hi⟩)
        · exact .inr (.inr h)
  | case2 x hr =>
    obtain rfl := mem_singleton.mp hx
    rw [mem_chain_iff, up?_set hp hi]
    simp only [if_pos, some.injEq, exists_eq_left', mem_chain_set_of_not_mem hp hi hfront, mem_singleton]
    constructor
    · rintro (rfl | h)
      · exact .inl ⟨rfl, Nat.le_refl y⟩
      · exact .inr h
    · rintro (⟨rfl, -⟩ | h)
      · exact .inl rfl
      · exact .inr h

theorem set_eq_self (h : t.up? i = some p) : t.set i p (up?_lt h) = t := by
  have hcell : t.cells[i]? = some (some p) := join_eq_some_iff.mp h
  obtain ⟨hi, hget⟩ := Array.getElem?_eq_some_iff.mp hcell
  unfold set
  congr 1
  refine Array.ext (by simp) fun j hj _ => ?_
  rw [Array.getElem_setIfInBounds]
  split
  next hij =>
    subst hij
    exact hget.symm
  · rfl

/-- A change to an earlier position lowers the weight. -/
theorem weight_set_lt (hp : p < i) (hi : i < t.cells.size) (h : p < (t.up? i).getD i) :
    (t.set i p hp).weight < t.weight := by
  unfold weight
  rw [size_set]
  refine sum_lt_sum _ _ (fun j _ => ?_) ⟨i, mem_range.mpr hi, ?_⟩
  · rw [up?_set hp hi]
    split
    next hj =>
      exact hj ▸ Nat.le_of_lt h
    · exact Nat.le_refl _
  · rw [up?_set hp hi, if_pos rfl]
    exact h

/-! ## Visits -/

/-- The positions of a graph stand in a row: every one but the root is behind one of its predecessors. -/
structure Row (preds : Nat → List Nat) (n : Nat) : Prop where
  inside : ∀ {i p}, p ∈ preds i → i < n ∧ p < n
  front : ∀ {i}, 0 < i → i < n → ∃ p ∈ preds i, p < i

/-- The way up along the first predecessor in front of each position. -/
def spanning (preds : Nat → List Nat) (n : Nat) : Ascent where
  cells := ((List.range n).map fun i => (preds i).find? (· < i)).toArray
  earlier {i p} h := by
    rw [List.getElem?_toArray, List.getElem?_map, map_eq_some_iff] at h
    obtain ⟨j, hj, hp⟩ := h
    obtain ⟨_, rfl⟩ := List.getElem?_eq_some_iff.mp hj
    simpa using List.find?_some hp

variable {preds : Nat → List Nat} {n : Nat} {t' : Ascent}

theorem mem_preds_of_spanning (h : (spanning preds n).up? i = some p) : p ∈ preds i := by
  rw [up?, spanning, getElem?_toArray, getElem?_map, join_eq_some_iff, map_eq_some_iff] at h
  obtain ⟨j, hj, hp⟩ := h
  obtain ⟨_, rfl⟩ := List.getElem?_eq_some_iff.mp hj
  rw [getElem_range] at hp
  exact mem_of_find?_eq_some hp

theorem Row.exists_spanning (hrow : Row preds n) (hi : 0 < i) (hn : i < n) : ∃ q, (spanning preds n).up? i = some q := by
  obtain ⟨p, hp, hlt⟩ := hrow.front hi hn
  have hfind : ((preds i).find? (· < i)).isSome = true := find?_isSome.mpr ⟨p, hp, by simpa using hlt⟩
  obtain ⟨q, hq⟩ := isSome_iff_exists.mp hfind
  refine ⟨q, ?_⟩
  rw [up?, spanning, getElem?_toArray, getElem?_map, getElem?_range hn, map_some, hq]
  rfl

/-- A walk that avoids a position goes on down the spanning tree, where that position is left behind. -/
theorem avoiding_of_spanning (hi : i ∈ (spanning preds n).chain x) (hy : y < i)
    (h : Avoiding (fun a b => a ∈ preds b) y 0 i) : Avoiding (fun a b => a ∈ preds b) y 0 x := by
  fun_induction chain (spanning preds n) x with
  | case1 x q hq ih =>
    rcases mem_cons.mp hi with rfl | hi
    · exact h
    · have := le_of_mem_chain hi
      have := up?_lt hq
      exact (ih hi).tail ⟨mem_preds_of_spanning hq, by omega⟩
  | case2 x hq => exact mem_singleton.mp hi ▸ h

/-- How a sweep stands that has come to a position. -/
structure Visiting (preds : Nat → List Nat) (n i : Nat) (t : Ascent) : Prop where
  size : t.cells.size = n
  passed : ∀ {j}, j < i → j < n → t.known j = true
  /-- The known positions are the first so many. -/
  front : ∀ {j k}, t.known j = true → k ≤ j → t.known k = true
  tree : ∀ {w u}, t.up? w = some u → u ∈ (spanning preds n).chain w
  /-- What all ways up from the known predecessors have in common is on the way up. -/
  low : ∀ {w u y}, t.up? w = some u → (∀ p ∈ preds w, t.known p = true → y ∈ t.chain p) → y ∈ t.chain u
  /-- A position goes up to one on the way up of its predecessor in the tree, unless it is still to be visited and
  that one has been. -/
  near : ∀ {w u}, t.up? w = some u → (∃ q, (spanning preds n).up? w = some q ∧ u ∈ t.chain q) ∨ i ≤ w ∧ u < i
  /-- No dominator is missing. -/
  complete : ∀ {x y}, t.known x = true → Dominates (fun a b => a ∈ preds b) 0 y x → y ∈ t.chain x

theorem lt_size_of_up? (h : t.up? i = some p) : i < t.cells.size := by
  by_contra hge
  rw [up?, Array.getElem?_eq_none (Nat.le_of_not_lt hge)] at h
  cases h

namespace Visiting

theorem grounded (h : Visiting preds n i t) : t.Grounded := fun _ _ hp =>
  h.front (known_of_up? hp) (Nat.le_of_lt (up?_lt hp))

/-- Ways up follow the spanning tree. -/
theorem mem_spanning (h : Visiting preds n i t) : y ∈ t.chain x → y ∈ (spanning preds n).chain x :=
  chain_induction (P := (· ∈ (spanning preds n).chain x)) (self_mem_chain _ x)
    (fun _ _ hw hu => mem_chain_trans (h.tree hu) hw) y

theorem start (preds : Nat → List Nat) (n : Nat) : Visiting preds n 1 (Ascent.start n) := by
  have hup : ∀ j, (Ascent.start n).up? j = none := by
    intro j
    unfold Ascent.up? Ascent.start
    rw [Array.getElem?_replicate]
    split
    · rfl
    · rfl
  have hknown : ∀ {j}, (Ascent.start n).known j = true → j = 0 := by
    intro j hj
    rcases known_iff.mp hj with rfl | ⟨p, hp⟩
    · rfl
    · rw [hup] at hp
      cases hp
  have hnone : ∀ {j u} {P : Prop}, (Ascent.start n).up? j = some u → P := by
    intro j u P hu
    rw [hup] at hu
    cases hu
  refine ⟨Array.size_replicate, ?_, ?_, hnone, fun hu => hnone hu, hnone, ?_⟩
  · intro j hj _
    obtain rfl : j = 0 := by omega
    exact known_zero _
  · intro j k hj hk
    obtain rfl : k = 0 := by
      have := hknown hj
      omega
    exact known_zero _
  · intro x y hx hdom
    obtain rfl := hknown hx
    rcases hdom with rfl | hnot
    · exact self_mem_chain _ 0
    · exact absurd .refl hnot

/-- What a visit finds: the ways up of the known predecessors meet in front of the position. -/
theorem exists_candidate (hrow : Row preds n) (h : Visiting preds n i t) (hi : 0 < i) (hn : i < n) :
    ∃ c q, t.candidate? (preds i) = some c ∧ c < i ∧ (spanning preds n).up? i = some q ∧ c ∈ t.chain q ∧
      ∀ y, y ∈ t.chain c ↔ ∀ p ∈ preds i, t.known p = true → y ∈ t.chain p := by
  obtain ⟨q, hq⟩ := hrow.exists_spanning hi hn
  have hlt := up?_lt hq
  have hknown : t.known q = true := h.passed hlt (by omega)
  obtain ⟨c, hc, _, hchain⟩ := candidate?_eq_some h.grounded (mem_preds_of_spanning hq) hknown
  have hcq : c ∈ t.chain q := (hchain c).mp (self_mem_chain t c) q (mem_preds_of_spanning hq) hknown
  have := le_of_mem_chain hcq
  exact ⟨c, q, hc, by omega, hq, hcq, hchain⟩

section

variable (h : Visiting preds n i t) (hn : i < n) (hlt : c < i)
  (hchain : ∀ y, y ∈ t.chain c ↔ ∀ p ∈ preds i, t.known p = true → y ∈ t.chain p)

include h hchain in
/-- A visit lets a position go up no less far than before. -/
theorem mem_chain_of_candidate {u : Nat} (hu : t.up? i = some u) : c ∈ t.chain u :=
  h.low hu ((hchain c).mp (self_mem_chain t c))

include h hn hchain in
/-- A visit adds nothing to the way up of a known position. -/
theorem mem_chain_of_mem_set (hx : t.known x = true) (hy : y ∈ (t.set i c hlt).chain x) : y ∈ t.chain x := by
  by_cases hix : i ∈ t.chain x
  · rcases (mem_chain_set_of_mem hlt (h.size ▸ hn) hix).mp hy with ⟨hy, _⟩ | hy
    · exact hy
    · have hi : t.known i = true := chain_induction (P := (t.known · = true)) hx (fun w u _ hu => h.grounded w u hu) i hix
      have hup := up?_eq_some_up hi (by omega)
      exact mem_chain_trans (mem_chain_of_up? hup (mem_chain_trans hy (h.mem_chain_of_candidate hchain hup))) hix
  · exact (mem_chain_set_of_not_mem hlt (h.size ▸ hn) hix).mp hy

include hn h in
theorem known_set : (t.set i c hlt).known j = true ↔ t.known j = true ∨ j = i := by
  rw [known_iff, up?_set hlt (h.size ▸ hn), known_iff]
  by_cases hj : j = i
  · simp [hj]
  · simp [hj]

include h hchain in
/-- A dominator of the visited position is on its new way up. -/
theorem mem_chain_of_dominates (hdom : Dominates (fun a b => a ∈ preds b) 0 y i) (hne : y ≠ i) : y ∈ t.chain c :=
  (hchain y).mpr fun _ hp hk => h.complete hk (hdom.of_step hne hp)

include h hn hchain in
/-- A visit that finds a candidate keeps the invariant. -/
theorem set {q : Nat} (hq : (spanning preds n).up? i = some q) (hcq : c ∈ t.chain q) :
    Visiting preds n (i + 1) (t.set i c hlt) := by
  have hsize : i < t.cells.size := h.size ▸ hn
  have hknown := fun {j} => h.known_set (j := j) hn hlt
  have hqlt := up?_lt hq
  -- the way up from a position in front of the visited one does not pass it
  have hfront : ∀ {x y}, x < i → (y ∈ (t.set i c hlt).chain x ↔ y ∈ t.chain x) := fun hx =>
    mem_chain_set_of_not_mem hlt hsize fun hi => absurd (le_of_mem_chain hi) (by omega)
  refine ⟨(size_set hlt).trans h.size, ?_, ?_, ?_, ?_, ?_, ?_⟩
  case refine_1 =>
    intro j hj hjn
    by_cases hji : j = i
    · exact hknown.mpr (.inr hji)
    · exact hknown.mpr (.inl (h.passed (by omega) hjn))
  case refine_2 =>
    intro j k hj hk
    rcases hknown.mp hj with hj | rfl
    · exact hknown.mpr (.inl (h.front hj hk))
    · by_cases hkj : k = j
      · exact hknown.mpr (.inr hkj)
      · exact hknown.mpr (.inl (h.passed (by omega) (by omega)))
  case refine_3 =>
    intro w u hu
    rw [up?_set hlt hsize] at hu
    split at hu
    next hwi =>
      cases hu
      exact hwi ▸ mem_chain_of_up? hq (h.mem_spanning hcq)
    · exact h.tree hu
  case refine_4 =>
    intro w u y hu hall
    -- the premise held already before the visit
    have hold : ∀ p ∈ preds w, t.known p = true → y ∈ t.chain p := fun p hp hk =>
      h.mem_chain_of_mem_set hn hlt hchain hk (hall p hp (hknown.mpr (.inl hk)))
    rw [up?_set hlt hsize] at hu
    split at hu
    next hwi =>
      cases hu
      exact (hfront hlt).mpr ((hchain y).mpr (hwi ▸ hold))
    · have hyu := h.low hu hold
      by_cases hiu : i ∈ t.chain u
      · rw [mem_chain_set_of_mem hlt hsize hiu]
        rcases h.near hu with ⟨r, hr, hur⟩ | ⟨_, hui⟩
        · -- the predecessor in the tree passes the visited position too
          have hrk : t.known r = true := h.front (known_of_up? hu) (Nat.le_of_lt (up?_lt hr))
          have hyr := hall r (mem_preds_of_spanning hr) (hknown.mpr (.inl hrk))
          rcases (mem_chain_set_of_mem hlt hsize (mem_chain_trans hiu hur)).mp hyr with ⟨_, hiy⟩ | hyc
          · exact .inl ⟨hyu, hiy⟩
          · exact .inr hyc
        · exact absurd (le_of_mem_chain hiu) (by omega)
      · exact (mem_chain_set_of_not_mem hlt hsize hiu).mpr hyu
  case refine_5 =>
    intro w u hu
    rw [up?_set hlt hsize] at hu
    split at hu
    next hwi =>
      cases hu
      exact .inl ⟨q, hwi ▸ hq, (hfront hqlt).mpr hcq⟩
    next hwi =>
      rcases h.near hu with ⟨r, hr, hur⟩ | ⟨hiw, hui⟩
      · by_cases hir : i ∈ t.chain r
        · by_cases hiu : i ≤ u
          · exact .inl ⟨r, hr, (mem_chain_set_of_mem hlt hsize hir).mpr (.inl ⟨hur, hiu⟩)⟩
          · have := le_of_mem_chain hir
            have := up?_lt hr
            exact .inr ⟨by omega, by omega⟩
        · exact .inl ⟨r, hr, (mem_chain_set_of_not_mem hlt hsize hir).mpr hur⟩
      · exact .inr ⟨by omega, by omega⟩
  case refine_6 =>
    intro x y hx hdom
    by_cases hxi : x = i
    · rw [hxi] at hdom ⊢
      by_cases hyi : y = i
      · rw [hyi]
        exact self_mem_chain _ i
      · refine mem_chain_of_up? (p := c) ?_ ((hfront hlt).mpr (h.mem_chain_of_dominates hchain hdom hyi))
        rw [up?_set hlt hsize, if_pos rfl]
    · have hyx := h.complete ((hknown.mp hx).resolve_right hxi) hdom
      by_cases hix : i ∈ t.chain x
      · rw [mem_chain_set_of_mem hlt hsize hix]
        by_cases hiy : i ≤ y
        · exact .inl ⟨hyx, hiy⟩
        · -- what is lost from the way up does not dominate `x`: a walk gets around it to `i`, and on to `x`
          have hdomi : Dominates (fun a b => a ∈ preds b) 0 y i :=
            hdom.imp_right fun hnot hwalk => hnot (avoiding_of_spanning (h.mem_spanning hix) (by omega) hwalk)
          exact .inr (h.mem_chain_of_dominates hchain hdomi (by omega))
      · exact (mem_chain_set_of_not_mem hlt hsize hix).mpr hyx

end

/-- **A visit keeps the invariant, and it lowers the weight or changes nothing.** -/
theorem visit (hrow : Row preds n) (h : Visiting preds n i t) (hi : 0 < i) (hn : i < n) :
    ∃ t', Ascent.visit preds t i = some t' ∧ Visiting preds n (i + 1) t' ∧ (t' = t ∨ t'.weight < t.weight) := by
  obtain ⟨c, q, hc, hlt, hq, hcq, hchain⟩ := h.exists_candidate hrow hi hn
  refine ⟨t.set i c hlt, ?_, h.set hn hlt hchain hq hcq, ?_⟩
  · rw [Ascent.visit, hc]
    exact dif_pos hlt
  · cases hu : t.up? i with
    | none => exact .inr (weight_set_lt hlt (h.size ▸ hn) (by simpa [hu] using hlt))
    | some u =>
      have hle := le_of_mem_chain (h.mem_chain_of_candidate hchain hu)
      by_cases hcu : c = u
      · subst hcu
        exact .inl (set_eq_self hu)
      · exact .inr (weight_set_lt hlt (h.size ▸ hn) (by rw [hu]; exact Nat.lt_of_le_of_ne hle hcu))

/-- A sweep that has come to its end can start again. -/
theorem rewind (h : Visiting preds n n t) (j : Nat) : Visiting preds n j t where
  size := h.size
  passed _ hn := h.passed hn hn
  front := h.front
  tree := h.tree
  low := h.low
  near hu := by
    rcases h.near hu with hq | ⟨hw, _⟩
    · exact .inl hq
    · have := lt_size_of_up? hu
      rw [h.size] at this
      omega
  complete := h.complete

/-- The rest of a sweep. -/
theorem foldlM (hrow : Row preds n) (hi : 0 < i) {m : Nat} (hm : i + m = n) (h : Visiting preds n i t) :
    ∃ t', (List.range' i m).foldlM (Ascent.visit preds) t = some t' ∧ Visiting preds n n t' ∧
      (t'.weight < t.weight ∨ t' = t ∧ ∀ j, i ≤ j → j < n → Ascent.visit preds t j = some t) := by
  induction m generalizing i t with
  | zero =>
    obtain rfl : i = n := hm
    exact ⟨t, rfl, h, .inr ⟨rfl, fun j hij hjn => absurd hij (by omega)⟩⟩
  | succ m ih =>
    obtain ⟨t1, hvisit, h1, hless⟩ := h.visit hrow hi (by omega)
    obtain ⟨t2, hrest, h2, hless'⟩ := ih (Nat.succ_pos i) (by omega) h1
    refine ⟨t2, ?_, h2, ?_⟩
    · rw [range'_succ, foldlM_cons, hvisit]
      exact hrest
    · rcases hless with rfl | hless
      · rcases hless' with hless' | ⟨rfl, hstill⟩
        · exact .inl hless'
        · refine .inr ⟨rfl, fun j hij hjn => ?_⟩
          by_cases hji : j = i
          · exact hji ▸ hvisit
          · exact hstill j (by omega) hjn
      · rcases hless' with hless' | ⟨rfl, _⟩
        · exact .inl (Nat.lt_trans hless' hless)
        · exact .inl hless

end Visiting

/-- No visit changes the ascent any more. -/
structure Settled (preds : Nat → List Nat) (n : Nat) (t : Ascent) : Prop where
  visiting : Visiting preds n n t
  still : ∀ j, 0 < j → j < n → Ascent.visit preds t j = some t

namespace Visiting

/-- A sweep lowers the weight, or it changes nothing and everything is settled. -/
theorem sweep (hrow : Row preds n) (h : Visiting preds n 1 t) :
    ∃ t', Ascent.sweep preds t = some t' ∧ Visiting preds n n t' ∧
      (t'.weight < t.weight ∨ t' = t ∧ Settled preds n t) := by
  unfold Ascent.sweep
  rw [h.size]
  cases n with
  | zero =>
    have hend : Visiting preds 0 0 t := by
      refine ⟨h.size, fun hj => absurd hj (Nat.not_lt_zero _), h.front, h.tree, h.low, fun hu => ?_, h.complete⟩
      have := lt_size_of_up? hu
      rw [h.size] at this
      omega
    exact ⟨t, rfl, hend, .inr ⟨rfl, hend, fun j hj hn => absurd hn (Nat.not_lt_zero j)⟩⟩
  | succ n =>
    obtain ⟨t', hfold, hend, hless⟩ := h.foldlM hrow Nat.one_pos (Nat.add_comm 1 n)
    refine ⟨t', hfold, hend, hless.imp_right ?_⟩
    rintro ⟨rfl, hstill⟩
    exact ⟨rfl, hend, hstill⟩

/-- **Repeated sweeps settle.** The weight bounds how many are needed. -/
theorem settle (hrow : Row preds n) (h : Visiting preds n 1 t) :
    ∃ r, settle preds t = some r ∧ Settled preds n r ∧
      ∃ m ≤ t.weight, (· >>= Ascent.sweep preds)^[m] (some t) = some r ∧ Ascent.sweep preds r = some r := by
  induction hw : t.weight using Nat.strong_induction_on generalizing t with
  | _ w ih =>
    subst hw
    obtain ⟨t', hsweep, hend, hless⟩ := h.sweep hrow
    rw [settle, hsweep]
    rcases hless with hless | ⟨rfl, hsettled⟩
    · have hne : t'.cells ≠ t.cells := by
        intro heq
        obtain rfl : t' = t := by
          cases t
          cases t'
          simpa using heq
        exact Nat.lt_irrefl _ hless
      obtain ⟨r, hr, hsettled, m, hm, hsweeps, hlast⟩ := ih t'.weight hless (hend.rewind 1) rfl
      refine ⟨r, ?_, hsettled, m + 1, by omega, ?_, hlast⟩
      · simp only [if_neg hne, dif_pos hless, hr]
      · rw [Function.iterate_succ_apply]
        show (· >>= Ascent.sweep preds)^[m] (Ascent.sweep preds t) = some r
        rw [hsweep]
        exact hsweeps
    · exact ⟨t', by simp, hsettled, 0, Nat.zero_le _, rfl, hsweep⟩

end Visiting

namespace Settled

/-- Everything is known in the end, and a position goes up to where the ways up of its predecessors meet. -/
theorem exists_up? (hrow : Row preds n) (h : Settled preds n t) (hi : 0 < i) (hn : i < n) :
    ∃ c, t.up? i = some c ∧ ∀ y, y ∈ t.chain c ↔ ∀ p ∈ preds i, y ∈ t.chain p := by
  obtain ⟨c, q, hc, hlt, _, _, hchain⟩ := (h.visiting.rewind i).exists_candidate hrow hi hn
  have hvisit := h.still i hi hn
  rw [Ascent.visit, hc] at hvisit
  have hset : t.set i c hlt = t := by
    simpa only [dif_pos hlt, some.injEq] using hvisit
  refine ⟨c, ?_, fun y => ?_⟩
  · rw [← hset, up?_set hlt (h.visiting.size ▸ hn), if_pos rfl]
  · rw [hchain]
    refine forall₂_congr fun p hp => ?_
    simp [h.visiting.passed (hrow.inside hp).2 (hrow.inside hp).2]

/-- **In the end the way up from a position lists its dominators.** -/
theorem mem_chain_iff (hrow : Row preds n) (h : Settled preds n t) (hx : x < n) :
    y ∈ t.chain x ↔ Dominates (fun a b => a ∈ preds b) 0 y x := by
  refine ⟨fun hy => ?_, h.visiting.complete (h.visiting.passed hx hx)⟩
  by_cases hroot : y = 0
  · exact .inl hroot
  refine .inr fun hwalk => ?_
  -- no position on a walk around `y` has `y` on its way up
  have hnot : ∀ z, Avoiding (fun a b => a ∈ preds b) y 0 z → y ∉ t.chain z := by
    intro z hz
    induction hz with
    | refl => exact fun hy => hroot (mem_chain_zero.mp hy)
    | @tail p z _ hstep ih =>
      obtain ⟨hp, hzy⟩ := hstep
      intro hyz
      rcases Nat.eq_zero_or_pos z with rfl | hz
      · exact hroot (mem_chain_zero.mp hyz)
      · obtain ⟨c, hc, hchain⟩ := h.exists_up? hrow hz (hrow.inside hp).1
        rcases Ascent.mem_chain_iff.mp hyz with rfl | ⟨r, hr, hyr⟩
        · exact hzy rfl
        · obtain rfl := mem_unique hc hr
          exact ih ((hchain y).mp hyr p hp)
  exact hnot x hwalk hy

end Settled

end Spmd.Ascent
