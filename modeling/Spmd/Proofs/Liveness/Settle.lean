import Mathlib.Data.List.Nodup
import Mathlib.Data.List.Perm.Subperm
import Spmd.Liveness
import Spmd.Proofs.Graph.Reach

/-!
# The sweeps of liveness end

The set at the start of a block only grows, in members and in room, as long as it lies below what the next visit
makes of it (`LiveProblem.Rising`). So a sweep that changes a set takes from the slack, and after the last sweep
every set is what a visit would make of it (**`LiveProblem.settle_eq_ok`**). What the sets hold has a reason: it
belongs to every family of sets that a visit does not lead out of.
-/

namespace Spmd

open List

variable {bs : List BlockId} {l : Liveness}

namespace IndexSet

variable {s s' t t' : IndexSet}

theorem capacity_union (s t : IndexSet) : (s.union t).capacity = max s.capacity t.capacity := by
  rw [capacity, size_union, capacity, capacity]
  omega

theorem capacity_diff (s t : IndexSet) : (s.diff t).capacity = s.capacity :=
  congrArg (64 * ·) Array.size_mapIdx

/-- The second set has all members and at least the room of the first. -/
structure Le (s t : IndexSet) : Prop where
  room : s.capacity ≤ t.capacity
  members : ∀ i, s.contains i = true → t.contains i = true

theorem nodup_toList (s : IndexSet) : s.toList.Nodup := s.pairwise_toList.imp Nat.ne_of_lt

theorem count_le_capacity (s : IndexSet) : s.count ≤ s.capacity := by
  have := length_filter_le s.contains (range s.capacity)
  rwa [length_range, ← toList_eq, ← count_eq] at this

namespace Le

theorem refl (s : IndexSet) : Le s s := ⟨Nat.le_refl _, fun _ => id⟩

theorem trans {u : IndexSet} (h : Le s t) (h' : Le t u) : Le s u :=
  ⟨Nat.le_trans h.room h'.room, fun i hi => h'.members i (h.members i hi)⟩

theorem antisymm (h : Le s t) (h' : Le t s) : s = t := by
  refine eq_of_contains ?_ fun i => Bool.eq_iff_iff.mpr ⟨h.members i, h'.members i⟩
  exact Nat.eq_of_mul_eq_mul_left (by decide) (Nat.le_antisymm h.room h'.room)

theorem union (h : Le s s') (h' : Le t t') : Le (s.union t) (s'.union t') := by
  have := h.room
  have := h'.room
  refine ⟨by rw [capacity_union, capacity_union]; omega, fun i => ?_⟩
  rw [contains_union, contains_union, Bool.or_eq_true, Bool.or_eq_true]
  exact Or.imp (h.members i) (h'.members i)

theorem diff (h : Le s s') (t : IndexSet) : Le (s.diff t) (s'.diff t) := by
  refine ⟨by rw [capacity_diff, capacity_diff]; exact h.room, fun i => ?_⟩
  rw [contains_diff, contains_diff, Bool.and_eq_true, Bool.and_eq_true]
  exact And.imp_left (h.members i)

theorem count (h : Le s t) : s.count ≤ t.count := by
  rw [count_eq, count_eq]
  exact (subperm_of_subset s.nodup_toList fun i hi => mem_toList.mpr (h.members i (mem_toList.mp hi))).length_le

/-- A set that grows gains room or a member. -/
theorem weight_lt (h : Le s t) (hne : s ≠ t) : s.capacity + s.count < t.capacity + t.count := by
  have hroom := h.room
  have hcount := h.count
  by_contra hnot
  refine hne (h.antisymm ⟨by omega, fun i hi => ?_⟩)
  -- without a new member there is none to add
  by_contra hi'
  have hmore := subperm_of_subset (nodup_cons.mpr ⟨mt mem_toList.mp hi', s.nodup_toList⟩)
    (cons_subset.mpr ⟨mem_toList.mpr hi, fun j hj => mem_toList.mpr (h.members j (mem_toList.mp hj))⟩)
  have hmore := hmore.length_le
  rw [length_cons, ← count_eq, ← count_eq] at hmore
  omega

end Le

end IndexSet

theorem total_map_lt {α : Type} {xs : List α} {f g : α → Nat} (hle : ∀ x ∈ xs, f x ≤ g x) (hlt : ∃ x ∈ xs, f x < g x) :
    total (xs.map f) < total (xs.map g) := by
  have hmono : ∀ ys : List α, (∀ y ∈ ys, f y ≤ g y) → total (ys.map f) ≤ total (ys.map g) := by
    intro ys
    induction ys with
    | nil => exact fun _ => Nat.le_refl _
    | cons y ys ih => exact fun h => Nat.add_le_add (h y (.head _)) (ih fun z hz => h z (.tail _ hz))
  obtain ⟨x, hx, hlt⟩ := hlt
  obtain ⟨pre, post, rfl⟩ := append_of_mem hx
  have htotal : ∀ (h : α → Nat), total ((pre ++ x :: post).map h) = h x + total ((pre ++ post).map h) := by
    intro h
    induction pre with
    | nil => rfl
    | cons y pre ih => grind [total]
  have := hmono (pre ++ post) fun y hy => hle y (by grind)
  rw [htotal, htotal]
  omega

namespace LiveProblem

variable {p : LiveProblem} {t u : SideTable .block IndexSet} {b c : BlockId} {v : Nat}

/-! ## One visit -/

theorem contains_outOf : (p.outOf t b).contains v = true ↔
    (p.phiOut.get b).contains v = true ∨ ∃ c ∈ p.graph.succs b, (t.get c).contains v = true := by
  rw [outOf]
  generalize p.phiOut.get b = s
  induction p.graph.succs b generalizing s with
  | nil => simp
  | cons c cs ih =>
    rw [foldl_cons, ih, IndexSet.contains_union, Bool.or_eq_true, or_assoc, exists_mem_cons_iff]

theorem contains_inOf : (p.inOf t b).contains v = true ↔
    (p.uses.get b).reads.contains v = true ∨ (p.uses.get b).defs.contains v = false ∧ (p.outOf t b).contains v = true := by
  rw [inOf, IndexSet.contains_union, IndexSet.contains_diff, Bool.or_eq_true, Bool.and_eq_true, Bool.not_eq_true', or_comm,
    and_comm]

theorem inOf_le (h : ∀ c, (t.get c).Le (u.get c)) : (p.inOf t b).Le (p.inOf u b) := by
  refine IndexSet.Le.union (IndexSet.Le.diff ?_ _) (.refl _)
  have hfold : ∀ (cs : List BlockId) {s s' : IndexSet}, s.Le s' →
      (cs.foldl (fun s c => s.union (t.get c)) s).Le (cs.foldl (fun s c => s.union (u.get c)) s') := by
    intro cs
    induction cs with
    | nil => exact id
    | cons c cs ih => exact fun hs => ih (hs.union (h c))
  exact hfold _ (.refl _)

theorem capacity_inOf_le (hb : b ∈ p.graph.order) (h : ∀ c, (t.get c).capacity ≤ p.roomLimit) :
    (p.inOf t b).capacity ≤ p.roomLimit := by
  have hlimit := (max?_eq_some_iff.mp max?_cons').2 _ (mem_cons_of_mem 0 (mem_map_of_mem
    (f := fun b => max (p.phiOut.get b).capacity (p.uses.get b).reads.capacity) hb))
  have hfold : ∀ (cs : List BlockId) {s : IndexSet}, s.capacity ≤ p.roomLimit →
      (cs.foldl (fun s c => s.union (t.get c)) s).capacity ≤ p.roomLimit := by
    intro cs
    induction cs with
    | nil => exact id
    | cons c cs ih =>
      intro s hs
      have := h c
      refine ih ?_
      rw [IndexSet.capacity_union]
      omega
  have hout : (p.outOf t b).capacity ≤ p.roomLimit := hfold (p.graph.succs b) (by rw [roomLimit]; omega)
  rw [inOf, IndexSet.capacity_union, IndexSet.capacity_diff]
  rw [roomLimit] at hout ⊢
  omega

/-- A family of sets that a visit does not lead out of. -/
def Closed (p : LiveProblem) (L : BlockId → Nat → Prop) : Prop :=
  ∀ b v, ((p.uses.get b).reads.contains v = true ∨ (p.uses.get b).defs.contains v = false ∧
    ((p.phiOut.get b).contains v = true ∨ ∃ c ∈ p.graph.succs b, L c v)) → L b v

/-- Every set lies below what a visit would make of it, has no more room than there can be, and holds what it may. -/
structure Rising (p : LiveProblem) (L : BlockId → Nat → Prop) (t : SideTable .block IndexSet) : Prop where
  le : ∀ b ∈ p.graph.order, (t.get b).Le (p.inOf t b)
  room : ∀ b, (t.get b).capacity ≤ p.roomLimit
  sound : ∀ b v, (t.get b).contains v = true → L b v

variable {L : BlockId → Nat → Prop} {s : Liveness × Bool}

theorem Rising.set (h : p.Rising L t) (hL : p.Closed L) (hb : b ∈ p.graph.order) :
    p.Rising L (t.set b (p.inOf t b)) ∧ ∀ c, (t.get c).Le ((t.set b (p.inOf t b)).get c) := by
  have hle : ∀ c, (t.get c).Le ((t.set b (p.inOf t b)).get c) := fun c => by
    rw [SideTable.get_set]
    split
    next heq =>
      exact heq ▸ h.le b hb
    · exact .refl _
  refine ⟨⟨fun c hc => ?_, fun c => ?_, fun c v => ?_⟩, hle⟩
  · rw [SideTable.get_set]
    split
    next heq =>
      subst heq
      exact inOf_le hle
    · exact (h.le c hc).trans (inOf_le hle)
  · rw [SideTable.get_set]
    split
    · exact capacity_inOf_le hb h.room
    · exact h.room c
  · rw [SideTable.get_set]
    split
    next heq =>
      subst heq
      rw [contains_inOf, contains_outOf]
      intro hv
      exact hL c v (hv.imp_right (And.imp_right (Or.imp_right fun ⟨d, hd, hdv⟩ => ⟨d, hd, h.sound d v hdv⟩)))
    · exact h.sound c v

/-! ## Sweeps -/

/-- How visits of some blocks change the tables: sets rise, and if none is noted as changed then none is, every visited
set is what a visit makes of it, and the sets at the ends are up to date. -/
structure Swept (p : LiveProblem) (L : BlockId → Nat → Prop) (bs : List BlockId) (l : Liveness) (s : Liveness × Bool) : Prop where
  blocks : s.1.blocks = l.blocks
  rising : p.Rising L s.1.liveIn
  le : ∀ c, (l.liveIn.get c).Le (s.1.liveIn.get c)
  changed : s.2 = true → ∃ b ∈ p.graph.order, l.liveIn.get b ≠ s.1.liveIn.get b
  unchanged : s.2 = false → s.1.liveIn = l.liveIn ∧
    ∀ b ∈ bs, l.liveIn.get b = p.inOf l.liveIn b ∧ s.1.liveOut.get b = p.outOf l.liveIn b

theorem Swept.visit (h : p.Swept L bs l s) (hL : p.Closed L) (hb : b ∈ p.graph.order) :
    p.Swept L (bs ++ [b]) l (p.visit s b) := by
  rw [LiveProblem.visit]
  split
  next hsame =>
    refine ⟨h.blocks, h.rising, h.le, h.changed, fun hflag => ?_⟩
    obtain ⟨hin, hbs⟩ := h.unchanged hflag
    refine ⟨hin, fun c hc => ?_⟩
    rw [hin] at hsame
    rw [SideTable.get_set, hin]
    split
    next heq =>
      subst heq
      exact ⟨hsame.symm, rfl⟩
    next hne =>
      exact hbs c ((mem_append.mp hc).resolve_right fun hmem => hne (mem_singleton.mp hmem))
  next hdiffers =>
    obtain ⟨hrising, hle⟩ := h.rising.set hL hb
    refine ⟨h.blocks, hrising, fun c => (h.le c).trans (hle c), fun _ => ⟨b, hb, fun heq => hdiffers ?_⟩, ?_⟩
    · -- the set was below the new one, and cannot have come back to it
      have hback : ((s.1.liveIn.set b (p.inOf s.1.liveIn b)).get b).Le (s.1.liveIn.get b) := heq ▸ h.le b
      rw [SideTable.get_set, if_pos rfl] at hback
      exact hback.antisymm (h.rising.le b hb)
    · exact fun hflag => by cases hflag

theorem swept_sweep (h : p.Rising L l.liveIn) (hL : p.Closed L) : p.Swept L p.graph.order.reverse l (p.sweep l) := by
  have hfold : ∀ bs : List BlockId, (∀ b ∈ bs, b ∈ p.graph.order) → p.Swept L bs l (bs.foldl p.visit (l, false)) := by
    intro bs
    induction bs using reverseRecOn with
    | nil =>
      exact fun _ => ⟨rfl, h, fun _ => .refl _, fun hflag => absurd hflag (by simp),
        fun _ => ⟨rfl, nofun⟩⟩
    | append_singleton bs b ih =>
      intro hbs
      rw [foldl_append]
      exact (ih fun c hc => hbs c (mem_append_left _ hc)).visit hL (hbs b (by simp))
  exact hfold _ fun b hb => mem_reverse.mp hb

/-- A sweep that changes a set takes from the slack. -/
theorem Swept.slack_lt (h : p.Swept L bs l s) (hflag : s.2 = true) : p.slack s.1 < p.slack l := by
  have hweight : ∀ c, (s.1.liveIn.get c).capacity + (s.1.liveIn.get c).count ≤ 2 * p.roomLimit := fun c => by
    have := h.rising.room c
    have := (s.1.liveIn.get c).count_le_capacity
    omega
  refine total_map_lt (fun c _ => ?_) ?_
  · have := (h.le c).room
    have := (h.le c).count
    omega
  · obtain ⟨b, hb, hne⟩ := h.changed hflag
    have := (h.le b).weight_lt hne
    have := hweight b
    exact ⟨b, hb, by omega⟩

/-- **The sweeps end,** and every set is then what a visit makes of it. -/
theorem settle_eq_ok (hL : p.Closed L) (l : Liveness) (h : p.Rising L l.liveIn) :
    ∃ l', p.settle l = .ok l' ∧ l'.blocks = l.blocks ∧ (∀ b v, (l'.liveIn.get b).contains v = true → L b v) ∧
      ∀ b ∈ p.graph.order, l'.liveIn.get b = p.inOf l'.liveIn b ∧ l'.liveOut.get b = p.outOf l'.liveIn b := by
  have hswept := swept_sweep h hL
  rw [settle]
  cases hflag : (p.sweep l).2 with
  | false =>
    obtain ⟨hin, hbs⟩ := hswept.unchanged hflag
    refine ⟨_, rfl, hswept.blocks, hswept.rising.sound, fun b hb => ?_⟩
    rw [hin]
    exact hbs b (mem_reverse.mpr hb)
  | true =>
    have hlt := hswept.slack_lt hflag
    obtain ⟨l', hl', hblocks, hspec⟩ := settle_eq_ok hL (p.sweep l).1 hswept.rising
    refine ⟨l', ?_, hblocks.trans hswept.blocks, hspec⟩
    rw [Bool.not_true, if_neg Bool.false_ne_true, dif_pos hlt]
    exact hl'
termination_by p.slack l

end LiveProblem

end Spmd
