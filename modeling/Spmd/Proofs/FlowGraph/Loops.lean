import Mathlib.Data.List.Basic
import Spmd.FlowGraph.Loops
import Spmd.Proofs.FlowGraph.Closest
import Spmd.Proofs.Kernel.Listing
import Spmd.Proofs.Place

/-!
# Natural loops of a flow graph

A jump back goes to a block that is on all paths to its source. The natural loop of a block `h` that control jumps
back to holds `h` and the blocks from which control can get to such a jump without passing `h` (`Kernel.InLoop`).

* **`Kernel.above_of_inLoop`** — a header dominates its loop.
* **`Kernel.within_of_above`** — of two loops with a common block, the one whose header dominates the other's
  contains it.
* **`Kernel.loops_of_flowGraph`** — the loops that are found are the natural loops, and parents lead from the
  innermost loop around a block to all others.
-/

namespace Spmd

open List FlowGraph
open Relation (ReflTransGen)

variable {a b c h p : BlockId} {k : Kernel} {l : Loop}

/-! ## Dominators of one block -/

namespace Flow

variable {φ : Flow}

/-- The dominators of a block are on one line. -/
theorem Above.total (hc : φ.Reached c) (ha : φ.Above a c) (hb : φ.Above b c) : φ.Above a b ∨ φ.Above b a := by
  induction hc with
  | refl =>
    have hroot : ∀ {x}, φ.Above x φ.root → x = φ.root := fun h => h.2.elim id fun hnot => absurd .refl hnot
    exact .inl (hroot hb ▸ ha)
  | @tail x y _ hstep ih =>
    by_cases hay : a = y
    · exact .inr (hay ▸ hb)
    · by_cases hby : b = y
      · exact .inl (hby ▸ ha)
      · exact ih (ha.of_step hay hstep) (hb.of_step hby hstep)

/-- From a dominator control gets to a block through blocks that it dominates. -/
theorem Above.walk (hb : φ.Reached b) (h : φ.Above a b) :
    ReflTransGen (fun x y => φ.next x y ∧ φ.Above a x ∧ φ.Above a y) a b := by
  induction hb with
  | refl =>
    obtain rfl : a = φ.root := h.2.elim id fun hnot => absurd .refl hnot
    exact .refl
  | @tail x y _ hstep ih =>
    by_cases hay : a = y
    · exact hay ▸ .refl
    · have hx := h.of_step hay hstep
      exact (ih hx).tail ⟨hstep, hx, h⟩

/-- A jump between two blocks other than `h`. -/
def Besides (φ : Flow) (h x y : BlockId) : Prop := φ.next x y ∧ x ≠ h ∧ y ≠ h

/-- A way past `a` to a block that `a` dominates goes through such blocks only. -/
theorem Above.of_besides (h : φ.Above a c) (hwalk : ReflTransGen (φ.Besides a) b c) :
    φ.Above a b ∧ ReflTransGen (fun x y => φ.next x y ∧ φ.Above a x ∧ φ.Above a y) b c := by
  induction hwalk using ReflTransGen.head_induction_on with
  | refl => exact ⟨h, .refl⟩
  | head hstep _ ih =>
    have hx := ih.1.of_step (Ne.symm hstep.2.2) hstep.1
    exact ⟨hx, .head ⟨hstep.1, hx, ih.1⟩ ih.2⟩

end Flow

namespace Kernel

variable {entry : BlockId}

/-- Control reaches `p` and jumps from there to a block on all paths to `p`. -/
def JumpsBack (k : Kernel) (p h : BlockId) : Prop :=
  ∃ entry, k.entry? = some entry ∧ (k.flow entry).Reached p ∧ (k.flow entry).next p h ∧ (k.flow entry).Dominator h p

/-- The natural loop of `h`: the block itself, and what control reaches and can leave for a jump back to `h` on a
path without `h`. -/
def InLoop (k : Kernel) (h b : BlockId) : Prop :=
  b = h ∨ (∃ entry, k.entry? = some entry ∧ (k.flow entry).Reached b) ∧
    ∃ p path, k.JumpsBack p h ∧ (k.flow b).Path p path ∧ h ∉ path

theorem besides_of_path {path : List BlockId} (hpath : (k.flow b).Path p path) (hh : h ∉ path) :
    b ≠ h ∧ p ≠ h ∧ ReflTransGen ((k.flow entry).Besides h) b p := by
  induction hpath with
  | root =>
    have hne : b ≠ h := fun heq => hh (mem_singleton.mpr heq.symm)
    exact ⟨hne, hne, .refl⟩
  | @step x y path _ hstep ih =>
    rw [mem_append, mem_singleton, not_or] at hh
    obtain ⟨hb, hx, hwalk⟩ := ih hh.1
    exact ⟨hb, Ne.symm hh.2, hwalk.tail ⟨hstep, hx, Ne.symm hh.2⟩⟩

theorem path_of_besides (hwalk : ReflTransGen ((k.flow entry).Besides h) b p) (hp : p ≠ h) :
    ∃ path, (k.flow b).Path p path ∧ h ∉ path := by
  induction hwalk with
  | refl => exact ⟨[b], .root, fun hh => hp (mem_singleton.mp hh).symm⟩
  | @tail x y _ hstep ih =>
    obtain ⟨path, hpath, hh⟩ := ih hstep.2.1
    refine ⟨path ++ [y], hpath.step hstep.1, ?_⟩
    rw [mem_append, mem_singleton, not_or]
    exact ⟨hh, Ne.symm hp⟩

section

variable (hentry : k.entry? = some entry)
include hentry

theorem jumpsBack_iff : k.JumpsBack p h ↔
    (k.flow entry).Reached p ∧ (k.flow entry).next p h ∧ (k.flow entry).Above h p := by
  constructor
  · rintro ⟨e, he, hp, hnext, hdom⟩
    obtain rfl := Option.mem_unique hentry he
    refine ⟨hp, hnext, ?_, Flow.dominator_iff.mp hdom⟩
    rcases Flow.dominator_iff.mp hdom with rfl | hnot
    · exact .refl
    · exact (avoiding_or_through h hp).resolve_left hnot
  · rintro ⟨hp, hnext, habove⟩
    exact ⟨entry, hentry, hp, hnext, Flow.dominator_iff.mpr habove.2⟩

/-- The loop said with walks. -/
theorem inLoop_iff : k.InLoop h b ↔ b = h ∨ (k.flow entry).Reached b ∧
    ∃ p, k.JumpsBack p h ∧ p ≠ h ∧ ReflTransGen ((k.flow entry).Besides h) b p := by
  refine or_congr_right (and_congr ?_ (exists_congr fun p => ?_))
  · exact ⟨fun ⟨_, he, hb⟩ => Option.mem_unique hentry he ▸ hb, fun hb => ⟨entry, hentry, hb⟩⟩
  · constructor
    · rintro ⟨path, hp, hpath, hh⟩
      exact ⟨hp, (besides_of_path hpath hh).2⟩
    · rintro ⟨hp, hne, hwalk⟩
      obtain ⟨path, hpath, hh⟩ := path_of_besides hwalk hne
      exact ⟨path, hp, hpath, hh⟩

variable (hh : (k.flow entry).Reached h)
include hh

/-- **A header dominates its loop.** -/
theorem above_of_inLoop (hb : k.InLoop h b) : (k.flow entry).Above h b := by
  rcases (inLoop_iff hentry).mp hb with rfl | ⟨_, p, hp, _, hwalk⟩
  · exact .refl hh
  · exact (((jumpsBack_iff hentry).mp hp).2.2.of_besides hwalk).1

theorem reached_of_inLoop (hb : k.InLoop h b) : (k.flow entry).Reached b :=
  ((inLoop_iff hentry).mp hb).elim (· ▸ hh) And.left

/-- **The loop of a header below another lies inside the other's loop** if they have a block in common. -/
theorem within_of_above (hah : (k.flow entry).Above a h) (hne : a ≠ h)
    (hb : k.InLoop a b) (hb' : k.InLoop h b) (hc : k.InLoop h c) : k.InLoop a c := by
  -- no block of the inner loop is the outer header
  have hinner : ∀ {x}, (k.flow entry).Above h x → x ≠ a := fun hx heq => hne (hah.antisymm (heq ▸ hx))
  have hinside : ∀ {x y}, ReflTransGen (fun x y => (k.flow entry).next x y ∧ (k.flow entry).Above h x ∧
      (k.flow entry).Above h y) x y → ReflTransGen ((k.flow entry).Besides a) x y :=
    ReflTransGen.mono (fun _ _ hxy => ⟨hxy.1, hinner hxy.2.1, hinner hxy.2.2⟩) _ _
  obtain ⟨p, hp, hpa, hbp⟩ : ∃ p, k.JumpsBack p a ∧ p ≠ a ∧ ReflTransGen ((k.flow entry).Besides a) b p := by
    refine (((inLoop_iff hentry).mp hb).resolve_left ?_).2
    exact hinner (above_of_inLoop hentry hh hb')
  have hhp : ReflTransGen ((k.flow entry).Besides a) h p := by
    refine ReflTransGen.trans ?_ hbp
    exact hinside ((above_of_inLoop hentry hh hb').walk (reached_of_inLoop hentry hh hb'))
  refine (inLoop_iff hentry).mpr (.inr ⟨reached_of_inLoop hentry hh hc, p, hp, hpa, ?_⟩)
  rcases (inLoop_iff hentry).mp hc with rfl | ⟨_, q, hq, _, hcq⟩
  · exact hhp
  · obtain ⟨_, hjump, habove⟩ := (jumpsBack_iff hentry).mp hq
    exact ((hinside (habove.of_besides hcq).2).tail ⟨hjump, hinner habove, Ne.symm hne⟩).trans hhp

end

end Kernel

/-! ## Nested loops -/

namespace Loop

variable {loops : List Loop} {m : Loop}

/-- All of the first loop is in the second, and there is more in the second. -/
def Within (l m : Loop) : Prop := (∀ b ∈ l.body, b ∈ m.body) ∧ ∃ b ∈ m.body, b ∉ l.body

/-- Loops of which any two with a common block lie one in the other. -/
structure Nested (loops : List Loop) : Prop where
  nodup : ∀ l ∈ loops, l.body.Nodup
  header : ∀ l ∈ loops, l.header ∈ l.body
  apart : ∀ l ∈ loops, ∀ m ∈ loops, l.header ∈ m.body → m.header ∈ l.body → l = m
  within : ∀ l ∈ loops, ∀ m ∈ loops, ∀ b ∈ l.body, b ∈ m.body → l = m ∨ l.Within m ∨ m.Within l

theorem smallest?_eq_some (h : smallest? loops = some l) : l ∈ loops ∧ ∀ m ∈ loops, l.body.length ≤ m.body.length := by
  refine ⟨List.minOn?_mem h, fun m hm => ?_⟩
  have hle := @List.apply_get_minOn?_le_of_mem _ _ _ _ _ (fun l => l.body.length) loops m hm
  simpa only [show loops.minOn? (·.body.length) = some l from h, Option.get_some] using hle

theorem smallest?_eq_none (h : smallest? loops = none) : loops = [] := by
  by_contra hne
  exact Option.isSome_iff_ne_none.mp (List.isSome_minOn?_iff.mpr hne) h

namespace Nested

variable (hn : Nested loops) (hl : l ∈ loops)
include hn hl

theorem length_lt (h : l.Within m) : l.body.length < m.body.length := by
  obtain ⟨b, hb, hnot⟩ := h.2
  refine (subperm_of_subset (nodup_cons.mpr ⟨hnot, hn.nodup l hl⟩) ?_).length_le
  exact cons_subset.mpr ⟨hb, h.1⟩

variable (hm : m ∈ loops)
include hm

/-- The loop is inside every other one around its header. -/
theorem within_of_header (h : l.header ∈ m.body) (hne : m ≠ l) : l.Within m := by
  rcases hn.within l hl m hm l.header (hn.header l hl) h with heq | hwithin | hwithin
  · exact absurd heq.symm hne
  · exact hwithin
  · exact absurd (hn.apart l hl m hm h (hwithin.1 _ (hn.header m hm))).symm hne

/-- If it is no larger than another around the same block, it is inside the other. -/
theorem header_mem_of_le (hbl : b ∈ l.body) (hbm : b ∈ m.body) (hle : l.body.length ≤ m.body.length) :
    l.header ∈ m.body := by
  rcases hn.within l hl m hm b hbl hbm with rfl | hwithin | hwithin
  · exact hn.header l hl
  · exact hwithin.1 _ (hn.header l hl)
  · exact absurd (hn.length_lt hm hwithin) (Nat.not_lt.mpr hle)

end Nested

/-- **Parents lead through all loops around a header,** each inside the next. The last has no parent: the count does not
cut the chain off. -/
theorem Nested.lineage (hn : Nested loops) (hl : l ∈ loops) {count : Nat}
    (hcount : (loops.filter (·.contains l.header)).length ≤ count) :
    (∀ m, m ∈ lineage loops count (some l) ↔ m ∈ loops ∧ l.header ∈ m.body) ∧
      (lineage loops count (some l)).Pairwise Within ∧
      ∃ m, (lineage loops count (some l)).getLast? = some m ∧ parent? loops m = none := by
  have hself : l ∈ loops.filter (·.contains l.header) :=
    mem_filter.mpr ⟨hl, contains_iff_mem.mpr (hn.header l hl)⟩
  induction count generalizing l with
  | zero => exact absurd (eq_nil_of_length_eq_zero (Nat.le_zero.mp hcount)) (ne_nil_of_mem hself)
  | succ count ih =>
    have hother : ∀ m, m ∈ loops.filter (fun m => m ≠ l && m.contains l.header) ↔
        m ∈ loops ∧ m ≠ l ∧ l.header ∈ m.body := fun m => by simp [contains]
    rw [lineage]
    cases hparent : parent? loops l with
    | none =>
      have hnone := smallest?_eq_none hparent
      have hend : lineage loops count none = [] := by cases count <;> rfl
      rw [hend]
      refine ⟨fun m => ?_, pairwise_singleton .., l, rfl, hparent⟩
      rw [mem_singleton]
      refine ⟨fun heq => by rw [heq]; exact ⟨hl, hn.header l hl⟩, fun ⟨hm, hmem⟩ => ?_⟩
      by_contra hne
      exact not_mem_nil (hnone ▸ (hother m).mpr ⟨hm, hne, hmem⟩)
    | some p =>
      obtain ⟨hp, hleast⟩ := smallest?_eq_some hparent
      obtain ⟨hp, hpl, hmem⟩ := (hother p).mp hp
      -- around the parent's header are the other loops around the header
      have hup : ∀ m ∈ loops, p.header ∈ m.body ↔ m ≠ l ∧ l.header ∈ m.body := by
        intro m hm
        constructor
        · intro hpm
          refine ⟨fun heq => hpl (hn.apart p hp l hl (heq ▸ hpm) hmem), ?_⟩
          by_cases hmp : m = p
          · exact hmp ▸ hmem
          · exact (hn.within_of_header hp hm hpm hmp).1 _ hmem
        · rintro ⟨hne, hlm⟩
          exact hn.header_mem_of_le hp hm hmem hlm (hleast m ((hother m).mpr ⟨hm, hne, hlm⟩))
      have hfewer : (loops.filter (·.contains p.header)).length < (loops.filter (·.contains l.header)).length := by
        have heq : loops.filter (·.contains p.header) = (loops.filter (·.contains l.header)).filter (· ≠ l) := by
          rw [filter_filter]
          refine filter_congr fun m hm => ?_
          rw [Bool.eq_iff_iff, Bool.and_eq_true, decide_eq_true_iff, contains, contains,
            contains_iff_mem, contains_iff_mem, hup m hm]
        rw [heq]
        exact length_filter_lt_length_iff_exists.mpr ⟨l, hself, by simp⟩
      obtain ⟨hmembers, hpairs, last, hlast, hroot⟩ := ih hp (by omega)
        (mem_filter.mpr ⟨hp, contains_iff_mem.mpr (hn.header p hp)⟩)
      refine ⟨fun m => ?_, pairwise_cons.mpr ⟨fun m hm => ?_, hpairs⟩, last, by rw [getLast?_cons, hlast]; rfl, hroot⟩
      · rw [mem_cons, hmembers]
        constructor
        · rintro (rfl | ⟨hm, hpm⟩)
          · exact ⟨hl, hn.header m hl⟩
          · exact ⟨hm, ((hup m hm).mp hpm).2⟩
        · rintro ⟨hm, hlm⟩
          exact (em (m = l)).imp_right fun hne => ⟨hm, (hup m hm).mpr ⟨hne, hlm⟩⟩
      · obtain ⟨hm, hpm⟩ := (hmembers m).mp hm
        obtain ⟨hne, hlm⟩ := (hup m hm).mp hpm
        exact hn.within_of_header hl hm hlm hne

theorem Nested.around (hn : Nested loops) (b : BlockId) :
    (∀ m, m ∈ around loops b ↔ m ∈ loops ∧ b ∈ m.body) ∧ (around loops b).Pairwise Within ∧
      (around loops b).head? = innermost? loops b := by
  have hmem : ∀ m, m ∈ loops.filter (·.contains b) ↔ m ∈ loops ∧ b ∈ m.body := fun m => by simp [contains]
  rw [Loop.around]
  cases hinner : innermost? loops b with
  | none =>
    have hnone := smallest?_eq_none hinner
    have hend : Loop.lineage loops loops.length none = [] := by cases loops.length <;> rfl
    rw [hend]
    exact ⟨fun m => by rw [← hmem, hnone], List.Pairwise.nil, rfl⟩
  | some l =>
    obtain ⟨hl, hleast⟩ := smallest?_eq_some hinner
    obtain ⟨hl, hbl⟩ := (hmem l).mp hl
    obtain ⟨hmembers, hpairs, _⟩ := hn.lineage hl (length_filter_le _ loops)
    refine ⟨fun m => (hmembers m).trans (and_congr_right fun hm => ⟨fun hlm => ?_, fun hbm => ?_⟩), hpairs, ?_⟩
    · by_cases hml : m = l
      · exact hml ▸ hbl
      · exact (hn.within_of_header hl hm hlm hml).1 _ hbl
    · exact hn.header_mem_of_le hl hm hbl hbm (hleast m ((hmem m).mpr ⟨hm, hbm⟩))
    · obtain ⟨count, hcount⟩ := Nat.exists_eq_add_one_of_ne_zero (length_pos_of_mem hl).ne'
      rw [hcount]
      rfl

end Loop

/-! ## The loops that are found -/

namespace Kernel

variable {g : FlowGraph}

section

variable (hg : k.flowGraph = .ok g)
include hg

theorem mem_backEdges_iff : (p, h) ∈ g.backEdges g.dominators ↔ k.JumpsBack p h := by
  have hmem : (p, h) ∈ g.backEdges g.dominators ↔
      p ∈ g.order ∧ h ∈ g.succs p ∧ g.dominators.dominates h p = true := by
    simp [backEdges, and_assoc]
  rw [hmem]
  constructor
  · rintro ⟨hp, hsucc, hdom⟩
    obtain ⟨entry, hentry, _⟩ := (mem_order_iff hg).mp hp
    exact (jumpsBack_iff hentry).mpr ⟨(mem_order_iff_reached hg hentry).mp hp, (mem_succs_iff hg).mp hsucc,
      (dominates_iff hg hentry hp).mp hdom⟩
  · rintro ⟨entry, hentry, hback⟩
    obtain ⟨hp, hnext, habove⟩ := (jumpsBack_iff hentry).mp ⟨entry, hentry, hback⟩
    have hp := (mem_order_iff_reached hg hentry).mpr hp
    exact ⟨hp, (mem_succs_iff hg).mpr hnext, (dominates_iff hg hentry hp).mpr habove⟩

theorem nodup_backEdges : (g.backEdges g.dominators).Nodup := by
  refine nodup_flatMap.mpr ⟨fun b _ => ?_, (nodup_order hg).imp fun hne => ?_⟩
  · refine (Nodup.filter _ ?_).map fun x y hxy => (Prod.mk.inj hxy).2
    rw [succs_eq hg, targets]
    split
    · exact Place.nodup_eraseDups _
    · exact nodup_nil
  · intro x hx hx'
    obtain ⟨_, _, rfl⟩ := mem_map.mp hx
    obtain ⟨_, _, heq⟩ := mem_map.mp hx'
    exact hne (Prod.mk.inj heq).1.symm

/-- The walks back from some blocks find what gets to one of them besides the header. -/
theorem mem_foldl_discover (entry : BlockId) {ls : List BlockId} (hls : ∀ p ∈ ls, p ∈ g.order) :
    b ∈ ls.foldl (fun body p => Graph.discover g.order g.preds body [p]) [h] ↔
      b = h ∨ b ∈ g.order ∧ ∃ p ∈ ls, p ≠ h ∧ ReflTransGen ((k.flow entry).Besides h) b p := by
  induction ls using reverseRecOn generalizing b with
  | nil => simp
  | append_singleton ls p ih =>
    have hp : p ∈ g.order := hls p (by simp)
    have ih : ∀ {b}, _ := @fun b => @ih b fun q hq => hls q (mem_append_left _ hq)
    rw [foldl_append, foldl_cons, foldl_nil, Graph.mem_discover_iff]
    generalize ls.foldl (fun body p => Graph.discover g.order g.preds body [p]) [h] = body at ih ⊢
    have hh : h ∈ body := ih.mpr (.inl rfl)
    simp only [mem_append, mem_singleton, or_and_right, exists_or, exists_eq_left, and_or_left, ← or_assoc]
    rw [← ih]
    refine ⟨Or.imp_right ?_, ?_⟩
    · rintro ⟨⟨_, hnot⟩, hwalk⟩
      have hout : ∀ {x}, x ∉ body → x ≠ h := fun hx heq => hx (heq ▸ hh)
      suffices b ≠ h ∧ b ∈ g.order ∧ ReflTransGen ((k.flow entry).Besides h) b p from
        ⟨this.2.1, hout hnot, this.2.2⟩
      induction hwalk with
      | refl => exact ⟨hout hnot, hp, .refl⟩
      | @tail x y _ hstep ihwalk =>
        obtain ⟨hx, hxo, hwalk⟩ := ihwalk
        have hnext := (mem_succs_iff hg).mp ((mem_preds_iff hg hxo).mp hstep.1).2
        exact ⟨hout hstep.2.2, hstep.2.1, .head ⟨hnext, hout hstep.2.2, hx⟩ hwalk⟩
    · rintro (hb | ⟨hb, hph, hwalk⟩)
      · exact .inl hb
      · induction hwalk using ReflTransGen.head_induction_on with
        | refl => exact (em (p ∈ body)).imp_right fun hnot => ⟨⟨hp, hnot⟩, .refl⟩
        | @head x y hstep _ ihwalk =>
          have hsucc : y ∈ g.succs x := (mem_succs_iff hg).mpr hstep.1
          have hy := succs_mem_order hg hb hsucc
          rcases ihwalk hy with hbody | ⟨hnot, hback⟩
          · obtain ⟨_, q, hq, hqh, hyq⟩ := (ih.mp hbody).resolve_left hstep.2.2
            exact .inl (ih.mpr (.inr ⟨hb, q, hq, hqh, .head hstep hyq⟩))
          · refine (em (x ∈ body)).imp_right fun hx => ⟨hnot, hback.tail ?_⟩
            exact ⟨(mem_preds_iff hg hy).mpr ⟨hb, hsucc⟩, hb, hx⟩

/-- **What is found at a header is its natural loop.** -/
theorem loopAt_backEdges (hp : k.JumpsBack p h) :
    (g.loopAt (g.backEdges g.dominators) h).latches.Nodup ∧
      (∀ q, q ∈ (g.loopAt (g.backEdges g.dominators) h).latches ↔ k.JumpsBack q h) ∧
      (g.loopAt (g.backEdges g.dominators) h).body.Nodup ∧
      ∀ b, b ∈ (g.loopAt (g.backEdges g.dominators) h).body ↔ k.InLoop h b := by
  obtain ⟨entry, hentry, _⟩ := hp
  have hlatch : ∀ q, q ∈ (g.loopAt (g.backEdges g.dominators) h).latches ↔ k.JumpsBack q h := fun q => by
    rw [← mem_backEdges_iff hg]
    simp [loopAt]
  have horder : ∀ q, k.JumpsBack q h → q ∈ g.order := fun q hq =>
    (mem_order_iff_reached hg hentry).mpr ((jumpsBack_iff hentry).mp hq).1
  refine ⟨?_, hlatch, ?_, fun b => ?_⟩
  · refine (Nodup.filter _ (nodup_backEdges hg)).map_on ?_
    intro x hx y hy heq
    have hx := (mem_filter.mp hx).2
    have hy := (mem_filter.mp hy).2
    exact Prod.ext heq ((decide_eq_true_iff.mp hx).trans (decide_eq_true_iff.mp hy).symm)
  · refine foldlRecOn _ _ (nodup_singleton h) fun body hbody q _ => Graph.nodup_discover hbody
  · show b ∈ (g.loopAt (g.backEdges g.dominators) h).latches.foldl
      (fun body p => Graph.discover g.order g.preds body [p]) [h] ↔ _
    rw [mem_foldl_discover hg entry fun q hq => horder q ((hlatch q).mp hq), inLoop_iff hentry,
      mem_order_iff_reached hg hentry]
    refine or_congr_right (and_congr_right fun _ => exists_congr fun q => ?_)
    exact and_congr_left fun _ => hlatch q

theorem mem_loops_iff : l ∈ g.loops g.dominators ↔
    ∃ p, k.JumpsBack p l.header ∧ l = g.loopAt (g.backEdges g.dominators) l.header := by
  rw [loops, mem_map]
  constructor
  · rintro ⟨h, hh, rfl⟩
    obtain ⟨⟨p, _⟩, hp, rfl⟩ := mem_map.mp (mem_eraseDups.mp hh)
    exact ⟨p, (mem_backEdges_iff hg).mp hp, rfl⟩
  · rintro ⟨p, hp, heq⟩
    exact ⟨l.header, mem_eraseDups.mpr (mem_map.mpr ⟨(p, l.header), (mem_backEdges_iff hg).mpr hp, rfl⟩), heq.symm⟩

omit hg in
theorem nodup_headers (g : FlowGraph) : ((g.loops g.dominators).map (·.header)).Nodup := by
  rw [loops, map_map]
  exact (Place.nodup_eraseDups _).map fun _ _ heq => heq

theorem nested_loops : Loop.Nested (g.loops g.dominators) := by
  have hbody : ∀ {l}, l ∈ g.loops g.dominators → ∀ b, b ∈ l.body ↔ k.InLoop l.header b := by
    intro l hl
    obtain ⟨p, hp, heq⟩ := (mem_loops_iff hg).mp hl
    rw [heq]
    exact (loopAt_backEdges hg hp).2.2.2
  have hsame : ∀ {l m}, l ∈ g.loops g.dominators → m ∈ g.loops g.dominators → l.header = m.header → l = m :=
    fun hl hm heq => inj_on_of_nodup_map (nodup_headers g) hl hm heq
  have habove : ∀ {l b}, l ∈ g.loops g.dominators → b ∈ l.body → ∃ entry, k.entry? = some entry ∧
      (k.flow entry).Reached l.header ∧ (k.flow entry).Reached b ∧ (k.flow entry).Above l.header b := by
    intro l b hl hb
    obtain ⟨p, hp, _⟩ := (mem_loops_iff hg).mp hl
    obtain ⟨entry, hentry, _⟩ := id hp
    have hh := ((jumpsBack_iff hentry).mp hp).2.2.1
    have hb := (hbody hl b).mp hb
    exact ⟨entry, hentry, hh, reached_of_inLoop hentry hh hb, above_of_inLoop hentry hh hb⟩
  have hheader : ∀ l ∈ g.loops g.dominators, l.header ∈ l.body := fun l hl => (hbody hl _).mpr (.inl rfl)
  have hapart : ∀ l ∈ g.loops g.dominators, ∀ m ∈ g.loops g.dominators, l.header ∈ m.body → m.header ∈ l.body → l = m := by
    intro l hl m hm hlm hml
    obtain ⟨entry, hentry, _, _, hmabove⟩ := habove hm hlm
    obtain ⟨entry', hentry', _, _, hlabove⟩ := habove hl hml
    obtain rfl := Option.mem_unique hentry hentry'
    exact hsame hl hm (hlabove.antisymm hmabove)
  -- the loop of the upper header is the outer one
  have hwithin : ∀ {entry l m b}, k.entry? = some entry → l ∈ g.loops g.dominators → m ∈ g.loops g.dominators →
      b ∈ l.body → b ∈ m.body → l ≠ m → (k.flow entry).Above l.header m.header → m.Within l := by
    intro entry l m b hentry hl hm hbl hbm hne hup
    have hheaders : l.header ≠ m.header := fun heq => hne (hsame hl hm heq)
    obtain ⟨entry', hentry', hh, _⟩ := habove hm hbm
    obtain rfl := Option.mem_unique hentry hentry'
    have hsub : ∀ c ∈ m.body, c ∈ l.body := fun c hc => (hbody hl c).mpr
      (within_of_above hentry hh hup hheaders ((hbody hl b).mp hbl) ((hbody hm b).mp hbm) ((hbody hm c).mp hc))
    exact ⟨hsub, l.header, hheader l hl, fun hlm => hne (hapart l hl m hm hlm (hsub _ (hheader m hm)))⟩
  refine ⟨fun l hl => ?_, hheader, hapart, fun l hl m hm b hbl hbm => ?_⟩
  · obtain ⟨p, hp, heq⟩ := (mem_loops_iff hg).mp hl
    rw [heq]
    exact (loopAt_backEdges hg hp).2.2.1
  · by_cases hne : l = m
    · exact .inl hne
    · obtain ⟨entry, hentry, _, hb, hlb⟩ := habove hl hbl
      obtain ⟨entry', hentry', _, _, hmb⟩ := habove hm hbm
      obtain rfl := Option.mem_unique hentry hentry'
      rcases hlb.total hb hmb with hup | hup
      · exact .inr (.inr (hwithin hentry hl hm hbl hbm hne hup))
      · exact .inr (.inl (hwithin hentry hm hl hbm hbl (Ne.symm hne) hup))

/-- **The natural loops are found, and they nest.** There is one loop for every block that control jumps back to. Its
latches are the sources of these jumps, and its body is the natural loop of the header, all without duplicates. Two
loops are disjoint or one lies strictly inside the other. Around a block are exactly the loops that contain it, each
inside the next and the innermost first, and the depth of a loop counts the loops around its header. -/
theorem loops_of_flowGraph :
    ((g.loops g.dominators).map (·.header)).Nodup ∧
      (∀ h, h ∈ (g.loops g.dominators).map (·.header) ↔ ∃ p, k.JumpsBack p h) ∧
      (∀ l ∈ g.loops g.dominators, l.latches.Nodup ∧ (∀ p, p ∈ l.latches ↔ k.JumpsBack p l.header) ∧
        l.body.Nodup ∧ ∀ b, b ∈ l.body ↔ k.InLoop l.header b) ∧
      (∀ l ∈ g.loops g.dominators, ∀ m ∈ g.loops g.dominators, l ≠ m →
        (∀ b ∈ l.body, b ∉ m.body) ∨ l.Within m ∨ m.Within l) ∧
      (∀ b, (∀ l, l ∈ Loop.around (g.loops g.dominators) b ↔ l ∈ g.loops g.dominators ∧ b ∈ l.body) ∧
        (Loop.around (g.loops g.dominators) b).Pairwise Loop.Within ∧
        (Loop.around (g.loops g.dominators) b).head? = Loop.innermost? (g.loops g.dominators) b) ∧
      ∀ l ∈ g.loops g.dominators, Loop.depth (g.loops g.dominators) l =
        ((g.loops g.dominators).filter (l.header ∈ ·.body)).length := by
  have hn := nested_loops hg
  refine ⟨nodup_headers g, fun h => ?_, fun l hl => ?_, fun l hl m hm hne => ?_, hn.around, fun l hl => ?_⟩
  · rw [mem_map]
    constructor
    · rintro ⟨l, hl, rfl⟩
      obtain ⟨p, hp, _⟩ := (mem_loops_iff hg).mp hl
      exact ⟨p, hp⟩
    · rintro ⟨p, hp⟩
      exact ⟨g.loopAt (g.backEdges g.dominators) h, (mem_loops_iff hg).mpr ⟨p, hp, rfl⟩, rfl⟩
  · obtain ⟨p, hp, heq⟩ := (mem_loops_iff hg).mp hl
    rw [heq]
    exact loopAt_backEdges hg hp
  · by_cases hcommon : ∃ b ∈ l.body, b ∈ m.body
    · obtain ⟨b, hbl, hbm⟩ := hcommon
      exact .inr ((hn.within l hl m hm b hbl hbm).resolve_left hne)
    · exact .inl fun b hbl hbm => hcommon ⟨b, hbl, hbm⟩
  · obtain ⟨hmembers, hpairs, _⟩ := hn.lineage hl (length_filter_le _ (g.loops g.dominators))
    have hnodup : (Loop.lineage (g.loops g.dominators) (g.loops g.dominators).length (some l)).Nodup :=
      hpairs.imp fun hwithin heq => by
        obtain ⟨_, b, hb, hnot⟩ := hwithin
        exact hnot (heq ▸ hb)
    refine ((perm_ext_iff_of_nodup hnodup ((nodup_headers g).of_map.filter _)).mpr fun m => ?_).length_eq
    rw [hmembers, mem_filter, decide_eq_true_iff]

end

/-- A loop in a loop with one block that jumps back to both headers. The inner one holds two blocks that jump to each
other. -/
def sharedLatch : Kernel := .ofListing "shared_latch" .void [("c", .bool)] []
  [("entry", [(.br 1, .void)]), ("outer", [(.condBr 0 2 6, .void)]),
    ("inner", [(.condBr 0 3 4, .void)]), ("left", [(.condBr 0 4 5, .void)]),
    ("right", [(.condBr 0 3 5, .void)]), ("latch", [(.condBr 0 1 2, .void)]),
    ("exit", [(.ret none, .void)])]

/-- Around a block of the cycle that is no loop are the two loops, the inner one first. -/
theorem within_sharedLatch : ∃ g inner outer, sharedLatch.flowGraph = .ok g ∧
    Loop.around (g.loops g.dominators) ⟨4⟩ = [inner, outer] ∧ inner.header = ⟨2⟩ ∧ outer.header = ⟨1⟩ ∧
    inner.Within outer ∧ sharedLatch.InLoop ⟨2⟩ ⟨4⟩ := by
  have h : (sharedLatch.flowGraph.toOption.map fun g => (Loop.around (g.loops g.dominators) ⟨4⟩).map (·.header)) =
      some [⟨2⟩, ⟨1⟩] := by decide +kernel
  obtain ⟨g, hg, h⟩ := Option.map_eq_some_iff.mp h
  have hg := Success.eq_ok_of_toOption hg
  obtain ⟨_, _, hexact, _, haround, _⟩ := loops_of_flowGraph hg
  obtain ⟨hmembers, hpairs, _⟩ := haround ⟨4⟩
  cases haround : Loop.around (g.loops g.dominators) ⟨4⟩ with
  | nil => rw [haround] at h; cases h
  | cons inner rest =>
    obtain ⟨outer, rfl⟩ : ∃ outer, rest = [outer] := by
      rw [haround, map_cons] at h
      exact length_eq_one_iff.mp (by simpa using congrArg List.length (cons.inj h).2)
    rw [haround] at h hpairs
    obtain ⟨hinner, houter⟩ := cons.inj h
    obtain ⟨hl, hb⟩ := (hmembers inner).mp (haround ▸ .head _)
    refine ⟨g, inner, outer, hg, haround, hinner, (cons.inj houter).1, ?_, ?_⟩
    · exact (pairwise_cons.mp hpairs).1 outer (.head _)
    · exact hinner ▸ ((hexact inner hl).2.2.2 ⟨4⟩).mp hb

end Kernel

end Spmd
