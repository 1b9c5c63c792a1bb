import Mathlib.Data.Set.Card
import Spmd.Proofs.Kernel.Declared
import Spmd.Proofs.Kernel.Listing
import Spmd.Proofs.Kernel.Sound
import Spmd.Proofs.Liveness.Settle
import Spmd.Proofs.Place

/-!
# Liveness along paths

A value is live at the start of a block if some path from there leads to a read of it, with no definition on the
way (`Kernel.LiveIn`). A phi reads its inputs at the end of the blocks they come from (`Kernel.HandsOver`).

* **`Kernel.liveIn_iff`**: liveness along paths solves the equations that the sweeps work on.
* **`Kernel.exists_liveProblem`**: for a verified kernel the equations can be set up, and they say what the blocks read,
  define and hand over.
* **`Kernel.exists_liveness`**: what the sweeps find is liveness along paths.
* **`Kernel.liveness_of_verify`**: so are the lists of live values, which are in program order, and the greatest number
  of values that are live at once.
-/

namespace Spmd

open Success List

namespace Kernel

variable {k : Kernel} {g : FlowGraph} {φ : Flow} {entry b c : BlockId} {i : InstId} {v : ValueId} {is js : List InstId}
  {s : IndexSet}

/-! ## Reads and definitions -/

/-- Liveness looks at parameters and at what instructions define. -/
def Tracked (k : Kernel) (v : ValueId) : Prop :=
  ∃ d, k.value? v = some d ∧ ((∃ n, d.kind = .param n) ∨ ∃ i, d.kind = .inst i)

def Defines (k : Kernel) (is : List InstId) (v : ValueId) : Prop := ∃ i ∈ is, k.result? i = some v

/-- The instruction reads the value at its own place. A phi reads nothing there. -/
def ReadsHere (k : Kernel) (i : InstId) (v : ValueId) : Prop :=
  ∃ instr, k.instr? i = some instr ∧ instr.isPhi = false ∧ v ∈ instr.operands

/-- One of the instructions reads the value, and none before it defines it. -/
def ReadsFirst (k : Kernel) (is : List InstId) (v : ValueId) : Prop :=
  ∃ pre i post, is = pre ++ i :: post ∧ ¬k.Defines pre v ∧ k.ReadsHere i v

/-- A phi of a block behind takes the value from the end of this block. -/
def HandsOver (k : Kernel) (φ : Flow) (b : BlockId) (v : ValueId) : Prop :=
  ∃ c, φ.next b c ∧ ∃ i ∈ k.instsOf c, ∃ incoming, k.instr? i = some (.phi incoming) ∧ (b, v) ∈ incoming

/-- A path leads from the start of the block to a read of the value, without a definition on the way. -/
def LiveIn (k : Kernel) (φ : Flow) (b : BlockId) (v : ValueId) : Prop :=
  ∃ c, Relation.ReflTransGen (fun x y => φ.next x y ∧ ¬k.Defines (k.instsOf x) v) b c ∧
    (k.ReadsFirst (k.instsOf c) v ∨ ¬k.Defines (k.instsOf c) v ∧ k.HandsOver φ c v)

def LiveOut (k : Kernel) (φ : Flow) (b : BlockId) (v : ValueId) : Prop :=
  k.HandsOver φ b v ∨ ∃ c, φ.next b c ∧ k.LiveIn φ c v

/-- The value is live in the block in front of its last instructions `is`. -/
def LiveAt (k : Kernel) (φ : Flow) (b : BlockId) (is : List InstId) (v : ValueId) : Prop :=
  k.ReadsFirst is v ∨ ¬k.Defines is v ∧ k.LiveOut φ b v

theorem defines_cons : k.Defines (i :: is) v ↔ k.result? i = some v ∨ k.Defines is v := exists_mem_cons_iff ..

theorem defines_append : k.Defines (is ++ js) v ↔ k.Defines is v ∨ k.Defines js v := by
  simp only [Defines, mem_append, or_and_right, exists_or]

theorem not_defines_nil : ¬k.Defines [] v := fun ⟨_, hi, _⟩ => not_mem_nil hi

theorem not_readsFirst_nil : ¬k.ReadsFirst [] v := fun ⟨_, _, _, h, _⟩ => by simp at h

theorem readsFirst_cons : k.ReadsFirst (i :: is) v ↔ k.ReadsHere i v ∨ k.result? i ≠ some v ∧ k.ReadsFirst is v := by
  constructor
  · rintro ⟨pre, j, post, heq, hpre, hread⟩
    cases pre with
    | nil =>
      cases heq
      exact .inl hread
    | cons i' pre =>
      cases heq
      rw [defines_cons, not_or] at hpre
      exact .inr ⟨hpre.1, pre, j, post, rfl, hpre.2, hread⟩
  · rintro (hread | ⟨hne, pre, j, post, rfl, hpre, hread⟩)
    · exact ⟨[], i, is, rfl, not_defines_nil, hread⟩
    · exact ⟨i :: pre, j, post, rfl, fun h => (defines_cons.mp h).elim hne hpre, hread⟩

theorem readsFirst_append :
    k.ReadsFirst (is ++ js) v ↔ k.ReadsFirst is v ∨ ¬k.Defines is v ∧ k.ReadsFirst js v := by
  induction is with
  | nil => simp [not_readsFirst_nil, not_defines_nil]
  | cons i is ih =>
    rw [cons_append, readsFirst_cons, ih, readsFirst_cons, defines_cons, not_or]
    tauto

theorem readsFirst_singleton : k.ReadsFirst [i] v ↔ k.ReadsHere i v := by
  rw [readsFirst_cons]
  exact or_iff_left fun h => not_readsFirst_nil h.2

/-- **Liveness along paths solves the equations of the sweeps.** -/
theorem liveIn_iff : k.LiveIn φ b v ↔ k.LiveAt φ b (k.instsOf b) v := by
  constructor
  · rintro ⟨c, hwalk, hneed⟩
    rcases Relation.ReflTransGen.cases_head hwalk with rfl | ⟨d, ⟨hnext, hdef⟩, hwalk⟩
    · exact hneed.imp_right (And.imp_right .inl)
    · exact .inr ⟨hdef, .inr ⟨d, hnext, c, hwalk, hneed⟩⟩
  · rintro (hread | ⟨hdef, hover | ⟨d, hnext, c, hwalk, hneed⟩⟩)
    · exact ⟨b, .refl, .inl hread⟩
    · exact ⟨b, .refl, .inr ⟨hdef, hover⟩⟩
    · exact ⟨c, .head ⟨hnext, hdef⟩ hwalk, hneed⟩

theorem liveAt_cons : k.LiveAt φ b (i :: is) v ↔ k.ReadsHere i v ∨ k.result? i ≠ some v ∧ k.LiveAt φ b is v := by
  rw [LiveAt, readsFirst_cons, defines_cons, not_or, LiveAt]
  tauto

theorem liveAt_nil : k.LiveAt φ b [] v ↔ k.LiveOut φ b v := by
  simp [LiveAt, not_readsFirst_nil, not_defines_nil]

/-! ## Setting up the equations -/

/-- The instruction and all values it reads can be looked up. -/
def Readable (k : Kernel) (i : InstId) : Prop :=
  ∃ d, k.inst? i = some d ∧ ∀ v ∈ d.instr.operands, ∃ dv, k.value? v = some dv

open Classical in
theorem isTracked_eq_ok {dv : ValueDef} (h : k.value? v = some dv) : k.isTracked v = .ok (decide (k.Tracked v)) := by
  rw [isTracked, show k.value v = .ok dv from some?_eq_ok.mpr h, ok_bind]
  have htracked : k.Tracked v ↔ (∃ n, dv.kind = .param n) ∨ ∃ i, dv.kind = .inst i :=
    ⟨fun ⟨d, hd, hkind⟩ => mem_unique h hd ▸ hkind, fun hkind => ⟨dv, h, hkind⟩⟩
  split <;> simp_all <;> rfl

theorem readsAt_eq_ok (h : k.Readable i) :
    ∃ ns, k.readsAt i = .ok ns ∧ ∀ v : ValueId, v.index ∈ ns ↔ k.Tracked v ∧ k.ReadsHere i v := by
  classical
  obtain ⟨d, hd, hvalues⟩ := h
  have hinstr : k.instr? i = some d.instr := by rw [instr?, hd, Option.map_some]
  have hreads : ∀ v, k.ReadsHere i v ↔ d.instr.isPhi = false ∧ v ∈ d.instr.operands := by
    refine fun v => ⟨?_, fun hread => ⟨_, hinstr, hread⟩⟩
    rintro ⟨_, h, hread⟩
    exact mem_unique hinstr h ▸ hread
  simp only [hreads]
  have htracked : k.tracked d.instr.operands = .ok ((d.instr.operands.filter fun v => decide (k.Tracked v)).map (·.index)) := by
    rw [tracked, filterM_of_ok fun v hv => isTracked_eq_ok (hvalues v hv).choose_spec]
    rfl
  rw [readsAt, show k.inst i = .ok d from some?_eq_ok.mpr hd, ok_bind]
  split
  next hphi =>
    exact ⟨[], rfl, by simp [hphi, Instr.isPhi]⟩
  next instr hphi =>
    have : d.instr.isPhi = false := by
      cases hd : d.instr with
      | phi incoming => exact absurd hd (hphi incoming)
      | _ => rfl
    refine ⟨_, htracked, fun v => ?_⟩
    rw [Id.mem_map_index, mem_filter, decide_eq_true_iff, this]
    tauto

/-- The sets say what the instructions `is` read and define. -/
structure Uses (k : Kernel) (u : BlockUse) (is : List InstId) : Prop where
  reads : ∀ v : ValueId, u.reads.contains v.index = true ↔ k.Tracked v ∧ k.ReadsFirst is v
  defs : ∀ v : ValueId, u.defs.contains v.index = true ↔ k.Defines is v

theorem addUse_eq_ok {u : BlockUse} (h : k.Readable i) (hu : k.Uses u is) :
    ∃ u', k.addUse u i = .ok u' ∧ k.Uses u' (is ++ [i]) := by
  obtain ⟨ns, hns, hmem⟩ := readsAt_eq_ok h
  refine ⟨_, by rw [addUse, hns]; rfl, fun v => ?_, fun v => ?_⟩
  · rw [IndexSet.contains_insertAll, Bool.or_eq_true, hu.reads, contains_iff_mem, mem_filter, hmem,
      readsFirst_append, readsFirst_singleton, Bool.not_eq_true', ← Bool.not_eq_true, hu.defs]
    tauto
  · rw [IndexSet.contains_insertAll, Bool.or_eq_true, hu.defs, contains_iff_mem, Id.mem_map_index, Option.mem_toList,
      defines_append, defines_cons]
    exact or_congr_right ⟨.inl, fun h => h.resolve_right not_defines_nil⟩

theorem blockUse_eq_ok (h : ∀ i ∈ k.instsOf b, k.Readable i) : ∃ u, k.blockUse b = .ok u ∧ k.Uses u (k.instsOf b) := by
  have hfold : ∀ (is pre : List InstId) (u : BlockUse), (∀ i ∈ is, k.Readable i) → k.Uses u pre →
      ∃ u', is.foldlM k.addUse u = .ok u' ∧ k.Uses u' (pre ++ is) := by
    intro is
    induction is with
    | nil => exact fun pre u _ hu => ⟨u, rfl, (append_nil pre).symm ▸ hu⟩
    | cons i is ih =>
      intro pre u hall hu
      obtain ⟨u', hu', huses⟩ := addUse_eq_ok (hall i (.head _)) hu
      obtain ⟨u'', hu'', huses⟩ := ih _ u' (fun j hj => hall j (.tail _ hj)) huses
      refine ⟨u'', by rw [foldlM_cons, hu', ok_bind, hu''], ?_⟩
      rwa [append_assoc] at huses
  exact hfold _ [] {} h ⟨by simp [not_readsFirst_nil], by simp [not_defines_nil]⟩

theorem mem_inputsOf {x : BlockId × ValueId} :
    x ∈ k.inputsOf i ↔ ∃ incoming, k.instr? i = some (.phi incoming) ∧ x ∈ incoming := by
  rw [inputsOf]
  split <;> simp_all

theorem phiInputs_eq_ok (h : ∀ i ∈ k.instsOf c, k.Readable i) :
    ∃ xs, k.phiInputs c = .ok xs ∧ ∀ (b : BlockId) (v : ValueId), (b, v.index) ∈ xs ↔
      k.Tracked v ∧ ∃ i ∈ k.instsOf c, ∃ incoming, k.instr? i = some (.phi incoming) ∧ (b, v) ∈ incoming := by
  classical
  have hvalue : ∀ x ∈ (k.instsOf c).flatMap k.inputsOf, ∃ dv, k.value? x.2 = some dv := by
    intro x hx
    obtain ⟨i, hi, hx⟩ := mem_flatMap.mp hx
    obtain ⟨incoming, hinstr, hx⟩ := mem_inputsOf.mp hx
    obtain ⟨d, hd, hvalues⟩ := h i hi
    have heq : d.instr = .phi incoming := by simpa [instr?, hd] using hinstr
    exact hvalues _ (heq ▸ mem_map_of_mem hx)
  rw [phiInputs, filterM_of_ok fun x hx => isTracked_eq_ok (hvalue x hx).choose_spec]
  refine ⟨_, rfl, fun b v => ?_⟩
  have hpair : ∀ x : BlockId × ValueId, (x.1, x.2.index) = (b, v.index) ↔ x = (b, v) := fun x =>
    ⟨fun heq => Prod.ext (Prod.mk.inj heq).1 (congrArg Id.mk (Prod.mk.inj heq).2), fun heq => heq ▸ rfl⟩
  simp only [mem_map, hpair, exists_eq_right, mem_filter, mem_flatMap, mem_inputsOf, decide_eq_true_iff]
  exact And.comm

theorem get_foldl_set {kind : Entity} {α : Type} (f : Id kind → α) (xs : List (Id kind)) (t : SideTable kind α)
    (x : Id kind) :
    ((xs.map fun y => (y, f y)).foldl (fun t y => t.set y.1 y.2) t).get x = if x ∈ xs then f x else t.get x := by
  induction xs generalizing t with
  | nil => rfl
  | cons y xs ih =>
    rw [map_cons, foldl_cons, ih, SideTable.get_set]
    grind

/-- What a problem says about the blocks that control reaches is true. -/
structure Poses (k : Kernel) (φ : Flow) (p : LiveProblem) : Prop where
  uses : ∀ b ∈ p.graph.order, k.Uses (p.uses.get b) (k.instsOf b)
  phiOut : ∀ b ∈ p.graph.order, ∀ v : ValueId,
    (p.phiOut.get b).contains v.index = true ↔ k.Tracked v ∧ k.HandsOver φ b v

section

variable (hv : k.verify = .ok ()) (hg : k.flowGraph = .ok g) (hentry : k.entry? = some entry)

include hv hg

theorem readable_of_verify (hb : b ∈ g.order) (hi : i ∈ k.instsOf b) : k.Readable i := by
  have hlayout := order_subset_layout hv hg hb
  obtain ⟨d, hd, _⟩ := linked_of_verify hv hg hlayout hi
  refine ⟨d, hd, fun v hmem => ?_⟩
  obtain ⟨dv, hdv, _⟩ := operand_of_verify hv hlayout hi (by rw [instr?, hd, Option.map_some]) hmem
  exact ⟨dv, hdv⟩

theorem lt_size_of_verify (hb : b ∈ g.order) : b.index < k.blocks.size := by
  obtain ⟨body, last, heq, _⟩ := todo_of_verify hv (order_subset_layout hv hg hb)
  obtain ⟨_, hblk, _⟩ := block?_of_mem_instsOf (show last ∈ k.instsOf b by simp [heq])
  exact lt_size_of_block? hblk

include hentry

/-- **The problem of a verified kernel can be posed.** -/
theorem exists_liveProblem : ∃ p, k.liveProblem = .ok p ∧ p.graph = g ∧ k.Poses (k.flow entry) p := by
  have huse : ∀ b, ∃ u, b ∈ g.order → k.blockUse b = .ok u ∧ k.Uses u (k.instsOf b) := fun b => by
    by_cases hb : b ∈ g.order
    · obtain ⟨u, hu⟩ := blockUse_eq_ok fun i hi => readable_of_verify hv hg hb hi
      exact ⟨u, fun _ => hu⟩
    · exact ⟨{}, fun h => absurd h hb⟩
  have hphi : ∀ c, ∃ xs, c ∈ g.order → k.phiInputs c = .ok xs ∧ ∀ (b : BlockId) (v : ValueId), (b, v.index) ∈ xs ↔
      k.Tracked v ∧ ∃ i ∈ k.instsOf c, ∃ incoming, k.instr? i = some (.phi incoming) ∧ (b, v) ∈ incoming := fun c => by
    by_cases hc : c ∈ g.order
    · obtain ⟨xs, hxs⟩ := phiInputs_eq_ok fun i hi => readable_of_verify hv hg hc hi
      exact ⟨xs, fun _ => hxs⟩
    · exact ⟨[], fun h => absurd h hc⟩
  choose use huse using huse
  choose inputs hinputs using hphi
  have hp : k.liveProblem = .ok {
      graph := g
      uses := (g.order.map fun b => (b, use b)).foldl (fun t x => t.set x.1 x.2) (.replicate k.blocks.size {})
      phiOut := .tabulate k.blocks.size ∅ fun b =>
        .ofList (((g.order.map inputs).flatten.filter fun x => x.1 = b).map (·.2)) } := by
    rw [liveProblem, hg, ok_bind,
      mapM_of_ok (g := fun b => (b, use b)) fun b hb => by rw [(huse b hb).1]; rfl, ok_bind,
      mapM_of_ok (g := inputs) fun c hc => (hinputs c hc).1, ok_bind]
    rfl
  refine ⟨_, hp, rfl, ⟨fun b hb => ?_, fun b hb v => ?_⟩⟩
  · rw [get_foldl_set, if_pos hb]
    exact (huse b hb).2
  · have hmem : ∀ n, n ∈ ((g.order.map inputs).flatten.filter fun x => x.1 = b).map (·.2) ↔
        ∃ c ∈ g.order, (b, n) ∈ inputs c := by
      intro n
      simp only [mem_map, mem_filter, mem_flatten, decide_eq_true_iff]
      constructor
      · rintro ⟨⟨p, m⟩, ⟨⟨_, ⟨c, hc, rfl⟩, hx⟩, rfl⟩, rfl⟩
        exact ⟨c, hc, hx⟩
      · rintro ⟨c, hc, hx⟩
        exact ⟨(b, n), ⟨⟨_, ⟨c, hc, rfl⟩, hx⟩, rfl⟩, rfl⟩
    rw [SideTable.get_tabulate, if_pos (lt_size_of_verify hv hg hb), IndexSet.contains_ofList, contains_iff_mem, hmem]
    constructor
    · rintro ⟨c, hc, hx⟩
      obtain ⟨htracked, i, hi, incoming, hinstr, hx⟩ := ((hinputs c hc).2 b v).mp hx
      have hnext := ((phisMatch_of_verify hentry hv c ((mem_order_iff_reached hg hentry).mp hc) i hi incoming hinstr).2 _ hx).2
      exact ⟨htracked, c, hnext, i, hi, incoming, hinstr, hx⟩
    · rintro ⟨htracked, c, hnext, hx⟩
      have hc := succs_mem_order hg hb ((mem_succs_iff hg).mpr hnext)
      exact ⟨c, hc, ((hinputs c hc).2 b v).mpr ⟨htracked, hx⟩⟩

/-! ## What the sweeps find -/

/-- **The sweeps find what is live along paths.** -/
theorem exists_liveness : ∃ l, k.liveness = .ok l ∧ l.blocks = g.order ∧ ∀ b ∈ g.order, ∀ v : ValueId,
    ((l.liveIn.get b).contains v.index = true ↔ k.Tracked v ∧ k.LiveIn (k.flow entry) b v) ∧
    ((l.liveOut.get b).contains v.index = true ↔ k.Tracked v ∧ k.LiveOut (k.flow entry) b v) := by
  obtain ⟨p, hp, rfl, hposes⟩ := exists_liveProblem hv hg hentry
  have hsuccs : ∀ {b c}, c ∈ p.graph.succs b ↔ (k.flow entry).next b c := mem_succs_iff hg
  have hdefs : ∀ b ∈ p.graph.order, ∀ v : ValueId, (p.uses.get b).defs.contains v.index = false ↔ ¬k.Defines (k.instsOf b) v :=
    fun b hb v => by rw [← (hposes.uses b hb).defs, Bool.not_eq_true]
  -- a family of sets that no visit leads out of: whatever the sets hold is live along a path
  have hclosed : p.Closed fun b n => b ∈ p.graph.order → k.Tracked ⟨n⟩ ∧ k.LiveIn (k.flow entry) b ⟨n⟩ := by
    intro b n hcase hb
    rw [(hposes.uses b hb).reads ⟨n⟩, hdefs b hb ⟨n⟩, hposes.phiOut b hb ⟨n⟩] at hcase
    rw [liveIn_iff, LiveAt, LiveOut]
    rcases hcase with ⟨htracked, hread⟩ | ⟨hdef, ⟨htracked, hover⟩ | ⟨c, hc, hlive⟩⟩
    · exact ⟨htracked, .inl hread⟩
    · exact ⟨htracked, .inr ⟨hdef, .inl hover⟩⟩
    · obtain ⟨htracked, hlive⟩ := hlive (succs_mem_order hg hb hc)
      exact ⟨htracked, .inr ⟨hdef, .inr ⟨c, hsuccs.mp hc, hlive⟩⟩⟩
  have hempty : ∀ b, (SideTable.replicate k.blocks.size ∅ : SideTable .block IndexSet).get b = ∅ := fun b => by
    simp [SideTable.get, SideTable.replicate, Array.getD_eq_getD_getElem?, Array.getElem?_replicate]
    split <;> rfl
  obtain ⟨l, hl, hblocks, hsound, hfix⟩ := LiveProblem.settle_eq_ok hclosed
    ⟨p.graph.order, .replicate k.blocks.size ∅, .replicate k.blocks.size ∅⟩
    ⟨fun b _ => by rw [hempty]; exact ⟨Nat.zero_le _, by simp⟩, fun b => by rw [hempty]; exact Nat.zero_le _,
      fun b v => by rw [hempty]; simp⟩
  -- conversely the last step of a path is in the sets, and each visit hands it on to the block in front
  have hcomplete : ∀ b ∈ p.graph.order, ∀ v : ValueId, k.Tracked v → k.LiveIn (k.flow entry) b v →
      (l.liveIn.get b).contains v.index = true := by
    rintro b hb v htracked ⟨c, hwalk, hneed⟩
    induction hwalk using Relation.ReflTransGen.head_induction_on with
    | refl =>
      rw [(hfix c hb).1, LiveProblem.contains_inOf, LiveProblem.contains_outOf, (hposes.uses c hb).reads, hdefs c hb,
        hposes.phiOut c hb]
      exact hneed.imp (⟨htracked, ·⟩) (And.imp_right fun hover => .inl ⟨htracked, hover⟩)
    | @head a d hstep _ ih =>
      have hd := hsuccs.mpr hstep.1
      rw [(hfix a hb).1, LiveProblem.contains_inOf, LiveProblem.contains_outOf, hdefs a hb]
      exact .inr ⟨hstep.2, .inr ⟨d, hd, ih (succs_mem_order hg hb hd)⟩⟩
  have hin : ∀ b ∈ p.graph.order, ∀ v : ValueId,
      (l.liveIn.get b).contains v.index = true ↔ k.Tracked v ∧ k.LiveIn (k.flow entry) b v :=
    fun b hb v => ⟨fun h => hsound b v.index h hb, fun h => hcomplete b hb v h.1 h.2⟩
  refine ⟨l, by rw [liveness, hp, ok_bind, hl], hblocks, fun b hb v => ⟨hin b hb v, ?_⟩⟩
  rw [(hfix b hb).2, LiveProblem.contains_outOf, hposes.phiOut b hb, LiveOut, and_or_left]
  refine or_congr_right ⟨?_, ?_⟩
  · rintro ⟨c, hc, hlive⟩
    obtain ⟨htracked, hlive⟩ := (hin c (succs_mem_order hg hb hc) v).mp hlive
    exact ⟨htracked, c, hsuccs.mp hc, hlive⟩
  · rintro ⟨htracked, c, hnext, hlive⟩
    have hc := hsuccs.mpr hnext
    exact ⟨c, hc, (hin c (succs_mem_order hg hb hc) v).mpr ⟨htracked, hlive⟩⟩

end

/-! ## Points of the program -/

/-- The set holds what is live in the block in front of its last instructions `is`. -/
def Shows (k : Kernel) (φ : Flow) (b : BlockId) (s : IndexSet) (is : List InstId) : Prop :=
  ∀ v : ValueId, s.contains v.index = true ↔ k.Tracked v ∧ k.LiveAt φ b is v

theorem Shows.count (h : k.Shows φ b s is) : s.count = {v | k.Tracked v ∧ k.LiveAt φ b is v}.ncard := by
  have hset : {v | k.Tracked v ∧ k.LiveAt φ b is v} = ((s.toList.map Id.mk : List ValueId).toFinset : Set ValueId) := by
    ext v
    rw [Set.mem_ofPred_eq, ← h v, coe_toFinset, Set.mem_ofPred_eq, mem_map, ← IndexSet.mem_toList]
    exact ⟨fun hv => ⟨v.index, hv, rfl⟩, fun ⟨n, hn, heq⟩ => heq ▸ hn⟩
  rw [hset, Set.ncard_coe_finset, toFinset_card_of_nodup, length_map, IndexSet.count_eq]
  exact s.nodup_toList.map fun _ _ => congrArg Id.index

/-- Going back over the instructions `js` passes the points in front of each. -/
theorem pointsBefore_eq_ok (hread : ∀ i ∈ js, k.Readable i) (hs : k.Shows φ b s is) :
    ∃ pts, Liveness.pointsBefore k js s = .ok pts ∧
      (∀ t ∈ s :: pts, ∃ is', is' <:+ js.reverse ++ is ∧ k.Shows φ b t is') ∧
      ∀ is', is <:+ is' → is' <:+ js.reverse ++ is → ∃ t ∈ s :: pts, k.Shows φ b t is' := by
  induction js generalizing s is with
  | nil =>
    refine ⟨[], rfl, fun t ht => ⟨is, suffix_rfl, mem_singleton.mp ht ▸ hs⟩, fun is' hle hge => ?_⟩
    obtain rfl : is = is' := hle.eq_of_length_le hge.length_le
    exact ⟨s, .head _, hs⟩
  | cons i js ih =>
    obtain ⟨ns, hns, hmem⟩ := readsAt_eq_ok (hread i (.head _))
    have hs' : k.Shows φ b (((k.result? i).elim s fun v => s.erase v.index).insertAll ns) (i :: is) := by
      intro v
      have herase : ((k.result? i).elim s fun v => s.erase v.index).contains v.index = true ↔
          s.contains v.index = true ∧ k.result? i ≠ some v := by
        cases k.result? i with
        | none => simp
        | some x =>
          have : x.index = v.index ↔ x = v := ⟨congrArg Id.mk, congrArg Id.index⟩
          simp [IndexSet.contains_erase, this]
      rw [IndexSet.contains_insertAll, Bool.or_eq_true, contains_iff_mem, hmem, herase, hs, liveAt_cons]
      tauto
    obtain ⟨pts, hpts, hsome, hall⟩ := ih (fun j hj => hread j (.tail _ hj)) hs'
    have hsplit : (i :: js).reverse ++ is = js.reverse ++ i :: is := by simp
    rw [hsplit]
    refine ⟨_, bind_eq_ok.mpr ⟨ns, hns, bind_eq_ok.mpr ⟨pts, hpts, rfl⟩⟩, fun t ht => ?_, fun is' hle hge => ?_⟩
    · rcases mem_cons.mp ht with rfl | ht
      · exact ⟨is, (suffix_cons i is).trans (suffix_append _ _), hs⟩
      · exact hsome t ht
    · -- a suffix that is no longer than `is` is `is`, a longer one has `i` too
      rcases suffix_or_suffix_of_suffix hge (suffix_append js.reverse (i :: is)) with hle' | hge'
      · rcases suffix_cons_iff.mp hle' with rfl | hle'
        · exact ⟨_, .tail _ (.head _), hs'⟩
        · obtain rfl : is = is' := hle.eq_of_length_le hle'.length_le
          exact ⟨s, .head _, hs⟩
      · obtain ⟨t, ht, hshows⟩ := hall is' hge' hge
        exact ⟨t, .tail _ ht, hshows⟩

section

variable (hv : k.verify = .ok ()) (hg : k.flowGraph = .ok g)

include hv hg

/-- The sets that `points` lists are those of all points of the blocks that control reaches. -/
theorem points_eq_ok {l : Liveness} (hblocks : l.blocks = g.order) (hout : ∀ b ∈ g.order, k.Shows φ b (l.liveOut.get b) []) :
    ∃ points, l.points k = .ok points ∧
      (∀ s ∈ points, ∃ b ∈ g.order, ∃ is, is <:+ k.instsOf b ∧ k.Shows φ b s is) ∧
      ∀ b ∈ g.order, ∀ is, is <:+ k.instsOf b → ∃ s ∈ points, k.Shows φ b s is := by
  have hpts : ∀ b, ∃ pts, b ∈ g.order →
      Liveness.pointsBefore k (k.instsOf b).reverse (l.liveOut.get b) = .ok pts ∧
      (∀ t ∈ l.liveOut.get b :: pts, ∃ is, is <:+ k.instsOf b ∧ k.Shows φ b t is) ∧
      ∀ is, is <:+ k.instsOf b → ∃ t ∈ l.liveOut.get b :: pts, k.Shows φ b t is := fun b => by
    by_cases hb : b ∈ g.order
    · have hread : ∀ i ∈ (k.instsOf b).reverse, k.Readable i := fun i hi =>
        readable_of_verify hv hg hb (mem_reverse.mp hi)
      obtain ⟨pts, hpts, hsome, hall⟩ := pointsBefore_eq_ok hread (hout b hb)
      rw [reverse_reverse, append_nil] at hsome hall
      exact ⟨pts, fun _ => ⟨hpts, hsome, fun is => hall is (nil_suffix)⟩⟩
    · exact ⟨[], fun h => absurd h hb⟩
  choose pts hpts using hpts
  refine ⟨(g.order.map fun b => l.liveOut.get b :: pts b).flatten, ?_, fun s hs => ?_, fun b hb is his => ?_⟩
  · rw [Liveness.points, hblocks, mapM_of_ok (g := fun b => l.liveOut.get b :: pts b) fun b hb =>
      bind_eq_ok.mpr ⟨_, (hpts b hb).1, rfl⟩]
    rfl
  · obtain ⟨_, hmem, hs⟩ := mem_flatten.mp hs
    obtain ⟨b, hb, rfl⟩ := mem_map.mp hmem
    exact ⟨b, hb, (hpts b hb).2.1 s hs⟩
  · obtain ⟨s, hs, hshows⟩ := (hpts b hb).2.2 is his
    exact ⟨s, mem_flatten.mpr ⟨_, mem_map_of_mem hb, hs⟩, hshows⟩

end

/-- The greatest of some numbers is among them. -/
theorem isGreatest_foldl_max {ns : List Nat} {n : Nat} (h : n ∈ ns) : IsGreatest {m | m ∈ ns} (ns.foldl max 0) := by
  obtain ⟨hmem, hle⟩ := max?_eq_some_iff.mp (@max?_cons' _ 0 _ ns)
  refine ⟨(mem_cons.mp hmem).elim (fun hzero => ?_) id, fun m hm => hle m (.tail _ hm)⟩
  obtain rfl : n = 0 := Nat.le_zero.mp (hzero ▸ hle n (.tail _ h))
  rwa [hzero]

/-! ## Program order -/

theorem mem_inProgramOrder : v ∈ k.inProgramOrder s ↔ s.contains v.index = true := by
  have hlist : v ∈ s.toList.map Id.mk ↔ s.contains v.index = true := by
    rw [mem_map, ← IndexSet.mem_toList]
    exact ⟨fun ⟨n, hn, heq⟩ => heq ▸ hn, fun hv => ⟨v.index, hv, rfl⟩⟩
  rw [inProgramOrder, mem_append, mem_filter, mem_filter, hlist, Bool.not_eq_true', ← Bool.not_eq_true,
    contains_iff_mem]
  tauto

theorem nodup_inProgramOrder (k : Kernel) (s : IndexSet) : (k.inProgramOrder s).Nodup := by
  refine nodup_append.mpr ⟨(nodup_reverse.mpr (Place.nodup_eraseDups _)).filter _,
    (s.nodup_toList.map fun _ _ => congrArg Id.index).filter _, fun v hv w hw heq => ?_⟩
  have hw := (mem_filter.mp hw).2
  rw [Bool.not_eq_true', ← Bool.not_eq_true, contains_iff_mem] at hw
  exact hw (heq ▸ (mem_filter.mp hv).1)

theorem inProgramOrder_sublist (h : ∀ v : ValueId, s.contains v.index = true → v ∈ k.programOrder) :
    (k.inProgramOrder s).Sublist k.programOrder := by
  have hnone : ((s.toList.map Id.mk).filter fun v => !(k.programOrder.reverse.eraseDups.reverse).contains v) = [] := by
    refine filter_eq_nil_iff.mpr fun v hv => ?_
    obtain ⟨n, hn, rfl⟩ := mem_map.mp hv
    simpa using h ⟨n⟩ (IndexSet.mem_toList.mp hn)
  rw [inProgramOrder, hnone, append_nil]
  refine filter_sublist.trans ?_
  have := (Place.eraseDups_sublist k.programOrder.reverse).reverse
  rwa [reverse_reverse] at this

/-- What is live is read somewhere. -/
theorem LiveIn.exists_read (hb : φ.Reached b) (h : k.LiveIn φ b v) :
    ∃ c, φ.Reached c ∧ ∃ i ∈ k.instsOf c, ∃ instr, k.instr? i = some instr ∧ v ∈ instr.operands := by
  obtain ⟨c, hwalk, hneed⟩ := h
  have hc : φ.Reached c := hb.trans (Relation.ReflTransGen.mono (fun _ _ h => h.1) _ _ hwalk)
  rcases hneed with ⟨pre, i, post, heq, _, instr, hinstr, _, hv⟩ | ⟨_, d, hnext, i, hi, incoming, hinstr, hx⟩
  · exact ⟨c, hc, i, by simp [heq], instr, hinstr, hv⟩
  · exact ⟨d, hc.step hnext, i, hi, _, hinstr, mem_map_of_mem hx⟩

theorem LiveOut.exists_read (hb : φ.Reached b) (h : k.LiveOut φ b v) :
    ∃ c, φ.Reached c ∧ ∃ i ∈ k.instsOf c, ∃ instr, k.instr? i = some instr ∧ v ∈ instr.operands := by
  rcases h with ⟨c, hnext, i, hi, incoming, hinstr, hx⟩ | ⟨c, hnext, hlive⟩
  · exact ⟨c, hb.step hnext, i, hi, _, hinstr, mem_map_of_mem hx⟩
  · exact hlive.exists_read (hb.step hnext)

/-- What is read has a place in the program. -/
theorem mem_programOrder_of_read (hv : k.verify = .ok ()) (hg : k.flowGraph = .ok g) (hk : k.Coherent) (hparams : k.ListsParams)
    (htracked : k.Tracked v) (hc : c ∈ g.order) (hi : i ∈ k.instsOf c) {instr : Instr} (hinstr : k.instr? i = some instr)
    (hmem : v ∈ instr.operands) : v ∈ k.programOrder := by
  obtain ⟨dv, hdv, halive⟩ := operand_of_verify hv (order_subset_layout hv hg hc) hi hinstr hmem
  obtain ⟨dv', hdv', hkind⟩ := htracked
  obtain rfl := mem_unique hdv hdv'
  rcases hkind with ⟨n, hn⟩ | ⟨j, hj⟩
  · obtain ⟨p, hp, rfl⟩ := hparams v dv n hdv hn
    exact mem_append_left _ (mem_map_of_mem (mem_of_getElem? hp))
  · have hresult := hk.owned j v (by rw [hdv, Option.map_some, hj])
    obtain ⟨e, he, _⟩ := bind_eq_some_iff.mp hresult
    obtain ⟨b, hb, hjb⟩ := hk.listed j e he (by simpa [he] using halive j hj)
    exact mem_append_right _ (mem_filterMap.mpr ⟨j, mem_flatMap.mpr ⟨b, hb, hjb⟩, hresult⟩)

/-- **Liveness of a verified kernel is liveness along paths.** The lists of live values have no duplicates and are in
program order, and the peak is the greatest number of values that are live at a point of the program. -/
theorem liveness_of_verify (hv : k.verify = .ok ()) (hentry : k.entry? = some entry) :
    ∃ l points, k.liveness = .ok l ∧ l.points k = .ok points ∧
      (∀ b, (k.flow entry).Reached b →
        (∀ v, v ∈ k.inProgramOrder (l.liveIn.get b) ↔ k.Tracked v ∧ k.LiveIn (k.flow entry) b v) ∧
        (∀ v, v ∈ k.inProgramOrder (l.liveOut.get b) ↔ k.Tracked v ∧ k.LiveOut (k.flow entry) b v) ∧
        ∀ s ∈ [l.liveIn.get b, l.liveOut.get b], (k.inProgramOrder s).Nodup ∧
          (k.Coherent → k.ListsParams → (k.inProgramOrder s).Sublist k.programOrder)) ∧
      IsGreatest {n | ∃ b is, (k.flow entry).Reached b ∧ is <:+ k.instsOf b ∧
        n = {v | k.Tracked v ∧ k.LiveAt (k.flow entry) b is v}.ncard} (Liveness.peak points) ∧
      ∀ d t lanes advice, k.widthAdvice d t lanes = .ok advice → advice.peakLive = Liveness.peak points := by
  obtain ⟨_, _, g, hg, _⟩ := verify_eq_ok.mp hv
  have horder : ∀ {b}, b ∈ g.order ↔ (k.flow entry).Reached b := mem_order_iff_reached hg hentry
  obtain ⟨l, hl, hblocks, hlive⟩ := exists_liveness hv hg hentry
  obtain ⟨points, hpoints, hsome, hall⟩ := points_eq_ok (φ := k.flow entry) hv hg hblocks fun b hb v => by
    rw [(hlive b hb v).2, liveAt_nil]
  obtain ⟨first, hfirst, _⟩ := hall entry (horder.mpr .refl) [] nil_suffix
  have hpeak : IsGreatest {n | n ∈ points.map IndexSet.count} (Liveness.peak points) :=
    isGreatest_foldl_max (mem_map_of_mem hfirst)
  refine ⟨l, points, hl, hpoints, fun b hb => ?_, ⟨?_, ?_⟩, fun d t lanes advice hadvice => ?_⟩
  · have hin := fun v => (hlive b (horder.mpr hb) v).1
    have hout := fun v => (hlive b (horder.mpr hb) v).2
    refine ⟨fun v => mem_inProgramOrder.trans (hin v), fun v => mem_inProgramOrder.trans (hout v), fun s hs =>
      ⟨k.nodup_inProgramOrder s, fun hk hparams => inProgramOrder_sublist fun v hmem => ?_⟩⟩
    have hread : k.Tracked v ∧ ∃ c, (k.flow entry).Reached c ∧
        ∃ i ∈ k.instsOf c, ∃ instr, k.instr? i = some instr ∧ v ∈ instr.operands := by
      rcases mem_pair.mp hs with rfl | rfl
      · exact ((hin v).mp hmem).imp_right (·.exists_read hb)
      · exact ((hout v).mp hmem).imp_right (·.exists_read hb)
    obtain ⟨htracked, c, hc, i, hi, instr, hinstr, hread⟩ := hread
    exact mem_programOrder_of_read hv hg hk hparams htracked (horder.mpr hc) hi hinstr hread
  · obtain ⟨s, hs, heq⟩ := mem_map.mp hpeak.1
    obtain ⟨b, hb, is, his, hshows⟩ := hsome s hs
    exact ⟨b, is, horder.mp hb, his, heq.symm.trans hshows.count⟩
  · rintro _ ⟨b, is, hb, his, rfl⟩
    obtain ⟨s, hs, hshows⟩ := hall b (horder.mpr hb) is his
    exact hshows.count ▸ hpeak.2 (mem_map_of_mem hs)
  · rw [widthAdvice, hl, ok_bind, hpoints, ok_bind] at hadvice
    obtain ⟨bits, _, hadvice⟩ := bind_eq_ok.mp hadvice
    obtain ⟨width, _, hadvice⟩ := bind_eq_ok.mp hadvice
    exact congrArg WidthAdvice.peakLive (pure_eq_ok.mp hadvice).symm

/-- Counts down from a parameter to zero, and then gives back the parameter. -/
def countDown : Kernel := .ofListing "count_down" (.scalar .i32) [("n", .scalar .i32)]
  [(.int 1, .scalar .i32), (.int 0, .scalar .i32)]
  [("entry", [(.br 1, .void)]),
    ("loop", [(.phi [(0, 0), (1, 4)], .scalar .i32), (.binary .sub 3 1, .scalar .i32),
      (.compare .ne 4 2, .bool), (.condBr 5 1 2, .void)]),
    ("exit", [(.ret (some 0), .void)])]

/-- The parameter is live all through the loop. The lower count is not live at the start of the loop, but at the end it is
handed over to the next turn. -/
theorem liveness_countDown : countDown.verify = .ok () ∧ ∃ l, countDown.liveness = .ok l ∧
    ⟨0⟩ ∈ countDown.inProgramOrder (l.liveIn.get ⟨1⟩) ∧ ⟨4⟩ ∉ countDown.inProgramOrder (l.liveIn.get ⟨1⟩) ∧
    ⟨4⟩ ∈ countDown.inProgramOrder (l.liveOut.get ⟨1⟩) ∧
    (countDown.inProgramOrder (l.liveOut.get ⟨1⟩)).Sublist countDown.programOrder := by
  have hv : countDown.verify = .ok () := by decide +kernel
  have hmade : (edit { name := "count_down", ret := .scalar .i32 }
      [.addParam "n" (.scalar .i32) {}, .addConst (.scalar .i32) (.int 1), .addConst (.scalar .i32) (.int 0),
        .addBlock "entry", .addBlock "loop", .addBlock "exit", .insert 0 0 (.br 1) .void,
        .insert 1 0 (.phi [(0, 0), (1, 4)]) (.scalar .i32), .insert 1 1 (.binary .sub 3 1) (.scalar .i32),
        .insert 1 2 (.compare .ne 4 2) .bool, .insert 1 3 (.condBr 5 1 2) .void,
        .insert 2 0 (.ret (some 0)) .void]).toOption.map (·.1) = some countDown := by decide +kernel
  obtain ⟨⟨_, new⟩, hedit, rfl⟩ := map_eq_some_iff.mp hmade
  have hnext : ∀ {b c}, b ∈ countDown.layout ∧ c ∈ countDown.successors b → (countDown.flow 0).next b c := id
  have hreached : (countDown.flow 0).Reached 1 := .single (hnext (by decide))
  obtain ⟨l, _, hl, _, hlive, _⟩ := @liveness_of_verify countDown 0 hv (by decide)
  obtain ⟨hin, hout, horder⟩ := hlive 1 hreached
  refine ⟨hv, l, hl, (hin _).mpr ⟨⟨_, rfl, .inl ⟨0, rfl⟩⟩, 2, .single ⟨hnext (by decide), ?_⟩, ?_⟩, fun h => ?_,
    (hout _).mpr ⟨⟨_, rfl, .inr ⟨2, rfl⟩⟩, .inl ⟨1, hnext (by decide), 1, by decide, _, rfl, by decide⟩⟩,
    (horder _ (by simp)).2 (by decide +kernel) (listsParams_of_edits (eq_ok_of_toOption hedit))⟩
  · show ¬∃ i ∈ countDown.instsOf 1, countDown.result? i = some 0
    decide
  · exact .inl ⟨[], 5, [], by decide, not_defines_nil, _, rfl, rfl, by decide⟩
  · have hat := liveIn_iff.mp ((hin _).mp h).2
    rw [show countDown.instsOf 1 = [1, 2, 3, 4] from rfl, liveAt_cons, liveAt_cons] at hat
    rcases hat with ⟨_, hphi, hne, _⟩ | ⟨_, ⟨_, hsub, _, hmem⟩ | ⟨hne, _⟩⟩
    · cases hphi
      cases hne
    · cases hsub
      exact absurd hmem (by decide)
    · exact hne rfl

end Kernel

end Spmd
