import Spmd.Proofs.FlowGraph.Dominance
import Spmd.Proofs.Kernel.Coherent
import Spmd.Proofs.Kernel.Verified

/-!
# Sound kernels

What verification promises, said without positions and dominator trees. A value is ready at a place of a
block if it was computed there before, or in another block that every way to this one goes through
(`Ready`). A kernel is sound if all its linked instructions are well typed and find their operands ready
(`Sound`). The flow that says which blocks are reached, and which lie on every way to which, is a parameter:
so soundness can be kept while the jumps of a kernel are about to change.

* **`sound_of_verify`** — a verified kernel is sound for its own flow.
* **`verify_of_sound`** — a sound kernel whose blocks have a good shape, and whose phis match its flow, is
  verified.
-/

namespace Spmd.Kernel

open Success List

variable {post pre : List InstId} {instr : Instr}

variable {positions : Std.TreeMap InstId Nat} {dom : DominatorTree}

variable {k : Kernel} {g : FlowGraph} {b c : BlockId} {i j : InstId} {v : ValueId}

/-! ## Positions -/

theorem nodup_instsInOrder (hk : k.Coherent) : k.instsInOrder.Nodup := by
  refine nodup_flatMap.mpr ⟨fun b _ => hk.nodup b, ?_⟩
  refine hk.layout.imp fun {b c} hne => ?_
  exact fun i hi hi' => hne (hk.once b c i hi hi')

theorem length_instsInOrder (k : Kernel) : k.instsInOrder.length = k.liveCount := by
  rw [instsInOrder, liveCount]
  induction k.layout with
  | nil => rfl
  | cons b bs ih => rw [flatMap_cons, length_append, map_cons, total_cons, ih]

section

variable (hk : k.Coherent) (hb : b ∈ k.layout) (h : k.instsOf b = pre ++ i :: post)
include hk hb h

/-- An instruction's position is the number of instructions in front of it. -/
theorem getD_positions : k.positions.getD i 0 = pre.length := by
  have hkeys : (k.layout.flatMap fun b => (k.instsOf b).zipIdx).map (·.1) = k.instsInOrder := by
    rw [map_flatMap, instsInOrder]
    simp only [zipIdx_map_fst]
  have hdistinct : (k.layout.flatMap fun b => (k.instsOf b).zipIdx).Pairwise fun x y => ¬compare x.1 y.1 = .eq := by
    have := nodup_instsInOrder hk
    rw [← hkeys, Nodup, pairwise_map] at this
    exact this.imp fun h => mt Std.LawfulEqOrd.compare_eq_iff_eq.mp h
  have hmem : (i, pre.length) ∈ k.layout.flatMap fun b => (k.instsOf b).zipIdx := by
    refine mem_flatMap.mpr ⟨b, hb, ?_⟩
    rw [mem_zipIdx_iff_getElem?, h]
    simp
  rw [positions, Std.TreeMap.getD_eq_getD_getElem?,
    Std.TreeMap.getElem?_ofList_of_mem Std.ReflOrd.compare_self hdistinct hmem]
  rfl

theorem position_lt_iff (hj : j ∈ k.instsOf b) : k.positions.getD j 0 < k.positions.getD i 0 ↔ j ∈ pre := by
  rw [getD_positions hk hb h]
  constructor
  · intro hlt
    obtain ⟨pre', post', hsplit⟩ := append_of_mem hj
    rw [getD_positions hk hb hsplit] at hlt
    have hget : (k.instsOf b)[pre'.length]? = some j := by rw [hsplit]; simp
    rw [h, getElem?_append_left hlt] at hget
    exact mem_of_getElem? hget
  · intro hjpre
    obtain ⟨pre', post', rfl⟩ := append_of_mem hjpre
    have hsplit : k.instsOf b = pre' ++ j :: (post' ++ i :: post) := by rw [h]; simp
    rw [getD_positions hk hb hsplit]
    simp

end

/-! ## Ready values -/

/-- The value is known at the place of a block behind the instructions `pre`. -/
def Ready (k : Kernel) (φ : Flow) (b : BlockId) (pre : List InstId) (v : ValueId) : Prop :=
  ∃ d, k.value? v = some d ∧ ∀ j, d.kind = .inst j → ∃ e, k.inst? j = some e ∧ e.dead = false ∧
    (e.block = b ∧ j ∈ pre ∨ e.block ≠ b ∧ φ.Above e.block b)

/-- The linked instructions are well typed, and their operands are ready where control can get to. -/
structure Sound (k : Kernel) (φ : Flow) : Prop where
  coherent : k.Coherent
  reach : ∀ b, φ.Reached b → b ∈ k.layout
  linked : ∀ b ∈ k.layout, ∀ i ∈ k.instsOf b, ∃ d, k.inst? i = some d ∧ d.dead = false ∧ d.block = b
  typed : ∀ b ∈ k.layout, ∀ i ∈ k.instsOf b, ∀ instr, k.instr? i = some instr → k.verifyTypes i instr = .ok ()
  ordered : ∀ b, φ.Reached b → ∀ pre i post, k.instsOf b = pre ++ i :: post → ∀ instr, k.instr? i = some instr →
    instr.isPhi = false → ∀ v ∈ instr.operands, k.Ready φ b pre v
  phis : ∀ b, φ.Reached b → ∀ i ∈ k.instsOf b, ∀ incoming, k.instr? i = some (.phi incoming) →
    ∀ x ∈ incoming, φ.Reached x.1 → k.Ready φ x.1 (k.instsOf x.1) x.2

variable {φ : Flow}

namespace Ready

variable {pre' : List InstId}

theorem mono (h : k.Ready φ b pre v) (hsub : ∀ i ∈ pre, i ∈ pre') : k.Ready φ b pre' v := by
  obtain ⟨d, hd, h⟩ := h
  refine ⟨d, hd, fun j hj => ?_⟩
  obtain ⟨e, he, halive, hplace⟩ := h j hj
  exact ⟨e, he, halive, hplace.imp (And.imp_right (hsub j)) id⟩

/-- What is ready somewhere in a block is ready everywhere in the blocks below it. -/
theorem down (h : k.Ready φ b pre v) (hbc : φ.Above b c) (hne : b ≠ c) : k.Ready φ c pre' v := by
  obtain ⟨d, hd, h⟩ := h
  refine ⟨d, hd, fun j hj => ?_⟩
  obtain ⟨e, he, halive, ⟨rfl, _⟩ | ⟨_, habove⟩⟩ := h j hj
  · exact ⟨e, he, halive, .inr ⟨hne, hbc⟩⟩
  · refine ⟨e, he, halive, .inr ⟨fun heq => hne (hbc.antisymm (heq ▸ habove)), habove.trans hbc⟩⟩

/-- What is ready at the start of a block is ready at the end of every block in front of it. -/
theorem up (hs : k.Sound φ) (h : k.Ready φ c [] v) (hbc : φ.next b c) : k.Ready φ b (k.instsOf b) v := by
  obtain ⟨d, hd, h⟩ := h
  refine ⟨d, hd, fun j hj => ?_⟩
  obtain ⟨e, he, halive, ⟨_, hnil⟩ | ⟨hne, habove⟩⟩ := h j hj
  · exact absurd hnil not_mem_nil
  · refine ⟨e, he, halive, ?_⟩
    by_cases hb : e.block = b
    · obtain ⟨b', hb', hjb⟩ := hs.coherent.listed j e he halive
      obtain ⟨e', he', _, rfl⟩ := hs.linked b' hb' j hjb
      obtain rfl := mem_unique he he'
      exact .inl ⟨hb, hb ▸ hjb⟩
    · exact .inr ⟨hb, habove.of_step hne hbc⟩

end Ready

namespace Sound

/-- An instruction that is not dead stands in the block it is linked to. -/
theorem mem_instsOf (hs : k.Sound φ) {e : InstDef} (he : k.inst? j = some e) (halive : e.dead = false) :
    e.block ∈ k.layout ∧ j ∈ k.instsOf e.block := by
  obtain ⟨c, hc, hj⟩ := hs.coherent.listed j e he halive
  obtain ⟨e', he', _, rfl⟩ := hs.linked c hc j hj
  obtain rfl := mem_unique he he'
  exact ⟨hc, hj⟩

/-- What an instruction defines is ready behind it. -/
theorem ready_result (hs : k.Sound φ) (hb : b ∈ k.layout) (hi : i ∈ k.instsOf b) (hv : k.result? i = some v)
    (hpre : i ∈ pre) : k.Ready φ b pre v := by
  obtain ⟨d, hd, hkind⟩ := map_eq_some_iff.mp (hs.coherent.defines i v hv)
  obtain ⟨e, he, halive, hblock⟩ := hs.linked b hb i hi
  refine ⟨d, hd, fun j hj => ?_⟩
  cases hkind.symm.trans hj
  exact ⟨e, he, halive, .inl ⟨hblock, hpre⟩⟩

/-- What an instruction reads stays ready behind it. -/
theorem ready_behind (hs : k.Sound φ) (hb : φ.Reached b) (hsplit : k.instsOf b = pre ++ i :: post) (hj : j ∈ pre ++ [i])
    (hinstr : k.instr? j = some instr) (hphi : instr.isPhi = false) (hv : v ∈ instr.operands) : k.Ready φ b pre v := by
  obtain ⟨p, q, hpq⟩ := append_of_mem hj
  have hsub : ∀ l ∈ p, l ∈ pre := by
    rcases eq_nil_or_concat q with rfl | ⟨q', x, rfl⟩
    · obtain ⟨rfl, _⟩ := append_inj' hpq rfl
      exact fun _ => id
    · rw [concat_eq_append, ← cons_append, ← append_assoc] at hpq
      obtain ⟨rfl, _⟩ := append_inj' hpq rfl
      exact fun l hl => mem_append_left _ hl
  have hsplit' : k.instsOf b = p ++ j :: (q ++ post) := by
    rw [hsplit, append_cons, hpq, append_assoc, cons_append]
  exact (hs.ordered b hb p j _ hsplit' instr hinstr hphi v hv).mono hsub

end Sound

/-! ## Verification -/

theorem definedAt?_eq_some {home : BlockId} {position : Nat} :
    k.definedAt? positions v = some (home, position) ↔
      ∃ d j e, k.value? v = some d ∧ d.kind = .inst j ∧ k.inst? j = some e ∧ e.block = home ∧
        positions.getD j 0 = position := by
  rw [definedAt?]
  constructor
  · intro h
    obtain ⟨d, hd, h⟩ := bind_eq_some_iff.mp h
    cases hkind : d.kind with
    | inst j =>
      rw [hkind] at h
      obtain ⟨e, he, h⟩ := bind_eq_some_iff.mp h
      cases h
      exact ⟨d, j, e, hd, hkind, he, rfl, rfl⟩
    | param _ | const _ | undef =>
      rw [hkind] at h
      cases h
  · rintro ⟨d, j, e, hd, hkind, he, rfl, rfl⟩
    refine bind_eq_some_iff.mpr ⟨d, hd, ?_⟩
    rw [hkind]
    exact bind_eq_some_iff.mpr ⟨e, he, rfl⟩

/-- What the check of dominance asks of a value: nothing, unless an instruction defines it. -/
theorem requireDefined_eq_ok (rule : BlockId → Nat → Bool) {flaw : Flaw} :
    (match k.definedAt? positions v with
      | some (home, position) => k.require (some i) (rule home position) flaw
      | none => pure ()) = .ok () ↔
      ∀ d j e, k.value? v = some d → d.kind = .inst j → k.inst? j = some e →
        rule e.block (positions.getD j 0) = true := by
  cases h : k.definedAt? positions v with
  | none =>
    refine ⟨fun _ d j e hd hkind he => ?_, fun _ => rfl⟩
    have hsome : k.definedAt? positions v = some (e.block, positions.getD j 0) :=
      definedAt?_eq_some.mpr ⟨d, j, e, hd, hkind, he, rfl, rfl⟩
    cases h.symm.trans hsome
  | some x =>
    obtain ⟨home, position⟩ := x
    obtain ⟨d, j, e, hd, hkind, he, rfl, rfl⟩ := definedAt?_eq_some.mp h
    rw [require_eq_ok]
    refine ⟨fun hrule d' j' e' hd' hkind' he' => ?_, fun h => h d j e hd hkind he⟩
    obtain rfl := mem_unique hd hd'
    cases hkind.symm.trans hkind'
    obtain rfl := mem_unique he he'
    exact hrule

theorem verifyDominance_phi_eq_ok {incoming : List (BlockId × ValueId)} :
    k.verifyDominance g dom positions b i (.phi incoming) = .ok () ↔
      ∀ x ∈ incoming, x.1 ∈ g.order → ∀ d j e, k.value? x.2 = some d → d.kind = .inst j → k.inst? j = some e →
        dom.dominates e.block x.1 = true := by
  have hreach : ∀ p, g.isReachable p = true ↔ p ∈ g.order := fun p => contains_iff_mem
  rw [verifyDominance, forM_eq_ok]
  refine forall₂_congr fun ⟨p, v⟩ _ => ?_
  refine (requireDefined_eq_ok fun home _ => !g.isReachable p || dom.dominates home p).trans ?_
  constructor
  · intro h hp d j e hd hkind he
    have := h d j e hd hkind he
    rwa [(hreach p).mpr hp, Bool.not_true, Bool.false_or] at this
  · intro h d j e hd hkind he
    rw [Bool.or_eq_true]
    by_cases hp : p ∈ g.order
    · exact .inr (h hp d j e hd hkind he)
    · exact .inl (by simpa using fun h => hp ((hreach p).mp h))

theorem verifyDominance_eq_ok (hphi : instr.isPhi = false) :
    k.verifyDominance g dom positions b i instr = .ok () ↔
      ∀ v ∈ instr.operands, ∀ d j e, k.value? v = some d → d.kind = .inst j → k.inst? j = some e →
        if e.block = b then positions.getD j 0 < positions.getD i 0 else dom.dominates e.block b = true := by
  have hplain : k.verifyDominance g dom positions b i instr = instr.operands.forM fun v =>
      match k.definedAt? positions v with
      | some (home, position) => k.require (some i)
          (if home = b then position < positions.getD i 0 else dom.dominates home b) (.useDominance v)
      | none => pure () := by
    cases instr with
    | phi incoming => exact absurd hphi (by simp [Instr.isPhi])
    | _ => rfl
  rw [hplain, forM_eq_ok]
  refine forall₂_congr fun v _ => ?_
  refine (requireDefined_eq_ok fun home position =>
    if home = b then position < positions.getD i 0 else dom.dominates home b).trans ?_
  refine forall_congr' fun d => forall_congr' fun j => forall_congr' fun e => ?_
  refine imp_congr_right fun _ => imp_congr_right fun _ => imp_congr_right fun _ => ?_
  split <;> simp

theorem verifyPhis_eq_ok :
    k.verifyPhis g b = .ok () ↔ ∀ i ∈ k.instsOf b, ∀ incoming, k.instr? i = some (.phi incoming) →
      (∀ p ∈ g.preds b, incoming.countP (·.1 = p) = 1) ∧ ∀ x ∈ incoming, x.1 ∈ g.preds b := by
  rw [verifyPhis, forM_eq_ok]
  refine forall₂_congr fun i _ => ?_
  split
  next incoming hinstr =>
    constructor
    · intro h incoming' hinstr'
      cases mem_unique hinstr hinstr'
      obtain ⟨_, hcount, h⟩ := bind_eq_ok.mp h
      refine ⟨fun p hp => ?_, fun x hx => ?_⟩
      · simpa using require_eq_ok.mp (forM_eq_ok.mp hcount p hp)
      · split at h
        · exact absurd h fail_ne_ok
        next hnone =>
          simpa using find?_eq_none.mp hnone x hx
    · intro h
      obtain ⟨hcount, hknown⟩ := h incoming hinstr
      refine bind_eq_ok.mpr ⟨(), forM_eq_ok.mpr fun p hp => ?_, ?_⟩
      · exact require_eq_ok.mpr (by simpa using hcount p hp)
      · have hnone : (incoming.find? fun x => !(g.preds b).contains x.1) = none :=
          find?_eq_none.mpr fun x hx => by simpa using hknown x hx
        rw [hnone]
        rfl
  next hother =>
    exact ⟨fun _ incoming hinstr => absurd hinstr (hother incoming), fun _ => rfl⟩

/-- The inputs of the phis of reached blocks are for the blocks that control comes from, one for each. -/
def PhisMatch (k : Kernel) (φ : Flow) : Prop :=
  ∀ b, φ.Reached b → ∀ i ∈ k.instsOf b, ∀ incoming, k.instr? i = some (.phi incoming) →
    (∀ p, φ.Reached p → φ.next p b → incoming.countP (·.1 = p) = 1) ∧
      ∀ x ∈ incoming, φ.Reached x.1 ∧ φ.next x.1 b

section

variable {entry : BlockId} (hentry : k.entry? = some entry)

include hentry

/-- **A verified kernel is sound for its own flow.** -/
theorem sound_of_verify (hk : k.Coherent) (hv : k.verify = .ok ()) : k.Sound (k.flow entry) := by
  obtain ⟨_, _, g, hg, _⟩ := verify_eq_ok.mp hv
  have horder : ∀ {b}, (k.flow entry).Reached b ↔ b ∈ g.order := (mem_order_iff_reached hg hentry).symm
  have hlinked : ∀ b ∈ k.layout, ∀ i ∈ k.instsOf b, ∃ d, k.inst? i = some d ∧ d.dead = false ∧ d.block = b := by
    intro b hb i hi
    obtain ⟨d, hd, halive, hblock, _⟩ := linked_of_verify hv hg hb hi
    exact ⟨d, hd, halive, hblock⟩
  -- every operand of a linked instruction exists, and so does the instruction that defines it
  have hoperand : ∀ {b i d}, b ∈ k.layout → i ∈ k.instsOf b → k.inst? i = some d → ∀ v ∈ d.instr.operands,
      ∃ dv, k.value? v = some dv ∧ ∀ j, dv.kind = .inst j →
        ∃ e, k.inst? j = some e ∧ e.dead = false ∧ j ∈ k.instsOf e.block := by
    intro b i d hb hi hd v hmem
    obtain ⟨dv, hdv, halive⟩ := operand_of_verify hv hb hi (by rw [instr?, hd, Option.map_some]) hmem
    refine ⟨dv, hdv, fun j hj => ?_⟩
    obtain ⟨e, he, _⟩ := bind_eq_some_iff.mp (hk.owned j v (by rw [hdv, Option.map_some, hj]))
    have hdead : e.dead = false := by simpa [he] using halive j hj
    obtain ⟨c, hc, hjc⟩ := hk.listed j e he hdead
    obtain ⟨e', he', _, rfl⟩ := hlinked c hc j hjc
    obtain rfl := mem_unique he he'
    exact ⟨e, he, hdead, hjc⟩
  refine ⟨hk, fun b hb => order_subset_layout hv hg (horder.mp hb), hlinked, fun b hb i hi instr hinstr => ?_,
    fun b hb pre i post hsplit instr hinstr hphi v hmem => ?_, fun b hb i hi incoming hinstr x hx hr => ?_⟩
  · obtain ⟨d, hd, _, _, htypes, _⟩ := linked_of_verify hv hg hb hi
    obtain rfl : d.instr = instr := by simpa [instr?, hd] using hinstr
    exact htypes
  · have hlayout := order_subset_layout hv hg (horder.mp hb)
    have hi : i ∈ k.instsOf b := by simp [hsplit]
    obtain ⟨d, hd, _, _, _, hdom⟩ := linked_of_verify hv hg hlayout hi
    obtain rfl : d.instr = instr := by simpa [instr?, hd] using hinstr
    obtain ⟨dv, hdv, hdef⟩ := hoperand hlayout hi hd v hmem
    refine ⟨dv, hdv, fun j hj => ?_⟩
    obtain ⟨e, he, halive, hje⟩ := hdef j hj
    have hplace := (verifyDominance_eq_ok hphi).mp (hdom (horder.mp hb)) v hmem dv j e hdv hj he
    refine ⟨e, he, halive, ?_⟩
    split at hplace
    next heq =>
      exact .inl ⟨heq, (position_lt_iff hk hlayout hsplit (heq ▸ hje)).mp hplace⟩
    next hne =>
      exact .inr ⟨hne, (dominates_iff hg hentry (horder.mp hb)).mp hplace⟩
  · have hlayout := order_subset_layout hv hg (horder.mp hb)
    obtain ⟨d, hd, _, _, _, hdom⟩ := linked_of_verify hv hg hlayout hi
    have hphi : d.instr = .phi incoming := by simpa [instr?, hd] using hinstr
    have hmem : x.2 ∈ d.instr.operands := by
      rw [hphi]
      exact mem_map_of_mem hx
    obtain ⟨dv, hdv, hdef⟩ := hoperand hlayout hi hd x.2 hmem
    refine ⟨dv, hdv, fun j hj => ?_⟩
    obtain ⟨e, he, halive, hje⟩ := hdef j hj
    refine ⟨e, he, halive, ?_⟩
    by_cases heq : e.block = x.1
    · exact .inl ⟨heq, heq ▸ hje⟩
    · have := verifyDominance_phi_eq_ok.mp (hphi ▸ hdom (horder.mp hb)) x hx (horder.mp hr) dv j e hdv hj he
      exact .inr ⟨heq, (dominates_iff hg hentry (horder.mp hr)).mp this⟩

theorem phisMatch_iff (hg : k.flowGraph = .ok g) :
    k.PhisMatch (k.flow entry) ↔ ∀ b ∈ g.order, k.verifyPhis g b = .ok () := by
  have horder : ∀ {b}, b ∈ g.order ↔ (k.flow entry).Reached b := mem_order_iff_reached hg hentry
  have hpreds : ∀ {b p}, b ∈ g.order → (p ∈ g.preds b ↔ (k.flow entry).Reached p ∧ (k.flow entry).next p b) := by
    intro b p hb
    rw [mem_preds_iff hg hb, horder, mem_succs_iff hg]
    rfl
  constructor
  · intro h b hb
    refine verifyPhis_eq_ok.mpr fun i hi incoming hinstr => ?_
    obtain ⟨hone, hknown⟩ := h b (horder.mp hb) i hi incoming hinstr
    refine ⟨fun p hp => ?_, fun x hx => (hpreds hb).mpr (hknown x hx)⟩
    obtain ⟨hpr, hpb⟩ := (hpreds hb).mp hp
    exact hone p hpr hpb
  · intro h b hb i hi incoming hinstr
    have hbo := horder.mpr hb
    obtain ⟨hone, hknown⟩ := verifyPhis_eq_ok.mp (h b hbo) i hi incoming hinstr
    exact ⟨fun p hp hpb => hone p ((hpreds hbo).mpr ⟨hp, hpb⟩), fun x hx => (hpreds hbo).mp (hknown x hx)⟩

theorem phisMatch_of_verify (hv : k.verify = .ok ()) : k.PhisMatch (k.flow entry) := by
  obtain ⟨_, _, g, hg, hblocks⟩ := verify_eq_ok.mp hv
  exact (phisMatch_iff hentry hg).mpr fun b hb => (hblocks b (order_subset_layout hv hg hb)).2 hb

/-- **A sound kernel is verified** if its blocks have a good shape and its phis match its flow. -/
theorem verify_of_sound (hs : k.Sound (k.flow entry)) (hshape : ∀ b ∈ k.layout, k.verifyShape b = .ok ())
    (hphis : k.PhisMatch (k.flow entry)) : k.verify = .ok () := by
  have hk := hs.coherent
  obtain ⟨g, hg⟩ := exists_flowGraph_of_shape hshape
  have horder : ∀ {b}, b ∈ g.order ↔ (k.flow entry).Reached b := mem_order_iff_reached hg hentry
  refine verify_eq_ok.mpr ⟨fun hnil => ?_, hshape, g, hg, fun b hb => ⟨fun i hi => ?_, fun hbo => ?_⟩⟩
  · rw [ entry?, hnil] at hentry
    cases hentry
  · obtain ⟨d, hd, halive, hblock⟩ := hs.linked b hb i hi
    have hinstr : k.instr? i = some d.instr := by rw [instr?, hd]; rfl
    refine verifyInst_eq_ok.mpr ⟨d, hd, halive, hblock, hs.typed b hb i hi _ hinstr, fun hbo => ?_⟩
    cases hphi : d.instr.isPhi with
    | true =>
      obtain ⟨incoming, hincoming⟩ : ∃ incoming, d.instr = .phi incoming := by
        cases hcase : d.instr with
        | phi incoming => exact ⟨incoming, rfl⟩
        | _ => rw [hcase] at hphi; exact absurd hphi (by simp [Instr.isPhi])
      rw [hincoming] at hinstr ⊢
      refine verifyDominance_phi_eq_ok.mpr fun x hx hxo dv j e hdv hj he => ?_
      refine (dominates_iff hg hentry hxo).mpr ?_
      obtain ⟨dv', hdv', hdef⟩ := hs.phis b (horder.mp hbo) i hi incoming hinstr x hx (horder.mp hxo)
      obtain rfl := mem_unique hdv hdv'
      obtain ⟨e', he', _, hplace⟩ := hdef j hj
      obtain rfl := mem_unique he he'
      rcases hplace with ⟨heq, _⟩ | ⟨_, habove⟩
      · rw [heq]
        exact .refl (horder.mp hxo)
      · exact habove
    | false =>
      obtain ⟨pre, post, hsplit⟩ := append_of_mem hi
      refine (verifyDominance_eq_ok hphi).mpr fun v hmem dv j e hdv hj he => ?_
      obtain ⟨dv', hdv', hdef⟩ := hs.ordered b (horder.mp hbo) pre i post hsplit _ hinstr hphi v hmem
      obtain rfl := mem_unique hdv hdv'
      obtain ⟨e', he', _, hplace⟩ := hdef j hj
      obtain rfl := mem_unique he he'
      rcases hplace with ⟨heq, hjpre⟩ | ⟨hne, habove⟩
      · rw [if_pos heq]
        exact (position_lt_iff hk hb hsplit (by simp [hsplit, hjpre])).mpr hjpre
      · rw [if_neg hne]
        exact (dominates_iff hg hentry hbo).mpr habove
  · exact (phisMatch_iff hentry hg).mp hphis b hbo

end

end Spmd.Kernel
