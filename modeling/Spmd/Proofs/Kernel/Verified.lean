import Spmd.Kernel.WellFormed
import Spmd.Proofs.FlowGraph.Reachable

/-!
# What verification promises

`verify` answers with the first flaw it finds. What it promises when it finds none, part by part:

* **`verify_eq_ok`** — every block of the layout has a good shape, every instruction in it passes its
  checks, and the phis of a reachable block match its predecessors.
* **`verifyShape_eq_ok`** — a block is phis, then instructions that go on, then one terminator that jumps
  into the layout. So control stays in the layout (`order_subset_layout`).
* **`verifyInst_eq_ok`** — an instruction of a block is linked to it, so it stands in no other
  (`listedOnce_of_verify`).
-/

namespace Spmd

open Success List Instr

namespace Kernel

variable {k : Kernel} {g : FlowGraph} {b c : BlockId} {i : InstId} {α : Type} {a : α} {inst : Option InstId}
  {flaw : Flaw} {is : List InstId}

theorem monadLift_eq_ok {x : Checked α} : (liftM x : Verify α) = .ok a ↔ x = .ok a := by
  cases x with
  | error f =>
    refine ⟨fun h => ?_, fun h => ?_⟩
    · exact absurd h (by simp [liftM, monadLift, MonadLift.monadLift])
    · cases h
  | ok y => simp [liftM, monadLift, MonadLift.monadLift]

theorem fail_ne_ok : k.fail inst flaw ≠ .ok a :=
  throw_ne_ok

theorem require_eq_ok {rule : Bool} : k.require inst rule flaw = .ok () ↔ rule = true := by
  rw [require]
  split
  next h =>
    exact ⟨fun _ => h, fun _ => rfl⟩
  next h =>
    exact ⟨fun h' => absurd h' fail_ne_ok, fun h' => absurd h' h⟩

/-! ## The parts of the check -/

theorem verify_eq_ok :
    k.verify = .ok () ↔
      k.layout ≠ [] ∧ (∀ b ∈ k.layout, k.verifyShape b = .ok ()) ∧
      ∃ g, k.flowGraph = .ok g ∧ ∀ b ∈ k.layout,
        (∀ i ∈ k.instsOf b, k.verifyInst g g.dominators k.positions b i = .ok ()) ∧
        (b ∈ g.order → k.verifyPhis g b = .ok ()) := by
  have hblock : ∀ (g : FlowGraph) (b : BlockId), (do
      (k.instsOf b).forM (k.verifyInst g g.dominators k.positions b)
      if g.isReachable b then k.verifyPhis g b : Verify Unit) = .ok () ↔
      (∀ i ∈ k.instsOf b, k.verifyInst g g.dominators k.positions b i = .ok ()) ∧
        (b ∈ g.order → k.verifyPhis g b = .ok ()) := by
    intro g b
    have hreach : g.isReachable b = true ↔ b ∈ g.order := contains_iff_mem
    rw [bind_eq_ok]
    constructor
    · rintro ⟨_, hinsts, hphis⟩
      refine ⟨forM_eq_ok.mp hinsts, fun hb => ?_⟩
      rwa [if_pos (hreach.mpr hb)] at hphis
    · rintro ⟨hinsts, hphis⟩
      refine ⟨(), forM_eq_ok.mpr hinsts, ?_⟩
      split
      next hb =>
        exact hphis (hreach.mp hb)
      · rfl
  rw [verify]
  constructor
  · intro h
    obtain ⟨_, hne, h⟩ := bind_eq_ok.mp h
    obtain ⟨_, hshape, h⟩ := bind_eq_ok.mp h
    obtain ⟨g, hg, h⟩ := bind_eq_ok.mp h
    refine ⟨?_, forM_eq_ok.mp hshape, g, monadLift_eq_ok.mp hg, fun b hb => ?_⟩
    · simpa using require_eq_ok.mp hne
    · exact (hblock g b).mp (forM_eq_ok.mp h b hb)
  · rintro ⟨hne, hshape, g, hg, hinsts⟩
    refine bind_eq_ok.mpr ⟨(), require_eq_ok.mpr (by simpa using hne), ?_⟩
    refine bind_eq_ok.mpr ⟨(), forM_eq_ok.mpr hshape, ?_⟩
    refine bind_eq_ok.mpr ⟨g, monadLift_eq_ok.mpr hg, ?_⟩
    exact forM_eq_ok.mpr fun b hb => (hblock g b).mpr (hinsts b hb)

theorem exists_entry?_of_verify (h : k.verify = .ok ()) : ∃ entry, k.entry? = some entry :=
  ⟨_, head?_eq_some_head (verify_eq_ok.mp h).1⟩

/-- An instruction that may stand in front of a terminator. -/
def GoesOn (k : Kernel) (i : InstId) : Prop := (k.instr? i).any isTerminator = false

theorem bodyFlaw?_eq_none {pastPhis : Bool} :
    k.bodyFlaw? pastPhis is = none ↔
      (∀ i ∈ is, k.GoesOn i) ∧
        ∃ phis rest, is = phis ++ rest ∧ (∀ i ∈ phis, k.isPhi i = true) ∧ (∀ i ∈ rest, k.isPhi i = false) ∧
          (pastPhis = true → phis = []) := by
  induction is generalizing pastPhis with
  | nil => simp [bodyFlaw?]
  | cons i is ih =>
    rw [bodyFlaw?]
    constructor
    · intro h
      split at h
      · cases h
      rename_i hterm
      split at h
      · cases h
      rename_i hlate
      have hlate : ¬(k.isPhi i = true ∧ pastPhis = true) := by simpa using hlate
      obtain ⟨hgo, phis, rest, rfl, hphis, hrest, hnil⟩ := ih.mp h
      refine ⟨forall_mem_cons.mpr ⟨by simpa [GoesOn] using hterm, hgo⟩, ?_⟩
      cases hi : k.isPhi i with
      | true =>
        refine ⟨i :: phis, rest, rfl, forall_mem_cons.mpr ⟨hi, hphis⟩, hrest, fun hpast => ?_⟩
        exact absurd ⟨hi, hpast⟩ hlate
      | false =>
        obtain rfl := hnil (by simp [hi])
        exact ⟨[], i :: rest, rfl, by simp, forall_mem_cons.mpr ⟨hi, hrest⟩, fun _ => rfl⟩
    · rintro ⟨hgo, phis, rest, heq, hphis, hrest, hnil⟩
      obtain ⟨hi, hgo⟩ := forall_mem_cons.mp hgo
      rw [if_neg (by simpa [GoesOn] using hi)]
      cases phis with
      | nil =>
        subst heq
        obtain ⟨hphi, hrest⟩ := forall_mem_cons.mp hrest
        rw [if_neg (by simp [hphi])]
        exact ih.mpr ⟨hgo, [], is, rfl, by simp, hrest, fun _ => rfl⟩
      | cons j phis =>
        cases heq
        obtain ⟨hphi, hphis⟩ := forall_mem_cons.mp hphis
        have hpast : pastPhis = false := by
          cases pastPhis with
          | true => cases hnil rfl
          | false => rfl
        rw [if_neg (by simp [hpast])]
        exact ih.mpr ⟨hgo, phis, rest, rfl, hphis, hrest, by simp [hpast, hphi]⟩

/-- **The shape of a block**: phis, instructions that go on, and a terminator that jumps into the layout. -/
theorem verifyShape_eq_ok :
    k.verifyShape b = .ok () ↔
      ∃ phis body last, k.instsOf b = phis ++ body ++ [last] ∧
        (∀ i ∈ phis, k.isPhi i = true) ∧ (∀ i ∈ body, k.isPhi i = false) ∧ (∀ i ∈ phis ++ body, k.GoesOn i) ∧
        (k.instr? last).any isTerminator = true ∧ ∀ s ∈ k.successors b, s ∈ k.layout := by
  rw [verifyShape]
  constructor
  · intro h
    split at h
    · exact absurd h fail_ne_ok
    rename_i last hlast
    obtain ⟨_, hterm, h⟩ := bind_eq_ok.mp h
    split at h
    · exact absurd h fail_ne_ok
    rename_i hflaw
    obtain ⟨hgo, phis, body, hbody, hphis, hrest, _⟩ := bodyFlaw?_eq_none.mp hflaw
    refine ⟨phis, body, last, ?_, hphis, hrest, hbody ▸ hgo, require_eq_ok.mp hterm, ?_⟩
    · rw [← hbody]
      exact (dropLast_append_getLast? last hlast).symm
    · simpa using require_eq_ok.mp h
  · rintro ⟨phis, body, last, heq, hphis, hrest, hgo, hterm, hsuccs⟩
    have hlast : (k.instsOf b).getLast? = some last := by rw [heq, getLast?_concat]
    have hdrop : (k.instsOf b).dropLast = phis ++ body := by rw [heq, dropLast_concat]
    rw [hlast, hdrop]
    have hflaw : k.bodyFlaw? false (phis ++ body) = none :=
      bodyFlaw?_eq_none.mpr ⟨hgo, phis, body, rfl, hphis, hrest, by simp⟩
    refine bind_eq_ok.mpr ⟨(), require_eq_ok.mpr hterm, ?_⟩
    rw [hflaw]
    exact require_eq_ok.mpr (by simpa using hsuccs)

theorem mem_ids_of_shape (h : k.verifyShape b = .ok ()) : b ∈ k.blocks.ids := by
  obtain ⟨phis, body, last, heq, _⟩ := verifyShape_eq_ok.mp h
  have hlast : last ∈ k.instsOf b := by simp [heq]
  obtain ⟨_, hblk, _⟩ := block?_of_mem_instsOf hlast
  exact (Arena.mem_ids_iff _ _).mpr (lt_size_of_block? hblk)

theorem exists_flowGraph_of_shape (h : ∀ b ∈ k.layout, k.verifyShape b = .ok ()) : ∃ g, k.flowGraph = .ok g := by
  refine exists_flowGraph fun a _ b hb => ?_
  obtain ⟨ha, hab⟩ := mem_targets_iff.mp hb
  obtain ⟨_, _, _, _, _, _, _, _, hsuccs⟩ := verifyShape_eq_ok.mp (h a ha)
  exact mem_ids_of_shape (h b (hsuccs b hab))

theorem verifyOperand_eq_ok {v : ValueId} {ty : Ty} :
    k.verifyOperand i v = .ok ty ↔
      ∃ d, k.value? v = some d ∧ d.ty = ty ∧ ∀ j, d.kind = .inst j → (k.inst? j).any (·.dead) = false := by
  rw [verifyOperand]
  constructor
  · intro h
    split at h
    · exact absurd h fail_ne_ok
    rename_i d hd
    split at h
    next j hj =>
      obtain ⟨_, halive, h⟩ := bind_eq_ok.mp h
      refine ⟨d, hd, pure_eq_ok.mp h, fun j' hj' => ?_⟩
      cases hj.symm.trans hj'
      simpa using require_eq_ok.mp halive
    next hother =>
      exact ⟨d, hd, pure_eq_ok.mp h, fun j hj => absurd hj (hother j)⟩
  · rintro ⟨d, hd, rfl, halive⟩
    rw [hd]
    dsimp only
    split
    next j hj =>
      exact bind_eq_ok.mpr ⟨(), require_eq_ok.mpr (by simp [halive j hj]), rfl⟩
    · rfl

theorem verifyTypes_eq_ok {instr : Instr} :
    k.verifyTypes i instr = .ok () ↔
      ∃ tys, instr.operands.mapM (k.verifyOperand i) = .ok tys ∧
        instr.typeFlaw? k.ret (k.resultTy i) tys = .ok none := by
  rw [verifyTypes]
  constructor
  · intro h
    obtain ⟨tys, htys, h⟩ := bind_eq_ok.mp h
    obtain ⟨flaw?, hflaw, h⟩ := bind_eq_ok.mp h
    refine ⟨tys, htys, ?_⟩
    cases flaw? with
    | some flaw => exact absurd h fail_ne_ok
    | none => exact monadLift_eq_ok.mp hflaw
  · rintro ⟨tys, htys, hflaw⟩
    exact bind_eq_ok.mpr ⟨tys, htys, bind_eq_ok.mpr ⟨none, monadLift_eq_ok.mpr hflaw, rfl⟩⟩

theorem verifyInst_eq_ok {positions : Std.TreeMap InstId Nat} {dom : DominatorTree} :
    k.verifyInst g dom positions b i = .ok () ↔
      ∃ d, k.inst? i = some d ∧ d.dead = false ∧ d.block = b ∧ k.verifyTypes i d.instr = .ok () ∧
        (b ∈ g.order → k.verifyDominance g dom positions b i d.instr = .ok ()) := by
  have hreach : g.isReachable b = true ↔ b ∈ g.order := contains_iff_mem
  rw [verifyInst]
  constructor
  · intro h
    obtain ⟨d, hd, h⟩ := bind_eq_ok.mp h
    obtain ⟨_, halive, h⟩ := bind_eq_ok.mp h
    obtain ⟨_, hblock, h⟩ := bind_eq_ok.mp h
    obtain ⟨_, htypes, h⟩ := bind_eq_ok.mp h
    refine ⟨d, some?_eq_ok.mp (monadLift_eq_ok.mp hd), ?_, ?_, htypes, fun hb => ?_⟩
    · simpa using require_eq_ok.mp halive
    · simpa using require_eq_ok.mp hblock
    · rwa [if_pos (hreach.mpr hb)] at h
  · rintro ⟨d, hd, halive, hblock, htypes, hdom⟩
    refine bind_eq_ok.mpr ⟨d, monadLift_eq_ok.mpr (some?_eq_ok.mpr hd), ?_⟩
    refine bind_eq_ok.mpr ⟨(), require_eq_ok.mpr (by simp [halive]), ?_⟩
    refine bind_eq_ok.mpr ⟨(), require_eq_ok.mpr (by simp [hblock]), ?_⟩
    refine bind_eq_ok.mpr ⟨(), htypes, ?_⟩
    split
    next hb =>
      exact hdom (hreach.mp hb)
    · rfl

/-! ## Consequences -/

theorem terminator?_of_last (heq : k.instsOf b = is ++ [i]) (hlast : (k.instr? i).any isTerminator = true) :
    k.terminator? b = some i := by
  rw [terminator?, heq, getLast?_concat]
  exact Option.filter_eq_some_iff.mpr ⟨rfl, hlast⟩

section

variable (hk : k.verify = .ok ()) (hg : k.flowGraph = .ok g)

include hk

theorem shape_of_verify (hb : b ∈ k.layout) :
    ∃ phis body last, k.instsOf b = phis ++ body ++ [last] ∧
      (∀ i ∈ phis, k.isPhi i = true) ∧ (∀ i ∈ body, k.isPhi i = false) ∧ (∀ i ∈ phis ++ body, k.GoesOn i) ∧
      (k.instr? last).any isTerminator = true ∧ ∀ s ∈ k.successors b, s ∈ k.layout :=
  verifyShape_eq_ok.mp ((verify_eq_ok.mp hk).2.1 b hb)

omit hk in
/-- Phis first and everything else behind them. -/
theorem phis_and_rest {phis rest : List InstId} (heq : k.instsOf b = phis ++ rest) (hphis : ∀ i ∈ phis, k.isPhi i = true)
    (hrest : ∀ i ∈ rest, k.isPhi i = false) :
    k.leadingPhis b = phis ∧ (k.instsOf b).filter (fun i => !k.isPhi i) = rest := by
  constructor
  · unfold leadingPhis
    rw [heq, takeWhile_append_of_pos hphis]
    cases rest with
    | nil => simp
    | cons i rest => simp [hrest i (.head _)]
  · rw [heq, filter_append, filter_eq_nil_iff.mpr (by simpa using hphis),
      filter_eq_self.mpr (by simpa using hrest)]
    rfl

omit hk in
theorem isPhi_of_isTerminator (h : (k.instr? i).any isTerminator = true) : k.isPhi i = false := by
  unfold isPhi
  cases hinstr : k.instr? i with
  | none => rfl
  | some instr =>
    rw [hinstr] at h
    cases instr with
    | phi _ => exact absurd h (by simp [isTerminator])
    | _ => rfl

omit hk in
theorem goesOn_of_isPhi (h : k.isPhi i = true) : k.GoesOn i := by
  cases hterm : (k.instr? i).any isTerminator with
  | false => exact hterm
  | true => cases h.symm.trans (isPhi_of_isTerminator hterm)

/-- What is left to do behind the phis of a block ends with its terminator. -/
theorem todo_of_verify (hb : b ∈ k.layout) :
    ∃ body last, k.instsOf b = k.leadingPhis b ++ (body ++ [last]) ∧
      (k.instsOf b).filter (fun i => !k.isPhi i) = body ++ [last] ∧ (∀ i ∈ k.leadingPhis b, k.isPhi i = true) ∧
      (∀ i ∈ body, k.isPhi i = false) ∧ (∀ i ∈ body, k.GoesOn i) ∧ (k.instr? last).any isTerminator = true := by
  obtain ⟨phis, body, last, heq, hphis, hbody, hgo, hlast, _⟩ := shape_of_verify hk hb
  have hrest : ∀ i ∈ body ++ [last], k.isPhi i = false := by
    intro i hi
    rcases mem_append.mp hi with hi | hi
    · exact hbody i hi
    · exact mem_singleton.mp hi ▸ isPhi_of_isTerminator hlast
  rw [append_assoc] at heq
  obtain ⟨hleading, hfilter⟩ := phis_and_rest heq hphis hrest
  exact ⟨body, last, hleading.symm ▸ heq, hfilter, hleading.symm ▸ hphis, hbody,
    fun i hi => hgo i (mem_append_right _ hi), hlast⟩

/-- A verified block is its leading phis and the rest. -/
theorem instsOf_eq_of_verify (hb : b ∈ k.layout) :
    k.instsOf b = k.leadingPhis b ++ (k.instsOf b).filter (fun i => !k.isPhi i) := by
  obtain ⟨body, last, heq, hfilter, _⟩ := todo_of_verify hk hb
  rw [hfilter]
  exact heq

/-- A terminator is the last instruction of its block. -/
theorem isTerminator_iff_of_verify {pre rest : List InstId} (hb : b ∈ k.layout) (hsplit : k.instsOf b = pre ++ i :: rest) :
    (k.instr? i).any isTerminator = true ↔ rest = [] := by
  obtain ⟨phis, body, last, heq, _, _, hgo, hlast, _⟩ := shape_of_verify hk hb
  rw [hsplit] at heq
  constructor
  · intro hterm
    by_contra hne
    -- an instruction with something behind it is not the last one
    have hdrop := congrArg dropLast heq
    rw [dropLast_append_of_ne_nil (cons_ne_nil i rest), dropLast_cons_of_ne_nil hne,
      dropLast_concat] at hdrop
    exact absurd (hgo i (by rw [← hdrop]; simp)) (by rw [GoesOn, hterm]; decide)
  · rintro rfl
    obtain ⟨_, hi⟩ := append_inj' heq rfl
    obtain rfl : i = last := by simpa using hi
    exact hlast

include hg

theorem order_subset_layout (hb : b ∈ g.order) : b ∈ k.layout := by
  obtain ⟨entry, hentry, hwalk⟩ := (mem_order_iff hg).mp hb
  induction hwalk with
  | refl => exact mem_of_head? hentry
  | @tail a c hwalk hstep ih =>
    have ha : a ∈ k.layout := ih ((mem_order_iff hg).mpr ⟨entry, hentry, hwalk⟩)
    obtain ⟨_, _, _, _, _, _, _, _, hsuccs⟩ := shape_of_verify hk ha
    exact hsuccs c ((mem_succs_iff hg).mp hstep).2

theorem linked_of_verify (hb : b ∈ k.layout) (hi : i ∈ k.instsOf b) :
    ∃ d, k.inst? i = some d ∧ d.dead = false ∧ d.block = b ∧ k.verifyTypes i d.instr = .ok () ∧
      (b ∈ g.order → k.verifyDominance g g.dominators k.positions b i d.instr = .ok ()) := by
  obtain ⟨_, _, g', hg', hinsts⟩ := verify_eq_ok.mp hk
  obtain rfl := ok_unique hg' hg
  exact verifyInst_eq_ok.mp ((hinsts b hb).1 i hi)

omit hg in
/-- The operands of a linked instruction are values, and what defines them is not dead. -/
theorem operand_of_verify (hb : b ∈ k.layout) (hi : i ∈ k.instsOf b) {instr : Instr} (hinstr : k.instr? i = some instr)
    {v : ValueId} (hmem : v ∈ instr.operands) :
    ∃ dv, k.value? v = some dv ∧ ∀ j, dv.kind = .inst j → (k.inst? j).any (·.dead) = false := by
  obtain ⟨_, _, g, hg, _⟩ := verify_eq_ok.mp hk
  obtain ⟨d, hd, _, _, htypes, _⟩ := linked_of_verify hk hg hb hi
  obtain rfl : d.instr = instr := by simpa [instr?, hd] using hinstr
  obtain ⟨tys, htys, _⟩ := verifyTypes_eq_ok.mp htypes
  obtain ⟨ty, _, hty⟩ := mem_mapM_of_mem htys hmem
  obtain ⟨dv, hdv, _, halive⟩ := verifyOperand_eq_ok.mp hty
  exact ⟨dv, hdv, halive⟩

/-- Each instruction of the reachable blocks stands in one of them only. -/
theorem listedOnce_of_verify (hb : b ∈ g.order) (hc : c ∈ g.order) (hib : i ∈ k.instsOf b)
    (hic : i ∈ k.instsOf c) : b = c := by
  obtain ⟨d, hd, _, hdb, _⟩ := linked_of_verify hk hg (order_subset_layout hk hg hb) hib
  obtain ⟨d', hd', _, hdc, _⟩ := linked_of_verify hk hg (order_subset_layout hk hg hc) hic
  obtain rfl := mem_unique hd hd'
  exact hdb.symm.trans hdc

omit hg in
/-- An instruction that ends blocks stands at the end of its block. -/
theorem terminator?_of_verify (hb : b ∈ k.layout) (hi : i ∈ k.instsOf b)
    (hterm : (k.instr? i).any isTerminator = true) : k.terminator? b = some i := by
  obtain ⟨phis, body, last, heq, _, _, hgo, hlast, _⟩ := shape_of_verify hk hb
  rw [heq, mem_append, mem_singleton] at hi
  rcases hi with hi | rfl
  · exact absurd (hgo i hi) (by rw [GoesOn, hterm]; decide)
  · exact terminator?_of_last heq hlast

end

end Kernel

end Spmd
