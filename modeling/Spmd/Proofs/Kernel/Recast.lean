import Mathlib.Data.List.TakeWhile
import Spmd.Proofs.Kernel.SoundEdit

/-!
# Recast kernels

A kernel is recast if other instructions stand in the place of some of its instructions and what is read is renamed
accordingly (**`Kernel.Recast`**). Edits recast a kernel: new instructions in front of another
(`Recast.inserted`), an instruction replaced by another (`Recast.replaced`), and one removed (`Recast.removed`); and
a recast kernel can be recast again (`Recast.trans`).
-/

namespace Spmd.Kernel

open List Instr
open Option (any_eq_true bind_some isSome_iff_exists map_eq_some_iff map_some)

variable {k' k k1 : Kernel} {b : BlockId} {ρ : ValueId → ValueId} {i j : InstId}

/-- `k'` is `k` with the instructions `τ i` in the place of each instruction `i`, and with `ρ v` read in the place of
each value `v`. -/
structure Recast (k k' : Kernel) (ρ : ValueId → ValueId) (τ : InstId → List InstId) : Prop where
  layout : k'.layout = k.layout
  params : k'.params = k.params
  blocks : ∀ b ∈ k.layout, (k'.block? b).isSome = true
  insts : ∀ b ∈ k.layout, k'.instsOf b = (k.instsOf b).flatMap τ
  /-- Phis and terminators stay. -/
  fixed : ∀ b ∈ k.layout, ∀ i ∈ k.instsOf b, ∀ instr, k.instr? i = some instr →
    instr.isPhi = true ∨ instr.isTerminator = true → τ i = [i]
  kept : ∀ b ∈ k.layout, ∀ i ∈ k.instsOf b, i ∈ τ i → k'.instr? i = (k.instr? i).map (·.mapOperands ρ) ∧
    k'.result? i = k.result? i ∧ ∀ v, k.result? i = some v → ρ v = v
  /-- New instructions are neither. -/
  added : ∀ b ∈ k.layout, ∀ i ∈ k.instsOf b, ∀ j ∈ τ i, j ≠ i → k.inst? j = none ∧
    ∃ instr, k'.instr? j = some instr ∧ instr.isPhi = false ∧ instr.isTerminator = false
  arena : ∀ i, (k.inst? i).isSome = true → (k'.inst? i).isSome = true
  values : ∀ v d, k.value? v = some d → ∃ d', k'.value? (ρ v) = some d' ∧ d'.ty = d.ty ∧
    (d'.kind = d.kind ∨ (∃ i, d.kind = .inst i) ∧ ∃ j, d'.kind = .inst j)
  injective : ∀ v v', (k.value? v).isSome = true → (k.value? v').isSome = true → ρ v = ρ v' → v = v'
  values_size : k.values.size ≤ k'.values.size

/-- Replacing every element by itself. -/
theorem flatMap_eq_self {α : Type} {l : List α} {τ : α → List α} (h : ∀ x ∈ l, τ x = [x]) : l.flatMap τ = l := by
  induction l with
  | nil => rfl
  | cons x l ih =>
    rw [flatMap_cons, h x (.head _), ih fun y hy => h y (.tail _ hy)]
    rfl

theorem mem_of_eq_singleton {α : Type} {x : α} {l : List α} (h : l = [x]) : x ∈ l := h ▸ mem_singleton_self x

/-- The instruction neither starts nor ends a block. -/
def Plain (k : Kernel) (i : InstId) : Prop :=
  ∀ ⦃instr⦄, k.instr? i = some instr → instr.isPhi = false ∧ instr.isTerminator = false

theorem Plain.ne {instr : Instr} (h : k.Plain i) (hinstr : k.instr? j = some instr)
    (hkind : instr.isPhi = true ∨ instr.isTerminator = true) : j ≠ i := by
  rintro rfl
  obtain ⟨hphi, hterm⟩ := h hinstr
  rcases hkind with hyes | hyes
  · cases hyes.symm.trans hphi
  · cases hyes.symm.trans hterm

namespace Recast

variable {τ : InstId → List InstId}

theorem valueTy_eq (hr : Recast k k' ρ τ) {v : ValueId} (hv : (k.value? v).isSome = true) :
    k'.valueTy (ρ v) = k.valueTy v := by
  obtain ⟨d, hd⟩ := isSome_iff_exists.mp hv
  obtain ⟨d', hd', hty, _⟩ := hr.values v d hd
  rw [valueTy, valueTy, value, value, hd, hd']
  exact congrArg Except.ok hty

variable (hr : Recast k k' ρ τ)

include hr

theorem resultTy_eq (hk : k.Coherent) (hb : b ∈ k.layout) (hi : i ∈ k.instsOf b) (hkept : i ∈ τ i) :
    k'.resultTy i = k.resultTy i := by
  obtain ⟨_, hresult, hsame⟩ := hr.kept b hb i hi hkept
  rw [resultTy, resultTy, hresult]
  cases hv : k.result? i with
  | none => rfl
  | some v =>
    obtain ⟨d, hd, _⟩ := map_eq_some_iff.mp (hk.defines i v hv)
    obtain ⟨d', hd', hty, _⟩ := hr.values v d hd
    rw [hsame v hv] at hd'
    rw [bind_some, bind_some, hd, hd']
    exact hty

section

variable (hb : b ∈ k.layout) (hi : i ∈ k.instsOf b)
include hb hi

theorem instr?_kept {instr : Instr} (hkept : i ∈ τ i) (hinstr : k.instr? i = some instr) :
    k'.instr? i = some (instr.mapOperands ρ) := by
  rw [(hr.kept b hb i hi hkept).1, hinstr]
  rfl

theorem isPhi_eq (hkept : i ∈ τ i) : k'.isPhi i = k.isPhi i := by
  rw [isPhi, isPhi, (hr.kept b hb i hi hkept).1]
  cases k.instr? i with
  | none => rfl
  | some instr => cases instr <;> rfl

/-- What stands in the place of an instruction that is no phi is no phi. -/
theorem isPhi_of_mem (hphi : k.isPhi i = false) (hj : j ∈ τ i) : k'.isPhi j = false := by
  by_cases heq : j = i
  · subst heq
    rw [hr.isPhi_eq hb hi hj, hphi]
  · obtain ⟨_, instr, hinstr, hnot, _⟩ := hr.added b hb i hi j hj heq
    rw [isPhi, hinstr]
    exact hnot

theorem replaced_of_isPhi (hphi : k.isPhi i = true) : τ i = [i] := by
  obtain ⟨incoming, hinstr⟩ := exists_of_isPhi hphi
  exact hr.fixed b hb i hi _ hinstr (.inl rfl)

end

theorem flatMap_phis (hb : b ∈ k.layout) {phis : List InstId} (hmem : ∀ i ∈ phis, i ∈ k.instsOf b)
    (hphis : ∀ i ∈ phis, k.isPhi i = true) : phis.flatMap τ = phis :=
  flatMap_eq_self fun i hi => hr.replaced_of_isPhi hb (hmem i hi) (hphis i hi)

/-- A block has the phis and the terminator it had, and what was recast between them. -/
theorem parts (hv : k.verify = .ok ()) (hb : b ∈ k.layout) :
    ∃ body last, k.instsOf b = k.leadingPhis b ++ (body ++ [last]) ∧
      (k.instsOf b).filter (fun i => !k.isPhi i) = body ++ [last] ∧ (∀ i ∈ body, k.GoesOn i) ∧
      (k.instr? last).any isTerminator = true ∧ τ last = [last] ∧
      k'.instsOf b = k.leadingPhis b ++ (body.flatMap τ ++ [last]) ∧ k'.leadingPhis b = k.leadingPhis b ∧
      (k'.instsOf b).filter (fun i => !k'.isPhi i) = body.flatMap τ ++ [last] := by
  obtain ⟨body, last, heq, hfilter, hphis, hbody, hgo, hlast⟩ := todo_of_verify hv hb
  have hmem : ∀ i ∈ body ++ [last], i ∈ k.instsOf b := fun i hi => heq ▸ mem_append_right _ hi
  have hτ : τ last = [last] := by
    obtain ⟨instr, hinstr, hyes⟩ := (any_eq_true _ _).mp hlast
    exact hr.fixed b hb last (hmem last (by simp)) instr hinstr (.inr hyes)
  have hphisMem : ∀ i ∈ k.leadingPhis b, i ∈ k.instsOf b := fun i hi => heq ▸ mem_append_left _ hi
  have hinsts : k'.instsOf b = k.leadingPhis b ++ (body.flatMap τ ++ [last]) := by
    rw [hr.insts b hb]
    conv => lhs; rw [heq]
    rw [flatMap_append, flatMap_append, hr.flatMap_phis hb hphisMem hphis, flatMap_singleton, hτ]
  refine ⟨body, last, heq, hfilter, hgo, hlast, hτ, hinsts, phis_and_rest hinsts (fun i hi => ?_) fun i hi => ?_⟩
  · have hi' := hphisMem i hi
    rw [hr.isPhi_eq hb hi' (mem_of_eq_singleton (hr.replaced_of_isPhi hb hi' (hphis i hi)))]
    exact hphis i hi
  · rcases mem_append.mp hi with hi | hi
    · obtain ⟨j, hj, hi⟩ := mem_flatMap.mp hi
      exact hr.isPhi_of_mem hb (hmem j (mem_append_left _ hj)) (hbody j hj) hi
    · obtain rfl := mem_singleton.mp hi
      exact hr.isPhi_of_mem hb (hmem i (by simp)) (isPhi_of_isTerminator hlast) (by rw [hτ]; exact hi)

end Recast

/-! ## Verified kernels -/

namespace Recast

variable {τ : InstId → List InstId} (hr : Recast k k' ρ τ) (hv : k.verify = .ok ())

include hr

/-- Terminators stay terminators. -/
theorem terminates (hb : b ∈ k.layout) (hi : i ∈ k.instsOf b) (hlast : (k.instr? i).any isTerminator = true) :
    ∃ instr, k.instr? i = some instr ∧ instr.isTerminator = true ∧ k'.instr? i = some (instr.mapOperands ρ) := by
  obtain ⟨instr, hinstr, hyes⟩ := (any_eq_true _ _).mp hlast
  have hkept := mem_of_eq_singleton (hr.fixed b hb i hi instr hinstr (.inr hyes))
  exact ⟨instr, hinstr, hyes, hr.instr?_kept hb hi hkept hinstr⟩

include hv

theorem successors_eq (hb : b ∈ k.layout) : k'.successors b = k.successors b := by
  obtain ⟨body, last, heq, _, _, hlast, _, heq', _⟩ := hr.parts hv hb
  obtain ⟨instr, hinstr, hyes, hinstr'⟩ := hr.terminates hb (by rw [heq]; simp) hlast
  rw [← append_assoc] at heq heq'
  have hterm := terminator?_of_last heq hlast
  have hterm' := terminator?_of_last heq' (by rw [hinstr']; exact (isTerminator_mapOperands ρ instr).trans hyes)
  rw [successors, successors, terminatorInstr?, terminatorInstr?, hterm, hterm', bind_some, bind_some,
    hinstr, hinstr', map_some, map_some, successors_mapOperands]

theorem flow_eq (entry : BlockId) : k'.flow entry = k.flow entry :=
  flow_congr entry hr.layout fun _ => hr.successors_eq hv

theorem shape (hb : b ∈ k.layout) : k'.verifyShape b = .ok () := by
  obtain ⟨body, last, heq, _, hgo, hlast, _, heq', hphis, hrest⟩ := hr.parts hv hb
  obtain ⟨instr, _, hyes, hinstr'⟩ := hr.terminates hb (by rw [heq]; simp) hlast
  obtain ⟨_, _, _, _, _, _, _, _, hsuccs⟩ := shape_of_verify hv hb
  have hisPhi : ∀ i ∈ k.leadingPhis b, k'.isPhi i = true := fun i hi => mem_takeWhile_imp (hphis ▸ hi)
  have hnot : ∀ i ∈ body.flatMap τ, k'.isPhi i = false := by
    intro i hi
    have hmem : i ∈ (k'.instsOf b).filter fun i => !k'.isPhi i := hrest ▸ mem_append_left _ hi
    simpa using (mem_filter.mp hmem).2
  refine verifyShape_eq_ok.mpr ⟨k.leadingPhis b, body.flatMap τ, last, by rw [heq', append_assoc], hisPhi, hnot,
    fun i hi => ?_, ?_, fun s hs => ?_⟩
  · rcases mem_append.mp hi with hi | hi
    · exact goesOn_of_isPhi (hisPhi i hi)
    · unfold GoesOn
      obtain ⟨j, hj, hij⟩ := mem_flatMap.mp hi
      have hjb : j ∈ k.instsOf b := by rw [heq]; simp [hj]
      by_cases hne : i = j
      · subst hne
        have := hgo i hj
        rw [GoesOn] at this
        rw [(hr.kept b hb i hjb hij).1, Option.any_map]
        simpa using this
      · obtain ⟨_, instr, hinstr, _, hterm⟩ := hr.added b hb j hjb i hij hne
        rw [hinstr]
        exact hterm
  · rw [hinstr']
    exact (isTerminator_mapOperands ρ instr).trans hyes
  · rw [hr.layout]
    exact hsuccs s (hr.successors_eq hv hb ▸ hs)

/-- **A recast kernel is verified** if it is sound. -/
theorem verified {entry : BlockId} (hentry : k.entry? = some entry) (hs : k'.Sound (k.flow entry)) :
    k'.verify = .ok () := by
  have hflow := hr.flow_eq hv entry
  have hentry' : k'.entry? = some entry := by
    unfold entry? at hentry ⊢
    rw [hr.layout, hentry]
  have hlayout : ∀ {b}, (k.flow entry).Reached b → b ∈ k.layout := fun hb => hr.layout ▸ hs.reach _ hb
  refine verify_of_sound hentry' (by rw [hflow]; exact hs) (fun b hb => hr.shape hv (hr.layout ▸ hb)) ?_
  rw [hflow]
  intro b hb j hj incoming hinstr
  -- a phi is none of the new instructions
  rw [hr.insts b (hlayout hb)] at hj
  obtain ⟨i, hi, hij⟩ := mem_flatMap.mp hj
  have heq : j = i := by
    by_contra hne
    obtain ⟨_, instr, hinstr', hphi, _⟩ := hr.added b (hlayout hb) i hi j hij hne
    obtain rfl := Option.mem_unique hinstr hinstr'
    exact absurd hphi (by simp [Instr.isPhi])
  subst heq
  have hold := (hr.kept b (hlayout hb) j hi hij).1
  rw [hinstr] at hold
  obtain ⟨instr, hinstr', hmap⟩ := map_eq_some_iff.mp hold.symm
  cases instr with
  | phi inputs =>
    cases hmap
    obtain ⟨hone, hknown⟩ := phisMatch_of_verify hentry hv b hb j hi inputs hinstr'
    refine ⟨fun p hp hpb => ?_, fun x hx => ?_⟩
    · rw [countP_map]
      exact hone p hp hpb
    · obtain ⟨y, hy, rfl⟩ := mem_map.mp hx
      exact hknown y hy
  | _ => exact absurd hmap (by simp [mapOperands])

end Recast

/-! ## Recasting again -/

namespace Recast

variable {ρ' : ValueId → ValueId} {τ τ' : InstId → List InstId}

section

variable (hr : Recast k k' ρ τ) (hb : b ∈ k.layout) (hi : i ∈ k.instsOf b)
include hr hb hi

theorem mem_instsOf (hj : j ∈ τ i) : j ∈ k'.instsOf b := by
  rw [hr.insts b hb]
  exact mem_flatMap.mpr ⟨i, hi, hj⟩

theorem plain (hkept : i ∈ τ i) (h : k.Plain i) : k'.Plain i := by
  intro instr hinstr
  rw [(hr.kept b hb i hi hkept).1] at hinstr
  obtain ⟨instr0, hinstr0, rfl⟩ := map_eq_some_iff.mp hinstr
  rw [isPhi_mapOperands, isTerminator_mapOperands]
  exact h hinstr0

end

/-- A recast kernel can be recast again. -/
theorem trans (hk : k.Coherent) (h : Recast k k1 ρ τ) (h' : Recast k1 k' ρ' τ') :
    Recast k k' (ρ' ∘ ρ) fun i => (τ i).flatMap τ' := by
  have hlayout : ∀ {b}, b ∈ k.layout → b ∈ k1.layout := fun hb => h.layout ▸ hb
  -- an instruction of the first kernel is not made anew
  have hold : ∀ {b i j}, b ∈ k.layout → i ∈ k.instsOf b → j ∈ τ i → i ∈ τ' j → j = i := by
    intro b i j hb hi hj hij
    by_contra hne
    have hnew := (h'.added b (hlayout hb) j (h.mem_instsOf hb hi hj) i hij (Ne.symm hne)).1
    have := h.arena i (hk.made b i hi)
    rw [hnew] at this
    cases this
  refine ⟨h'.layout.trans h.layout, h'.params.trans h.params, fun b hb => h'.blocks b (hlayout hb), fun b hb => ?_,
    fun b hb i hi instr hinstr hkind => ?_, fun b hb i hi hmem => ?_, fun b hb i hi j hmem hne => ?_,
    fun i hi => h'.arena i (h.arena i hi), fun v d hd => ?_, fun v v' hv hv' heq => ?_,
    Nat.le_trans h.values_size h'.values_size⟩
  · rw [h'.insts b (hlayout hb), h.insts b hb, flatMap_assoc]
  · have hτ := h.fixed b hb i hi instr hinstr hkind
    have hmem := mem_of_eq_singleton hτ
    rw [hτ, flatMap_singleton]
    refine h'.fixed b (hlayout hb) i (h.mem_instsOf hb hi hmem) _ (h.instr?_kept hb hi hmem hinstr) ?_
    rw [isPhi_mapOperands, isTerminator_mapOperands]
    exact hkind
  · obtain ⟨j, hj, hij⟩ := mem_flatMap.mp hmem
    obtain rfl := hold hb hi hj hij
    obtain ⟨hinstr, hresult, hname⟩ := h.kept b hb j hi hj
    obtain ⟨hinstr', hresult', hname'⟩ := h'.kept b (hlayout hb) j (h.mem_instsOf hb hi hj) hij
    refine ⟨?_, hresult'.trans hresult, fun v hv => ?_⟩
    · rw [hinstr', hinstr, Option.map_map]
      refine congrArg (fun f => Option.map f (k.instr? j)) (funext fun instr => ?_)
      exact mapOperands_mapOperands ρ' ρ instr
    · show ρ' (ρ v) = v
      rw [hname v hv, hname' v (hresult.trans hv)]
  · obtain ⟨l, hl, hjl⟩ := mem_flatMap.mp hmem
    by_cases heq : j = l
    · subst heq
      obtain ⟨hfresh, instr, hinstr, hphi, hterm⟩ := h.added b hb i hi j hl hne
      obtain ⟨hinstr', _⟩ := h'.kept b (hlayout hb) j (h.mem_instsOf hb hi hl) hjl
      rw [hinstr] at hinstr'
      exact ⟨hfresh, _, hinstr', by rw [isPhi_mapOperands, hphi], by rw [isTerminator_mapOperands, hterm]⟩
    · obtain ⟨hfresh, hnew⟩ := h'.added b (hlayout hb) l (h.mem_instsOf hb hi hl) j hjl heq
      refine ⟨?_, hnew⟩
      cases hj : k.inst? j with
      | none => rfl
      | some d =>
        have := h.arena j (by rw [hj]; rfl)
        rw [hfresh] at this
        cases this
  · obtain ⟨d1, hd1, hty1, hkind1⟩ := h.values v d hd
    obtain ⟨d', hd', hty', hkind'⟩ := h'.values _ d1 hd1
    refine ⟨d', hd', hty'.trans hty1, ?_⟩
    rcases hkind1 with hkind1 | ⟨hi, j, hj⟩
    · rw [← hkind1]
      exact hkind'
    · refine .inr ⟨hi, ?_⟩
      rcases hkind' with hkind' | ⟨_, hj'⟩
      · exact ⟨j, hkind'.trans hj⟩
      · exact hj'
  · have hsome : ∀ {v}, (k.value? v).isSome = true → (k1.value? (ρ v)).isSome = true := by
      intro v hv
      obtain ⟨d, hd⟩ := isSome_iff_exists.mp hv
      obtain ⟨d1, hd1, _⟩ := h.values v d hd
      rw [hd1]
      rfl
    exact h.injective v v' hv hv' (h'.injective _ _ (hsome hv) (hsome hv') heq)

end Recast

/-! ## Edits -/

section

variable {pre post : List InstId} {instr : Instr} {ty : Ty} {d : InstDef} {old : ValueId}

theorem map_mapOperands_id (o : Option Instr) : o.map (·.mapOperands id) = o := by
  cases o with
  | none => rfl
  | some instr => exact congrArg some (mapOperands_id fun _ _ => rfl)

theorem Recast.refl (hk : k.Coherent) : Recast k k id fun i => [i] :=
  ⟨rfl, rfl, hk.blocks, fun _ _ => (flatMap_eq_self fun _ _ => rfl).symm, fun _ _ _ _ _ _ _ => rfl,
    fun _ _ _ _ _ => ⟨(map_mapOperands_id _).symm, rfl, fun _ _ => rfl⟩,
    fun _ _ _ _ _ hj hne => absurd (mem_singleton.mp hj) hne, fun _ h => h, fun _ d hd => ⟨d, hd, rfl, .inl rfl⟩,
    fun _ _ _ _ h => h, Nat.le_refl _⟩

/-- A new value that no instruction defines. -/
theorem Recast.addValue (k : Kernel) (hk : k.Coherent) (kind : ValueKind) (ty : Ty) :
    Recast k (k.addValue kind ty).1 id fun i => [i] where
  layout := rfl
  params := rfl
  blocks := hk.blocks
  insts b _ := (flatMap_eq_self fun _ _ => rfl).symm
  fixed _ _ _ _ _ _ _ := rfl
  kept b _ i _ _ := ⟨(map_mapOperands_id _).symm, rfl, fun _ _ => rfl⟩
  added _ _ i _ j hj hne := absurd (mem_singleton.mp hj) hne
  arena _ h := h
  values v d hd := by
    refine ⟨d, ?_, rfl, .inl rfl⟩
    show (k.addValue kind ty).1.value? v = some d
    rw [value?_addValue, if_neg, hd]
    rintro rfl
    rw [value?_nextId] at hd
    cases hd
  injective _ _ _ _ h := h
  values_size := by
    show k.values.size ≤ (k.values.alloc ⟨kind, ty⟩).1.size
    rw [Arena.size_alloc]
    exact Nat.le_succ _

/-- What is replaced in one place of one block. -/
theorem flatMap_at (hk : k.Coherent) (hsplit : k.instsOf b = pre ++ i :: post) (chunk : List InstId) (c : BlockId) :
    (k.instsOf c).flatMap (fun l => if l = i then chunk else [l]) =
      if c = b then pre ++ (chunk ++ post) else k.instsOf c := by
  have hother : ∀ {l : List InstId}, i ∉ l → l.flatMap (fun l => if l = i then chunk else [l]) = l := fun hnot =>
    flatMap_eq_self fun x hx => if_neg fun heq : x = i => hnot (heq ▸ hx)
  have hi : i ∈ k.instsOf b := by rw [hsplit]; simp
  split
  next hc =>
    have hnodup := hk.nodup b
    rw [hsplit, nodup_middle, nodup_cons, mem_append, not_or] at hnodup
    rw [hc, hsplit, flatMap_append, flatMap_cons, if_pos rfl, hother hnodup.1.1, hother hnodup.1.2]
  next hc =>
    exact hother fun hmem => hc (hk.once c b i hmem hi)

theorem filter_ne_middle (hnodup : (pre ++ i :: post).Nodup) : (pre ++ i :: post).filter (· ≠ i) = pre ++ post := by
  rw [nodup_middle, nodup_cons, mem_append, not_or] at hnodup
  have hkeep : ∀ {l : List InstId}, i ∉ l → l.filter (· ≠ i) = l := fun hnot =>
    filter_eq_self.mpr fun x hx => by simpa using fun heq : x = i => hnot (heq ▸ hx)
  rw [filter_append, filter_cons_of_neg (by simp), hkeep hnodup.1.1, hkeep hnodup.1.2]

/-- A new instruction in front of another. -/
theorem Recast.inserted (h : Inserted k b pre (i :: post) instr ty k' j) (hk : k.Coherent) (hphi : instr.isPhi = false)
    (hterm : instr.isTerminator = false) (hplain : k.Plain i) :
    Recast k k' id fun l => if l = i then [j, i] else [l] := by
  refine ⟨h.layout, h.params, fun c hc => block?_isSome_of_size h.blocks_size (hk.blocks c hc), fun c _ => ?_,
    fun c _ l _ instr' hinstr' hkind => if_neg (hplain.ne hinstr' hkind), fun c _ l hl _ => ?_,
    fun c _ l _ l' hl' hne => ?_, fun l hl => ?_, fun v d hd => ⟨d, h.value?_of_some hd, rfl, .inl rfl⟩,
    fun _ _ _ _ heq => heq, h.values_size⟩
  · rw [flatMap_at hk h.before]
    split
    next hc =>
      rw [hc, h.after]
      rfl
    next hc =>
      exact h.instsOf_ne c hc
  · refine ⟨?_, ?_, fun _ _ => rfl⟩
    · rw [h.instr?_eq hk hl, map_mapOperands_id]
    · rw [result?, h.inst?_eq hk hl]
      rfl
  · have hl' : l' = j := by
      split at hl'
      next heq =>
        subst heq
        simpa [hne] using hl'
      · exact absurd (mem_singleton.mp hl') hne
    subst hl'
    exact ⟨h.id ▸ inst?_nextId k, instr, h.instr?_new, hphi, hterm⟩
  · obtain ⟨d, hd⟩ := isSome_iff_exists.mp hl
    rw [(h.inst?_of_some hd).1]
    rfl

/-- An instruction that was removed. -/
theorem Recast.removed (h : Removed k i d k') (hk : k.Coherent) (hsplit : k.instsOf d.block = pre ++ i :: post)
    (hplain : k.Plain i) : Recast k k' id fun l => if l = i then [] else [l] := by
  have hne : ∀ {l}, l ∈ (if l = i then [] else [l]) → l ≠ i := by
    rintro l hl rfl
    rw [if_pos rfl] at hl
    exact absurd hl not_mem_nil
  refine ⟨h.layout, h.params, fun c hc => block?_isSome_of_size h.blocks_size (hk.blocks c hc), fun c _ => ?_,
    fun c _ l _ instr' hinstr' hkind => if_neg (hplain.ne hinstr' hkind), fun c _ l _ hl => ?_,
    fun c _ l _ l' hl' hne' => ?_, fun l hl => ?_, fun v d hd => ⟨d, (h.value? v).trans hd, rfl, .inl rfl⟩,
    fun _ _ _ _ heq => heq, by rw [h.values]⟩
  · rw [flatMap_at hk hsplit]
    split
    next hc =>
      rw [hc, h.instsOf_home, hsplit, filter_ne_middle (hsplit ▸ hk.nodup d.block)]
      rfl
    next hc =>
      exact h.instsOf_ne c hc
  · refine ⟨?_, h.result? l, fun _ _ => rfl⟩
    rw [instr?, h.inst_ne l (hne hl)]
    exact (map_mapOperands_id _).symm
  · split at hl'
    · exact absurd hl' not_mem_nil
    · exact absurd (mem_singleton.mp hl') hne'
  · by_cases hli : l = i
    · rw [hli, h.inst_removed]
      rfl
    · rw [h.inst_ne l hli]
      exact hl

/-- An instruction whose place another one takes: the new one stands in front of it, what it defines is read instead,
and the old one is removed. -/
theorem Recast.replaced (h : Inserted k b pre (i :: post) instr ty k1 j) (hk : k.Coherent) (hb : b ∈ k.layout)
    (hphi : instr.isPhi = false) (hterm : instr.isTerminator = false) (hplain : k.Plain i) (hvoid : ty.isVoid = false)
    (hresult : k.result? i = some old) (hold : ∀ d, k.value? old = some d → d.ty = ty)
    (h' : Removed (k1.replaceUses old k.values.nextId) i d k') (hblock : d.block = b) :
    Recast k k' (fun v => if v = old then k.values.nextId else v) fun l => if l = i then [j] else [l] := by
  have hfresh : k.inst? j = none := h.id ▸ inst?_nextId k
  have hi : i ∈ k.instsOf b := by rw [h.before]; simp
  obtain ⟨insts, hsize, heq⟩ := replaceUses_eq k1 old k.values.nextId
  have hlinked : ∀ {c l}, c ∈ k.layout → l ∈ k.instsOf c → c ∈ k1.layout ∧ l ∈ k1.instsOf c := fun hc hl =>
    ⟨h.layout ▸ hc, h.mem_instsOf_iff.mpr (.inl hl)⟩
  have hinst : ∀ {c l}, c ∈ k.layout → l ∈ k.instsOf c → l ≠ i →
      k'.instr? l = (k.instr? l).map (·.replaceOperand old k.values.nextId) ∧ k'.result? l = k.result? l := by
    intro c l hc hl hli
    obtain ⟨hc1, hl1⟩ := hlinked hc hl
    constructor
    · rw [instr?, h'.inst_ne l hli, ← instr?, instr?_replaceUses hc1 hl1, h.instr?_eq hk hl]
    · rw [h'.result?, result?_replaceUses, result?, result?, h.inst?_eq hk hl]
  have hvalue : ∀ v, k'.value? v = k1.value? v := fun v => (h'.value? v).trans (value?_replaceUses _ _ _ _)
  refine ⟨?_, ?_, fun c hc => ?_, fun c _ => ?_,
    fun c _ l _ instr' hinstr' hkind => if_neg (hplain.ne hinstr' hkind), fun c hc l hl hmem => ?_,
    fun c _ l _ l' hl' hne => ?_, fun l hl => ?_, fun v d' hd' => ?_, fun v v' hv hv' hsame => ?_, ?_⟩
  · rw [h'.layout, layout_replaceUses, h.layout]
  · rw [h'.params, heq]
    exact h.params
  · refine block?_isSome_of_size ?_ (hk.blocks c hc)
    rw [h'.blocks_size, heq]
    exact h.blocks_size
  · rw [flatMap_at hk h.before]
    split
    next hc =>
      have hafter : k1.instsOf b = (pre ++ [j]) ++ i :: post := by rw [h.after]; simp
      rw [hc, ← hblock, h'.instsOf_home, instsOf_replaceUses, hblock, hafter,
        filter_ne_middle (hafter ▸ (hk.inserted hb h).nodup b), append_assoc]
    next hc =>
      rw [h'.instsOf_ne c (by rw [hblock]; exact hc), instsOf_replaceUses, h.instsOf_ne c hc]
  · have hli : l ≠ i := by
      rintro rfl
      rw [if_pos rfl] at hmem
      have hmade := hk.made c l hl
      rw [mem_singleton.mp hmem, hfresh] at hmade
      cases hmade
    refine ⟨(hinst hc hl hli).1, (hinst hc hl hli).2, fun v hv => if_neg ?_⟩
    rintro rfl
    exact hli (hk.result_inj hv hresult)
  · have hl' : l' = j := by
      split at hl'
      · exact mem_singleton.mp hl'
      · exact absurd (mem_singleton.mp hl') hne
    subst hl'
    have hne : l' ≠ i := by
      rintro rfl
      have hmade := hk.made b l' hi
      rw [hfresh] at hmade
      cases hmade
    have hmem : l' ∈ k1.instsOf b := h.mem_instsOf_iff.mpr (.inr ⟨rfl, rfl⟩)
    refine ⟨hfresh, instr.replaceOperand old k.values.nextId, ?_, ?_, ?_⟩
    · rw [instr?, h'.inst_ne l' hne, ← instr?, instr?_replaceUses (h.layout ▸ hb) hmem, h.instr?_new]
      rfl
    · rw [← hphi]
      exact isPhi_mapOperands _ _
    · rw [← hterm]
      exact isTerminator_mapOperands _ _
  · obtain ⟨e, he⟩ := isSome_iff_exists.mp hl
    by_cases hli : l = i
    · rw [hli, h'.inst_removed]
      rfl
    · rw [h'.inst_ne l hli, inst?_replaceUses, (h.inst?_of_some he).1]
      rfl
  · by_cases hv : v = old
    · subst hv
      have hkind : d'.kind = .inst i := by
        have := hk.defines i v hresult
        rw [hd'] at this
        exact Option.some.inj this
      refine ⟨⟨.inst j, ty⟩, ?_, (hold d' hd').symm, .inr ⟨⟨i, hkind⟩, j, rfl⟩⟩
      rw [if_pos rfl, hvalue]
      exact h.value_new hvoid
    · refine ⟨d', ?_, rfl, .inl rfl⟩
      rw [if_neg hv, hvalue]
      exact h.value?_of_some hd'
  · have hne : ∀ {u}, (k.value? u).isSome = true → u ≠ k.values.nextId := by
      rintro u hu rfl
      rw [value?_nextId] at hu
      cases hu
    split at hsame
    next hvold =>
      split at hsame
      next hvold' =>
        exact hvold.trans hvold'.symm
      · exact absurd hsame.symm (hne hv')
    · split at hsame
      · exact absurd hsame (hne hv)
      · exact hsame
  · rw [h'.values, heq]
    exact h.values_size

/-- A kernel stays sound when an instruction takes the place of another whose result has the same type. -/
theorem Sound.replaced {φ : Flow} (hs : k.Sound φ) (hb : b ∈ k.layout) (h : Inserted k b pre (i :: post) instr ty k1 j)
    (hallows : k.Allows φ b pre instr ty) (hvoid : ty.isVoid = false) (hresult : k.result? i = some old)
    (hold : ∀ d, k.value? old = some d → d.ty = ty) (h' : Removed (k1.replaceUses old k.values.nextId) i d k') :
    k'.Sound φ := by
  have hs1 : k1.Sound φ := hs.inserted hb h hallows
  have hk := hs.coherent
  have hne : old ≠ k.values.nextId := by
    rintro rfl
    have := hk.defines i _ hresult
    rw [value?_nextId] at this
    cases this
  have hi : i ∈ k.instsOf b := by rw [h.before]; simp
  obtain ⟨e, he, halive, hblock⟩ := hs.linked b hb i hi
  -- the new value is ready wherever the old one was
  have hnew : ∀ {c p}, (i ∈ p → j ∈ p) → k1.Ready φ c p old → k1.Ready φ c p k.values.nextId := by
    rintro c p hsub ⟨dv, hdv, hplace⟩
    refine ⟨⟨.inst j, ty⟩, h.value_new hvoid, fun l hl => ?_⟩
    cases hl
    refine ⟨_, h.inst_new, rfl, ?_⟩
    have hkind : dv.kind = .inst i := by
      have hdefines := hs1.coherent.defines i old (by rw [result?, (h.inst?_of_some he).1, ← he]; exact hresult)
      rw [hdv] at hdefines
      exact Option.some.inj hdefines
    obtain ⟨e', he', _, hplace⟩ := hplace i hkind
    cases (h.inst?_of_some he).1.symm.trans he'
    rw [hblock] at hplace
    exact hplace.imp (And.imp_right hsub) id
  have hbehind : ∀ {c p q}, k1.instsOf c = p ++ q → i ∈ p → j ∈ p := by
    intro c p q hsplit hmem
    obtain rfl : c = b := hs1.coherent.once c b i (by rw [hsplit]; exact mem_append_left _ hmem)
      (h.mem_instsOf_iff.mpr (.inl hi))
    obtain ⟨p1, p2, rfl⟩ := append_of_mem hmem
    have hplace : k1.instsOf c = (pre ++ [j]) ++ i :: post := by rw [h.after]; simp
    have hplace' : k1.instsOf c = p1 ++ i :: (p2 ++ q) := by rw [hsplit]; simp
    obtain ⟨hp, _⟩ := Place.unique (hs1.coherent.nodup c) hplace hplace'
    rw [← hp]
    simp
  have hs2 : (k1.replaceUses old k.values.nextId).Sound φ := by
    refine hs1.replaceUses (fun t ht => ?_) (fun c hc p l q hsplit instr' hinstr' hphi' hmem => ?_) fun p hp hr => ?_
    · obtain ⟨dv, hdv, rfl, _⟩ := ht
      have hdv' : k.value? old = some dv := by rwa [h.value_old old hne] at hdv
      rw [hold dv hdv']
      refine ⟨⟨.inst j, ty⟩, h.value_new hvoid, rfl, fun l hl => ?_⟩
      cases hl
      rw [h.inst_new]
      rfl
    · exact hnew (hbehind hsplit) (hs1.ordered c hc p l q hsplit instr' hinstr' hphi' old hmem)
    · exact hnew (hbehind (append_nil _).symm) hr
  refine hs2.removed h' fun v hv c hc l hl _ instr' hinstr' hmem => ?_
  obtain rfl : v = old := by
    have := result?_replaceUses k1 old k.values.nextId i
    rw [result?, h'.inst_before, bind_some, hv, result?, (h.inst?_of_some he).1, ← he] at this
    exact Option.some.inj (this.trans hresult)
  -- nothing reads the old value any more
  rw [layout_replaceUses] at hc
  rw [instsOf_replaceUses] at hl
  rw [instr?_replaceUses hc hl] at hinstr'
  obtain ⟨instr0, _, rfl⟩ := map_eq_some_iff.mp hinstr'
  rcases mem_operands_replaceOperand hmem with ⟨_, hne'⟩ | ⟨heq, _⟩
  · exact hne' rfl
  · exact hne heq

end

end Spmd.Kernel
