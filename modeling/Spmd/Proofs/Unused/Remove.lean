import Spmd.Unused
import Spmd.Proofs.Kernel.SoundEdit

/-!
# What is removed

An instruction is idle if it can go and no other reads its result (**`Kernel.Idle`**). Removing one leaves a verified
kernel verified (`Idle.verify_removed`) and the others idle (`Idle.removed`), so a list of them can go one after another.

* **`unused_eq_ok`** — what is found unused is what is idle.
* **`exists_removeUnused`** — removing comes to an end: what is left has no idle instruction, and differs by single
  removals (`Sheds`), as many as were counted.
-/

namespace Spmd

open Success List

namespace Kernel

variable {k k' k'' : Kernel} {classify : Classifier} {b entry : BlockId} {i j : InstId} {u v : ValueId} {d : InstDef}
  {instr : Instr} {n : Nat}

/-- An instruction does nothing but define a value that no other instruction reads. -/
structure Idle (k : Kernel) (classify : Classifier) (i : InstId) (v : ValueId) : Prop where
  mem : i ∈ k.instsInOrder
  result : k.result? i = some v
  users : ∀ j ∈ k.users v, j = i
  removable : k.isRemovable classify i = .ok true

/-! ## Finding them -/

theorem mem_users : j ∈ k.users v ↔ j ∈ k.instsInOrder ∧ v ∈ k.operandsOf j := by
  rw [users_eq, mem_filter, contains_iff_mem]

theorem mem_operandsOf (hinstr : k.instr? i = some instr) : v ∈ k.operandsOf i ↔ v ∈ instr.operands := by
  rw [operandsOf, hinstr]
  rfl

/-- A value is read elsewhere if an instruction other than the one that defines it uses it. -/
theorem contains_readElsewhere (hk : k.Coherent) (hi : k.result? i = some v) :
    k.readElsewhere.contains v.index = true ↔ ∃ j ∈ k.users v, j ≠ i := by
  have hfold : ∀ (f : InstId → List Nat) (is : List InstId) (s : IndexSet),
      (is.foldl (fun s j => s.insertAll (f j)) s).contains v.index = true ↔
        s.contains v.index = true ∨ ∃ j ∈ is, v.index ∈ f j := by
    intro f is
    induction is with
    | nil => simp
    | cons j is ih =>
      intro s
      rw [foldl_cons, ih, IndexSet.contains_insertAll, Bool.or_eq_true, contains_iff_mem, exists_mem_cons_iff,
        or_assoc]
  rw [readElsewhere, hfold, IndexSet.contains_empty]
  simp only [Bool.false_eq_true, false_or, Id.mem_map_index, mem_filter, decide_eq_true_iff, mem_users]
  constructor
  · rintro ⟨j, hj, hmem, hne⟩
    exact ⟨j, ⟨hj, hmem⟩, fun heq => hne (heq ▸ hi)⟩
  · rintro ⟨j, ⟨hj, hmem⟩, hne⟩
    exact ⟨j, hj, hmem, fun heq => hne (hk.result_inj heq hi)⟩

/-- It can be told of every linked instruction what it calls. -/
theorem exists_callKind? (hv : k.verify = .ok ()) (classify : Classifier) (hi : i ∈ k.instsInOrder) :
    ∃ kind, k.callKind? classify i = .ok kind := by
  obtain ⟨b, hb, hi⟩ := mem_flatMap.mp hi
  obtain ⟨_, _, g, hg, _⟩ := verify_eq_ok.mp hv
  obtain ⟨d, hd, _⟩ := linked_of_verify hv hg hb hi
  have hinst : k.inst i = .ok d := some?_eq_ok.mpr hd
  have hvalue : ∀ v ∈ d.instr.operands, ∃ dv, k.value v = .ok dv := fun v hmem =>
    (operand_of_verify hv hb hi (by rw [instr?, hd, Option.map_some]) hmem).imp fun _ h => some?_eq_ok.mpr h.1
  rw [callKind?, callSite?, hinst, ok_bind]
  revert hvalue
  cases d.instr with
  | call callee args mask =>
    intro hvalue
    obtain ⟨consts, hconsts⟩ := @exists_mapM _ _ _ k.constInt? args fun v hv => by
      obtain ⟨dv, hdv⟩ := hvalue v (mem_append_left _ hv)
      rw [constInt?, const?, hdv, ok_bind]
      cases dv.kind with
      | const c => cases c <;> exact ⟨_, rfl⟩
      | _ => exact ⟨_, rfl⟩
    obtain ⟨tys, htys⟩ := @exists_mapM _ _ _ k.valueTy args fun v hv => by
      obtain ⟨dv, hdv⟩ := hvalue v (mem_append_left _ hv)
      exact ⟨_, by rw [valueTy, hdv]; rfl⟩
    exact ⟨_, bind_eq_ok.mpr ⟨_, bind_eq_ok.mpr ⟨consts, hconsts, bind_eq_ok.mpr ⟨tys, htys, rfl⟩⟩, rfl⟩⟩
  | _ => exact fun _ => ⟨_, rfl⟩

theorem exists_isRemovable (hv : k.verify = .ok ()) (classify : Classifier) (hi : i ∈ k.instsInOrder) :
    ∃ r, k.isRemovable classify i = .ok r := by
  obtain ⟨kind, hkind⟩ := exists_callKind? hv classify hi
  obtain ⟨b, hb, hi⟩ := mem_flatMap.mp hi
  obtain ⟨_, _, g, hg, _⟩ := verify_eq_ok.mp hv
  obtain ⟨d, hd, _⟩ := linked_of_verify hv hg hb hi
  have hinst : k.inst i = .ok d := some?_eq_ok.mpr hd
  rw [isRemovable, hinst, ok_bind]
  cases d.instr with
  | call => exact ⟨_, bind_eq_ok.mpr ⟨kind, hkind, rfl⟩⟩
  | _ => exact ⟨_, rfl⟩

open Classical in
/-- **What is found unused is what is idle.** -/
theorem unused_eq_ok (hk : k.Coherent) (hv : k.verify = .ok ()) (classify : Classifier) :
    ∃ dead, k.unused classify = .ok dead ∧ dead.Nodup ∧ ∀ i, i ∈ dead ↔ ∃ v, k.Idle classify i v := by
  have hmem : ∀ {i v}, k.Idle classify i v → i ∈ k.instsInOrder := fun h => h.mem
  refine ⟨_, filterM_of_ok (p := fun i => decide (∃ v, k.Idle classify i v)) fun i hi => ?_,
    (nodup_instsInOrder hk).filter _, fun i => ?_⟩
  · cases hresult : k.result? i with
    | none =>
      have hnot : ¬∃ v, k.Idle classify i v := fun ⟨v, h⟩ => by cases hresult.symm.trans h.result
      rw [decide_eq_false hnot]
      rfl
    | some v =>
      have hidle : (∃ v, k.Idle classify i v) ↔
          k.readElsewhere.contains v.index = false ∧ k.isRemovable classify i = .ok true := by
        rw [← Bool.not_eq_true, contains_readElsewhere hk hresult, not_exists]
        constructor
        · rintro ⟨v', h⟩
          obtain rfl := mem_unique hresult h.result
          exact ⟨fun j hj => hj.2 (h.users j hj.1), h.removable⟩
        · exact fun h => ⟨v, hi, hresult, fun j hj => by_contra fun hne => h.1 j ⟨hj, hne⟩, h.2⟩
      obtain ⟨r, hr⟩ := exists_isRemovable hv classify hi
      dsimp only
      cases hread : k.readElsewhere.contains v.index with
      | true => rw [if_pos rfl, decide_eq_false (by rw [hidle, hread]; simp)]; rfl
      | false =>
        rw [if_neg (by simp), hr]
        exact congrArg Except.ok (by rw [hr, hread] at hidle; simp [hidle])
  · rw [mem_filter, decide_eq_true_iff]
    exact ⟨And.right, fun h => ⟨hmem h.choose_spec, h⟩⟩

/-! ## Removing one -/

/-- What can go ends no block, and if it may write it is a call of a kind that does not. -/
theorem isRemovable_eq_true (hinstr : k.instr? i = some instr) (h : k.isRemovable classify i = .ok true) :
    instr.isTerminator = false ∧ (instr.mayWrite = true → ∃ callee args mask kind, instr = .call callee args mask ∧
      k.callKind? classify i = .ok (some kind) ∧ kind.isRemovable = true) := by
  obtain ⟨d, hd, rfl⟩ := map_eq_some_iff.mp hinstr
  have hinst : k.inst i = .ok d := some?_eq_ok.mpr hd
  rw [isRemovable, hinst, ok_bind] at h
  revert h
  cases d.instr with
  | call callee args mask =>
    intro h
    obtain ⟨kind?, hkind, h⟩ := bind_eq_ok.mp h
    obtain ⟨kind, rfl, hyes⟩ := (Option.any_eq_true _ _).mp (pure_eq_ok.mp h)
    exact ⟨rfl, fun _ => ⟨callee, args, mask, kind, rfl, hkind, hyes⟩⟩
  | br | condBr | switch | ret | unreachable | store | strideStore | scatter =>
    exact fun h => absurd (pure_eq_ok.mp h) (by simp [Instr.isTerminator, Instr.mayWrite])
  | _ => exact fun _ => ⟨rfl, fun h => absurd h (by simp [Instr.mayWrite])⟩

namespace Removed

section

variable (h : Removed k i d k')
include h

theorem instr?_ne (hj : j ≠ i) : k'.instr? j = k.instr? j := by
  rw [instr?, instr?, h.inst_ne j hj]

theorem isPhi_ne (hj : j ≠ i) : k'.isPhi j = k.isPhi j := by rw [isPhi, isPhi, h.instr?_ne hj]

theorem inst_ne' (hj : j ≠ i) : k'.inst j = k.inst j := by
  rw [inst, inst, h.inst_ne j hj]

theorem value_eq (v : ValueId) : k'.value v = k.value v := by
  rw [value, value, h.value?]

theorem instsInOrder_eq {φ : Flow} (hs : k.Sound φ) : k'.instsInOrder = k.instsInOrder.filter (· ≠ i) := by
  rw [instsInOrder, instsInOrder, h.layout, filter_flatMap]
  exact flatMap_congr fun b hb => h.instsOf_eq hs hb

/-- A call that stays is of the kind it was. -/
theorem callKind?_eq (hj : j ≠ i) : k'.callKind? classify j = k.callKind? classify j := by
  have hconst : k'.constInt? = k.constInt? := funext fun v => by rw [constInt?, constInt?, const?, const?, h.value_eq]
  have hty : k'.valueTy = k.valueTy := funext fun v => by rw [valueTy, valueTy, h.value_eq]
  rw [callKind?, callKind?, callSite?, callSite?, h.inst_ne' hj, hconst, hty, h.resultTy]

theorem isRemovable_eq (hj : j ≠ i) : k'.isRemovable classify j = k.isRemovable classify j := by
  rw [isRemovable, isRemovable, h.inst_ne' hj, h.callKind?_eq hj, h.result?]

end

end Removed

namespace Idle

section

variable (hidle : k.Idle classify i v) (hk : k.Coherent) (hv : k.verify = .ok ())

include hidle

/-- An idle instruction stands in one block and can be taken out of it. -/
theorem exists_removed (hk : k.Coherent) (hv : k.verify = .ok ()) :
    ∃ d k', k.removeInst i = .ok k' ∧ Removed k i d k' := by
  obtain ⟨b, hb, hi⟩ := mem_flatMap.mp hidle.mem
  obtain ⟨_, _, g, hg, _⟩ := verify_eq_ok.mp hv
  obtain ⟨d, hd, halive, rfl, _⟩ := linked_of_verify hv hg hb hi
  obtain ⟨k', hk'⟩ := exists_removeInst hd (hk.blocks d.block hb)
  exact ⟨d, k', hk', removeInst_eq_ok hd halive hk'⟩

/-- Other instructions do not read its result. -/
theorem ne_operand (hj : j ∈ k.instsInOrder) (hne : j ≠ i) (hinstr : k.instr? j = some instr) (hu : u ∈ instr.operands) :
    u ≠ v := by
  rintro rfl
  exact hne (hidle.users j (mem_users.mpr ⟨hj, (mem_operandsOf hinstr).mpr hu⟩))

/-- What else is idle stays idle. -/
theorem removed (h : Removed k j d k') {φ : Flow} (hs : k.Sound φ) (hne : i ≠ j) : k'.Idle classify i v where
  mem := by
    rw [h.instsInOrder_eq hs]
    exact mem_filter.mpr ⟨hidle.mem, decide_eq_true hne⟩
  result := (h.result? i).trans hidle.result
  users l hl := by
    rw [mem_users, h.instsInOrder_eq hs, mem_filter, decide_eq_true_iff] at hl
    obtain ⟨⟨hl, hlj⟩, hmem⟩ := hl
    rw [operandsOf, h.instr?_ne hlj] at hmem
    exact hidle.users l (mem_users.mpr ⟨hl, hmem⟩)
  removable := (h.isRemovable_eq hne).trans hidle.removable

theorem not_isTerminator (hinstr : k.instr? i = some instr) : instr.isTerminator = false :=
  (isRemovable_eq_true hinstr hidle.removable).1

end

section

variable (hidle : k.Idle classify i v) (h : Removed k i d k') (hk : k.Coherent) (hv : k.verify = .ok ())

include hidle h hk hv

theorem sound_removed (hentry : k.entry? = some entry) : k'.Sound (k.flow entry) := by
  refine (sound_of_verify hentry hk hv).removed h fun u hu b hb j hj hne instr hinstr hmem => ?_
  have hresult : k.result? i = some u := by rw [result?, h.inst_before]; exact hu
  exact hidle.ne_operand (mem_flatMap.mpr ⟨b, hb, hj⟩) hne hinstr hmem (mem_unique hresult hidle.result)

/-- A block loses at most one instruction in front of its terminator. -/
theorem parts (hb : b ∈ k.layout) :
    ∃ body last, k.instsOf b = k.leadingPhis b ++ (body ++ [last]) ∧ (∀ j ∈ k.leadingPhis b, k.isPhi j = true) ∧
      (∀ j ∈ body, k.isPhi j = false) ∧ (∀ j ∈ body, k.GoesOn j) ∧ (k.instr? last).any Instr.isTerminator = true ∧
      last ≠ i ∧ k'.instsOf b = (k.leadingPhis b).filter (· ≠ i) ++ (body.filter (· ≠ i) ++ [last]) := by
  obtain ⟨entry, hentry⟩ := exists_entry?_of_verify hv
  obtain ⟨body, last, heq, _, hphis, hbody, hgo, hlast⟩ := todo_of_verify hv hb
  have hne : last ≠ i := by
    rintro rfl
    obtain ⟨instr, hinstr, hyes⟩ := (Option.any_eq_true _ _).mp hlast
    cases hyes.symm.trans (hidle.not_isTerminator hinstr)
  refine ⟨body, last, heq, hphis, hbody, hgo, hlast, hne, ?_⟩
  rw [h.instsOf_eq (sound_of_verify hentry hk hv) hb]
  conv => lhs; rw [heq]
  rw [filter_append, filter_append, filter_cons_of_pos (by simpa using hne), filter_nil]

theorem successors_eq (hb : b ∈ k.layout) : k'.successors b = k.successors b := by
  obtain ⟨body, last, heq, _, _, _, hlast, hne, heq'⟩ := hidle.parts h hk hv hb
  rw [← append_assoc] at heq heq'
  have hterm := terminator?_of_last heq hlast
  have hterm' := terminator?_of_last heq' (by rw [h.instr?_ne hne]; exact hlast)
  rw [successors, successors, terminatorInstr?, terminatorInstr?, hterm, hterm', Option.bind_some, Option.bind_some,
    h.instr?_ne hne]

/-- **A verified kernel stays verified** without an idle instruction. -/
theorem verify_removed : k'.verify = .ok () := by
  obtain ⟨entry, hentry⟩ := exists_entry?_of_verify hv
  have hs := sound_of_verify hentry hk hv
  have hflow : k'.flow entry = k.flow entry := flow_congr entry h.layout fun b => hidle.successors_eq h hk hv
  refine verify_of_sound (by rw [ entry?, h.layout]; exact hentry) (hflow ▸ hidle.sound_removed h hk hv hentry)
    (fun b hb => ?_) (hflow ▸ fun b hb j hj incoming hinstr => ?_)
  · rw [h.layout] at hb
    obtain ⟨body, last, heq, hphis, hbody, hgo, hlast, hne, heq'⟩ := hidle.parts h hk hv hb
    obtain ⟨_, _, _, _, _, _, _, _, hsuccs⟩ := shape_of_verify hv hb
    have hkept : ∀ {js : List InstId} {j}, j ∈ js.filter (· ≠ i) → j ∈ js ∧ j ≠ i := fun hj =>
      ⟨(mem_filter.mp hj).1, of_decide_eq_true (mem_filter.mp hj).2⟩
    refine verifyShape_eq_ok.mpr ⟨_, _, last, heq'.trans (append_assoc ..).symm, fun j hj => ?_, fun j hj => ?_,
      fun j hj => ?_, by rw [h.instr?_ne hne]; exact hlast, fun s hs => ?_⟩
    · rw [h.isPhi_ne (hkept hj).2]
      exact hphis j (hkept hj).1
    · rw [h.isPhi_ne (hkept hj).2]
      exact hbody j (hkept hj).1
    · rw [← filter_append] at hj
      rw [GoesOn, h.instr?_ne (hkept hj).2]
      rcases mem_append.mp (hkept hj).1 with hj | hj
      · exact goesOn_of_isPhi (hphis j hj)
      · exact hgo j hj
    · rw [h.layout]
      exact hsuccs s (hidle.successors_eq h hk hv hb ▸ hs)
  · obtain ⟨hj, hne⟩ := (h.mem_instsOf_iff hs (hs.reach b hb)).mp hj
    exact phisMatch_of_verify hentry hv b hb j hj incoming ((h.instr?_ne hne).symm.trans hinstr)

theorem liveCount_removed : k'.liveCount + 1 = k.liveCount := by
  obtain ⟨entry, hentry⟩ := exists_entry?_of_verify hv
  have herase : k.instsInOrder.filter (· ≠ i) = k.instsInOrder.erase i := by
    rw [(nodup_instsInOrder hk).erase_eq_filter]
    exact filter_congr fun j _ => Bool.eq_iff_iff.mpr (by simp)
  rw [← length_instsInOrder, ← length_instsInOrder, h.instsInOrder_eq (sound_of_verify hentry hk hv), herase,
    length_erase_of_mem hidle.mem]
  have := length_pos_of_mem hidle.mem
  omega

end

end Idle

/-! ## Removing all -/

/-- `k'` is what is left of `k` when `n` instructions were removed, one after another, each of them idle. -/
inductive Sheds (classify : Classifier) : Nat → Kernel → Kernel → Prop where
  | refl (k : Kernel) : Sheds classify 0 k k
  | step {n : Nat} {k k1 k' : Kernel} {i : InstId} {v : ValueId} {d : InstDef} (hidle : k.Idle classify i v)
      (h : Removed k i d k1) (hrest : Sheds classify n k1 k') : Sheds classify (n + 1) k k'

namespace Sheds

theorem trans {n' : Nat} (h : Sheds classify n k k') (h' : Sheds classify n' k' k'') : Sheds classify (n' + n) k k'' := by
  induction h with
  | refl => exact h'
  | step hidle hremoved _ ih => exact .step hidle hremoved (ih h')

/-- **Removing idle instructions** leaves a verified kernel and as many fewer instructions. -/
theorem verify (h : Sheds classify n k k') (hk : k.Coherent) (hv : k.verify = .ok ()) :
    k'.Coherent ∧ k'.verify = .ok () ∧ k'.liveCount + n = k.liveCount := by
  induction h with
  | refl => exact ⟨hk, hv, rfl⟩
  | step hidle hremoved _ ih =>
    obtain ⟨hk', hv', hcount⟩ := ih (hk.removed hremoved) (hidle.verify_removed hremoved hk hv)
    have := hidle.liveCount_removed hremoved hk hv
    exact ⟨hk', hv', by omega⟩

end Sheds

/-- Idle instructions can be removed one after another. -/
theorem sheds_foldlM {dead : List InstId} (hk : k.Coherent) (hv : k.verify = .ok ()) (hnodup : dead.Nodup)
    (hdead : ∀ i ∈ dead, ∃ v, k.Idle classify i v) :
    ∃ k', dead.foldlM removeInst k = .ok k' ∧ Sheds classify dead.length k k' := by
  induction dead generalizing k with
  | nil => exact ⟨k, rfl, .refl k⟩
  | cons i dead ih =>
    obtain ⟨hnew, hnodup⟩ := nodup_cons.mp hnodup
    obtain ⟨v, hidle⟩ := hdead i (.head _)
    obtain ⟨d, k1, hk1, hremoved⟩ := hidle.exists_removed hk hv
    obtain ⟨entry, hentry⟩ := exists_entry?_of_verify hv
    obtain ⟨k', hk', hsheds⟩ := ih (hk.removed hremoved) (hidle.verify_removed hremoved hk hv) hnodup fun j hj => by
      obtain ⟨u, hu⟩ := hdead j (.tail _ hj)
      exact ⟨u, hu.removed hremoved (sound_of_verify hentry hk hv) fun heq => hnew (heq ▸ hj)⟩
    exact ⟨k', by rw [foldlM_cons, hk1, ok_bind, hk'], .step hidle hremoved hsheds⟩

/-- **Removing what is unused comes to an end**, and leaves nothing that is idle. -/
theorem exists_removeUnused (hk : k.Coherent) (hv : k.verify = .ok ()) (classify : Classifier) :
    ∃ k' n, k.removeUnused classify = .ok (k', n) ∧ Sheds classify n k k' ∧ ∀ i v, ¬k'.Idle classify i v := by
  induction hcount : k.liveCount using Nat.strong_induction_on generalizing k with
  | _ count ih =>
    obtain ⟨dead, hunused, hnodup, hdead⟩ := unused_eq_ok hk hv classify
    rw [removeUnused, hunused, ok_bind]
    cases hempty : dead with
    | nil =>
      refine ⟨k, 0, rfl, .refl k, fun i v h => ?_⟩
      have := (hdead i).mpr ⟨v, h⟩
      rw [hempty] at this
      exact absurd this not_mem_nil
    | cons i rest =>
      obtain ⟨next, hnext, hsheds⟩ := sheds_foldlM hk hv hnodup fun i => (hdead i).mp
      rw [hempty] at hnext hsheds
      obtain ⟨hk', hv', hless⟩ := hsheds.verify hk hv
      have hlt : next.liveCount < k.liveCount := by
        rw [length_cons] at hless
        omega
      obtain ⟨k', n, hrest, hsheds', hnone⟩ := ih next.liveCount (hcount ▸ hlt) hk' hv' rfl
      refine ⟨k', n + (i :: rest).length, ?_, hsheds.trans hsheds', hnone⟩
      rw [isEmpty_cons, if_neg (by decide), hnext, ok_bind, dif_pos hlt, hrest]
      rfl

end Kernel

end Spmd
