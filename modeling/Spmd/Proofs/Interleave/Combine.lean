import Spmd.Proofs.Interleave.Merge

/-!
# Merging all groups

Groups are looked for and merged block by block until there are none left.

* **`Sound.fails_findGroup?`**, **`exists_merge`** — nothing goes wrong on the way unless a number about an access does
  not fit (`Kernel.Strained`).
* **`strideCount_lt`** — every merge leaves fewer strided accesses, so the steps suffice.
* **`combineInterleaved_spec`** — what is made comes from the kernel by merges, each of a group that was found
  (`Combines`).
-/

namespace Spmd

open Success List Kernel InterleaveGroup

variable {ptr : ValueId} {φ : Flow} {i : InstId} {classify : Classifier} {b : BlockId}
  {g : InterleaveGroup} {k k' : Kernel} {a : StridedAccess}

variable {f : ValueId → ValueId} {instr : Instr} {stride : Int64}

/-! ## Where looking for groups can fail -/

/-- Numbers about the access may not fit: those of its elements, or those of bytes where elements are bytes. -/
def StridedAccess.Strained (a : StridedAccess) : Prop := 2 ^ 32 ≤ a.stride.toNat * a.lanes ∨ a.elem = .bool

namespace Kernel

variable {S : Fault → Prop} {anchor : StridedAccess} {v : ValueId}

/-- There is an access about which numbers may not fit. -/
def Strained (k : Kernel) : Prop := ∃ b ∈ k.layout, ∃ a, a.inst ∈ k.instsOf b ∧ k.Strided a ∧ a.Strained

theorem Sound.exists_valueTy (hs : k.Sound φ) (hb : b ∈ k.layout) (hi : i ∈ k.instsOf b) {instr : Instr}
    (hinstr : k.instr? i = some instr) (hv : v ∈ instr.operands) : ∃ ty, k.Typed v ty ∧ k.valueTy v = .ok ty := by
  obtain ⟨e, he, halive, _⟩ := hs.linked b hb i hi
  obtain rfl : e.instr = instr := by simpa [instr?, he] using hinstr
  obtain ⟨ty, d, hd, hty, hdef⟩ := hs.typed_operand he halive hv
  exact ⟨ty, ⟨d, hd, hty, hdef⟩, bind_eq_ok.mpr ⟨d, some?_eq_ok.mpr hd, congrArg Except.ok hty⟩⟩

theorem Sound.fails_stridedAccess? (hs : k.Sound φ) (hb : b ∈ k.layout) (hi : i ∈ k.instsOf b) (position : Nat) :
    Fails S (k.stridedAccess? position i) := by
  obtain ⟨e, he, _⟩ := hs.linked b hb i hi
  have hinst : k.inst i = .ok e := some?_eq_ok.mpr he
  have hinstr : k.instr? i = some e.instr := by
    rw [instr?, he]
    rfl
  refine (Fails.of_ok hinst).bind fun e' he' => ?_
  obtain rfl := ok_unique hinst he'
  cases hcase : e.instr with
  | strideLoad ptr stride mask => cases mask <;> exact .pure _
  | strideStore ptr value stride mask =>
    cases mask with
    | some _ => exact .pure _
    | none =>
      rw [hcase] at hinstr
      obtain ⟨ty, _, hty⟩ := hs.exists_valueTy hb hi hinstr (v := value) (by simp [Instr.operands])
      exact (Fails.of_ok hty).bind fun _ _ => .pure _
  | _ => exact .pure _

theorem distance?_bounds {u : ValueId} {bytes : Int} (h : k.distance? v u = .ok (some bytes)) :
    -(2 ^ 63) ≤ bytes ∧ bytes < 2 ^ 63 := by
  obtain ⟨x, _, h⟩ := bind_eq_ok.mp h
  cases x with
  | none => cases pure_eq_ok.mp h
  | some x =>
    obtain ⟨y, _, h⟩ := bind_eq_ok.mp h
    obtain ⟨y, _, h⟩ := bind_eq_some_iff.mp (pure_eq_ok.mp h)
    unfold Address.distance? signed64? at h
    split at h
    · split at h
      next hfits =>
        cases h
        exact hfits
      · cases h
    · cases h

/-- Only of bytes can so many lie between two accesses that there is no opposite number. -/
theorem Sound.fails_offsetFrom? (hs : k.Sound φ) (hanchor : k.Typed anchor.ptr .ptr) (ha : k.Typed a.ptr .ptr)
    (hS : a.elem = .bool → S .overflow) : Fails S (k.offsetFrom? anchor a) := by
  obtain ⟨d, hd⟩ := hs.exists_distance? hanchor ha
  refine (Fails.of_ok hd).bind fun d' hd' => ?_
  obtain rfl := ok_unique hd hd'
  cases d with
  | none => exact .pure _
  | some bytes =>
    obtain ⟨hge, hlt⟩ := distance?_bounds hd
    dsimp only
    split
    · exact .pure _
    · refine (Fails.some? fun hnone => hS ?_).bind fun _ _ => .pure _
      unfold signed64? at hnone
      split at hnone
      · cases hnone
      next hout =>
        by_contra hne
        -- elements of four bytes or more are fewer
        have hsize : (a.elem.size : Int) = 4 ∨ (a.elem.size : Int) = 8 := by
          revert hne
          cases a.elem with
          | bool => exact fun hne => absurd rfl hne
          | _ => exact fun _ => by decide
        rcases hsize with hsize | hsize
        all_goals
          rw [hsize] at hout
          omega

variable (hs : k.Sound φ) (hreach : ∀ b ∈ k.layout, φ.Reached b) (hb : b ∈ k.layout)
include hs hreach hb

theorem Sound.fails_letsPass (hi : i ∈ k.instsOf b)
    (isStore : Bool) (root : MemRoot) : Fails S (k.letsPass classify isStore root i) := by
  obtain ⟨e, he, halive, _⟩ := hs.linked b hb i hi
  have hinst : k.inst i = .ok e := some?_eq_ok.mpr he
  have hinstr : k.instr? i = some e.instr := by
    rw [instr?, he]
    rfl
  obtain ⟨r, hr⟩ := hs.exists_accessRoot? hreach he halive
  have haccess : ∀ {c : Bool}, Fails S (do
      if c then return !k.rootsMayAlias ((← k.accessRoot? i).getD .unknown) root else return true : Checked Bool) := by
    intro c
    split
    · exact (Fails.of_ok hr).bind fun _ _ => .pure _
    · exact .pure _
  refine (Fails.of_ok hinst).bind fun e' he' => ?_
  obtain rfl := ok_unique hinst he'
  cases hcase : e.instr with
  | call callee args mask =>
    rw [hcase] at hinstr
    have harg : ∀ v ∈ args, ∃ ty, k.Typed v ty ∧ k.valueTy v = .ok ty := fun v hv =>
      hs.exists_valueTy hb hi hinstr (by simp [Instr.operands, hv])
    have hsite : Fails S (k.callSite? i) := by
      refine (Fails.of_ok hinst).bind fun e' he' => ?_
      obtain rfl := ok_unique hinst he'
      rw [hcase]
      refine (Fails.mapM fun v hv => ?_).bind fun _ _ => (Fails.mapM fun v hv => ?_).bind fun _ _ => .pure _
      · obtain ⟨_, hty, _⟩ := harg v hv
        exact .of_exists hty.exists_constInt?
      · obtain ⟨_, _, hty⟩ := harg v hv
        exact .of_ok hty
    exact (hsite.bind fun _ _ => .pure _).bind fun _ _ => .pure _
  | _ => exact haccess

/-- **Looking for a group fails only if numbers do not fit.** -/
theorem Sound.fails_findGroup? (hS : k.Strained → S .overflow) : Fails S (k.findGroup? classify b) := by
  have haccesses : Fails S (k.stridedAccesses b) := Fails.filterMapM fun x hx =>
    hs.fails_stridedAccess? hb (fst_mem_of_mem_zipIdx hx) x.2
  refine haccesses.bind fun accesses haccesses => Fails.findSomeM? ?_
  rintro ⟨_, _⟩ hmem
  have hmem := (mem_filter.mp hmem).1
  obtain ⟨bucket, hbucket, hmem⟩ := mem_flatMap.mp hmem
  obtain ⟨anchor, hanchor, heq⟩ := mem_map.mp hmem
  obtain ⟨rfl, rfl⟩ := Prod.mk.inj heq
  rw [StridedAccess.buckets, mem_eraseDups] at hbucket
  obtain ⟨a0, _, rfl⟩ := mem_map.mp hbucket
  -- all accesses of the bucket stand in the block
  have hmade : ∀ a ∈ accesses.filter a0.sameKind, a.inst ∈ k.instsOf b ∧ k.Strided a := by
    intro a ha
    obtain ⟨hmade, hat⟩ := stridedAccesses_eq_ok haccesses (mem_filter.mp ha).1
    exact ⟨mem_of_getElem? hat, (stridedAccess?_eq_ok hmade).2.2⟩
  have htyped : ∀ a ∈ accesses.filter a0.sameKind, k.Typed a.ptr .ptr := fun a ha =>
    (hmade a ha).2.typed_ptr hs hb (hmade a ha).1
  have hcluster : Fails S (k.cluster? (accesses.filter a0.sameKind) anchor) := by
    refine (Fails.filterMapM fun a ha => ?_).bind fun near _ => ?_
    · refine hs.fails_offsetFrom? (htyped anchor hanchor) (htyped a ha) fun hbool => hS ?_
      exact ⟨b, hb, a, (hmade a ha).1, (hmade a ha).2, .inr hbool⟩
    · split <;> exact .pure _
  refine hcluster.bind fun g hg => ?_
  cases g with
  | none => exact .pure _
  | some g =>
    obtain ⟨_, hlength, _, _, hmembers⟩ := cluster?_eq_ok hg
    have hne : g.members ≠ [] := by
      have htwo := (hmade anchor hanchor).2.two_le
      intro hnil
      rw [hnil] at hlength
      simp only [length_nil] at hlength
      omega
    have hfirst := (first_spec hne).1
    obtain ⟨r, hr⟩ := hs.exists_memoryRoot hreach (htyped _ (hmembers _ hfirst).1)
    have hcan : Fails S (k.canMerge classify b g) := by
      refine (Fails.of_ok hr).bind fun _ _ => Fails.allM fun i hi => hs.fails_letsPass hreach hb ?_ _ _
      exact mem_of_mem_drop (mem_of_mem_take (mem_filter.mp hi).1)
    exact hcan.bind fun _ _ => .pure _

end Kernel

/-! ## What one merge does -/

/-- Whether the instruction accesses every so many elements. -/
def Instr.isStrided : Instr → Bool
  | strideLoad .. | strideStore .. => true
  | _ => false

theorem Instr.isStrided_mapOperands (instr : Instr) : (instr.mapOperands f).isStrided = instr.isStrided := by
  cases instr <;> rfl

def Kernel.isStrided (k : Kernel) (i : InstId) : Bool := (k.instr? i).any Instr.isStrided

theorem Kernel.strideCount_eq (k : Kernel) (b : BlockId) : k.strideCount b = (k.instsOf b).countP k.isStrided := by
  refine congrArg (countP · (k.instsOf b)) (funext fun i => ?_)
  unfold isStrided
  cases k.instr? i with
  | none => rfl
  | some instr => cases instr <;> rfl

theorem Kernel.Strided.isStrided {k : Kernel} {a : StridedAccess} (h : k.Strided a) : k.isStrided a.inst = true := by
  cases h with
  | load _ _ _ _ hinstr | store _ _ _ _ _ hinstr =>
    rw [Kernel.isStrided, hinstr]
    rfl

theorem Instr.mapOperands_eq_strideLoad (h : instr.mapOperands f = .strideLoad ptr stride none) :
    ∃ p, instr = .strideLoad p stride none ∧ f p = ptr := by
  cases instr with
  | strideLoad p stride' mask =>
    obtain ⟨hp, rfl, hmask⟩ := Instr.strideLoad.inj h
    obtain rfl := Option.map_eq_none_iff.mp hmask
    exact ⟨p, rfl, hp⟩
  | _ => exact absurd h (by simp [Instr.mapOperands])

theorem Instr.mapOperands_eq_strideStore {value : ValueId}
    (h : instr.mapOperands f = .strideStore ptr value stride none) :
    ∃ p v, instr = .strideStore p v stride none ∧ f p = ptr ∧ f v = value := by
  cases instr with
  | strideStore p v stride' mask =>
    obtain ⟨hp, hv, rfl, hmask⟩ := Instr.strideStore.inj h
    obtain rfl := Option.map_eq_none_iff.mp hmask
    exact ⟨p, v, rfl, hp, hv⟩
  | _ => exact absurd h (by simp [Instr.mapOperands])

/-- The members of a group are gone, nothing strided stands in their place, and pointers keep their names. -/
structure Merged (k k' : Kernel) (g : InterleaveGroup) (ρ : ValueId → ValueId) (τ : InstId → List InstId) : Prop where
  recast : k.Recast k' ρ τ
  other : ∀ i, g.holds i = false → τ i = [i]
  plain : ∀ m ∈ g.members, ∀ j ∈ τ m.1.inst, ∃ instr, k'.instr? j = some instr ∧ instr.isStrided = false
  named : ∀ v, k.Typed v .ptr → ρ v = v

section

variable {c : BlockId} {ρ : ValueId → ValueId} {τ : InstId → List InstId} {starts : List InstId}
  {start mixed stretch : ValueId} {mix wide : InstId}

theorem Kernel.Begins.plain {elem : ScalarTy} {offset : Nat} (h : k.Begins elem ptr offset starts start) {s : InstId}
    (hs : s ∈ starts) : ∃ instr, k.instr? s = some instr ∧ instr.isStrided = false := by
  cases h with
  | here => exact absurd hs not_mem_nil
  | moved _ _ _ hinstr => exact ⟨_, mem_singleton.mp hs ▸ hinstr, rfl⟩

theorem WideLoad.merged (h : WideLoad k k' g ρ τ starts start wide stretch) (hs : k.Sound φ) (hb : b ∈ k.layout)
    (hg : g.Covers k b) (hload : g.kind.isStore = false) : Merged k k' g ρ τ where
  recast := h.recast
  other := h.other
  plain m hm j hj := by
    obtain ⟨part, _, hτ, _, _, hpart⟩ := h.member m hm
    rw [hτ] at hj
    split at hj
    · rcases mem_append.mp hj with hj | hj
      · exact h.begins.plain hj
      · rcases mem_cons.mp hj with rfl | hj
        · exact ⟨_, h.instr, rfl⟩
        · exact ⟨_, mem_singleton.mp hj ▸ hpart, rfl⟩
    · exact ⟨_, mem_singleton.mp hj ▸ hpart, rfl⟩
  named v hv := by
    by_contra hne
    obtain ⟨m, hm, hresult⟩ := h.renamed v hne
    obtain ⟨_, _, _, hty⟩ := hg.load hm hload
    have hvector := hs.typed_result hb (hg.mem_instsOf hm) hresult
    rw [hty] at hvector
    exact absurd (hv.unique hvector) (by simp [Ty.fixedVector])

theorem WideStore.merged (h : WideStore k k' g τ starts start mix mixed wide) : Merged k k' g id τ where
  recast := h.recast
  other := h.other
  plain m hm j hj := by
    by_cases hlast : m.1.inst = g.last.1.inst
    · rw [hlast, h.last] at hj
      rcases mem_append.mp hj with hj | hj
      · exact h.begins.plain hj
      · rcases mem_cons.mp hj with rfl | hj
        · exact ⟨_, h.mixInstr, rfl⟩
        · exact ⟨_, mem_singleton.mp hj ▸ h.instr, rfl⟩
    · rw [h.member m hm hlast] at hj
      exact absurd hj not_mem_nil
  named _ _ := rfl

namespace Merged

variable (h : Merged k k' g ρ τ)

include h

/-- What is strided behind the merge stood there before. -/
theorem of_isStrided (hc : c ∈ k.layout) (hi : i ∈ k'.instsOf c) {instr : Instr} (hinstr : k'.instr? i = some instr)
    (hstrided : instr.isStrided = true) : i ∈ k.instsOf c ∧ τ i = [i] := by
  rw [h.recast.insts c hc] at hi
  obtain ⟨i0, hi0, hi⟩ := mem_flatMap.mp hi
  cases hholds : g.holds i0 with
  | true =>
    obtain ⟨m, hm, rfl⟩ := holds_iff.mp hholds
    obtain ⟨instr', hinstr', hplain⟩ := h.plain m hm i hi
    obtain rfl := mem_unique hinstr hinstr'
    cases hstrided.symm.trans hplain
  | false =>
    have hτ := h.other i0 hholds
    rw [hτ] at hi
    obtain rfl := mem_singleton.mp hi
    exact ⟨hi0, hτ⟩

/-- An access that is made behind the merge was made before. -/
theorem strided (hs : k.Sound φ) (hc : c ∈ k.layout) (ha : a.inst ∈ k'.instsOf c) (hstrided : k'.Strided a) :
    a.inst ∈ k.instsOf c ∧ τ a.inst = [a.inst] ∧ k.Strided a := by
  have hr := h.recast
  -- the pointer is not renamed, since it is one
  have hptr : ∀ {p}, a.inst ∈ k.instsOf c → k.Strided { a with ptr := p } → ρ p = p := fun hi hp =>
    h.named _ (hp.typed_ptr hs hc hi)
  cases hstrided with
  | load stride hstride htwo hkind hinstr hty =>
    obtain ⟨hi, hτ⟩ := h.of_isStrided hc ha hinstr rfl
    have hkept : a.inst ∈ τ a.inst := by
      rw [hτ]
      exact .head _
    obtain ⟨hinstr', _⟩ := hr.kept c hc a.inst hi hkept
    obtain ⟨instr, hinstr0, heq⟩ := map_eq_some_iff.mp (hinstr'.symm.trans hinstr)
    obtain ⟨p, rfl, hp⟩ := Instr.mapOperands_eq_strideLoad heq
    rw [hr.resultTy_eq hs.coherent hc hi hkept] at hty
    have hname := hptr hi (.load (a := { a with ptr := p }) stride hstride htwo hkind hinstr0 hty)
    exact ⟨hi, hτ, .load stride hstride htwo hkind (by rw [hinstr0, ← hp, hname]) hty⟩
  | store stride hstride htwo hkind value hinstr hty =>
    obtain ⟨hi, hτ⟩ := h.of_isStrided hc ha hinstr rfl
    have hkept : a.inst ∈ τ a.inst := by
      rw [hτ]
      exact .head _
    obtain ⟨hinstr', _⟩ := hr.kept c hc a.inst hi hkept
    obtain ⟨instr, hinstr0, heq⟩ := map_eq_some_iff.mp (hinstr'.symm.trans hinstr)
    obtain ⟨p, v, rfl, hp, rfl⟩ := Instr.mapOperands_eq_strideStore heq
    obtain ⟨_, ⟨d, hd, _⟩, _⟩ := hs.exists_valueTy hc hi hinstr0 (v := v) (by simp [Instr.operands])
    rw [hr.valueTy_eq (by rw [hd]; rfl)] at hty
    have hname := hptr hi (.store (a := { a with ptr := p }) stride hstride htwo hkind v hinstr0 hty)
    exact ⟨hi, hτ, .store stride hstride htwo hkind v (by rw [hinstr0, ← hp, hname]) hty⟩

theorem strained (hs : k.Sound φ) (hstrained : k'.Strained) : k.Strained := by
  obtain ⟨c, hc, a, ha, hstrided, hfits⟩ := hstrained
  rw [h.recast.layout] at hc
  obtain ⟨hi, _, hold⟩ := h.strided hs hc ha hstrided
  exact ⟨c, hc, a, hi, hold, hfits⟩

/-- **Every merge leaves fewer strided accesses.** -/
theorem strideCount_lt (hb : b ∈ k.layout) (hg : g.Covers k b) : k'.strideCount b < k.strideCount b := by
  -- what is left are the accesses that are no members
  have hleft : ∀ l : List InstId, (∀ i ∈ l, i ∈ k.instsOf b) → (l.flatMap τ).countP k'.isStrided ≤
      l.countP fun i => k.isStrided i && !g.holds i := by
    intro l hl
    induction l with
    | nil => exact Nat.le_refl _
    | cons i l ih =>
      have ih := ih fun j hj => hl j (.tail _ hj)
      rw [flatMap_cons, countP_append, countP_cons]
      cases hholds : g.holds i with
      | true =>
        obtain ⟨m, hm, rfl⟩ := holds_iff.mp hholds
        have hnone : (τ m.1.inst).countP k'.isStrided = 0 := by
          refine countP_eq_zero.mpr fun j hj => ?_
          obtain ⟨instr, hinstr, hplain⟩ := h.plain m hm j hj
          simp [isStrided, hinstr, hplain]
        omega
      | false =>
        have hτ := h.other i hholds
        have hkept : i ∈ τ i := by
          rw [hτ]
          exact .head _
        have hsame : k'.isStrided i = k.isStrided i := by
          rw [isStrided, isStrided, (h.recast.kept b hb i (hl i (.head _)) hkept).1, Option.any_map]
          exact congrArg (k.instr? i).any (funext Instr.isStrided_mapOperands)
        rw [hτ, countP_singleton, hsame]
        simp only [Bool.not_false, Bool.and_true]
        omega
  have hmember : 0 < ((k.instsOf b).filter g.holds).countP k.isStrided := by
    obtain ⟨hfirst, _⟩ := first_spec hg.ne_nil
    refine countP_pos_iff.mpr ⟨g.first.1.inst, mem_filter.mpr ⟨hg.mem_instsOf hfirst, ?_⟩, ?_⟩
    · exact holds_iff.mpr ⟨_, hfirst, rfl⟩
    · exact (hg.strided hfirst).isStrided
  have hparts := countP_eq_countP_filter_add (k.instsOf b) k.isStrided g.holds
  have hle := hleft (k.instsOf b) fun _ => id
  rw [countP_filter (p := k.isStrided) (q := fun i => !g.holds i)] at hparts
  rw [strideCount_eq, strideCount_eq, h.recast.insts b hb]
  omega

end Merged

/-- Strided stores define no value. -/
def Kernel.SilentStores (k : Kernel) : Prop :=
  ∀ b ∈ k.layout, ∀ i ∈ k.instsOf b, ∀ ptr value stride mask,
    k.instr? i = some (.strideStore ptr value stride mask) → k.result? i = none

theorem Merged.silentStores (h : Merged k k' g ρ τ) (hsilent : k.SilentStores) : k'.SilentStores := by
  intro c hc i hi ptr value stride mask hinstr
  rw [h.recast.layout] at hc
  obtain ⟨hold, hτ⟩ := h.of_isStrided hc hi hinstr rfl
  have hkept : i ∈ τ i := by
    rw [hτ]
    exact .head _
  obtain ⟨hinstr', hresult, _⟩ := h.recast.kept c hc i hold hkept
  obtain ⟨instr, hinstr0, heq⟩ := map_eq_some_iff.mp (hinstr'.symm.trans hinstr)
  rw [hresult]
  cases instr with
  | strideStore p v stride' mask' => exact hsilent c hc i hold p v stride' mask' hinstr0
  | _ => exact absurd heq (by simp [Instr.mapOperands])

end

/-- Merges a group. -/
def Kernel.merge (k : Kernel) (g : InterleaveGroup) : Checked Kernel := if g.kind.isStore then k.mergeStores g else k.mergeLoads g

/-- One access to the whole stretch stands for the group. -/
inductive Kernel.Widened (k k' : Kernel) (g : InterleaveGroup) : Prop where
  | loads (hload : g.kind.isStore = false) (ρ : ValueId → ValueId) (τ : InstId → List InstId) (starts : List InstId)
      (start : ValueId) (wide : InstId) (stretch : ValueId) (h : WideLoad k k' g ρ τ starts start wide stretch)
  | stores (hstore : g.kind.isStore = true) (τ : InstId → List InstId) (starts : List InstId) (start : ValueId) (mix : InstId)
      (mixed : ValueId) (wide : InstId) (h : WideStore k k' g τ starts start mix mixed wide)

section

theorem Kernel.Widened.merged (h : k.Widened k' g) (hs : k.Sound φ) (hb : b ∈ k.layout) (hg : g.Covers k b) :
    ∃ ρ τ, Merged k k' g ρ τ := by
  cases h with
  | loads hload ρ τ _ _ _ _ h => exact ⟨ρ, τ, h.merged hs hb hg hload⟩
  | stores hstore τ _ _ _ _ _ h => exact ⟨id, τ, h.merged⟩

/-- **A group can be merged**, unless its elements are too many to be counted. -/
theorem exists_merge (hs : k.Sound φ) (hreach : ∀ b ∈ k.layout, φ.Reached b) (hsilent : k.SilentStores) (hb : b ∈ k.layout)
    (hg : g.Covers k b) :
    k.merge g = .error .overflow ∧ k.Strained ∨
      ∃ k', k.merge g = .ok k' ∧ k'.Sound φ ∧ k.Widened k' g ∧ g.kind.stride.toNat * g.kind.lanes < 2 ^ 32 := by
  unfold Kernel.merge
  by_cases hcount : g.kind.stride.toNat * g.kind.lanes < 2 ^ 32
  · right
    cases hkind : g.kind.isStore with
    | false =>
      obtain ⟨k', ρ, τ, starts, start, wide, stretch, hmerge, hs', h⟩ := exists_mergeLoads hs hb (hreach b hb) hg hkind hcount
      exact ⟨k', hmerge, hs', .loads hkind ρ τ starts start wide stretch h, hcount⟩
    | true =>
      have hquiet : ∀ m ∈ g.members, k.result? m.1.inst = none := by
        intro m hm
        obtain ⟨stride, value, _, hinstr, _⟩ := hg.store hm hkind
        exact hsilent b hb _ (hg.mem_instsOf hm) _ _ _ _ hinstr
      obtain ⟨k', τ, starts, start, mix, mixed, wide, hmerge, hs', h⟩ :=
        exists_mergeStores hs hb (hreach b hb) hg hkind hquiet hcount
      exact ⟨k', hmerge, hs', .stores hkind τ starts start mix mixed wide h, hcount⟩
  · left
    have hword : Checked.word32 (g.kind.stride.toNat * g.kind.lanes) = .error .overflow := if_neg hcount
    have hmany := Nat.not_lt.mp hcount
    refine ⟨?_, b, hb, ?_⟩
    · cases g.kind.isStore with
      | false =>
        unfold mergeLoads
        rw [hword]
        rfl
      | true =>
        unfold mergeStores
        simp only [hword]
        rfl
    · -- the first member is an access of the kind of all
      obtain ⟨hfirst, _⟩ := first_spec hg.ne_nil
      obtain ⟨_, _, hstride, hlanes⟩ := sameKind_iff.mp (hg.alike _ hfirst)
      refine ⟨g.first.1, hg.mem_instsOf hfirst, hg.strided hfirst, .inl ?_⟩
      rwa [← hstride, ← hlanes]

end

/-! ## Merge after merge -/

/-- A group that was merged, in the kernel it was found in. -/
structure Merge where
  kernel : Kernel
  block : BlockId
  group : InterleaveGroup

/-- Groups are found and merged one after another. -/
inductive Combines (classify : Classifier) : Kernel → List Merge → Kernel → Prop where
  | done (k : Kernel) : Combines classify k [] k
  | next {k k1 k' : Kernel} {b : BlockId} {g : InterleaveGroup} {ms : List Merge} (hb : b ∈ k.layout)
      (hfind : k.findGroup? classify b = .ok (some g)) (hmerge : k.merge g = .ok k1) (h : Combines classify k1 ms k') :
      Combines classify k (⟨k, b, g⟩ :: ms) k'

namespace Combines

variable {k1 : Kernel} {ms ms' : List Merge}

theorem append (h : Combines classify k ms k1) (h' : Combines classify k1 ms' k') : Combines classify k (ms ++ ms') k' := by
  induction h with
  | done => exact h'
  | next hb hfind hmerge _ ih => exact .next hb hfind hmerge (ih h')

/-- What is left when all merges are done. -/
structure Kept (k k' : Kernel) (φ : Flow) : Prop where
  sound : k'.Sound φ
  silent : k'.SilentStores
  strained : k'.Strained → k.Strained
  recast : ∃ ρ τ, k.Recast k' ρ τ

theorem kept (h : Combines classify k ms k') (hs : k.Sound φ) (hreach : ∀ b ∈ k.layout, φ.Reached b)
    (hsilent : k.SilentStores) : Kept k k' φ := by
  induction h with
  | done k => exact ⟨hs, hsilent, id, _, _, .refl hs.coherent⟩
  | @next k k1 k' b g ms hb hfind hmerge _ ih =>
    obtain ⟨hg, _⟩ := findGroup?_eq_ok hfind
    rcases exists_merge hs hreach hsilent hb hg with ⟨hfail, _⟩ | ⟨k2, hok, hs1, hwide, _⟩
    · cases hmerge.symm.trans hfail
    · obtain rfl := ok_unique hmerge hok
      obtain ⟨ρ, τ, hm⟩ := hwide.merged hs hb hg
      obtain ⟨hs', hsilent', hstrained, ρ', τ', hr⟩ :=
        ih hs1 (fun c hc => hreach c (hm.recast.layout ▸ hc)) (hm.silentStores hsilent)
      exact ⟨hs', hsilent', fun h => hm.strained hs (hstrained h), _, _, hm.recast.trans hs.coherent hr⟩

end Combines

namespace Kernel

theorem combineGroups_succ (hfind : k.findGroup? classify b = .ok (some g)) (budget : Nat) :
    combineGroups classify b (budget + 1) k = (do
      let (done, count) ← combineGroups classify b budget (← k.merge g)
      return (done, count + 1)) := by
  rw [combineGroups, hfind]
  unfold merge
  simp only [bind, Except.bind]
  split <;> rfl

/-- Merging the groups of a block ends: every merge leaves fewer strided accesses. -/
theorem combineGroups_spec (hs : k.Sound φ) (hreach : ∀ b ∈ k.layout, φ.Reached b) (hsilent : k.SilentStores)
    (hb : b ∈ k.layout) {budget : Nat} (hbudget : k.strideCount b < budget) :
    combineGroups classify b budget k = .error .overflow ∧ k.Strained ∨
      ∃ k' ms, combineGroups classify b budget k = .ok (k', ms.length) ∧ Combines classify k ms k' := by
  induction budget generalizing k with
  | zero => exact absurd hbudget (Nat.not_lt_zero _)
  | succ budget ih =>
    have hfails : Fails (fun f => f = .overflow ∧ k.Strained) (k.findGroup? classify b) :=
      hs.fails_findGroup? hreach hb fun h => ⟨rfl, h⟩
    cases hfind : k.findGroup? classify b with
    | error f =>
      obtain ⟨rfl, hstrained⟩ := hfails f hfind
      exact .inl ⟨by rw [combineGroups, hfind]; rfl, hstrained⟩
    | ok o =>
      cases o with
      | none => exact .inr ⟨k, [], by rw [combineGroups, hfind]; rfl, .done k⟩
      | some g =>
        rw [combineGroups_succ hfind]
        obtain ⟨hg, _⟩ := findGroup?_eq_ok hfind
        rcases exists_merge hs hreach hsilent hb hg with ⟨hmerge, hstrained⟩ | ⟨k1, hmerge, hs1, hwide, _⟩
        · rw [hmerge]
          exact .inl ⟨rfl, hstrained⟩
        · obtain ⟨ρ, τ, hm⟩ := hwide.merged hs hb hg
          have hlayout := hm.recast.layout
          have hless := hm.strideCount_lt hb hg
          rw [hmerge]
          rcases ih hs1 (fun c hc => hreach c (hlayout ▸ hc)) (hm.silentStores hsilent) (hlayout ▸ hb) (by omega) with
            ⟨hrest, hstrained⟩ | ⟨k', ms, hrest, hms⟩
          · exact .inl ⟨by simp only [bind, Except.bind, hrest], hm.strained hs hstrained⟩
          · exact .inr ⟨k', ⟨k, b, g⟩ :: ms, by simp only [bind, Except.bind, hrest]; rfl, .next hb hfind hmerge hms⟩

/-- Merging the groups of one block after another. -/
theorem foldlM_combineBlock_spec (classify : Classifier) (hs : k.Sound φ) (hreach : ∀ b ∈ k.layout, φ.Reached b)
    (hsilent : k.SilentStores)
    {bs : List BlockId} (hbs : ∀ b ∈ bs, b ∈ k.layout) (count : Nat) :
    let steps := bs.foldlM (fun (k, count) b => do
      let (k, n) ← k.combineBlock classify b
      return (k, count + n)) (k, count)
    steps = .error .overflow ∧ k.Strained ∨ ∃ k' ms, steps = .ok (k', count + ms.length) ∧ Combines classify k ms k' := by
  induction bs generalizing k count with
  | nil => exact .inr ⟨k, [], rfl, .done k⟩
  | cons b bs ih =>
    dsimp only
    rw [foldlM_cons]
    have hb := hbs b (.head _)
    have hbudget : k.strideCount b < (k.strideCount b + 1) * (k.strideCount b + 1) + 1 := by
      rw [Nat.succ_mul]
      omega
    rcases combineGroups_spec hs hreach hsilent hb hbudget with ⟨hblock, hstrained⟩ | ⟨k1, ms, hblock, hms⟩
    · refine .inl ⟨?_, hstrained⟩
      rw [combineBlock, hblock]
      rfl
    · obtain ⟨hs1, hsilent1, hback, _, _, hr⟩ := hms.kept hs hreach hsilent
      have hlayout := hr.layout
      rw [combineBlock, hblock]
      rcases ih hs1 (fun c hc => hreach c (hlayout ▸ hc)) hsilent1 (fun c hc => hlayout ▸ hbs c (.tail _ hc))
        (count + ms.length) with ⟨hrest, hstrained⟩ | ⟨k', ms', hrest, hms'⟩
      · exact .inl ⟨hrest, hback hstrained⟩
      · refine .inr ⟨k', ms ++ ms', ?_, hms.append hms'⟩
        rw [length_append, ← Nat.add_assoc]
        exact hrest

/-- **Merging all groups ends**, unless numbers about accesses do not fit. -/
theorem combineInterleaved_spec (classify : Classifier) (hs : k.Sound φ) (hreach : ∀ b ∈ k.layout, φ.Reached b)
    (hsilent : k.SilentStores) :
    k.combineInterleaved classify = .error .overflow ∧ k.Strained ∨
      ∃ k' ms, k.combineInterleaved classify = .ok (k', ms.length) ∧ Combines classify k ms k' := by
  have h := foldlM_combineBlock_spec classify hs hreach hsilent (fun _ => id) 0
  simp only [Nat.zero_add] at h
  exact h

end Kernel

end Spmd
