import Spmd.Proofs.Interleave.Group
import Spmd.Proofs.Kernel.Emit

/-!
# What merging does to a kernel

Merging a group that covers a stretch succeeds, unless the stretch has too many elements to be counted, and keeps the
kernel sound.

* **`exists_mergeLoads`** — a load of the whole stretch stands in front of the first member, and every member is
  a shuffle of it (`WideLoad`).
* **`exists_mergeStores`** — a store of the whole stretch, of a shuffle of what the members stored, stands in the place
  of the last member, and the others are gone (`WideStore`).
-/

namespace Spmd

open Success List Instr InterleaveGroup

open Kernel

variable {offset lanes p : Nat} {φ : Flow} {ptr old stretch : ValueId} {pre post : List InstId}
  {b : BlockId} {c : Cursor} {i : InstId} {m : StridedAccess × Nat} {ρ : ValueId → ValueId}
  {τ : InstId → List InstId} {ms : List (StridedAccess × Nat)} {k : Kernel} {g : InterleaveGroup}

/-! ## The start of a stretch -/

/-- The stretch starts at the address of a member, or at an address that `starts` computes from it. -/
inductive Kernel.Begins (k : Kernel) (elem : ScalarTy) (ptr : ValueId) (offset : Nat) : List InstId → ValueId → Prop where
  | here (hoffset : offset = 0) : Begins k elem ptr offset [] ptr
  | moved (s : InstId) (index start : ValueId) (hinstr : k.instr? s = some (.elementPtr ptr index elem))
      (hresult : k.result? s = some start)
      (hindex : k.value? index = some ⟨.const (.int (Int64.ofInt (-offset))), .scalar .i64⟩) :
      Begins k elem ptr offset [s] start

/-- Nothing changes about the start of a stretch if its instructions stay and its operands are not renamed. -/
theorem Kernel.Begins.recast {k k' : Kernel} {elem : ScalarTy} {start : ValueId} {starts : List InstId}
    (h : k.Begins elem ptr offset starts start) (hr : Recast k k' ρ τ) (hb : b ∈ k.layout)
    (hkept : ∀ s ∈ starts, s ∈ k.instsOf b ∧ s ∈ τ s) (hptr : ρ ptr = ptr)
    (hconst : ∀ v d x, k.value? v = some d → d.kind = .const x → ρ v = v) :
    k'.Begins elem ptr offset starts start ∧ ρ start = start := by
  cases h with
  | here hoffset => exact ⟨.here hoffset, hptr⟩
  | moved s index start hinstr hresult hindex =>
    obtain ⟨hs, hsτ⟩ := hkept s (.head _)
    obtain ⟨hinstr', hresult', hname⟩ := hr.kept b hb s hs hsτ
    have hρ : ρ index = index := hconst index _ _ hindex rfl
    refine ⟨.moved s index start ?_ (hresult'.trans hresult) ?_, hname start hresult⟩
    · rw [hinstr', hinstr]
      simp [mapOperands, hptr, hρ]
    · obtain ⟨d', hd', hty, hkind⟩ := hr.values index _ hindex
      rw [hρ] at hd'
      rw [hd']
      obtain ⟨kind, ty⟩ := d'
      rcases hkind with hkind | ⟨⟨_, hi⟩, _⟩
      · dsimp only at hty hkind
        rw [hty, hkind]
      · cases hi

/-- What is built later leaves the start of a stretch alone. -/
theorem Kernel.Begins.emits {elem : ScalarTy} {start : ValueId} {starts js : List InstId} {c' : Cursor}
    (h : c.kernel.Begins elem ptr offset starts start) (hemits : c.Emits φ b pre i post js c') :
    c'.kernel.Begins elem ptr offset starts start := by
  cases h with
  | here hoffset => exact .here hoffset
  | moved s index start hinstr hresult hindex =>
    obtain ⟨d, hd, hd'⟩ := map_eq_some_iff.mp hinstr
    refine .moved s index start ?_ ?_ (hemits.values _ _ hindex)
    · rw [instr?, hemits.insts s d hd, ← hd]
      exact hinstr
    · rw [result?, hemits.insts s d hd, ← hd]
      exact hresult

section

variable (elem : ScalarTy) (h : c.Before φ b pre i post) (hptr : c.kernel.Typed ptr .ptr)
  (hready : c.kernel.Ready φ b pre ptr)
include elem h hptr hready

theorem exists_stretchStart (offset : Nat) :
    ∃ start c' starts, stretchStart elem ptr offset c = .ok (start, c') ∧ c.Emits φ b pre i post starts c' ∧
      c'.kernel.Begins elem ptr offset starts start ∧ c'.kernel.Typed start .ptr ∧
      c'.kernel.Ready φ b (pre ++ starts) start ∧ (starts ≠ [] → c.kernel.value? start = none) := by
  unfold stretchStart
  split
  next hoffset =>
    exact ⟨ptr, c, [], rfl, .refl h, .here hoffset, hptr, by rw [append_nil]; exact hready, fun hne => absurd rfl hne⟩
  · obtain ⟨c1, hconst, hemits, hindex⟩ := Cursor.Emits.constInt h .i64 (Int64.ofInt (-offset))
    have hk := h.sound.coherent
    have hptr1 := hemits.typed hk hptr
    have hbefore := hemits.before
    rw [append_nil] at hbefore
    have hready1 := hemits.ready hready
    rw [append_nil] at hready1
    generalize hv : c.kernel.values.nextId = index at hconst hindex
    have hindexTy : c1.kernel.Typed index (.scalar .i64) := ⟨_, hindex, rfl, fun _ hj => by cases hj⟩
    obtain ⟨d, hd, hdty, _⟩ := hptr1
    have hty : Build.resultTy .void (.elementPtr ptr index elem) c1 = .ok (.ptr, c1) := by
      refine stateBind_eq_ok.mpr ⟨d.ty, c1, Build.tyOf_of_value? hd, ?_⟩
      refine stateBind_eq_ok.mpr ⟨_, c1, Build.tyOf_of_value? hindex, ?_⟩
      rw [hdty]
      rfl
    have hallows : c1.kernel.Allows φ b pre (.elementPtr ptr index elem) .ptr := by
      refine ⟨rfl, rfl, ⟨_, .cons (hemits.typed hk hptr) (.cons hindexTy .nil), rfl⟩, fun v hv => ?_⟩
      rcases mem_pair.mp hv with rfl | rfl
      · exact hready1
      · exact ⟨_, hindex, fun _ hj => by cases hj⟩
    obtain ⟨s, c', hemit, hemits', hins⟩ := Cursor.Emits.emitValue hbefore _ .void hty rfl hallows
    have hemits'' : c1.Emits φ b (pre ++ []) i post [s] c' := by rw [append_nil]; exact hemits'
    refine ⟨c1.kernel.values.nextId, c', [s], ?_, hemits.trans hemits'' hk, ?_, hins.typed_new rfl,
      hins.ready_new rfl (by simp), fun _ => ?_⟩
    · exact stateBind_eq_ok.mpr ⟨index, c1, hconst, hemit⟩
    · exact .moved s index _ hins.instr?_new (hins.result?_new rfl) (hemits'.values _ _ hindex)
    · exact hemits.value?_eq_none (value?_nextId _)

/-- A load of a stretch can be built. -/
theorem exists_loadStretch (offset count : Nat) :
    ∃ starts start wide stretch c',
      (do Build.load (.fixedVector elem count) (← stretchStart elem ptr offset) none elem.size) c = .ok (stretch, c') ∧
      c.Emits φ b pre i post (starts ++ [wide]) c' ∧ c'.kernel.Begins elem ptr offset starts start ∧
      c'.kernel.instr? wide = some (.load start none elem.size) ∧ c'.kernel.result? wide = some stretch ∧
      c'.kernel.resultTy wide = .fixedVector elem count ∧ c.kernel.value? stretch = none ∧
      (starts ≠ [] → c.kernel.value? start = none) ∧ c'.kernel.Typed start .ptr := by
  obtain ⟨start, c1, starts, hstart, hemits1, hbegins, hty, hstartReady, hnew⟩ :=
    exists_stretchStart elem h hptr hready offset
  obtain ⟨wide, c2, hwide, hemits2, hins⟩ := Cursor.Emits.emitValue hemits1.before (.load start none elem.size)
    (.fixedVector elem count) rfl rfl
    ⟨rfl, rfl, ⟨_, .cons hty .nil, rfl⟩, fun v hv => mem_singleton.mp hv ▸ hstartReady⟩
  refine ⟨starts, start, wide, c1.kernel.values.nextId, c2, stateBind_eq_ok.mpr ⟨start, c1, hstart, hwide⟩,
    hemits1.trans hemits2 h.sound.coherent, hbegins.emits hemits2, hins.instr?_new, hins.result?_new rfl,
    hins.resultTy_new, ?_, hnew,
    hemits2.typed hemits1.before.sound.coherent hty⟩
  exact hemits1.value?_eq_none (value?_nextId _)

end

/-! ## Shuffles -/

/-- A shuffle of vectors of one type is well typed if it picks lanes they have. -/
theorem typeFlaw?_shuffle (ret result : Ty) (sources : List ValueId) (elem : ScalarTy) {picks : List Nat} {n : Nat}
    (hsources : n ≠ 0) (hcount : n * lanes < 2 ^ 32) (hpicks : ∀ p ∈ picks, p < n * lanes) :
    (shuffle sources picks).typeFlaw? ret result (replicate n (.fixedVector elem lanes)) = .ok none := by
  obtain ⟨n, rfl⟩ := Nat.exists_eq_succ_of_ne_zero hsources
  have hlanes : (replicate (n + 1) (Ty.fixedVector elem lanes)).filterMap Ty.fixedLanes? = replicate (n + 1) lanes := by
    rw [filterMap_replicate_of_some (f := Ty.fixedLanes?) rfl]
  have hsum : total (replicate (n + 1) lanes) = (n + 1) * lanes := sum_replicate_nat
  have hword : Checked.word32 ((n + 1) * lanes) = .ok ((n + 1) * lanes) := if_pos hcount
  rw [replicate_succ, typeFlaw?, ← replicate_succ, hlanes, hsum, hword]
  have hall : (replicate (n + 1) (Ty.fixedVector elem lanes)).all
      (fun t => t.element? = (Ty.fixedVector elem lanes).element? && t.fixedLanes?.isSome) = true := by
    refine all_eq_true.mpr fun t ht => ?_
    obtain rfl := eq_of_mem_replicate ht
    simp [Ty.fixedVector, Ty.fixedLanes?]
  rw [hall]
  have hbelow : picks.all (· < (n + 1) * lanes) = true := all_eq_true.mpr fun p hp => by simpa using hpicks p hp
  show Except.ok (firstBroken [(picks.all (· < (n + 1) * lanes), .shuffleLane)]) = .ok none
  rw [hbelow]
  rfl

/-! ## Loads -/

/-- The lanes of the stretch that belong to the member at an offset. -/
def InterleaveGroup.picks (g : InterleaveGroup) (offset : Nat) : List Nat :=
  (range g.kind.lanes).map fun lane => lane * g.kind.stride.toNat + offset

theorem InterleaveGroup.lt_of_mem_picks {g : InterleaveGroup} (hoffset : offset < g.kind.stride.toNat)
    (hp : p ∈ g.picks offset) : p < g.size := by
  obtain ⟨lane, hlane, rfl⟩ := mem_map.mp hp
  have hlane := mem_range.mp hlane
  have : (lane + 1) * g.kind.stride.toNat ≤ g.kind.lanes * g.kind.stride.toNat := Nat.mul_le_mul_right _ hlane
  rw [size, Nat.mul_comm g.kind.stride.toNat]
  rw [Nat.succ_mul] at this
  omega

section

/-- A member can be replaced by a shuffle of the stretch. -/
theorem exists_splitLoad (hs : k.Sound φ) (hb : b ∈ k.layout) (hsplit : k.instsOf b = pre ++ m.1.inst :: post)
    (hplain : k.Plain m.1.inst) (hold : k.result? m.1.inst = some old)
    (hty : k.resultTy m.1.inst = .fixedVector g.kind.elem g.kind.lanes)
    (hstretch : k.Typed stretch (.fixedVector g.kind.elem g.size)) (hready : k.Ready φ b pre stretch)
    (hne : stretch ≠ old) (hoffset : m.2 < g.kind.stride.toNat) (hcount : g.size < 2 ^ 32) :
    ∃ k' part, splitLoad g stretch k m = .ok k' ∧ k'.Sound φ ∧
      Recast k k' (fun v => if v = old then k.values.nextId else v) (fun l => if l = m.1.inst then [part] else [l]) ∧
      k'.instr? part = some (.shuffle [stretch] (g.picks m.2)) ∧ k'.result? part = some k.values.nextId := by
  have hk := hs.coherent
  have hbefore : Cursor.Before ⟨k, .before m.1.inst⟩ φ b pre m.1.inst post := .start hs hb hsplit hplain
  obtain ⟨d, hd, hdty, _⟩ := hstretch
  have hresultTy : Build.resultTy .void (.shuffle [stretch] (g.picks m.2)) ⟨k, .before m.1.inst⟩ =
      .ok (.fixedVector g.kind.elem g.kind.lanes, ⟨k, .before m.1.inst⟩) := by
    refine stateBind_eq_ok.mpr ⟨d.ty, _, Build.tyOf_of_value? hd, ?_⟩
    rw [hdty]
    exact statePure_eq_ok.mpr ⟨by simp [Ty.element?, Ty.fixedVector, picks], rfl⟩
  have hallows : k.Allows φ b pre (.shuffle [stretch] (g.picks m.2)) (.fixedVector g.kind.elem g.kind.lanes) := by
    refine ⟨rfl, rfl, ⟨replicate 1 (.fixedVector g.kind.elem g.size), .cons ⟨d, hd, hdty, ‹_›⟩ .nil, ?_⟩,
      fun v hv => mem_singleton.mp hv ▸ hready⟩
    refine typeFlaw?_shuffle _ _ _ _ (by decide) (by omega) fun p hp => ?_
    have := lt_of_mem_picks hoffset hp
    omega
  obtain ⟨part, c', hemit, _, hins⟩ := Cursor.Emits.emitValue hbefore _ .void hresultTy rfl hallows
  have holdTy : ∀ d, k.value? old = some d → d.ty = .fixedVector g.kind.elem g.kind.lanes := by
    intro d hd
    rw [← hty, resultTy, hold, Option.bind_some, hd]
    rfl
  obtain ⟨e, he, halive, hblock⟩ := hs.linked b hb m.1.inst (by rw [hsplit]; simp)
  obtain ⟨e', he', hresult', hblock', hdead'⟩ := inst?_replaceUses_of_some old k.values.nextId (hins.inst?_of_some he).1
  have hold' : c'.kernel.result? m.1.inst = some old := by rw [result?, (hins.inst?_of_some he).1, ← he]; exact hold
  have hblocks : ((c'.kernel.replaceUses old k.values.nextId).block? e'.block).isSome = true := by
    obtain ⟨insts, _, heq⟩ := replaceUses_eq c'.kernel old k.values.nextId
    rw [heq, hblock', hblock]
    exact block?_isSome_of_size hins.blocks_size (hk.blocks b hb)
  obtain ⟨k', hremove⟩ := exists_removeInst he' hblocks
  have hremoved := removeInst_eq_ok he' (hdead'.trans halive) hremove
  have hpart : part ≠ m.1.inst := fun heq => (hins.inst?_of_some he).2 heq.symm
  refine ⟨k', part, ?_, hs.replaced hb hins hallows rfl hold holdTy hremoved,
    Recast.replaced hins hk hb rfl rfl hplain rfl hold holdTy hremoved (hblock'.trans hblock), ?_, ?_⟩
  · refine bind_eq_ok.mpr ⟨(k.values.nextId, c'), hemit, ?_⟩
    dsimp only
    rw [hold']
    exact hremove
  · have hmem : part ∈ c'.kernel.instsOf b := hins.mem_instsOf_iff.mpr (.inr ⟨rfl, rfl⟩)
    rw [instr?, hremoved.inst_ne part hpart, ← instr?, instr?_replaceUses (hins.layout ▸ hb) hmem, hins.instr?_new]
    simp [replaceOperand, mapOperands, hne]
  · rw [hremoved.result?, result?_replaceUses]
    exact hins.result?_new rfl

end

/-- The members in `done` have become shuffles of the stretch. -/
structure SplitLoads (k k' : Kernel) (g : InterleaveGroup) (stretch : ValueId) (done : List (StridedAccess × Nat))
    (ρ : ValueId → ValueId) (τ : InstId → List InstId) : Prop where
  recast : Recast k k' ρ τ
  member : ∀ m ∈ done, ∃ part old, τ m.1.inst = [part] ∧ k.result? m.1.inst = some old ∧
    k'.result? part = some (ρ old) ∧ k'.instr? part = some (.shuffle [stretch] (g.picks m.2))
  other : ∀ i, (∀ m ∈ done, m.1.inst ≠ i) → τ i = [i]
  renamed : ∀ v, ρ v ≠ v → ∃ m ∈ done, k.result? m.1.inst = some v

namespace SplitLoads

variable {k1 k2 : Kernel} {done : List (StridedAccess × Nat)}

/-- What was a shuffle already still is one after the next member has become one. -/
theorem snoc (h : SplitLoads k k1 g stretch done ρ τ) (hk : k.Coherent) (hb : b ∈ k.layout)
    (hdone : ∀ n ∈ done, n.1.inst ∈ k.instsOf b ∧ n.1.inst ≠ m.1.inst) (hm : m.1.inst ∈ k.instsOf b) {new : ValueId}
    (hold : k.result? m.1.inst = some old) (hne : stretch ≠ old) {part : InstId}
    (hr : Recast k1 k2 (fun v => if v = old then new else v) fun l => if l = m.1.inst then [part] else [l])
    (hinstr : k2.instr? part = some (.shuffle [stretch] (g.picks m.2))) (hresult : k2.result? part = some new) :
    SplitLoads k k2 g stretch (done ++ [m]) ((fun v => if v = old then new else v) ∘ ρ)
      fun i => (τ i).flatMap fun l => if l = m.1.inst then [part] else [l] := by
  have hτ : τ m.1.inst = [m.1.inst] := h.other m.1.inst fun n hn => (hdone n hn).2
  refine ⟨h.recast.trans hk hr, fun n hn => ?_, fun i hi => ?_, fun v hv => ?_⟩
  · rcases mem_append.mp hn with hn | hn
    · obtain ⟨part0, old0, hτ0, hold0, hresult0, hinstr0⟩ := h.member n hn
      obtain ⟨hnb, hnm⟩ := hdone n hn
      have hpart0 := mem_of_eq_singleton hτ0
      -- a shuffle is none of the instructions that were there from the start
      have hpartNe : part0 ≠ m.1.inst := by
        rintro rfl
        have hfresh := (h.recast.added b hb n.1.inst hnb _ hpart0 hnm.symm).1
        have := hk.made b _ hm
        rw [hfresh] at this
        cases this
      have hτ2 : (if part0 = m.1.inst then [part] else [part0]) = [part0] := if_neg hpartNe
      obtain ⟨hinstr2, hresult2, hname2⟩ := hr.kept b (h.recast.layout ▸ hb) part0 (h.recast.mem_instsOf hb hnb hpart0)
        (mem_of_eq_singleton hτ2)
      refine ⟨part0, old0, ?_, hold0, ?_, ?_⟩
      · rw [hτ0, flatMap_singleton, hτ2]
      · rw [hresult2, hresult0]
        exact congrArg some (hname2 _ hresult0).symm
      · rw [hinstr2, hinstr0]
        simp [mapOperands, hne]
    · obtain rfl := mem_singleton.mp hn
      have hname := (h.recast.kept b hb _ hm (mem_of_eq_singleton hτ)).2.2 old hold
      refine ⟨part, old, ?_, hold, ?_, hinstr⟩
      · rw [hτ, flatMap_singleton, if_pos rfl]
      · rw [hresult, Function.comp_apply, hname, if_pos rfl]
  · have hold : ∀ n ∈ done, n.1.inst ≠ i := fun n hn => hi n (mem_append_left _ hn)
    have him : i ≠ m.1.inst := fun heq => hi m (by simp) heq.symm
    rw [h.other i hold, flatMap_singleton, if_neg him]
  · by_cases hρ : ρ v = v
    · rw [Function.comp_apply, hρ] at hv
      have hvold : v = old := by
        by_contra hne
        exact hv (if_neg hne)
      exact ⟨m, by simp, hvold ▸ hold⟩
    · obtain ⟨n, hn, hnv⟩ := h.renamed v hρ
      exact ⟨n, mem_append_left _ hn, hnv⟩

/-- Only results of members are renamed. -/
theorem typed_of_renamed (h : SplitLoads k k1 g stretch done ρ τ) (hs : k.Sound φ) (hb : b ∈ k.layout) {ty : Ty}
    (hdone : ∀ n ∈ done, n.1.inst ∈ k.instsOf b ∧ k.resultTy n.1.inst = ty) {v : ValueId} (hv : ρ v ≠ v) :
    k.Typed v ty ∧ ∃ i, (k.value? v).map (·.kind) = some (.inst i) := by
  obtain ⟨n, hn, hresult⟩ := h.renamed v hv
  obtain ⟨hnb, hty⟩ := hdone n hn
  exact ⟨hty ▸ hs.typed_result hb hnb hresult, _, hs.coherent.defines _ _ hresult⟩

end SplitLoads

section

variable {wide : InstId}

/-- All members behind a load of the stretch can be replaced by shuffles of it. -/
theorem exists_splitLoads (hs : k.Sound φ) (hb : b ∈ k.layout) (hsplit : k.instsOf b = pre ++ wide :: post)
    (hwide : k.result? wide = some stretch) (hty : k.resultTy wide = .fixedVector g.kind.elem g.size)
    (hcount : g.size < 2 ^ 32) (hnodup : (ms.map (·.1.inst)).Nodup) (hmem : ∀ m ∈ ms, m.1.inst ∈ post)
    (hoffset : ∀ m ∈ ms, m.2 < g.kind.stride.toNat) (hplain : ∀ m ∈ ms, k.Plain m.1.inst)
    (hresult : ∀ m ∈ ms, k.resultTy m.1.inst = .fixedVector g.kind.elem g.kind.lanes) :
    ∃ k' ρ τ, ms.foldlM (splitLoad g stretch) k = .ok k' ∧ k'.Sound φ ∧ SplitLoads k k' g stretch ms ρ τ := by
  have hk := hs.coherent
  -- the load of the stretch is none of the members
  have hwideNe : ∀ n ∈ ms, n.1.inst ≠ wide := by
    intro n hn heq
    have := hk.nodup b
    rw [hsplit, nodup_append, nodup_cons] at this
    exact this.2.1.1 (heq ▸ hmem n hn)
  have hwb : wide ∈ k.instsOf b := by
    rw [hsplit]
    simp
  have hmb : ∀ m ∈ ms, m.1.inst ∈ k.instsOf b := by
    intro m hm
    rw [hsplit]
    simp [hmem m hm]
  suffices hstep : ∀ todo done k1 ρ τ, ms = done ++ todo → k1.Sound φ → SplitLoads k k1 g stretch done ρ τ →
      ∃ k' ρ τ, todo.foldlM (splitLoad g stretch) k1 = .ok k' ∧ k'.Sound φ ∧ SplitLoads k k' g stretch ms ρ τ by
    refine hstep ms [] k id (fun i => [i]) rfl hs ⟨.refl hk, ?_, fun _ _ => rfl, fun v hv => absurd rfl hv⟩
    exact nofun
  intro todo
  induction todo with
  | nil =>
    intro done k1 ρ τ hms hs1 hsp
    rw [append_nil] at hms
    subst hms
    exact ⟨k1, ρ, τ, rfl, hs1, hsp⟩
  | cons m todo ih =>
    intro done k1 ρ τ hms hs1 hsp
    have hm : m ∈ ms := by
      rw [hms]
      simp
    have hsub : ∀ n ∈ done, n ∈ ms := by
      intro n hn
      rw [hms]
      simp [hn]
    have hr := hsp.recast
    have hnew : ∀ n ∈ done, n.1.inst ≠ m.1.inst := by
      rw [hms, map_append, map_cons, nodup_append] at hnodup
      exact fun n hn => hnodup.2.2 _ (mem_map_of_mem hn) _ (.head _)
    have hτ := hsp.other m.1.inst hnew
    have hτwide : τ wide = [wide] := hsp.other wide fun n hn => hwideNe n (hsub n hn)
    have hkept := mem_of_eq_singleton hτ
    have hwideKept := mem_of_eq_singleton hτwide
    have hb1 : b ∈ k1.layout := hr.layout ▸ hb
    have hwb1 : wide ∈ k1.instsOf b := hr.mem_instsOf hb hwb hwideKept
    have hwide1 : k1.result? wide = some stretch := (hr.kept b hb wide hwb hwideKept).2.1.trans hwide
    -- the load of the stretch still stands in front of the member
    obtain ⟨pre1, post1, hsplit1, hwidePre⟩ : ∃ pre1 post1, k1.instsOf b = pre1 ++ m.1.inst :: post1 ∧ wide ∈ pre1 := by
      obtain ⟨p, q, hpost⟩ := append_of_mem (hmem m hm)
      refine ⟨pre.flatMap τ ++ ([wide] ++ p.flatMap τ), q.flatMap τ, ?_, by simp⟩
      rw [hr.insts b hb, hsplit, hpost, flatMap_append, flatMap_cons, flatMap_append, flatMap_cons, hτ,
        hτwide]
      simp
    have hresult1 := (hr.kept b hb m.1.inst (hmb m hm) hkept).2.1
    obtain ⟨old, hold⟩ : ∃ old, k.result? m.1.inst = some old := by
      cases hold : k.result? m.1.inst with
      | some old => exact ⟨old, rfl⟩
      | none =>
        have := hresult m hm
        rw [resultTy, hold] at this
        exact absurd this (by simp [Ty.fixedVector])
    have hne : stretch ≠ old := fun heq => hwideNe m hm (hk.result_inj (heq ▸ hold) hwide)
    have hstretch : k1.Typed stretch (.fixedVector g.kind.elem g.size) := by
      have := hs1.typed_result hb1 hwb1 hwide1
      rwa [hr.resultTy_eq hk hb hwb hwideKept, hty] at this
    obtain ⟨k2, part, hstep, hs2, hr2, hpart, hpartResult⟩ := exists_splitLoad hs1 hb1 hsplit1
      (hr.plain hb (hmb m hm) hkept (hplain m hm)) (hresult1.trans hold)
      ((hr.resultTy_eq hk hb (hmb m hm) hkept).trans (hresult m hm)) hstretch
      (hs1.ready_result hb1 hwb1 hwide1 hwidePre) hne (hoffset m hm) hcount
    have hsp2 := hsp.snoc hk hb (fun n hn => ⟨hmb n (hsub n hn), hnew n hn⟩) (hmb m hm) hold hne hr2 hpart hpartResult
    obtain ⟨k', ρ', τ', hfold, hs', hsp'⟩ := ih (done ++ [m]) k2 _ _ (by rw [hms]; simp) hs2 hsp2
    exact ⟨k', ρ', τ', by rw [foldlM_cons, hstep]; exact hfold, hs', hsp'⟩

end

/-- A load of the whole stretch stands in front of the first member, and every member is a shuffle of it. -/
structure WideLoad (k k' : Kernel) (g : InterleaveGroup) (ρ : ValueId → ValueId) (τ : InstId → List InstId)
    (starts : List InstId) (start : ValueId) (wide : InstId) (stretch : ValueId) : Prop where
  recast : Recast k k' ρ τ
  begins : k'.Begins g.kind.elem g.first.1.ptr g.first.2 starts start
  instr : k'.instr? wide = some (.load start none g.kind.elem.size)
  result : k'.result? wide = some stretch
  ty : k'.resultTy wide = .fixedVector g.kind.elem g.size
  member : ∀ m ∈ g.members, ∃ part old,
    τ m.1.inst = (if m.1.inst = g.first.1.inst then starts ++ [wide, part] else [part]) ∧ k.result? m.1.inst = some old ∧
    k'.result? part = some (ρ old) ∧ k'.instr? part = some (.shuffle [stretch] (g.picks m.2))
  other : ∀ i, g.holds i = false → τ i = [i]
  renamed : ∀ v, ρ v ≠ v → ∃ m ∈ g.members, k.result? m.1.inst = some v
  fresh : ∀ u, (k.value? u).isSome = true → ρ u ≠ stretch ∧ (starts ≠ [] → ρ u ≠ start)

section

/-- **Loads that cover a stretch can be merged.** -/
theorem exists_mergeLoads (hs : k.Sound φ) (hb : b ∈ k.layout) (hreach : φ.Reached b) (hg : g.Covers k b)
    (hload : g.kind.isStore = false) (hcount : g.size < 2 ^ 32) :
    ∃ k' ρ τ starts start wide stretch, k.mergeLoads g = .ok k' ∧ k'.Sound φ ∧
      WideLoad k k' g ρ τ starts start wide stretch := by
  have hk := hs.coherent
  obtain ⟨pre, post, hsplit, ⟨rest, hrest⟩, _, hspan⟩ := hg.split
  obtain ⟨hfirst, _⟩ := first_spec hg.ne_nil
  have hmember : ∀ m ∈ g.members, m.1.inst ∈ g.first.1.inst :: (rest ++ post) := by
    intro m hm
    have := hspan m hm
    rw [hrest] at this
    exact mem_append_left post this
  rw [hrest, cons_append] at hsplit
  generalize hfull : rest ++ post = behind at hsplit hmember
  have hmem : ∀ m ∈ g.members, m.1.inst ∈ k.instsOf b := fun m hm => hg.mem_instsOf hm
  have hptr := (hg.strided hfirst).typed_ptr hs hb (hmem _ hfirst)
  have hready : k.Ready φ b pre g.first.1.ptr := by
    obtain ⟨instr, hinstr, hop, hphi, _⟩ := (hg.strided hfirst).exists_instr
    exact hs.ordered b hreach pre _ _ hsplit instr hinstr hphi _ hop
  -- the load of the stretch
  have hbefore : Cursor.Before ⟨k, .before g.first.1.inst⟩ φ b pre g.first.1.inst behind :=
    .start hs hb hsplit (hg.plain hfirst)
  obtain ⟨starts, start, wide, stretch, c2, hbuild, hemits, hbegins, hwideInstr, hwideResult, hwideTy, hstretchNew, hstartNew,
    hstartTy⟩ := exists_loadStretch g.kind.elem hbefore hptr hready g.first.2 g.size
  have hr2 := hemits.recast
  have hs2 := hemits.before.sound
  have hb2 := hemits.before.listed
  have hsplit2 : c2.kernel.instsOf b = (pre ++ starts) ++ wide :: (g.first.1.inst :: behind) := by
    rw [hemits.before.place.insts]
    simp
  have hresult2 : ∀ m ∈ g.members, c2.kernel.result? m.1.inst = k.result? m.1.inst := fun m hm =>
    (hemits.kept hk (hmem m hm)).2.2.1
  -- the members become shuffles
  have hmember2 : ∀ m ∈ g.members, m.1.inst ∈ c2.kernel.instsOf b ∧
      c2.kernel.resultTy m.1.inst = .fixedVector g.kind.elem g.kind.lanes := by
    intro m hm
    obtain ⟨_, _, _, hty⟩ := hg.load hm hload
    obtain ⟨hlisted, _, _, hty2⟩ := hemits.kept hk (hmem m hm)
    exact ⟨hlisted, hty2.trans hty⟩
  obtain ⟨k', ρ, τ, hfold, hs', hsp⟩ := exists_splitLoads (g := g) hs2 hb2 hsplit2 hwideResult hwideTy hcount
    (hg.nodup_insts hk) hmember (fun m hm => hg.offset_lt hm)
    (fun m hm => hr2.plain hb (hmem m hm) (mem_inFrontOf _ _ _) (hg.plain hm)) fun m hm => (hmember2 m hm).2
  have hother : ∀ s ∈ pre ++ starts ++ [wide], τ s = [s] := by
    intro s hs
    refine hsp.other s fun m hm heq => ?_
    have hnodup := hs2.coherent.nodup b
    rw [hemits.before.place.insts, ← append_assoc, nodup_append] at hnodup
    exact hnodup.2.2 s hs s (heq ▸ hmember m hm) rfl
  have hself : ∀ s ∈ pre ++ starts ++ [wide], s ∈ τ s := fun s hs => mem_of_eq_singleton (hother s hs)
  have hwb : wide ∈ c2.kernel.instsOf b := by
    rw [hsplit2]
    simp
  obtain ⟨hwideInstr', hwideResult', hwideName⟩ := hsp.recast.kept b hb2 wide hwb (hself wide (by simp))
  -- only vectors are renamed, so the start of the stretch is not
  have hptr2 : ρ g.first.1.ptr = g.first.1.ptr := by
    by_contra hne
    exact absurd ((hemits.typed hk hptr).unique (hsp.typed_of_renamed hs2 hb2 hmember2 hne).1) (by simp [Ty.fixedVector])
  have hconst : ∀ v d x, c2.kernel.value? v = some d → d.kind = .const x → ρ v = v := by
    intro v d x hd hkind
    by_contra hne
    obtain ⟨i, hi⟩ := (hsp.typed_of_renamed hs2 hb2 hmember2 hne).2
    rw [hd, Option.map_some, hkind] at hi
    cases hi
  have hstarts : ∀ s ∈ starts, s ∈ c2.kernel.instsOf b ∧ s ∈ τ s := by
    intro s hs
    refine ⟨?_, hself s (by simp [hs])⟩
    rw [hsplit2]
    simp [hs]
  obtain ⟨hbegins', hstartName⟩ := hbegins.recast hsp.recast hb2 hstarts hptr2 hconst
  refine ⟨k', ρ, fun i => (inFrontOf g.first.1.inst (starts ++ [wide]) i).flatMap τ, starts, start, wide,
    stretch, ?_, hs', hr2.trans hk hsp.recast, hbegins', ?_, hwideResult'.trans hwideResult, ?_, fun m hm => ?_, fun i hi => ?_,
    fun v hv => ?_, fun u hu => ?_⟩
  · have hword : Checked.word32 g.size = .ok g.size := if_pos hcount
    exact bind_eq_ok.mpr ⟨_, hword, bind_eq_ok.mpr ⟨(stretch, c2), hbuild, hfold⟩⟩
  · rw [hwideInstr', hwideInstr]
    simp [mapOperands, hstartName]
  · rw [hsp.recast.resultTy_eq hs2.coherent hb2 hwb (hself wide (by simp)), hwideTy]
  · obtain ⟨part, old, hτ, hold, hresult, hinstr⟩ := hsp.member m hm
    rw [hresult2 m hm] at hold
    refine ⟨part, old, ?_, hold, hresult, hinstr⟩
    split
    next heq =>
      rw [heq, inFrontOf_self, flatMap_append, flatMap_eq_self fun s hs => hother s (by simp at hs ⊢; tauto),
        flatMap_singleton, ← heq, hτ]
      simp
    next hne =>
      rw [inFrontOf_of_ne hne, flatMap_singleton, hτ]
  · have hnot := not_holds_iff.mp hi
    rw [inFrontOf_of_ne (hnot _ hfirst).symm, flatMap_singleton, hsp.other i hnot]
  · obtain ⟨m, hm, hresult⟩ := hsp.renamed v hv
    rw [hresult2 m hm] at hresult
    exact ⟨m, hm, hresult⟩
  · -- the values of the stretch are named as they are, so nothing else is named so
    have hne : ∀ v, k.value? v = none → (∃ ty, c2.kernel.Typed v ty) → ρ v = v → ρ u ≠ v := by
      rintro v hv ⟨ty, e, he, _⟩ hname heq
      obtain ⟨d, hd⟩ := isSome_iff_exists.mp hu
      have := hsp.recast.injective u v (by rw [hemits.values u d hd]; rfl) (by rw [he]; rfl) (heq.trans hname.symm)
      rw [← this, hd] at hv
      cases hv
    exact ⟨hne _ hstretchNew ⟨_, hs2.typed_result hb2 hwb hwideResult⟩ (hwideName _ hwideResult),
      fun hsome => hne _ (hstartNew hsome) ⟨_, hstartTy⟩ hstartName⟩

end

/-! ## Stores -/

/-- The lanes of what the members store, in the order of the stretch. -/
def InterleaveGroup.mix (g : InterleaveGroup) : List Nat :=
  (range g.size).map fun n =>
    n % g.kind.stride.toNat * g.kind.lanes + n / g.kind.stride.toNat

theorem InterleaveGroup.lt_of_mem_mix {g : InterleaveGroup} (hp : p ∈ g.mix) : p < g.size := by
  obtain ⟨n, hn, rfl⟩ := mem_map.mp hp
  have hn := mem_range.mp hn
  have hpos : 0 < g.kind.stride.toNat := by
    by_contra hzero
    rw [size, show g.kind.stride.toNat = 0 by omega, Nat.zero_mul] at hn
    omega
  have hlane : n / g.kind.stride.toNat < g.kind.lanes := Nat.div_lt_of_lt_mul hn
  have hmember : n % g.kind.stride.toNat + 1 ≤ g.kind.stride.toNat := Nat.mod_lt n hpos
  calc n % g.kind.stride.toNat * g.kind.lanes + n / g.kind.stride.toNat
      < n % g.kind.stride.toNat * g.kind.lanes + g.kind.lanes := by omega
    _ = (n % g.kind.stride.toNat + 1) * g.kind.lanes := (Nat.succ_mul _ _).symm
    _ ≤ g.kind.stride.toNat * g.kind.lanes := Nat.mul_le_mul_right _ hmember

/-- A store of the whole stretch, of a shuffle of what the members stored, stands in the place of the last member, and the
other members are gone. -/
structure WideStore (k k' : Kernel) (g : InterleaveGroup) (τ : InstId → List InstId) (starts : List InstId)
    (start : ValueId) (mix : InstId) (mixed : ValueId) (wide : InstId) : Prop where
  recast : Recast k k' id τ
  begins : k'.Begins g.kind.elem g.last.1.ptr g.last.2 starts start
  mixInstr : k'.instr? mix = some (.shuffle (g.members.filterMap fun m => k.storedValue? m.1) g.mix)
  mixResult : k'.result? mix = some mixed
  mixTy : k'.resultTy mix = .fixedVector g.kind.elem g.size
  instr : k'.instr? wide = some (.store start mixed none g.kind.elem.size)
  silent : k'.result? wide = none
  last : τ g.last.1.inst = starts ++ [mix, wide]
  member : ∀ m ∈ g.members, m.1.inst ≠ g.last.1.inst → τ m.1.inst = []
  other : ∀ i, g.holds i = false → τ i = [i]
  fresh : k.value? mixed = none ∧ (starts ≠ [] → k.value? start = none)

section

variable {elem : ScalarTy}

/-- A store of a stretch can be built. -/
theorem exists_storeStretch (picks : List Nat) (h : c.Before φ b pre i post) (hptr : c.kernel.Typed ptr .ptr)
    (hready : c.kernel.Ready φ b pre ptr) (offset : Nat) {values : List ValueId}
    (hvalues : ∀ v ∈ values, c.kernel.Typed v (.fixedVector elem lanes) ∧ c.kernel.Ready φ b pre v)
    (hsome : values ≠ []) (hcount : values.length * lanes < 2 ^ 32) (hpicks : ∀ p ∈ picks, p < values.length * lanes) :
    ∃ starts start mix mixed wide c',
      (do
        let start ← stretchStart elem ptr offset
        let mixed ← Build.shuffle values picks
        discard <| Build.store start mixed none elem.size) c = .ok ((), c') ∧
      c.Emits φ b pre i post (starts ++ [mix, wide]) c' ∧ c'.kernel.Begins elem ptr offset starts start ∧
      c'.kernel.instr? mix = some (.shuffle values picks) ∧ c'.kernel.result? mix = some mixed ∧
      c'.kernel.resultTy mix = .fixedVector elem picks.length ∧
      c'.kernel.instr? wide = some (.store start mixed none elem.size) ∧ c'.kernel.result? wide = none ∧
      c.kernel.value? mixed = none ∧ (starts ≠ [] → c.kernel.value? start = none) := by
  have hk := h.sound.coherent
  obtain ⟨start, c1, starts, hstart, hemits1, hbegins, hty, hstartReady, hnew⟩ :=
    exists_stretchStart elem h hptr hready offset
  -- the shuffle
  have htyped1 : ∀ v ∈ values, c1.kernel.Typed v (.fixedVector elem lanes) := fun v hv => hemits1.typed hk (hvalues v hv).1
  have hresultTy : Build.resultTy .void (.shuffle values picks) c1 = .ok (.fixedVector elem picks.length, c1) := by
    obtain ⟨x, rest, rfl⟩ := exists_cons_of_ne_nil hsome
    obtain ⟨d, hd, hdty, _⟩ := htyped1 x (.head _)
    refine stateBind_eq_ok.mpr ⟨d.ty, _, Build.tyOf_of_value? hd, ?_⟩
    rw [hdty]
    exact statePure_eq_ok.mpr ⟨rfl, rfl⟩
  have htys : Forall₂ c1.kernel.Typed values (replicate values.length (.fixedVector elem lanes)) := by
    rw [← map_const', forall₂_map_right_iff, forall₂_same]
    exact htyped1
  have hflaw := typeFlaw?_shuffle c1.kernel.ret (.fixedVector elem picks.length) values elem
    (fun hzero => hsome (length_eq_zero_iff.mp hzero)) hcount hpicks
  obtain ⟨mix, c2, hmix, hemits2, hins2⟩ := Cursor.Emits.emitValue hemits1.before (.shuffle values picks) .void hresultTy
    rfl ⟨rfl, rfl, ⟨_, htys, hflaw⟩, fun v hv => hemits1.ready (hvalues v hv).2⟩
  -- the store of it
  have hk1 := hemits1.before.sound.coherent
  have hstart2 := hemits2.typed hk1 hty
  have hallows : c2.kernel.Allows φ b (pre ++ starts ++ [mix]) (.store start c1.kernel.values.nextId none elem.size)
      .void := by
    refine ⟨rfl, rfl, ⟨_, .cons hstart2 (.cons (hins2.typed_new rfl) .nil), rfl⟩, fun v hv => ?_⟩
    rcases mem_pair.mp hv with rfl | rfl
    · exact hemits2.ready hstartReady
    · exact hins2.ready_new rfl (by simp)
  obtain ⟨wide, c3, hwide, hemits3, hins3⟩ := Cursor.Emits.emit hemits2.before _ .void rfl hallows
  have hmixb : mix ∈ c2.kernel.instsOf b := by
    rw [hemits2.before.place.insts]
    simp
  obtain ⟨_, hmixInstr, hmixResult, hmixTy⟩ := hemits3.kept hemits2.before.sound.coherent hmixb
  have hemits23 := hemits2.trans hemits3 hk1
  refine ⟨starts, start, mix, c1.kernel.values.nextId, wide, c3, ?_, hemits1.trans hemits23 hk, hbegins.emits hemits23,
    hmixInstr.trans hins2.instr?_new, hmixResult.trans (hins2.result?_new rfl), hmixTy.trans hins2.resultTy_new,
    hins3.instr?_new, ?_, hemits1.value?_eq_none (value?_nextId _), hnew⟩
  · refine stateBind_eq_ok.mpr ⟨start, c1, hstart, stateBind_eq_ok.mpr ⟨_, c2, hmix, ?_⟩⟩
    exact bind_eq_ok.mpr ⟨(wide, c3), hwide, rfl⟩
  · rw [result?, hins3.inst_new]
    rfl

/-- Members that nothing reads can be removed. -/
theorem exists_removeMembers (hs : k.Sound φ) (hb : b ∈ k.layout) (hnodup : (ms.map (·.1.inst)).Nodup)
    (hmem : ∀ m ∈ ms, m.1.inst ∈ k.instsOf b) (hplain : ∀ m ∈ ms, k.Plain m.1.inst)
    (hsilent : ∀ m ∈ ms, k.result? m.1.inst = none) :
    ∃ k', ms.foldlM (fun k m => k.removeInst m.1.inst) k = .ok k' ∧ k'.Sound φ ∧
      Recast k k' id fun l => if l ∈ ms.map (·.1.inst) then [] else [l] := by
  induction ms generalizing k with
  | nil => exact ⟨k, rfl, hs, by simpa using Recast.refl hs.coherent⟩
  | cons m ms ih =>
    have hk := hs.coherent
    have hm : m ∈ m :: ms := .head _
    rw [map_cons, nodup_cons] at hnodup
    obtain ⟨d, hd, halive, hblock⟩ := hs.linked b hb m.1.inst (hmem m hm)
    obtain ⟨pre, post, hsplit⟩ := append_of_mem (hmem m hm)
    have hresult : d.result = none := by
      have := hsilent m hm
      rwa [result?, hd] at this
    obtain ⟨k1, hremove⟩ := exists_removeInst hd (hblock ▸ hk.blocks b hb)
    have hremoved := removeInst_eq_ok hd halive hremove
    have hr := Recast.removed hremoved hk (hblock ▸ hsplit) (hplain m hm)
    have hs1 : k1.Sound φ := hs.removed hremoved fun v hv => by cases hresult.symm.trans hv
    -- the others stay what they were
    have hne : ∀ n ∈ ms, n.1.inst ≠ m.1.inst := fun n hn heq => hnodup.1 (heq ▸ mem_map_of_mem hn)
    have hkept : ∀ n ∈ ms, n.1.inst ∈ if n.1.inst = m.1.inst then [] else [n.1.inst] := fun n hn =>
      mem_of_eq_singleton (if_neg (hne n hn))
    have hold : ∀ n ∈ ms, k1.inst? n.1.inst = k.inst? n.1.inst := fun n hn => hremoved.inst_ne _ (hne n hn)
    obtain ⟨k', hfold, hs', hr'⟩ := ih hs1 (hr.layout ▸ hb) hnodup.2
      (fun n hn => hr.mem_instsOf hb (hmem n (.tail _ hn)) (hkept n hn))
      (fun n hn => hr.plain hb (hmem n (.tail _ hn)) (hkept n hn) (hplain n (.tail _ hn)))
      fun n hn => by rw [result?, hold n hn]; exact hsilent n (.tail _ hn)
    refine ⟨k', by rw [foldlM_cons, hremove]; exact hfold, hs', ?_⟩
    have htrans := hr.trans hk hr'
    have heq : (fun i => (if i = m.1.inst then [] else [i]).flatMap fun l => if l ∈ ms.map (·.1.inst) then [] else [l]) =
        fun l => if l ∈ (m :: ms).map (·.1.inst) then [] else [l] := by
      funext l
      by_cases hl : l = m.1.inst
      · simp [hl]
      · rw [if_neg hl, flatMap_singleton, map_cons]
        simp only [mem_cons, hl, false_or]
    rwa [heq] at htrans

/-- What the members store, at the place of the last of them. -/
theorem InterleaveGroup.Covers.storedValues (hg : g.Covers k b) (hstore : g.kind.isStore = true) :
    (g.members.filterMap fun m => k.storedValue? m.1).length = g.kind.stride.toNat ∧
      ∀ v ∈ g.members.filterMap fun m => k.storedValue? m.1, ∃ m ∈ g.members, k.storedValue? m.1 = some v := by
  refine ⟨?_, fun v hv => mem_filterMap.mp hv⟩
  rw [← hg.length_eq]
  refine filterMap_length_eq_length.mpr fun m hm => ?_
  obtain ⟨_, _, _, hinstr, _⟩ := hg.store hm hstore
  rw [storedValue?, hinstr]
  rfl

/-- **Stores that cover a stretch can be merged.** -/
theorem exists_mergeStores (hs : k.Sound φ) (hb : b ∈ k.layout) (hreach : φ.Reached b) (hg : g.Covers k b)
    (hstore : g.kind.isStore = true) (hsilent : ∀ m ∈ g.members, k.result? m.1.inst = none)
    (hcount : g.size < 2 ^ 32) :
    ∃ k' τ starts start mix mixed wide, k.mergeStores g = .ok k' ∧ k'.Sound φ ∧
      WideStore k k' g τ starts start mix mixed wide := by
  have hk := hs.coherent
  obtain ⟨front, post, hsplit, _, ⟨rest, hrest⟩, hspan⟩ := hg.split
  obtain ⟨hlast, _⟩ := last_spec hg.ne_nil
  rw [hrest, append_assoc, ← append_assoc] at hsplit
  have hmember : ∀ m ∈ g.members, m.1.inst ∈ (front ++ rest) ++ [g.last.1.inst] := by
    intro m hm
    have := hspan m hm
    rw [hrest] at this
    rw [append_assoc]
    exact mem_append_right front this
  generalize front ++ rest = pre at hsplit hmember
  have hmem : ∀ m ∈ g.members, m.1.inst ∈ k.instsOf b := fun m hm => hg.mem_instsOf hm
  have hready : ∀ m ∈ g.members, ∀ instr, k.instr? m.1.inst = some instr → ∀ v ∈ instr.operands, k.Ready φ b pre v :=
    fun m hm instr hinstr v hv => hs.ready_behind hreach hsplit (hmember m hm) hinstr (hg.plain hm hinstr).1 hv
  obtain ⟨hlength, hstored⟩ := hg.storedValues hstore
  generalize hvalues : (g.members.filterMap fun m => k.storedValue? m.1) = values at hlength hstored
  have hvalue : ∀ v ∈ values, k.Typed v (.fixedVector g.kind.elem g.kind.lanes) ∧ k.Ready φ b pre v := by
    intro v hv
    obtain ⟨m, hm, hv⟩ := hstored v hv
    obtain ⟨stride, value, _, hinstr, hty⟩ := hg.store hm hstore
    obtain rfl : value = v := by
      rw [storedValue?, hinstr] at hv
      exact Option.some.inj hv
    have hready := hready m hm _ hinstr value (by simp [operands])
    refine ⟨?_, hready⟩
    obtain ⟨_, d, hd, _, halive⟩ := hready.typed
    obtain ⟨d', hd', hty⟩ := bind_eq_ok.mp hty
    obtain rfl := mem_unique hd (some?_eq_ok.mp hd')
    exact ⟨d, hd, pure_eq_ok.mp hty, halive⟩
  -- the store of the stretch
  have hbefore : Cursor.Before ⟨k, .before g.last.1.inst⟩ φ b pre g.last.1.inst post :=
    .start hs hb hsplit (hg.plain hlast)
  have hptr := (hg.strided hlast).typed_ptr hs hb (hmem _ hlast)
  have hptrReady : k.Ready φ b pre g.last.1.ptr := by
    obtain ⟨instr, hinstr, hop, _⟩ := (hg.strided hlast).exists_instr
    exact hready _ hlast instr hinstr _ hop
  have hsome : values ≠ [] := by
    have htwo := hg.kind.two_le
    rintro rfl
    rw [length_nil] at hlength
    omega
  obtain ⟨starts, start, mix, mixed, wide, c, hbuild, hemits, hbegins, hmixInstr, hmixResult, hmixTy, hinstr, hresult, hfresh⟩ :=
    exists_storeStretch g.mix hbefore hptr hptrReady g.last.2 hvalue hsome (hlength ▸ hcount)
      fun p hp => by rw [hlength]; exact lt_of_mem_mix hp
  have hr1 := hemits.recast
  have hs1 := hemits.before.sound
  have hb1 := hemits.before.listed
  -- the members go
  obtain ⟨k', hfold, hs', hr'⟩ := exists_removeMembers hs1 hb1 (hg.nodup_insts hk)
    (fun m hm => (hemits.kept hk (hmem m hm)).1)
    (fun m hm => hr1.plain hb (hmem m hm) (mem_inFrontOf _ _ _) (hg.plain hm))
    fun m hm => (hemits.kept hk (hmem m hm)).2.2.1.trans (hsilent m hm)
  have hnew : ∀ s ∈ starts ++ [mix, wide], s ∉ g.members.map (·.1.inst) := by
    intro s hs hmem
    obtain ⟨m, hm, rfl⟩ := mem_map.mp hmem
    have hnodup := hs1.coherent.nodup b
    rw [hemits.before.place.insts, append_assoc, nodup_append] at hnodup
    rcases mem_append.mp (hmember m hm) with hpre | hlast
    · exact hnodup.2.2 _ hpre _ (mem_append_left _ hs) rfl
    · rw [mem_singleton.mp hlast] at hs
      exact (nodup_append.mp hnodup.2.1).2.2 _ hs _ (.head _) rfl
  have hstay : ∀ s ∈ starts ++ [mix, wide], (if s ∈ g.members.map (·.1.inst) then [] else [s]) = [s] :=
    fun s hs => if_neg (hnew s hs)
  have hkept : ∀ s ∈ starts ++ [mix, wide], s ∈ c.kernel.instsOf b ∧
      s ∈ (if s ∈ g.members.map (·.1.inst) then [] else [s]) := by
    intro s hs
    rw [hstay s hs, hemits.before.place.insts]
    exact ⟨mem_append_left _ (mem_append_right _ hs), .head _⟩
  obtain ⟨hmixInstr', hmixResult', _⟩ := hr'.kept b hb1 mix (hkept mix (by simp)).1 (hkept mix (by simp)).2
  obtain ⟨hinstr', hresult', _⟩ := hr'.kept b hb1 wide (hkept wide (by simp)).1 (hkept wide (by simp)).2
  obtain ⟨hbegins', _⟩ := hbegins.recast hr' hb1 (fun s hs => hkept s (by simp [hs])) rfl fun _ _ _ _ _ => rfl
  refine ⟨k', _, starts, start, mix, mixed, wide, ?_, hs', hr1.trans hk hr', hbegins', ?_, hmixResult'.trans hmixResult, ?_, ?_,
    hresult'.trans hresult, ?_, fun m hm hne => ?_, fun i hi => ?_, hfresh⟩
  · unfold mergeStores
    have hword : Checked.word32 g.size = .ok g.size := if_pos hcount
    rw [hvalues]
    exact bind_eq_ok.mpr ⟨_, hword, bind_eq_ok.mpr ⟨((), c), hbuild, hfold⟩⟩
  · rw [hmixInstr', hmixInstr, map_mapOperands_id, hvalues]
  · rw [hr'.resultTy_eq hs1.coherent hb1 (hkept mix (by simp)).1 (hkept mix (by simp)).2, hmixTy, InterleaveGroup.mix,
      length_map, length_range]
  · rw [hinstr', hinstr, map_mapOperands_id]
  · rw [inFrontOf_self, flatMap_append, flatMap_eq_self hstay, flatMap_singleton,
      if_pos (mem_map_of_mem hlast), append_nil]
  · rw [inFrontOf_of_ne hne, flatMap_singleton, if_pos (mem_map_of_mem hm)]
  · have hnot : i ∉ g.members.map (·.1.inst) := by simpa using not_holds_iff.mp hi
    have hne : i ≠ g.last.1.inst := fun heq => hnot (heq ▸ mem_map_of_mem hlast)
    rw [inFrontOf_of_ne hne, flatMap_singleton, if_neg hnot]

end

end Spmd
