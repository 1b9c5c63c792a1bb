import Spmd.Interleave
import Spmd.Proofs.Pointer.Address

/-!
# Groups of interleaved accesses

What it takes for a group to be found (**`findGroup?_eq_ok`**): its members are strided accesses of one kind in one
block, and their distances give each of them its own place in the stretch (`Covers`). They lie within a part of the block
that starts with the first and ends with the last (`Covers.split`), and whatever else stands there lets them pass
(`canMerge_eq_ok`).
-/

namespace Spmd

open Success List Option

variable {a : StridedAccess} {classify : Classifier} {b : BlockId} {i : InstId} {g : InterleaveGroup}

/-! ## Strided accesses -/

/-- The instruction of the access makes it. -/
inductive Kernel.Strided (k : Kernel) (a : StridedAccess) : Prop where
  | load (stride : Int64) (hstride : a.stride = stride.toInt) (htwo : 2 ≤ stride) (hkind : a.isStore = false)
      (hinstr : k.instr? a.inst = some (.strideLoad a.ptr stride none))
      (hty : k.resultTy a.inst = .fixedVector a.elem a.lanes)
  | store (stride : Int64) (hstride : a.stride = stride.toInt) (htwo : 2 ≤ stride) (hkind : a.isStore = true)
      (value : ValueId) (hinstr : k.instr? a.inst = some (.strideStore a.ptr value stride none))
      (hty : k.valueTy value = .ok (.fixedVector a.elem a.lanes))

namespace Kernel

variable {k : Kernel} {position : Nat}

theorem stridedAccess?_eq_ok (h : k.stridedAccess? position i = .ok (some a)) :
    a.inst = i ∧ a.position = position ∧ k.Strided a := by
  obtain ⟨d, hd, h⟩ := bind_eq_ok.mp h
  have hinstr : k.instr? i = some d.instr := by rw [instr?, some?_eq_ok.mp hd]; rfl
  cases hcase : d.instr with
  | strideLoad ptr stride mask =>
    rw [hcase] at h hinstr
    cases mask with
    | some _ => cases pure_eq_ok.mp h
    | none =>
      replace h := pure_eq_ok.mp h
      beta_reduce at h
      split at h
      next hty =>
        obtain ⟨htwo, h⟩ := ite_none_right_eq_some.mp h
        cases h
        exact ⟨rfl, rfl, .load stride rfl htwo rfl hinstr hty⟩
      · cases h
  | strideStore ptr value stride mask =>
    rw [hcase] at h hinstr
    cases mask with
    | some _ => cases pure_eq_ok.mp h
    | none =>
      obtain ⟨ty, hty, h⟩ := bind_eq_ok.mp h
      replace h := pure_eq_ok.mp h
      beta_reduce at h
      split at h
      · obtain ⟨htwo, h⟩ := ite_none_right_eq_some.mp h
        cases h
        exact ⟨rfl, rfl, .store stride rfl htwo rfl value hinstr hty⟩
      · cases h
  | _ =>
    rw [hcase] at h
    cases pure_eq_ok.mp h

theorem Strided.two_le (h : k.Strided a) : 2 ≤ a.stride ∧ a.stride < 2 ^ 63 := by
  cases h with
  | load stride hstride htwo | store stride hstride htwo =>
    rw [hstride]
    exact ⟨Int64.le_iff_toInt_le.mp htwo, stride.toInt_lt⟩

/-- The address of a strided access is one of its operands. -/
theorem Strided.exists_instr (h : k.Strided a) : ∃ instr, k.instr? a.inst = some instr ∧ a.ptr ∈ instr.operands ∧
    instr.isPhi = false ∧ instr.isTerminator = false ∧ instr.mayRead = !a.isStore ∧ instr.mayWrite = a.isStore := by
  cases h with
  | load _ _ _ hkind hinstr | store _ _ _ hkind _ hinstr =>
    exact ⟨_, hinstr, .head _, rfl, rfl, by rw [hkind]; rfl, by rw [hkind]; rfl⟩

/-- The address of a strided access is a pointer. -/
theorem Strided.typed_ptr {φ : Flow} (h : k.Strided a) (hs : k.Sound φ) (hb : b ∈ k.layout) (hi : a.inst ∈ k.instsOf b) :
    k.Typed a.ptr .ptr := by
  have hptr : ∀ {ty : Ty} {rest : List (Bool × Flaw)} {flaw : Flaw},
      (pure (Instr.firstBroken ((ty.isPtr, flaw) :: rest)) : Checked (Option Flaw)) = .ok none → ty = .ptr := by
    intro ty rest flaw h
    have h := pure_eq_ok.mp h
    cases hty : ty.isPtr with
    | true => exact of_decide_eq_true hty
    | false => simp [Instr.firstBroken, hty] at h
  cases h with
  | load _ _ _ _ hinstr | store _ _ _ _ _ hinstr =>
    obtain ⟨tys, htys, hflaw⟩ := verifyTypes_iff.mp (hs.typed b hb a.inst hi _ hinstr)
    rcases htys with _ | ⟨hty, _ | ⟨_, _ | _⟩⟩
    exact hptr hflaw ▸ hty

theorem stridedAccesses_eq_ok {as : List StridedAccess} (h : k.stridedAccesses b = .ok as) (ha : a ∈ as) :
    k.stridedAccess? a.position a.inst = .ok (some a) ∧ (k.instsOf b)[a.position]? = some a.inst := by
  obtain ⟨⟨i, position⟩, hmem, hmade⟩ := exists_of_mem_filterMapM h ha
  obtain ⟨rfl, rfl, _⟩ := stridedAccess?_eq_ok hmade
  exact ⟨hmade, mem_zipIdx_iff_getElem?.mp hmem⟩

end Kernel

/-! ## The first and the last of a list -/

/-- Going through a list for the best element finds one that no other beats. -/
theorem foldl_best {α : Type} {R : α → α → Prop} [DecidableRel R] (hirrefl : ∀ x, ¬R x x)
    (htrans : ∀ x y z, ¬R y x → ¬R z y → ¬R z x) (hasymm : ∀ x y, R y x → ¬R x y) (x : α) (l : List α) :
    l.foldl (fun m n => if R n m then n else m) x ∈ x :: l ∧
      ∀ y ∈ x :: l, ¬R y (l.foldl (fun m n => if R n m then n else m) x) := by
  induction l generalizing x with
  | nil => exact ⟨.head _, fun y hy => mem_singleton.mp hy ▸ hirrefl x⟩
  | cons z l ih =>
    rw [foldl_cons]
    split
    next hz =>
      obtain ⟨hmem, hbest⟩ := ih z
      refine ⟨.tail _ hmem, fun y hy => ?_⟩
      rcases mem_cons.mp hy with rfl | hy
      · exact htrans _ z y (hbest z (.head _)) (hasymm y z hz)
      · exact hbest y hy
    next hz =>
      obtain ⟨hmem, hbest⟩ := ih x
      refine ⟨?_, fun y hy => ?_⟩
      · rcases mem_cons.mp hmem with heq | hmem
        · rw [heq]
          exact .head _
        · exact .tail _ (.tail _ hmem)
      · rcases mem_cons.mp hy with rfl | hy
        · exact hbest y (.head _)
        · rcases mem_cons.mp hy with rfl | hy
          · exact htrans _ x y (hbest x (.head _)) hz
          · exact hbest y (.tail _ hy)

namespace InterleaveGroup

theorem first_spec (h : g.members ≠ []) :
    g.first ∈ g.members ∧ ∀ m ∈ g.members, g.first.1.position ≤ m.1.position := by
  obtain ⟨x, l, hl⟩ := exists_cons_of_ne_nil h
  obtain ⟨hmem, hbest⟩ := foldl_best (R := fun n m : StridedAccess × Nat => n.1.position < m.1.position)
    (fun _ => by omega) (fun _ _ _ _ _ => by omega) (fun _ _ _ => by omega) x l
  have hfirst : g.first = l.foldl (fun m n => if n.1.position < m.1.position then n else m) x := by simp [first, hl]
  rw [hfirst, hl]
  exact ⟨hmem, fun m hm => Nat.not_lt.mp (hbest m hm)⟩

theorem last_spec (h : g.members ≠ []) :
    g.last ∈ g.members ∧ ∀ m ∈ g.members, m.1.position ≤ g.last.1.position := by
  obtain ⟨x, l, hl⟩ := exists_cons_of_ne_nil h
  obtain ⟨hmem, hbest⟩ := foldl_best (R := fun n m : StridedAccess × Nat => m.1.position < n.1.position)
    (fun _ => by omega) (fun _ _ _ _ _ => by omega) (fun _ _ _ => by omega) x l
  have hlast : g.last = l.foldl (fun m n => if m.1.position < n.1.position then n else m) x := by simp [last, hl]
  rw [hlast, hl]
  exact ⟨hmem, fun m hm => Nat.not_lt.mp (hbest m hm)⟩

theorem holds_iff : g.holds i = true ↔ ∃ m ∈ g.members, m.1.inst = i := by
  simp [holds]

theorem not_holds_iff : g.holds i = false ↔ ∀ m ∈ g.members, m.1.inst ≠ i := by
  simp [holds]

/-- How many elements the stretch of the group has. -/
abbrev size (g : InterleaveGroup) : Nat := g.kind.stride.toNat * g.kind.lanes

/-- The instructions from the first member to the last. -/
def span (k : Kernel) (b : BlockId) (g : InterleaveGroup) : List InstId :=
  ((k.instsOf b).drop g.first.1.position).take (g.last.1.position - g.first.1.position + 1)

theorem span_sublist (k : Kernel) (b : BlockId) (g : InterleaveGroup) : g.span k b <+ k.instsOf b :=
  (take_sublist _ _).trans (drop_sublist _ _)

/-- The members are strided accesses of one kind in a block, each with its own place in one stretch. -/
structure Covers (k : Kernel) (b : BlockId) (g : InterleaveGroup) : Prop where
  kind : k.Strided g.kind
  anchor : g.kind.inst ∈ k.instsOf b
  listed : ∀ m ∈ g.members, (k.instsOf b)[m.1.position]? = some m.1.inst
  made : ∀ m ∈ g.members, k.stridedAccess? m.1.position m.1.inst = .ok (some m.1)
  alike : ∀ m ∈ g.members, g.kind.sameKind m.1 = true
  offsets : g.members.map (·.2) = range g.kind.stride.toNat
  spaced : ∃ least : Int, ∀ m ∈ g.members, k.distance? g.kind.ptr m.1.ptr = .ok (some ((least + m.2) * g.kind.elem.size))

end InterleaveGroup

namespace Kernel

variable {k : Kernel} {a' anchor : StridedAccess}

theorem offsetFrom?_eq_ok {offset : Int} (h : k.offsetFrom? anchor a = .ok (some (a', offset))) :
    a' = a ∧ k.distance? anchor.ptr a.ptr = .ok (some (offset * a.elem.size)) := by
  obtain ⟨o, ho, h⟩ := bind_eq_ok.mp h
  cases o with
  | none => cases pure_eq_ok.mp h
  | some bytes =>
    dsimp only at h
    split at h
    · cases pure_eq_ok.mp h
    next hmod =>
      obtain ⟨_, _, h⟩ := bind_eq_ok.mp h
      have h := pure_eq_ok.mp h
      split at h
      · cases h
        refine ⟨rfl, ?_⟩
        rw [ho, Int.ediv_mul_cancel (Int.dvd_of_emod_eq_zero (by simpa using hmod))]
      · cases h

theorem cluster?_eq_ok {bucket : List StridedAccess} (h : k.cluster? bucket anchor = .ok (some g)) :
    g.kind = anchor ∧ (g.members.length : Int) = anchor.stride ∧
      g.members.map (·.2) = range g.members.length ∧
      ∃ least : Int, ∀ m ∈ g.members, m.1 ∈ bucket ∧
        k.distance? anchor.ptr m.1.ptr = .ok (some ((least + m.2) * m.1.elem.size)) := by
  obtain ⟨near, hnear, h⟩ := bind_eq_ok.mp h
  cases hmin : (near.map (·.2)).min? with
  | none =>
    rw [hmin] at h
    cases pure_eq_ok.mp h
  | some least =>
    rw [hmin] at h
    have h := pure_eq_ok.mp h
    split at h
    next hwhole =>
      cases h
      refine ⟨rfl, hwhole.1, hwhole.2, least, fun m hm => ?_⟩
      have hm := (mem_filter.mp (mem_mergeSort.mp hm)).1
      obtain ⟨⟨a, offset⟩, hmem, rfl⟩ := mem_map.mp hm
      obtain ⟨a0, ha0, hoffset⟩ := exists_of_mem_filterMapM hnear hmem
      obtain ⟨rfl, hdistance⟩ := offsetFrom?_eq_ok hoffset
      have hleast : least ≤ offset := (min?_eq_some_iff.mp hmin).2 offset (mem_map_of_mem hmem)
      refine ⟨ha0, ?_⟩
      rw [hdistance]
      show Except.ok (some (offset * (a.elem.size : Int))) =
        .ok (some ((least + ((offset - least).toNat : Int)) * (a.elem.size : Int)))
      rw [Int.toNat_of_nonneg (by omega)]
      congr 3
      omega
    · cases h

/-- What stands between the members of a group that can be merged lets them pass. -/
theorem canMerge_eq_ok (h : k.canMerge classify b g = .ok true) : ∃ root, k.memoryRoot g.first.1.ptr = .ok root ∧
    ∀ i ∈ g.span k b, g.holds i = false → k.letsPass classify g.kind.isStore root i = .ok true := by
  obtain ⟨root, hroot, hall⟩ := bind_eq_ok.mp h
  refine ⟨root, hroot, fun i hi hno => ?_⟩
  exact allM_eq_ok_true.mp hall i (mem_filter.mpr ⟨hi, by rw [hno]; rfl⟩)

theorem sameKind_iff : a.sameKind a' = true ↔
    a.isStore = a'.isStore ∧ a.elem = a'.elem ∧ a.stride = a'.stride ∧ a.lanes = a'.lanes := by
  simp [StridedAccess.sameKind, and_assoc]

/-- **A group that is found covers a stretch and can be merged.** -/
theorem findGroup?_eq_ok (h : k.findGroup? classify b = .ok (some g)) :
    g.Covers k b ∧ k.canMerge classify b g = .ok true := by
  obtain ⟨accesses, haccesses, h⟩ := bind_eq_ok.mp h
  obtain ⟨⟨bucket, anchor⟩, hmem, h⟩ := exists_of_findSomeM? h
  have hmem := (mem_filter.mp hmem).1
  obtain ⟨bucket', hbucket, hmem⟩ := mem_flatMap.mp hmem
  obtain ⟨_, hanchor, heq⟩ := mem_map.mp hmem
  cases heq
  -- a bucket holds the accesses of one kind
  rw [StridedAccess.buckets, mem_eraseDups] at hbucket
  obtain ⟨a0, _, rfl⟩ := mem_map.mp hbucket
  obtain ⟨o, hcluster, h⟩ := bind_eq_ok.mp h
  cases o with
  | none => cases pure_eq_ok.mp h
  | some g' =>
    obtain ⟨can, hcan, h⟩ := bind_eq_ok.mp h
    have h := pure_eq_ok.mp h
    cases can with
    | false => cases h
    | true =>
      obtain rfl := some.inj h
      obtain ⟨rfl, hlength, hoffsets, least, hmembers⟩ := cluster?_eq_ok hcluster
      have hkind : ∀ {a}, a ∈ accesses.filter a0.sameKind → a ∈ accesses ∧ a0.sameKind a = true := mem_filter.mp
      have hsame : ∀ {a}, a ∈ accesses.filter a0.sameKind → g'.kind.sameKind a = true := by
        intro a ha
        have h1 := sameKind_iff.mp (hkind ha).2
        have h2 := sameKind_iff.mp (hkind hanchor).2
        rw [sameKind_iff]
        refine ⟨h2.1.symm.trans h1.1, h2.2.1.symm.trans h1.2.1, h2.2.2.1.symm.trans h1.2.2.1, h2.2.2.2.symm.trans h1.2.2.2⟩
      obtain ⟨hmade, hplace⟩ := stridedAccesses_eq_ok haccesses (hkind hanchor).1
      refine ⟨⟨(stridedAccess?_eq_ok hmade).2.2, mem_of_getElem? hplace, fun m hm => ?_, fun m hm => ?_,
        fun m hm => hsame (hmembers m hm).1, ?_, least, fun m hm => ?_⟩, hcan⟩
      · exact (stridedAccesses_eq_ok haccesses (hkind (hmembers m hm).1).1).2
      · exact (stridedAccesses_eq_ok haccesses (hkind (hmembers m hm).1).1).1
      · rw [hoffsets, ← hlength, Int.toNat_natCast]
      · rw [(sameKind_iff.mp (hsame (hmembers m hm).1)).2.1]
        exact (hmembers m hm).2

end Kernel

namespace InterleaveGroup.Covers

variable {k : Kernel} (hg : g.Covers k b) {m : StridedAccess × Nat}

include hg

theorem length_eq : g.members.length = g.kind.stride.toNat := by
  have := congrArg List.length hg.offsets
  rwa [length_map, length_range] at this

theorem ne_nil : g.members ≠ [] := by
  have htwo := hg.kind.two_le
  have hlength := hg.length_eq
  intro hnil
  rw [hnil, length_nil] at hlength
  omega

theorem strided (hm : m ∈ g.members) : k.Strided m.1 :=
  (Kernel.stridedAccess?_eq_ok (hg.made m hm)).2.2

/-- A member of a group of loads. -/
theorem load {m : StridedAccess × Nat} (hm : m ∈ g.members) (hload : g.kind.isStore = false) :
    ∃ stride : Int64, g.kind.stride = stride.toInt ∧ k.instr? m.1.inst = some (.strideLoad m.1.ptr stride none) ∧
      k.resultTy m.1.inst = .fixedVector g.kind.elem g.kind.lanes := by
  obtain ⟨hkind, helem, hstride, hlanes⟩ := Kernel.sameKind_iff.mp (hg.alike m hm)
  rw [helem, hstride, hlanes]
  cases hg.strided hm with
  | load stride hs _ _ hinstr hty => exact ⟨stride, hs, hinstr, hty⟩
  | store _ _ _ hstore => cases hstore.symm.trans (hkind.symm.trans hload)

/-- A member of a group of stores. -/
theorem store {m : StridedAccess × Nat} (hm : m ∈ g.members) (hstore : g.kind.isStore = true) :
    ∃ (stride : Int64) (value : ValueId), g.kind.stride = stride.toInt ∧
      k.instr? m.1.inst = some (.strideStore m.1.ptr value stride none) ∧
      k.valueTy value = .ok (.fixedVector g.kind.elem g.kind.lanes) := by
  obtain ⟨hkind, helem, hstride, hlanes⟩ := Kernel.sameKind_iff.mp (hg.alike m hm)
  rw [helem, hstride, hlanes]
  cases hg.strided hm with
  | load _ _ _ hload => cases hload.symm.trans (hkind.symm.trans hstore)
  | store stride hs _ _ value hinstr hty => exact ⟨stride, value, hs, hinstr, hty⟩

/-- Members are neither phis nor terminators. -/
theorem plain (hm : m ∈ g.members) : k.Plain m.1.inst := by
  intro instr h
  obtain ⟨instr', hinstr', _, hphi, hterm, _⟩ := (hg.strided hm).exists_instr
  obtain rfl := mem_unique h hinstr'
  exact ⟨hphi, hterm⟩

theorem mem_instsOf (hm : m ∈ g.members) : m.1.inst ∈ k.instsOf b :=
  mem_of_getElem? (hg.listed m hm)

theorem offset_lt (hm : m ∈ g.members) : m.2 < g.kind.stride.toNat := by
  have : m.2 ∈ g.members.map (·.2) := mem_map_of_mem hm
  rwa [hg.offsets, mem_range] at this

/-- The member at an offset. -/
theorem getElem?_offset {n : Nat} (hn : n < g.kind.stride.toNat) : ∃ m, g.members[n]? = some m ∧ m.2 = n := by
  have hlt : n < g.members.length := hg.length_eq ▸ hn
  refine ⟨g.members[n], getElem?_eq_getElem hlt, ?_⟩
  have hget : (g.members.map (·.2))[n]? = some n := by rw [hg.offsets, getElem?_range hn]
  rw [getElem?_map, getElem?_eq_getElem hlt] at hget
  exact some.inj hget

/-- Members of one instruction are one. -/
theorem eq_of_inst_eq (hk : k.Coherent) {n : StridedAccess × Nat} (hm : m ∈ g.members) (hn : n ∈ g.members)
    (h : m.1.inst = n.1.inst) : m = n := by
  have hposition : m.1.position = n.1.position := by
    have hlt := (List.getElem?_eq_some_iff.mp (hg.listed m hm)).1
    refine (getElem?_inj hlt (hk.nodup b)).mp ?_
    rw [hg.listed m hm, hg.listed n hn, h]
  have haccess : m.1 = n.1 := by
    have hmade := hg.made m hm
    rw [hposition, h] at hmade
    exact some.inj (ok_unique hmade (hg.made n hn))
  obtain ⟨least, hleast⟩ := hg.spaced
  have hdistance := hleast m hm
  rw [haccess] at hdistance
  have hbytes := some.inj (ok_unique hdistance (hleast n hn))
  have hsize : (g.kind.elem.size : Int) ≠ 0 := by
    have := g.kind.elem.size_pos
    omega
  have hoffset := Int.eq_of_mul_eq_mul_right hsize hbytes
  exact Prod.ext haccess (by omega)

theorem nodup_insts (hk : k.Coherent) : (g.members.map (·.1.inst)).Nodup := by
  have hnodup : g.members.Nodup := by
    refine List.Nodup.of_map (·.2) ?_
    rw [hg.offsets]
    exact nodup_range
  exact hnodup.map_on fun m hm n hn h => hg.eq_of_inst_eq hk hm hn h

/-- The group takes up a part of the block, from its first member to its last. -/
theorem split : ∃ pre post, k.instsOf b = pre ++ (g.span k b ++ post) ∧ (∃ rest, g.span k b = g.first.1.inst :: rest) ∧
    (∃ rest, g.span k b = rest ++ [g.last.1.inst]) ∧ ∀ m ∈ g.members, m.1.inst ∈ g.span k b := by
  obtain ⟨hfirst, hleast⟩ := first_spec hg.ne_nil
  obtain ⟨hlast, hmost⟩ := last_spec hg.ne_nil
  have hle := hleast g.last hlast
  unfold span
  generalize hp : g.first.1.position = p at hle hleast
  generalize hq : g.last.1.position = q at hle hmost
  have hfirstAt : (k.instsOf b)[p]? = some g.first.1.inst := hp ▸ hg.listed _ hfirst
  have hlastAt : (k.instsOf b)[q]? = some g.last.1.inst := hq ▸ hg.listed _ hlast
  obtain ⟨hlt, hget⟩ := List.getElem?_eq_some_iff.mp hfirstAt
  refine ⟨(k.instsOf b).take p, (k.instsOf b).drop (p + (q - p + 1)), ?_, ⟨((k.instsOf b).drop (p + 1)).take (q - p), ?_⟩,
    ⟨((k.instsOf b).drop p).take (q - p), ?_⟩, fun m hm => ?_⟩
  · rw [← drop_drop, take_append_drop, take_append_drop]
  · rw [drop_eq_getElem_cons hlt, take_succ_cons, hget]
  · have hlastDrop : ((k.instsOf b).drop p)[q - p]? = some g.last.1.inst := by
      rw [getElem?_drop, show p + (q - p) = q by omega, hlastAt]
    rw [take_add_one, hlastDrop]
    rfl
  · have hm1 := hleast m hm
    have hm2 := hmost m hm
    refine mem_of_getElem? (i := m.1.position - p) ?_
    rw [getElem?_take_of_lt (by omega), getElem?_drop, show p + (m.1.position - p) = m.1.position by omega]
    exact hg.listed m hm

end InterleaveGroup.Covers

end Spmd
