import Mathlib.Data.List.Perm.Subperm
import Spmd.Pointer.Root
import Spmd.Proofs.Fails
import Spmd.Proofs.Kernel.Recast

/-!
# Every pointer leads somewhere

In a sound kernel whose blocks are all reached, the base of a pointer is known before the pointer is. So following
bases never goes round in a circle, and ends within as many steps as there are values (**`Sound.exists_memoryRoot`**).
-/

namespace Spmd

open Success List

variable {r : MemRoot} {e : InstDef} {i : InstId}

/-- Pointers are followed through the instruction, or lead to it. -/
def Instr.isPointing : Instr → Bool
  | .elementPtr .. | .alloca .. => true
  | _ => false

namespace Kernel

variable {k : Kernel} {φ : Flow} {v u : ValueId} {fuel : Nat}

/-- More steps give the same answer. -/
theorem rootFrom_mono {fuel' : Nat} (h : k.rootFrom fuel v = .ok r) (hle : fuel ≤ fuel') :
    k.rootFrom fuel' v = .ok r := by
  induction fuel generalizing v fuel' with
  | zero => exact absurd h throw_ne_ok
  | succ fuel ih =>
    obtain ⟨fuel', rfl⟩ : ∃ n, fuel' = n + 1 := ⟨fuel' - 1, by omega⟩
    obtain ⟨d, hd, h⟩ := bind_eq_ok.mp h
    refine bind_eq_ok.mpr ⟨d, hd, ?_⟩
    cases hkind : d.kind with
    | inst i =>
      rw [hkind] at h
      obtain ⟨e, he, h⟩ := bind_eq_ok.mp h
      refine bind_eq_ok.mpr ⟨e, he, ?_⟩
      revert h
      cases e.instr with
      | elementPtr base index elem => exact fun h => ih h (by omega)
      | _ => exact id
    | param _ | const _ | undef =>
      rw [hkind] at h
      exact h

/-- The definition of `u` comes behind that of `v`. -/
def Precedes (k : Kernel) (φ : Flow) (v u : ValueId) : Prop :=
  ∃ d j e pre post, k.value? u = some d ∧ d.kind = .inst j ∧ k.inst? j = some e ∧ k.instsOf e.block = pre ++ j :: post ∧
    k.Ready φ e.block pre v

namespace Precedes

/-- No value comes in front of itself. -/
theorem irrefl (hk : k.Coherent) : ¬k.Precedes φ v v := by
  rintro ⟨d, j, e, pre, post, hd, hj, he, hsplit, d', hd', hready⟩
  obtain rfl := mem_unique hd hd'
  obtain ⟨e', he', _, ⟨_, hmem⟩ | ⟨hne, _⟩⟩ := hready j hj
  · have hnodup := hk.nodup e.block
    rw [hsplit, nodup_append] at hnodup
    exact hnodup.2.2 j hmem j (.head _) rfl
  · obtain rfl := mem_unique he he'
    exact hne rfl

theorem trans {w : ValueId} (hk : k.Coherent) (h : k.Precedes φ w v) (h' : k.Precedes φ v u) : k.Precedes φ w u := by
  obtain ⟨d, i, e, pre, post, hd, hi, he, hsplit, hready⟩ := h
  obtain ⟨d', j, e', pre', post', hd', hj, he', hsplit', hready'⟩ := h'
  refine ⟨d', j, e', pre', post', hd', hj, he', hsplit', ?_⟩
  obtain ⟨d2, hd2, hplace⟩ := hready'
  obtain rfl := mem_unique hd hd2
  obtain ⟨e2, he2, _, ⟨heq, hmem⟩ | ⟨hne, habove⟩⟩ := hplace i hi
  · -- both stand in one block
    obtain rfl := mem_unique he he2
    obtain ⟨mid, post2, rfl⟩ := append_of_mem hmem
    rw [heq] at hsplit hready
    have hsplit2 : k.instsOf e'.block = mid ++ i :: (post2 ++ j :: post') := by rw [hsplit']; simp
    obtain ⟨rfl, _⟩ := Place.unique (hk.nodup e'.block) hsplit hsplit2
    exact hready.mono fun x hx => mem_append_left _ hx
  · obtain rfl := mem_unique he he2
    exact hready.down habove hne

end Precedes

/-- A definition comes behind those of its operands. -/
theorem Sound.precedes (hs : k.Sound φ) (hreach : ∀ b ∈ k.layout, φ.Reached b) {d : ValueDef} (hd : k.value? v = some d)
    (hi : d.kind = .inst i) (he : k.inst? i = some e) (halive : e.dead = false) (hphi : e.instr.isPhi = false)
    (hu : u ∈ e.instr.operands) : k.Precedes φ u v := by
  obtain ⟨hb, hmem⟩ := hs.mem_instsOf he halive
  obtain ⟨pre, post, hsplit⟩ := append_of_mem hmem
  refine ⟨d, i, e, pre, post, hd, hi, he, hsplit, ?_⟩
  exact hs.ordered e.block (hreach e.block hb) pre i post hsplit e.instr (by rw [instr?, he]; rfl) hphi u hu

/-- Operands of linked instructions are typed. -/
theorem Sound.typed_operand (hs : k.Sound φ) (he : k.inst? i = some e) (halive : e.dead = false)
    (hu : u ∈ e.instr.operands) : ∃ ty, k.Typed u ty := by
  obtain ⟨hb, hmem⟩ := hs.mem_instsOf he halive
  obtain ⟨tys, htys, -⟩ := verifyTypes_iff.mp (hs.typed e.block hb i hmem e.instr (by rw [instr?, he]; rfl))
  generalize e.instr.operands = vs at htys hu
  induction htys with
  | nil => exact absurd hu not_mem_nil
  | cons hty _ ih =>
    rcases mem_cons.mp hu with rfl | hu
    · exact ⟨_, hty⟩
    · exact ih hu

section

variable (hs : k.Sound φ) (hreach : ∀ b ∈ k.layout, φ.Reached b)
include hs hreach

/-- Following bases ends: no value is met twice, and the values met so far leave enough steps. -/
theorem Sound.exists_rootFrom {seen : List ValueId} (hnodup : seen.Nodup)
    (hseen : ∀ u ∈ seen, (k.value? u).isSome = true ∧ k.Precedes φ v u) (hfuel : k.values.size < fuel + seen.length)
    {ty : Ty} (hty : k.Typed v ty) : ∃ r, k.rootFrom fuel v = .ok r := by
  induction fuel generalizing v seen ty with
  | zero =>
    -- more values were met than there are
    have hsub : seen ⊆ k.values.ids := fun u hu => by
      obtain ⟨d, hd⟩ := isSome_iff_exists.mp (hseen u hu).1
      exact mem_ids_of_value? hd
    have hlen := (subperm_of_subset hnodup hsub).length_le
    simp only [Arena.ids, length_map, length_range] at hlen
    omega
  | succ fuel ih =>
    obtain ⟨d, hd, _, hdef⟩ := hty.definer hs.coherent
    have hvalue : k.value v = .ok d := some?_eq_ok.mpr hd
    unfold rootFrom
    rw [hvalue, ok_bind]
    cases hkind : d.kind with
    | param position => exact ⟨_, rfl⟩
    | const _ | undef => exact ⟨_, rfl⟩
    | inst i =>
      obtain ⟨e, he, halive⟩ := hdef i hkind
      have hinst : k.inst i = .ok e := some?_eq_ok.mpr he
      simp only [hinst, ok_bind]
      cases hinstr : e.instr with
      | elementPtr base index elem =>
        have hmem : base ∈ e.instr.operands := by rw [hinstr]; exact .head _
        have hbase := hs.precedes hreach hd hkind he halive (by rw [hinstr]; rfl) hmem
        obtain ⟨ty', hty'⟩ := hs.typed_operand he halive hmem
        refine @ih base (v :: seen) (nodup_cons.mpr ⟨fun hv => ?_, hnodup⟩) (fun u hu => ?_) ?_ ty' hty'
        · exact Precedes.irrefl hs.coherent (hseen v hv).2
        · rcases mem_cons.mp hu with rfl | hu
          · exact ⟨by rw [hd]; rfl, hbase⟩
          · exact ⟨(hseen u hu).1, hbase.trans hs.coherent (hseen u hu).2⟩
        · rw [length_cons]
          omega
      | _ => exact ⟨_, rfl⟩

/-- **Every pointer leads somewhere.** -/
theorem Sound.exists_memoryRoot {ty : Ty} (hty : k.Typed v ty) : ∃ r, k.memoryRoot v = .ok r :=
  hs.exists_rootFrom hreach nodup_nil (nofun) (by simp) hty

theorem Sound.exists_accessRoot? (he : k.inst? i = some e) (halive : e.dead = false) : ∃ r, k.accessRoot? i = .ok r := by
  have hinst : k.inst i = .ok e := some?_eq_ok.mpr he
  unfold accessRoot?
  rw [hinst, ok_bind]
  have hroot : ∀ ptr ∈ e.instr.operands, ∃ r, (return some (← k.memoryRoot ptr) : Checked (Option MemRoot)) = .ok r := by
    intro ptr hptr
    obtain ⟨ty, hty⟩ := hs.typed_operand he halive hptr
    obtain ⟨r, hr⟩ := hs.exists_memoryRoot hreach hty
    exact ⟨some r, bind_eq_ok.mpr ⟨r, hr, rfl⟩⟩
  revert hroot
  cases e.instr with
  | load ptr | store ptr | strideLoad ptr | strideStore ptr => exact fun hroot => hroot ptr (.head _)
  | _ => exact fun _ => ⟨_, rfl⟩

end

/-! ## Recast kernels -/

namespace Recast

variable {k' : Kernel} {ρ : ValueId → ValueId} {τ : InstId → List InstId} (hr : Recast k k' ρ τ) (hs : k.Sound φ)
  (hk' : k'.Coherent)
  (hdark : ∀ v d i, k.value? v = some d → d.kind = .inst i → i ∉ τ i →
    (∀ instr, k.instr? i = some instr → instr.isPointing = false) ∧
      ∃ d' j instr', k'.value? (ρ v) = some d' ∧ d'.kind = .inst j ∧ k'.instr? j = some instr' ∧ instr'.isPointing = false)

include hr hs hk' hdark

/-- A renamed pointer leads where the pointer led. -/
theorem rootFrom_eq {ty : Ty} (hty : k.Typed v ty) (h : k.rootFrom fuel v = .ok r) : k'.rootFrom fuel (ρ v) = .ok r := by
  induction fuel generalizing v ty with
  | zero => exact absurd h throw_ne_ok
  | succ fuel ih =>
    obtain ⟨d, hd, _, hdef⟩ := hty.definer hs.coherent
    obtain ⟨d', hd', _, hsame⟩ := hr.values v d hd
    obtain ⟨d2, hd2, h⟩ := bind_eq_ok.mp h
    obtain rfl := mem_unique hd (some?_eq_ok.mp hd2)
    refine bind_eq_ok.mpr ⟨d', some?_eq_ok.mpr hd', ?_⟩
    cases hkind : d.kind with
    | param _ | const _ | undef =>
      have hsame : d'.kind = d.kind := by
        rcases hsame with hsame | ⟨⟨i, hi⟩, _⟩
        · exact hsame
        · cases hkind.symm.trans hi
      rw [hsame, hkind]
      rw [hkind] at h
      exact h
    | inst i =>
      obtain ⟨e, he, halive⟩ := hdef i hkind
      rw [hkind] at h
      obtain ⟨e2, he2, h⟩ := bind_eq_ok.mp h
      obtain rfl := mem_unique he (some?_eq_ok.mp he2)
      have hresult : k.result? i = some v := hs.coherent.owned i v (by rw [hd, Option.map_some, hkind])
      obtain ⟨hb, hmem⟩ := hs.mem_instsOf he halive
      have hinstr : k.instr? i = some e.instr := by rw [instr?, he]; rfl
      by_cases hkept : i ∈ τ i
      · -- the definition stayed
        obtain ⟨hinstr', hresult', hname⟩ := hr.kept e.block hb i hmem hkept
        rw [hinstr] at hinstr'
        obtain ⟨e', he', heq⟩ := map_eq_some_iff.mp hinstr'
        have hkind' : d'.kind = .inst i := by
          have hdefines := hk'.defines i v (hresult'.trans hresult)
          rw [← hname v hresult, hd'] at hdefines
          exact Option.some.inj hdefines
        rw [hkind']
        refine bind_eq_ok.mpr ⟨e', some?_eq_ok.mpr he', ?_⟩
        rw [heq]
        revert h
        cases hcase : e.instr with
        | elementPtr base index elem =>
          intro h
          have hmem : base ∈ e.instr.operands := by rw [hcase]; exact .head _
          obtain ⟨ty', hty'⟩ := hs.typed_operand he halive hmem
          exact ih hty' h
        | _ => exact id
      · obtain ⟨hno, d2', j, instr', hd2', hj, hinstr', hno'⟩ := hdark v d i hd hkind hkept
        obtain rfl := mem_unique hd' hd2'
        obtain ⟨e', he', heq⟩ := map_eq_some_iff.mp hinstr'
        rw [hj]
        refine bind_eq_ok.mpr ⟨e', some?_eq_ok.mpr he', ?_⟩
        rw [heq]
        have hno := hno e.instr hinstr
        obtain rfl : MemRoot.unknown = r := by
          revert h hno
          cases e.instr with
          | elementPtr _ _ _ | alloca _ _ => exact fun _ hno => absurd hno (by simp [Instr.isPointing])
          | _ => exact fun h _ => pure_eq_ok.mp h
        revert hno'
        cases instr' with
        | elementPtr _ _ _ | alloca _ _ => exact fun hno => absurd hno (by simp [Instr.isPointing])
        | _ => exact fun _ => rfl

variable (hreach : ∀ b ∈ k.layout, φ.Reached b)

include hreach

theorem memoryRoot_eq {ty : Ty} (hty : k.Typed v ty) : k'.memoryRoot (ρ v) = k.memoryRoot v := by
  obtain ⟨r, hr'⟩ := hs.exists_memoryRoot hreach hty
  rw [hr']
  have hsize := hr.values_size
  exact rootFrom_mono (hr.rootFrom_eq hs hk' hdark hty hr') (by omega)

/-- An access that stayed leads where it led. -/
theorem accessRoot?_eq {b : BlockId} (hb : b ∈ k.layout) (hi : i ∈ k.instsOf b) (hkept : i ∈ τ i) :
    k'.accessRoot? i = k.accessRoot? i := by
  obtain ⟨e, he, halive, _⟩ := hs.linked b hb i hi
  have hinstr : k.instr? i = some e.instr := by rw [instr?, he]; rfl
  have hinstr' := (hr.kept b hb i hi hkept).1
  rw [hinstr] at hinstr'
  obtain ⟨e', he', heq⟩ := map_eq_some_iff.mp hinstr'
  have hinst : k.inst i = .ok e := some?_eq_ok.mpr he
  have hinst' : k'.inst i = .ok e' := some?_eq_ok.mpr he'
  have hroot : ∀ ptr ∈ e.instr.operands, k'.memoryRoot (ρ ptr) = k.memoryRoot ptr := by
    intro ptr hptr
    obtain ⟨ty, hty⟩ := hs.typed_operand he halive hptr
    exact hr.memoryRoot_eq hs hk' hdark hreach hty
  unfold accessRoot?
  rw [hinst, hinst', ok_bind, ok_bind, heq]
  revert hroot
  cases e.instr with
  | load ptr | store ptr | strideLoad ptr | strideStore ptr =>
    intro hroot
    show (return some (← k'.memoryRoot (ρ ptr))) = (return some (← k.memoryRoot ptr))
    rw [hroot ptr (.head _)]
  | _ => exact fun _ => rfl

end Recast

end Kernel

end Spmd
