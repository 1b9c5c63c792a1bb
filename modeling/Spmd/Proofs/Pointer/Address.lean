import Spmd.Pointer.Address
import Spmd.Proofs.Pointer.Root

/-!
# Distances between pointers

In a sound kernel the distance of any two pointers can be asked for (`Sound.exists_distance?`). Pointers a known
distance apart lead into the same object (**`Sound.memoryRoot_eq_of_distance?`**).
-/

namespace Spmd

open Success Instr

/-- The computation does not fail, though it may have no answer. -/
def Answers {α : Type} (x : OptionT Checked α) : Prop := ∃ o, x.run = .ok o

namespace Answers

variable {α β : Type} {x : OptionT Checked α} {f : α → OptionT Checked β}

theorem pure (a : α) : Answers (Pure.pure a : OptionT Checked α) := ⟨some a, rfl⟩

theorem failure : Answers (Alternative.failure : OptionT Checked α) := ⟨none, rfl⟩

theorem ofOption (o : Option α) : Answers (liftM o : OptionT Checked α) := ⟨o, rfl⟩

theorem run_lift_bind {x : Checked α} {a : α} (h : x = .ok a) : (OptionT.lift x >>= f).run = (f a).run := by
  subst h
  rfl

theorem lift_bind {x : Checked α} {a : α} (h : x = .ok a) (hf : Answers (f a)) : Answers (OptionT.lift x >>= f) :=
  hf.imp fun _ => (run_lift_bind h).trans

theorem bind (hx : Answers x) (hf : ∀ a, x.run = .ok (some a) → Answers (f a)) : Answers (x >>= f) := by
  obtain ⟨o, ho⟩ := hx
  unfold Answers
  rw [OptionT.run_bind, ho]
  cases o with
  | none => exact ⟨none, rfl⟩
  | some a => exact hf a ho

/-- There is an answer to two questions, the second about the answer to the first, exactly if there is one to both. -/
theorem bind_eq_some {b : β} : (x >>= f).run = .ok (some b) ↔ ∃ a, x.run = .ok (some a) ∧ (f a).run = .ok (some b) := by
  rw [OptionT.run_bind, Option.elimM, bind_eq_ok]
  constructor
  · rintro ⟨o, ho, h⟩
    cases o with
    | none => cases pure_eq_ok.mp h
    | some a => exact ⟨a, ho, h⟩
  · rintro ⟨a, ha, h⟩
    exact ⟨some a, ha, h⟩

theorem lift_eq_some {x : Checked α} {a : α} : (OptionT.lift x).run = .ok (some a) ↔ x = .ok a := by
  rw [OptionT.run_lift, bind_eq_ok]
  simp only [pure_eq_ok, Option.some.injEq, exists_eq_right]

end Answers

namespace Kernel

variable {k : Kernel} {φ : Flow} {v u : ValueId} {ty : Ty} {ty' : Ty} {fuel : Nat} {r : MemRoot}

/-! ## Symbolic forms can be asked for -/

theorem Typed.exists_constInt? (h : k.Typed v ty) : ∃ c, k.constInt? v = .ok c := by
  obtain ⟨⟨kind, ty⟩, hd, _⟩ := h
  have hvalue : k.value v = .ok ⟨kind, ty⟩ := some?_eq_ok.mpr hd
  rw [constInt?, const?, hvalue]
  cases kind with
  | const c => cases c <;> exact ⟨_, rfl⟩
  | param _ | inst _ | undef => exact ⟨_, rfl⟩

theorem answers_linearInstr? {form : ValueId → OptionT Checked Linear} {instr : Instr} (leaf : Linear)
    (hform : ∀ u ∈ instr.operands, Answers (form u)) (hconst : ∀ u ∈ instr.operands, ∃ c, k.constInt? u = .ok c) :
    Answers (k.linearInstr? form leaf instr) := by
  cases instr with
  | binary op lhs rhs =>
    have hl := hform lhs (by simp [operands])
    have hr := hform rhs (by simp [operands])
    obtain ⟨cl, hcl⟩ := hconst lhs (by simp [operands])
    obtain ⟨cr, hcr⟩ := hconst rhs (by simp [operands])
    cases op with
    | add | sub =>
      exact hl.bind fun _ _ => (Answers.ofOption _).bind fun _ _ => hr.bind fun _ _ => .ofOption _
    | mul =>
      refine .lift_bind hcl (.lift_bind hcr ?_)
      cases cr with
      | some c => exact hl.bind fun _ _ => .ofOption _
      | none =>
        cases cl with
        | some a => exact hr.bind fun _ _ => .ofOption _
        | none => exact .pure _
    | shl =>
      refine .lift_bind hcr ?_
      cases cr with
      | none => exact .pure _
      | some c =>
        dsimp only
        split
        · exact hl.bind fun _ _ => .ofOption _
        · exact .pure _
    | _ => exact .pure _
  | cast op x =>
    have hx := hform x (by simp [operands])
    cases op with
    | sext | zext => exact hx
    | _ => exact .pure _
  | _ => exact .pure _

theorem answers_linearValue? {look : InstId → Linear → OptionT Checked Linear} (h : k.Typed v ty)
    (hlook : ∀ d i leaf, k.value? v = some d → d.kind = .inst i → Answers (look i leaf)) :
    Answers (k.linearValue? v look) := by
  obtain ⟨d, hd, _⟩ := h
  have hvalue : k.value v = .ok d := some?_eq_ok.mpr hd
  rw [linearValue?]
  refine .lift_bind hvalue ?_
  cases hkind : d.kind with
  | const c => cases c <;> exact .pure _
  | inst i => exact hlook d i _ hd hkind
  | param _ | undef => exact .pure _

theorem Sound.answers_linear? (hs : k.Sound φ) (depth : Nat) (h : k.Typed v ty) : Answers (k.linear? depth v) := by
  induction depth generalizing v ty with
  | zero => exact answers_linearValue? h fun _ _ _ _ _ => .pure _
  | succ depth ih =>
    refine answers_linearValue? h fun d i leaf hd hkind => ?_
    obtain ⟨d', hd', _, hdef⟩ := h.definer hs.coherent
    obtain rfl := mem_unique hd hd'
    obtain ⟨e, he, halive⟩ := hdef i hkind
    refine .lift_bind (some?_eq_ok.mpr he) ?_
    refine answers_linearInstr? leaf (fun u hu => ?_) fun u hu => ?_
    · obtain ⟨ty', hty'⟩ := hs.typed_operand he halive hu
      exact ih hty'
    · obtain ⟨ty', hty'⟩ := hs.typed_operand he halive hu
      exact hty'.exists_constInt?

theorem Sound.answers_addressFrom? (hs : k.Sound φ) (fuel : Nat) (sum : Linear) (h : k.Typed v ty) :
    Answers (k.addressFrom? fuel sum v) := by
  induction fuel generalizing v ty sum with
  | zero => exact .failure
  | succ fuel ih =>
    obtain ⟨d, hd, _, hdef⟩ := h.definer hs.coherent
    have hvalue : k.value v = .ok d := some?_eq_ok.mpr hd
    refine .lift_bind hvalue ?_
    cases hkind : d.kind with
    | param _ | const _ | undef => exact .pure _
    | inst i =>
      obtain ⟨e, he, halive⟩ := hdef i hkind
      refine .lift_bind (some?_eq_ok.mpr he) ?_
      cases hinstr : e.instr with
      | elementPtr base index elem =>
        have hmem : base ∈ e.instr.operands ∧ index ∈ e.instr.operands := by rw [hinstr]; simp [operands]
        obtain ⟨_, hbase⟩ := hs.typed_operand he halive hmem.1
        obtain ⟨_, hindex⟩ := hs.typed_operand he halive hmem.2
        exact (hs.answers_linear? _ hindex).bind fun _ _ => (Answers.ofOption _).bind fun sum' _ => ih sum' hbase
      | _ => exact .pure _

/-- The distance of any two pointers can be asked for. -/
theorem Sound.exists_distance? (hs : k.Sound φ) (hv : k.Typed v ty) (hu : k.Typed u ty') :
    ∃ d, k.distance? v u = .ok d := by
  obtain ⟨x, hx⟩ := hs.answers_addressFrom? symbolicDepth {} hv
  obtain ⟨y, hy⟩ := hs.answers_addressFrom? symbolicDepth {} hu
  have hx : k.address? v = .ok x := hx
  have hy : k.address? u = .ok y := hy
  rw [distance?, hx]
  cases x with
  | none => exact ⟨none, rfl⟩
  | some x =>
    rw [hy]
    exact ⟨_, rfl⟩

/-! ## What pointers a known distance apart lead to -/

theorem rootFrom_unique {fuel' : Nat} {r' : MemRoot} (h : k.rootFrom fuel v = .ok r)
    (h' : k.rootFrom fuel' v = .ok r') : r = r' := by
  have hmax := rootFrom_mono h (Nat.le_max_left fuel fuel')
  have hmax' := rootFrom_mono h' (Nat.le_max_right fuel fuel')
  exact ok_unique hmax hmax'

/-- A pointer leads where the root of its address leads. -/
theorem rootFrom_of_addressFrom? {steps : Nat} {sum : Linear} {address : Address}
    (h : (k.addressFrom? fuel sum v).run = .ok (some address)) (hr : k.rootFrom steps v = .ok r) :
    ∃ steps', k.rootFrom steps' address.root = .ok r := by
  induction fuel generalizing v sum steps with
  | zero => exact absurd h (by simp [addressFrom?, OptionT.run, failure, OptionT.fail, OptionT.mk, pure, Except.pure])
  | succ fuel ih =>
    cases steps with
    | zero => exact absurd hr throw_ne_ok
    | succ steps =>
      have hr' := hr
      obtain ⟨d, hd, hr'⟩ := bind_eq_ok.mp hr'
      replace h := (Answers.run_lift_bind hd).symm.trans h
      cases hkind : d.kind with
      | param _ | const _ | undef =>
        rw [hkind] at h
        cases h
        exact ⟨steps + 1, hr⟩
      | inst i =>
        rw [hkind] at h hr'
        obtain ⟨e, he, hr'⟩ := bind_eq_ok.mp hr'
        replace h := (Answers.run_lift_bind he).symm.trans h
        cases hinstr : e.instr with
        | elementPtr base index elem =>
          rw [hinstr] at h hr'
          obtain ⟨form, _, h⟩ := Answers.bind_eq_some.mp h
          obtain ⟨sum', _, h⟩ := Answers.bind_eq_some.mp h
          exact ih h hr'
        | _ =>
          rw [hinstr] at h
          cases h
          exact ⟨steps + 1, hr⟩

/-- **Pointers a known distance apart lead into the same object.** -/
theorem Sound.memoryRoot_eq_of_distance? (hs : k.Sound φ) (hreach : ∀ b ∈ k.layout, φ.Reached b) (hv : k.Typed v ty)
    (hu : k.Typed u ty') {bytes : Int} (h : k.distance? v u = .ok (some bytes)) : k.memoryRoot u = k.memoryRoot v := by
  rw [distance?] at h
  obtain ⟨x, hx, h⟩ := bind_eq_ok.mp h
  cases x with
  | none => cases pure_eq_ok.mp h
  | some x =>
    obtain ⟨y, hy, h⟩ := bind_eq_ok.mp h
    obtain ⟨y, rfl, hdistance⟩ := bind_eq_some_iff.mp (pure_eq_ok.mp h)
    have hroot : x.root = y.root := by
      rw [Address.distance?] at hdistance
      split at hdistance
      next hsame =>
        exact hsame.1
      · cases hdistance
    obtain ⟨r, hr⟩ := hs.exists_memoryRoot hreach hv
    obtain ⟨r', hr'⟩ := hs.exists_memoryRoot hreach hu
    obtain ⟨steps, hstart⟩ := rootFrom_of_addressFrom? hx hr
    obtain ⟨steps', hstart'⟩ := rootFrom_of_addressFrom? hy hr'
    rw [hr, hr', rootFrom_unique hstart (hroot ▸ hstart')]

end Kernel

end Spmd
