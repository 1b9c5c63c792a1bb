import Mathlib.Tactic.IntervalCases
import Spmd.Proofs.Exec.Valuation
import Spmd.Proofs.Interleave.Stretch
import Spmd.Proofs.Kernel.Listing
import Spmd.Proofs.Pointer.Address

/-!
# Distances are what they seem

A symbolic address stands for a number once its terms do (`Linear.eval`). Where no linear operator overflows, constants
fit their types and extensions keep the integer they extend, the symbolic form of an integer stands for that integer
(**`Machine.Solves.eval_linear?`**), and the one of a pointer for its address (**`Machine.Solves.toUInt64_addressFrom?`**).
So pointers that are said to lie a number of bytes apart do.

An extension need not keep its integer: a negative one turns into a large one if it is extended by zeros, and a true truth
value extended by its sign is minus one. Symbolic forms look through all extensions alike. So they also give distances
that are not there.
-/

namespace Spmd

open Success Kernel Instr
open Option (bind_eq_some_iff isSome_iff_exists mem_unique some)

variable {ts ts' : List (ValueId × Int)} {scale : Int} {φ : Flow} {v : ValueId} {i : InstId} {d : ValueDef}

/-! ## What symbolic forms stand for -/

namespace Linear

variable (x : ValueId → Int)

/-- The sum of multiples, if names stand for integers. -/
def termsEval : List (ValueId × Int) → Int
  | [] => 0
  | (v, s) :: rest => s * x v + termsEval rest

/-- The integer that the form stands for. -/
def eval (a : Linear) : Int := a.offset + termsEval x a.terms

theorem termsEval_addTerm {s : Int} (h : addTerm v s ts = some ts') : termsEval x ts' = termsEval x ts + s * x v := by
  fun_induction addTerm v s ts generalizing ts' with
  | case1 =>
    cases h
    simp [termsEval]
  | case2 w t rest hlt =>
    cases h
    simp only [termsEval]
    ring
  | case3 t rest hlt =>
    obtain ⟨sum, hsum, h⟩ := bind_eq_some_iff.mp h
    cases h
    simp only [termsEval, signed64?_eq_some hsum]
    ring
  | case4 w t rest hlt hne ih =>
    obtain ⟨rest', hrest, h⟩ := bind_eq_some_iff.mp h
    cases h
    simp only [termsEval, ih hrest]
    ring

theorem termsEval_filter (ts : List (ValueId × Int)) : termsEval x (ts.filter (·.2 ≠ 0)) = termsEval x ts := by
  induction ts with
  | nil => rfl
  | cons t ts ih =>
    obtain ⟨v, s⟩ := t
    by_cases hs : s = 0
    · subst hs
      rw [List.filter_cons_of_neg (by simp), ih, termsEval]
      ring
    · rw [List.filter_cons_of_pos (by simpa using hs), termsEval, termsEval, ih]

theorem termsEval_foldlM {bs : List (ValueId × Int)}
    (h : bs.foldlM (fun terms (v, s) => do addTerm v (← signed64? (s * scale)) terms) ts = some ts') :
    termsEval x ts' = termsEval x ts + termsEval x bs * scale := by
  induction bs generalizing ts with
  | nil =>
    cases h
    simp [termsEval]
  | cons b bs ih =>
    rw [List.foldlM_cons] at h
    obtain ⟨mid, hmid, h⟩ := bind_eq_some_iff.mp h
    obtain ⟨product, hproduct, hmid⟩ := bind_eq_some_iff.mp hmid
    rw [ih h, termsEval_addTerm x hmid, signed64?_eq_some hproduct, termsEval]
    ring

/-- Adding a multiple of a form adds the multiple of what it stands for. -/
theorem eval_addScaled {a b c : Linear} (h : a.addScaled b scale = some c) : c.eval x = a.eval x + b.eval x * scale := by
  obtain ⟨product, hproduct, h⟩ := bind_eq_some_iff.mp h
  obtain ⟨offset, hoffset, h⟩ := bind_eq_some_iff.mp h
  obtain ⟨terms, hterms, h⟩ := bind_eq_some_iff.mp h
  cases h
  simp only [eval, termsEval_filter, termsEval_foldlM x hterms, signed64?_eq_some hoffset, signed64?_eq_some hproduct]
  ring

end Linear

/-! ## Integers -/

/-- The instructions that symbolic addresses look into. -/
def Instr.isAddressing : Instr → Bool
  | .binary op _ _ => op.isLinear
  | .cast .sext _ | .cast .zext _ | .elementPtr .. => true
  | _ => false

/-- The integer that a name stands for in one lane. -/
def Valuation.int (ρ : Valuation) (lane : Nat) (v : ValueId) : Int := ((ρ v).lane lane).toInt

namespace Kernel

variable {k : Kernel}

/-- No linear operator leaves the signed range of the type that it works on. -/
def NoOverflow (k : Kernel) (ρ : Valuation) : Prop :=
  ∀ i ∈ k.instsInOrder, ∀ op x y, k.instr? i = some (.binary op x y) →
    ∀ lane s t n, (ρ x).lane lane = .scalar s → (ρ y).lane lane = .scalar t → t.ty = s.ty →
      op.onInts? s.ty.bits (ρ.int lane x) (ρ.int lane y) = some n →
        -2 ^ (s.ty.bits - 1) ≤ n ∧ n < 2 ^ (s.ty.bits - 1)

/-- Every integer constant can be held by its type. -/
def ConstsFit (k : Kernel) : Prop :=
  ∀ v d c, k.value? v = some d → d.kind = .const (.int c) → (Scalar.ofInt64 (d.ty.element?.getD .bool) c).toInt64 = c

/-- The extensions that symbolic forms of `v` look through have the integer of what they extend. -/
def ExtendsExactly (k : Kernel) (ρ : Valuation) (v : ValueId) : Prop :=
  ∀ u, k.Under isAddressing v u → ∀ i x, k.result? i = some u →
    k.instr? i = some (.cast .sext x) ∨ k.instr? i = some (.cast .zext x) →
      ∀ lane, (ρ u).HasLane lane → ρ.int lane u = ρ.int lane x

theorem ExtendsExactly.operand {ρ : Valuation} {instr : Instr} {w : ValueId} (h : k.ExtendsExactly ρ v)
    (hresult : k.result? i = some v) (hinstr : k.instr? i = some instr) (honly : instr.isAddressing = true)
    (hmem : w ∈ instr.operands) : k.ExtendsExactly ρ w :=
  fun u hu => h u (.operand hresult hinstr honly hmem hu)

/-- A value that an instruction defines is the result of a linked one, and its operands are values too. -/
theorem Sound.definition (hs : k.Sound φ) {ty : Ty} (h : k.Typed v ty) (hd : k.value? v = some d)
    (hi : d.kind = .inst i) : ∃ e, k.inst? i = some e ∧ k.result? i = some v ∧ i ∈ k.instsInOrder ∧
      ∀ u ∈ e.instr.operands, ∃ ty', k.Typed u ty' := by
  obtain ⟨d', hd', _, hdef⟩ := h.definer hs.coherent
  obtain rfl := mem_unique hd hd'
  obtain ⟨e, he, halive⟩ := hdef i hi
  obtain ⟨hb, hmem⟩ := hs.mem_instsOf he halive
  exact ⟨e, he, hs.coherent.owned i v (by rw [hd, Option.map_some, hi]), List.mem_flatMap.mpr ⟨e.block, hb, hmem⟩,
    fun u hu => hs.typed_operand he halive hu⟩

end Kernel

namespace Machine.Solves

variable {m : Machine} {ρ : Valuation} {lane : Nat}

theorem toInt_constant (hρ : m.Solves ρ isAddressing) (hfit : m.kernel.ConstsFit) {c : Int64}
    (hd : m.kernel.value? v = some d) (hc : d.kind = .const (.int c)) (hlane : (ρ v).HasLane lane) :
    ρ.int lane v = c.toInt := by
  have hval := hρ.constant v d _ hd hc
  have hscalar : (Val.scalar (.ofConstant (d.ty.element?.getD .bool) (.int c))).toInt = c.toInt :=
    congrArg Int64.toInt (hfit v d c hd hc)
  unfold Machine.constant at hval
  unfold Valuation.int
  split at hval
  · obtain ⟨n, _, hval⟩ := bind_eq_ok.mp hval
    rw [← pure_eq_ok.mp hval] at hlane ⊢
    have hn := Val.hasLane_vector.mp hlane
    rw [Val.lane_vector hn, List.getElem_replicate]
    exact hscalar
  · rw [← pure_eq_ok.mp hval]
    exact hscalar

/-- A linear operator that does not overflow computes on integers. -/
theorem toInt_binary (hρ : m.Solves ρ isAddressing) (hwrap : m.kernel.NoOverflow ρ) {op : BinaryOp}
    {x y : ValueId} (hi : i ∈ m.kernel.instsInOrder) (hinstr : m.kernel.instr? i = some (.binary op x y))
    (hop : op.isLinear = true) (hresult : m.kernel.result? i = some v) (hlane : (ρ v).HasLane lane) :
    (ρ x).HasLane lane ∧ (ρ y).HasLane lane ∧ ∃ w : Nat, 32 ≤ w ∧
      op.onInts? w (ρ.int lane x) (ρ.int lane y) = some (ρ.int lane v) := by
  have heq : mapLanes₂ (evalBinary op · · i) (ρ x) (ρ y) = .ok (ρ v) := hρ.result i hi _ v hinstr hop hresult _ rfl
  obtain ⟨hx, hy, hval⟩ := mapLanes₂_lane (fun _ _ _ => width?_evalBinary) heq hlane
  refine ⟨hx, hy, ?_⟩
  obtain ⟨s, t, r, n, hs, ht, -, hty, -, hbits, hn, htoInt⟩ := toInt_evalBinary hop hval
  obtain ⟨hle, hlt⟩ := hwrap i hi op x y hinstr lane s t n hs ht hty hn
  have hexact : n.bmod (2 ^ s.ty.bits) = n := by
    rcases hbits with hbits | hbits
    all_goals
      rw [hbits] at hle hlt ⊢
      refine Int.bmod_eq_of_le ?_ ?_
      all_goals omega
  refine ⟨s.ty.bits, by omega, hn.trans (congrArg some ?_)⟩
  exact hexact.symm.trans htoInt.symm

variable {l : Linear}

theorem eval_leaf (x : ValueId → Int) (v : ValueId) : (⟨0, [(v, 1)]⟩ : Linear).eval x = x v := by
  simp [Linear.eval, Linear.termsEval]

theorem eval_linearValue? (hρ : m.Solves ρ isAddressing) (hfit : m.kernel.ConstsFit) (hlane : (ρ v).HasLane lane)
    {look : InstId → Linear → OptionT Checked Linear} (h : (m.kernel.linearValue? v look).run = .ok (some l))
    (hlook : ∀ d i, m.kernel.value? v = some d → d.kind = .inst i → (look i ⟨0, [(v, 1)]⟩).run = .ok (some l) →
      l.eval (ρ.int lane) = ρ.int lane v) : l.eval (ρ.int lane) = ρ.int lane v := by
  obtain ⟨d, hd, h⟩ := Answers.bind_eq_some.mp h
  have hd := some?_eq_ok.mp (Answers.lift_eq_some.mp hd)
  cases hkind : d.kind with
  | const c =>
    rw [hkind] at h
    cases c with
    | int c =>
      cases h
      rw [hρ.toInt_constant hfit hd hkind hlane]
      simp [Linear.eval, Linear.termsEval]
    | bool _ | float _ =>
      cases h
      exact eval_leaf _ v
  | inst i =>
    rw [hkind] at h
    exact hlook d i hd hkind h
  | param _ | undef =>
    rw [hkind] at h
    cases h
    exact eval_leaf _ v

/-- What an instruction makes of the forms of its operands stands for its result if they stand for the operands. -/
theorem eval_linearInstr? (hρ : m.Solves ρ isAddressing) (hwrap : m.kernel.NoOverflow ρ)
    (hfit : m.kernel.ConstsFit) {instr : Instr} (hi : i ∈ m.kernel.instsInOrder)
    (hinstr : m.kernel.instr? i = some instr) (hresult : m.kernel.result? i = some v)
    (hexact : m.kernel.ExtendsExactly ρ v) (hlane : (ρ v).HasLane lane) {form : ValueId → OptionT Checked Linear}
    (hform : ∀ u ∈ instr.operands, instr.isAddressing = true → (ρ u).HasLane lane → ∀ l',
      (form u).run = .ok (some l') → l'.eval (ρ.int lane) = ρ.int lane u)
    (h : (m.kernel.linearInstr? form ⟨0, [(v, 1)]⟩ instr).run = .ok (some l)) : l.eval (ρ.int lane) = ρ.int lane v := by
  have hzero : ({} : Linear).eval (ρ.int lane) = 0 := rfl
  cases instr with
  | binary op x y =>
    have hlinear := fun hop => hρ.toInt_binary hwrap hi hinstr hop hresult hlane
    have hformX := hform x (by simp [operands])
    have hformY := hform y (by simp [operands])
    have hconst : ∀ u c, m.kernel.constInt? u = .ok (some c) → (ρ u).HasLane lane → ρ.int lane u = c.toInt := by
      intro u c hc hu
      obtain ⟨d, hd, hkind⟩ := constInt?_eq_some hc
      exact hρ.toInt_constant hfit hd hkind hu
    cases op with
    | add | sub =>
      obtain ⟨hx, hy, w, _, hval⟩ := hlinear rfl
      obtain ⟨a, ha, h⟩ := Answers.bind_eq_some.mp h
      obtain ⟨a', ha', h⟩ := Answers.bind_eq_some.mp h
      obtain ⟨b, hb, h⟩ := Answers.bind_eq_some.mp h
      rw [Linear.eval_addScaled _ (Except.ok.inj h), Linear.eval_addScaled _ (Except.ok.inj ha'), hformX rfl hx a ha,
        hformY rfl hy b hb, hzero, ← some.inj hval]
      ring
    | mul =>
      obtain ⟨hx, hy, w, _, hval⟩ := hlinear rfl
      obtain ⟨cx, hcx, h⟩ := Answers.bind_eq_some.mp h
      obtain ⟨cy, hcy, h⟩ := Answers.bind_eq_some.mp h
      cases cy with
      | some c =>
        obtain ⟨a, ha, h⟩ := Answers.bind_eq_some.mp h
        rw [Linear.eval_addScaled _ (Except.ok.inj h), hformX rfl hx a ha, hzero, ← Option.some.inj hval,
          hconst y c (Answers.lift_eq_some.mp hcy) hy]
        ring
      | none =>
        cases cx with
        | some c =>
          obtain ⟨b, hb, h⟩ := Answers.bind_eq_some.mp h
          rw [Linear.eval_addScaled _ (Except.ok.inj h), hformY rfl hy b hb, hzero, ← Option.some.inj hval,
            hconst x c (Answers.lift_eq_some.mp hcx) hx]
          ring
        | none =>
          cases h
          exact eval_leaf _ v
    | shl =>
      obtain ⟨hx, hy, w, hw, hval⟩ := hlinear rfl
      obtain ⟨cy, hcy, h⟩ := Answers.bind_eq_some.mp h
      cases cy with
      | none =>
        cases h
        exact eval_leaf _ v
      | some c =>
        dsimp only at h
        split at h
        next hc =>
          obtain ⟨a, ha, h⟩ := Answers.bind_eq_some.mp h
          have hcount := hconst y c (Answers.lift_eq_some.mp hcy) hy
          have hlow : 0 ≤ c.toInt := Int64.le_iff_toInt_le.mp hc.1
          have hhigh : c.toInt < 32 := Int64.lt_iff_toInt_lt.mp hc.2
          have hmod : c.toInt % (w : Int) = c.toInt := Int.emod_eq_of_lt hlow (by omega)
          rw [Linear.eval_addScaled _ (Except.ok.inj h), hformX rfl hx a ha, hzero, ← Option.some.inj hval, hcount, hmod,
            Nat.shiftLeft_eq]
          push_cast
          ring
        · cases h
          exact eval_leaf _ v
    | _ =>
      cases h
      exact eval_leaf _ v
  | cast op x =>
    cases op with
    | sext | zext =>
      have heq : mapLanes _ (ρ x) = .ok (ρ v) := hρ.result i hi _ v hinstr rfl hresult _ rfl
      obtain ⟨hx, -⟩ := mapLanes_lane (fun a c hc => pure_eq_ok.mp hc ▸ width?_evalCast _ _ _) heq hlane
      rw [hform x (by simp [operands]) rfl hx l h]
      exact (hexact v (.self v) i x hresult (by simp [hinstr]) lane hlane).symm
    | _ =>
      cases h
      exact eval_leaf _ v
  | _ =>
    cases h
    exact eval_leaf _ v

/-- **The symbolic form of an integer stands for the integer.** -/
theorem eval_linear? (hs : m.kernel.Sound φ) (hρ : m.Solves ρ isAddressing) (hwrap : m.kernel.NoOverflow ρ)
    (hfit : m.kernel.ConstsFit) (depth : Nat) {ty : Ty} (hty : m.kernel.Typed v ty) (hexact : m.kernel.ExtendsExactly ρ v)
    (hlane : (ρ v).HasLane lane) (h : (m.kernel.linear? depth v).run = .ok (some l)) : l.eval (ρ.int lane) = ρ.int lane v := by
  induction depth generalizing v ty l with
  | zero =>
    refine hρ.eval_linearValue? hfit hlane h fun d i hd hkind h => ?_
    cases h
    exact eval_leaf _ v
  | succ depth ih =>
    refine hρ.eval_linearValue? hfit hlane h fun d i hd hkind h => ?_
    obtain ⟨e, he, hresult, hi, hoperands⟩ := hs.definition hty hd hkind
    have hinstr : m.kernel.instr? i = some e.instr := by rw [instr?, he]; rfl
    replace h := (Answers.run_lift_bind (some?_eq_ok.mpr he)).symm.trans h
    refine hρ.eval_linearInstr? hwrap hfit hi hinstr hresult hexact hlane (fun u hu honly hlane l' hl' => ?_) h
    obtain ⟨ty', hty'⟩ := hoperands u hu
    exact ih hty' (hexact.operand hresult hinstr honly hu) hlane hl'

/-! ## Addresses -/

theorem toUInt64_evalElementPtr (elem : ScalarTy) (base index : Val) :
    (evalElementPtr elem base index).toUInt64 = base.toUInt64 + UInt64.ofInt (index.toInt * elem.size) := by
  show (base.toUInt64 + index.toInt64.toUInt64 * UInt64.ofNat elem.size).toInt64.toUInt64 = _
  rw [UInt64.toUInt64_toInt64, UInt64.ofInt_mul, ofInt_natCast, Val.toInt, ← toUInt64_ofInt64, Int64.ofInt_toInt]

/-- The symbolic form of a pointer stands for its address. -/
theorem toUInt64_addressFrom? (hs : m.kernel.Sound φ) (hρ : m.Solves ρ isAddressing) (hwrap : m.kernel.NoOverflow ρ)
    (hfit : m.kernel.ConstsFit) {ty : Ty} (hty : m.kernel.Typed v ty) (hexact : m.kernel.ExtendsExactly ρ v)
    (hlane : (ρ v).HasLane lane) {fuel : Nat} {sum : Linear} {a : Address}
    (h : (m.kernel.addressFrom? fuel sum v).run = .ok (some a)) :
    ((ρ v).lane lane).toUInt64 + UInt64.ofInt (sum.eval (ρ.int lane)) =
      ((ρ a.root).lane lane).toUInt64 + UInt64.ofInt (a.sum.eval (ρ.int lane)) := by
  induction fuel generalizing v ty sum with
  | zero => exact absurd h (by simp [addressFrom?, OptionT.run, failure, OptionT.fail, OptionT.mk, pure, Except.pure])
  | succ fuel ih =>
    obtain ⟨d, hd, h⟩ := Answers.bind_eq_some.mp h
    have hd := some?_eq_ok.mp (Answers.lift_eq_some.mp hd)
    cases hkind : d.kind with
    | param _ | const _ | undef =>
      rw [hkind] at h
      cases h
      rfl
    | inst i =>
      rw [hkind] at h
      obtain ⟨e, he, hresult, hi, hoperands⟩ := hs.definition hty hd hkind
      have hinstr : m.kernel.instr? i = some e.instr := by rw [instr?, he]; rfl
      replace h := (Answers.run_lift_bind (some?_eq_ok.mpr he)).symm.trans h
      cases hcase : e.instr with
      | elementPtr base index elem =>
        rw [hcase] at h hinstr hoperands
        obtain ⟨form, hform, h⟩ := Answers.bind_eq_some.mp h
        obtain ⟨sum', hsum', h⟩ := Answers.bind_eq_some.mp h
        have heq : mapLanes₂ (fun a b => pure (evalElementPtr elem a b)) (ρ base) (ρ index) = .ok (ρ v) :=
          hρ.result i hi _ v hinstr rfl hresult _ rfl
        obtain ⟨hbase, hindex, hval⟩ := mapLanes₂_lane (fun a b c hc => by rw [← pure_eq_ok.mp hc]; rfl) heq hlane
        have hnext : ∀ u ∈ (elementPtr base index elem).operands, m.kernel.ExtendsExactly ρ u :=
          fun u hu => hexact.operand hresult hinstr rfl hu
        obtain ⟨tyBase, htyBase⟩ := hoperands base (by simp [operands])
        obtain ⟨tyIndex, htyIndex⟩ := hoperands index (by simp [operands])
        rw [← ih htyBase (hnext base (by simp [operands])) hbase h,
          Linear.eval_addScaled _ (Except.ok.inj hsum'),
          hρ.eval_linear? hs hwrap hfit _ htyIndex (hnext index (by simp [operands])) hindex hform,
          ← pure_eq_ok.mp hval, toUInt64_evalElementPtr, UInt64.ofInt_add]
        simp only [Valuation.int]
        grind
      | _ =>
        rw [hcase] at h
        cases h
        rfl

/-- **Pointers that are said to lie some bytes apart do.** -/
theorem apart_of_distance? (hk : m.kernel.Coherent) (hv : m.kernel.verify = .ok ()) (hρ : m.Solves ρ isAddressing)
    (hwrap : m.kernel.NoOverflow ρ) (hfit : m.kernel.ConstsFit) {a b : ValueId} {tyA tyB : Ty} (ha : m.kernel.Typed a tyA)
    (hb : m.kernel.Typed b tyB) (hexactA : m.kernel.ExtendsExactly ρ a) (hexactB : m.kernel.ExtendsExactly ρ b) {d : Int}
    (h : m.kernel.distance? a b = .ok (some d)) (hlaneA : (ρ a).HasLane lane) (hlaneB : (ρ b).HasLane lane) :
    ((ρ b).lane lane).toUInt64 = ((ρ a).lane lane).toUInt64 + UInt64.ofInt d := by
  obtain ⟨entry, hentry⟩ := exists_entry?_of_verify hv
  have hs := sound_of_verify hentry hk hv
  rw [distance?] at h
  obtain ⟨x, hx, h⟩ := bind_eq_ok.mp h
  cases x with
  | none => cases pure_eq_ok.mp h
  | some x =>
    obtain ⟨y, hy, h⟩ := bind_eq_ok.mp h
    obtain ⟨y, rfl, hdistance⟩ := bind_eq_some_iff.mp (pure_eq_ok.mp h)
    have hformA := hρ.toUInt64_addressFrom? hs hwrap hfit ha hexactA hlaneA hx
    have hformB := hρ.toUInt64_addressFrom? hs hwrap hfit hb hexactB hlaneB hy
    rw [Address.distance?] at hdistance
    split at hdistance
    next hsame =>
      have hd := signed64?_eq_some hdistance
      have hgap : y.sum.eval (ρ.int lane) = x.sum.eval (ρ.int lane) + d := by
        rw [hd, Linear.eval, Linear.eval, hsame.2]
        ring
      have hzero : UInt64.ofInt (({} : Linear).eval (ρ.int lane)) = 0 := rfl
      rw [hzero] at hformA hformB
      rw [hgap, UInt64.ofInt_add, ← hsame.1] at hformB
      grind
    · cases hdistance

end Machine.Solves

/-! ## Extensions that lose the sign -/

/-- Two pointers, `x` elements and `x + 3` elements behind `p`. One index is extended by its sign, the other by zeros. -/
def threeBehind : Kernel := .ofListing "three_behind" .void [("p", .ptr), ("x", .scalar .i32)]
  [(.int 3, .scalar .i32)]
  [("entry", [(.cast .sext 1, .scalar .i64), (.binary .add 1 2, .scalar .i32),
      (.cast .zext 4, .scalar .i64), (.elementPtr 0 3 .i32, .ptr), (.elementPtr 0 5 .i32, .ptr),
      (.ret none, .void)])]

/-- All values of the kernel for an `x`. -/
def threeBehindAt (x : Int32) : Valuation := fun v =>
  match v.index with
  | 1 => .scalar (.i32 x)
  | 2 => .scalar (.i32 3)
  | 3 => .scalar (.i64 x.toInt64)
  | 4 => .scalar (.i32 (x + 3))
  | 5 => .scalar (.i64 (x + 3).toUInt32.toUInt64.toInt64)
  | 6 => .scalar (.ptr (4096 + x.toInt64.toUInt64 * 4))
  | 7 => .scalar (.ptr (4096 + (x + 3).toUInt32.toUInt64.toInt64.toUInt64 * 4))
  | _ => .scalar (.ptr 4096)

theorem solves_threeBehindAt (x : Int32) : Machine.Solves ⟨threeBehind, 1⟩ (threeBehindAt x) isAddressing := by
  constructor
  · rintro ⟨n⟩ d c hd hc
    have hn : n < 8 := lt_size_of_value? hd
    interval_cases n
    all_goals
      cases hd
      first
        | (cases hc
           rfl)
        | exact nomatch hc
  · rintro ⟨n⟩ - instr v hinstr honly hresult r hr
    have hn : n < 6 := lt_size_of_instr? hinstr
    interval_cases n
    all_goals
      cases hinstr
      first
        | exact absurd honly (by decide)
        | (cases hresult
           cases hr
           rfl)

theorem noOverflow_threeBehindAt {x : Int32} (hx : x.toInt + 3 < 2 ^ 31) : threeBehind.NoOverflow (threeBehindAt x) := by
  rintro ⟨n⟩ - op y z hinstr lane s t k hs ht - hk
  have hn : n < 6 := lt_size_of_instr? hinstr
  have hlow := Int32.le_toInt x
  interval_cases n
  all_goals cases hinstr
  cases hs
  cases hk
  show -2 ^ 31 ≤ x.toInt64.toInt + 3 ∧ x.toInt64.toInt + 3 < 2 ^ 31
  rw [Int32.toInt_toInt64]
  omega

theorem constsFit_threeBehind : threeBehind.ConstsFit := by
  rintro ⟨n⟩ d c hd hc
  have hn : n < 8 := lt_size_of_value? hd
  interval_cases n
  all_goals
    cases hd
    first
      | (obtain rfl := Constant.int.inj (ValueKind.const.inj hc)
         rfl)
      | exact nomatch hc

theorem typed_threeBehind : threeBehind.Typed 6 .ptr ∧ threeBehind.Typed 7 .ptr :=
  ⟨⟨_, rfl, rfl, fun _ hj => ValueKind.inst.inj hj ▸ rfl⟩, ⟨_, rfl, rfl, fun _ hj => ValueKind.inst.inj hj ▸ rfl⟩⟩

theorem extendsExactly_threeBehindAt (v : ValueId) : threeBehind.ExtendsExactly (threeBehindAt 5) v := by
  rintro u - ⟨n⟩ y hresult hcast lane -
  have hn : n < 6 := lt_size_of_result? hresult
  interval_cases n
  all_goals
    rcases hcast with hcast | hcast
    all_goals first
      | (cases hcast
         cases hresult
         rfl)
      | exact nomatch some.inj hcast

/-- Behind the fifth element all extensions are exact, and the pointers lie three elements apart. -/
theorem apart_threeBehind : threeBehind.distance? ⟨6⟩ ⟨7⟩ = .ok (some 12) ∧
    ((threeBehindAt 5 ⟨7⟩).lane 0).toUInt64 = ((threeBehindAt 5 ⟨6⟩).lane 0).toUInt64 + UInt64.ofInt 12 :=
  have hdistance : threeBehind.distance? ⟨6⟩ ⟨7⟩ = .ok (some 12) := by decide +kernel
  ⟨hdistance, Machine.Solves.apart_of_distance? (m := ⟨threeBehind, 1⟩) (by decide +kernel) (by decide +kernel)
    (solves_threeBehindAt 5) (noOverflow_threeBehindAt (by decide)) constsFit_threeBehind typed_threeBehind.1
    typed_threeBehind.2 (extendsExactly_threeBehindAt 6) (extendsExactly_threeBehindAt 7) hdistance
    (Val.hasLane_scalar _ 0) (Val.hasLane_scalar _ 0)⟩

/-- In front of the first element nothing overflows either. But an index that is negative is extended by zeros, and the
pointers do not lie three elements apart, though they are still said to. -/
theorem distance?_threeBehind : threeBehind.Coherent ∧ threeBehind.verify = .ok () ∧
    Machine.Solves ⟨threeBehind, 1⟩ (threeBehindAt (-5)) isAddressing ∧ threeBehind.NoOverflow (threeBehindAt (-5)) ∧
    threeBehind.ConstsFit ∧ threeBehind.distance? ⟨6⟩ ⟨7⟩ = .ok (some 12) ∧
    ((threeBehindAt (-5) ⟨7⟩).lane 0).toUInt64 ≠ ((threeBehindAt (-5) ⟨6⟩).lane 0).toUInt64 + UInt64.ofInt 12 :=
  ⟨by decide +kernel, by decide +kernel, solves_threeBehindAt (-5), noOverflow_threeBehindAt (by decide),
    constsFit_threeBehind, by decide +kernel, by decide⟩

end Spmd
