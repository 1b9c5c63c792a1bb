import Mathlib.Tactic.IntervalCases
import Spmd.Proofs.Exec.Valuation
import Spmd.Proofs.Kernel.Listing
import Spmd.Proofs.Pointer.Root
import Spmd.Stride

/-!
# Strides across lanes

A value that is made of lane indices and uniform values by linear operators changes from lane to lane by the stride that is
recorded for it, modulo its width. There is one exception: a shift counts modulo the width of what it shifts, and the
recorded stride is shifted by the whole count (`Strides.ShiftFits`).

* **`Kernel.ofInstr_of_strides`** — the recorded stride of an instruction is the one that the recorded strides of its
  operands give, since operands are looked at first.
* **`Machine.Abreast.step_iff`** — what a linear operator does to strides, right exactly if a shift fits.
-/

namespace Spmd

open Success List Kernel Instr Builtins Arena
open Option (any_eq_true bind_eq_some_iff isSome_iff_exists map_eq_some_iff mem_unique some)

variable {i : InstId} {post pre : List InstId} {entry b : BlockId} {w : Nat} {n : Int}
  {op : BinaryOp} {k : Kernel}

variable {v : ValueId}

/-! ## What is recorded -/

namespace Strides

/-- Records the stride of what an instruction defines. -/
def record (k : Kernel) (classify : Classifier) (d : Divergence) (dimension : Nat) (s : Strides) (i : InstId) :
    Checked Strides := do
  match k.result? i with
  | some v =>
    if d.isVaryingInst i then
      let stride ← s.ofInstr k dimension (← k.inst i).instr (← k.callKind? classify i)
      return ⟨s.table.insert v stride⟩
    else return s
  | none => return s

variable {classify : Classifier} {d : Divergence} {dimension : Nat} {s s' : Strides} {v : ValueId}

theorem get_insert (s : Strides) (u : ValueId) (stride : Stride) :
    (⟨s.table.insert u stride⟩ : Strides).get v = if u = v then stride else s.get v := by
  simp only [get, Std.TreeMap.getD_insert, Std.LawfulEqOrd.compare_eq_iff_eq]

/-- What recording an instruction can do: nothing, or give its result the stride that its operands lead to. -/
theorem record_eq_ok (h : s.record k classify d dimension i = .ok s') :
    (s' = s ∧ ∀ v, k.result? i = some v → d.isVaryingInst i = false) ∨
      ∃ v e call stride, k.result? i = some v ∧ d.isVaryingInst i = true ∧ k.inst? i = some e ∧
        k.callKind? classify i = .ok call ∧ s.ofInstr k dimension e.instr call = .ok stride ∧
        s' = ⟨s.table.insert v stride⟩ := by
  unfold record at h
  split at h
  next v hv =>
    split at h
    next hvarying =>
      obtain ⟨e, he, h⟩ := bind_eq_ok.mp h
      obtain ⟨call, hcall, h⟩ := bind_eq_ok.mp h
      obtain ⟨stride, hstride, h⟩ := bind_eq_ok.mp h
      exact .inr ⟨v, e, call, stride, hv, hvarying, some?_eq_ok.mp he, hcall, hstride, (pure_eq_ok.mp h).symm⟩
    next hvarying =>
      exact .inl ⟨(pure_eq_ok.mp h).symm, fun _ _ => Bool.eq_false_iff.mpr hvarying⟩
  next hnone =>
    exact .inl ⟨(pure_eq_ok.mp h).symm, fun v hv => by cases hnone.symm.trans hv⟩

theorem get_foldlM {is : List InstId} (h : is.foldlM (record k classify d dimension) s = .ok s')
    (hv : ∀ i ∈ is, k.result? i = some v → d.isVaryingInst i = false) : s'.get v = s.get v := by
  induction is generalizing s with
  | nil => rw [pure_eq_ok.mp h]
  | cons i is ih =>
    rw [foldlM_cons] at h
    obtain ⟨mid, hmid, h⟩ := bind_eq_ok.mp h
    rw [ih h fun j hj => hv j (.tail _ hj)]
    rcases record_eq_ok hmid with ⟨rfl, _⟩ | ⟨u, e, call, stride, hu, hvarying, _, _, _, rfl⟩
    · rfl
    · rw [get_insert, if_neg]
      rintro rfl
      exact absurd (hv i mem_cons_self hu) (by simp [hvarying])

/-- The stride of a linear operator depends on those of its operands alone. -/
theorem ofBinary_congr {x y : ValueId} (hx : s'.get x = s.get x) (hy : s'.get y = s.get y) :
    s'.ofBinary k op x y = s.ofBinary k op x y := by
  unfold ofBinary step?
  rw [hx, hy]

end Strides

namespace Kernel

variable {classify : Classifier} {d : Divergence} {dimension : Nat} {s : Strides} {v : ValueId}
  {c : BlockId} {g : FlowGraph} {bs1 bs2 : List BlockId} {x : ValueId} {φ : Flow}

theorem strides_eq_ok (h : k.strides classify d dimension = .ok s) :
    ∃ g, k.flowGraph = .ok g ∧ (g.order.flatMap k.instsOf).foldlM (Strides.record k classify d dimension) {} = .ok s :=
  bind_eq_ok.mp h

/-- A block comes behind those that lie on every way to it. -/
theorem idxOf_lt_of_above (hg : k.flowGraph = .ok g) (hentry : k.entry? = some entry) (hc : (k.flow entry).Above c b)
    (hne : c ≠ b) (hb : b ∈ g.order) : g.order.idxOf c < g.order.idxOf b := by
  have horder := orderly_order hg hentry
  induction hn : g.order.idxOf b using Nat.strong_induction_on generalizing b with
  | _ n ih =>
    subst hn
    have hroot : b ≠ entry := by
      rintro rfl
      exact hne (hc.antisymm ⟨.refl, .root_left _ _ _⟩)
    obtain ⟨p, hpred, hp, hlt⟩ := horder.front hb hroot
    have hstep : (k.flow entry).next p b := by
      rw [flow_eq hg]
      exact ((mem_preds_iff hg hb).mp hpred).2
    rcases eq_or_ne c p with rfl | hcp
    · exact hlt
    · exact (ih _ hlt (hc.of_step hne hstep) hcp hp rfl).trans hlt

theorem mem_front_of_idxOf_lt (hnodup : (bs1 ++ b :: bs2).Nodup)
    (h : (bs1 ++ b :: bs2).idxOf c < (bs1 ++ b :: bs2).idxOf b) : c ∈ bs1 := by
  by_contra hfront
  have hb : b ∉ bs1 := fun hb => (nodup_append.mp hnodup).2.2 b hb b mem_cons_self rfl
  rw [idxOf_append_of_notMem hfront, idxOf_append_of_notMem hb, idxOf_cons_self] at h
  omega

/-- The instructions in front of one and behind it, in the order in which they are looked at. -/
theorem visited_split (horder : g.order = bs1 ++ b :: bs2) (hsplit : k.instsOf b = pre ++ i :: post) :
    g.order.flatMap k.instsOf = (bs1.flatMap k.instsOf ++ pre) ++ i :: (post ++ bs2.flatMap k.instsOf) := by
  rw [horder, flatMap_append, flatMap_cons, hsplit]
  simp

theorem nodup_visited (hk : k.Coherent) (hg : k.flowGraph = .ok g) : (g.order.flatMap k.instsOf).Nodup := by
  refine nodup_flatMap.mpr ⟨fun b _ => hk.nodup b, (nodup_order hg).imp fun {b c} hne => ?_⟩
  exact fun i hi hi' => hne (hk.once b c i hi hi')

/-- What is ready for an instruction has been looked at when the instruction is. -/
theorem not_result_behind (hs : k.Sound (k.flow entry)) (hg : k.flowGraph = .ok g) (hentry : k.entry? = some entry)
    (horder : g.order = bs1 ++ b :: bs2) (hsplit : k.instsOf b = pre ++ i :: post) (hx : k.Ready (k.flow entry) b pre x) :
    ∀ j ∈ i :: (post ++ bs2.flatMap k.instsOf), k.result? j ≠ some x := by
  intro j hj hresult
  have hk := hs.coherent
  have hnodup := nodup_visited hk hg
  rw [visited_split horder hsplit, nodup_append] at hnodup
  refine hnodup.2.2 j ?_ j hj rfl
  obtain ⟨dx, hdx, hplace⟩ := hx
  obtain ⟨dx', hdx', hkind⟩ := map_eq_some_iff.mp (hk.defines j x hresult)
  obtain rfl := mem_unique hdx hdx'
  obtain ⟨e, he, halive, ⟨_, hpre⟩ | ⟨hne, habove⟩⟩ := hplace j hkind
  · exact mem_append_right _ hpre
  · have hb : b ∈ g.order := horder ▸ mem_append_right _ mem_cons_self
    have hlt := idxOf_lt_of_above hg hentry habove hne hb
    have hfront := mem_front_of_idxOf_lt (horder ▸ nodup_order hg) (horder ▸ hlt)
    exact mem_append_left _ (mem_flatMap.mpr ⟨e.block, hfront, (hs.mem_instsOf he halive).2⟩)

theorem Coherent.isVarying_eq (hk : k.Coherent) (hresult : k.result? i = some v) (d : Divergence) :
    d.isVarying k v = .ok (d.isVaryingInst i) := by
  obtain ⟨e, he, hkind⟩ := map_eq_some_iff.mp (hk.defines i v hresult)
  have hvalue : k.value v = .ok e := some?_eq_ok.mpr he
  rw [Divergence.isVarying, hvalue, ok_bind, hkind]
  rfl

/-- A value that does not vary has no stride. -/
theorem get_of_not_varying (hk : k.Coherent) (h : k.strides classify d dimension = .ok s) (hv : d.isVarying k v = .ok false) :
    s.get v = .uniform := by
  obtain ⟨g, _, hfold⟩ := strides_eq_ok h
  rw [Strides.get_foldlM hfold fun j _ hj => ?_]
  · rfl
  · rw [hk.isVarying_eq hj] at hv
    exact Except.ok.inj hv

/-- The instruction that defines a value stands in a block that control reaches. -/
def DefinedIn (k : Kernel) (φ : Flow) (v : ValueId) : Prop :=
  ∀ i, k.result? i = some v → ∃ b pre post, φ.Reached b ∧ k.instsOf b = pre ++ i :: post

/-- What has a stride was looked at, in a block that control reaches. -/
theorem definedIn_of_get (hk : k.Coherent) (hentry : k.entry? = some entry) (h : k.strides classify d dimension = .ok s)
    (hne : s.get v ≠ .uniform) :
    ∃ i, k.result? i = some v ∧ d.isVaryingInst i = true ∧ k.DefinedIn (k.flow entry) v := by
  obtain ⟨g, hg, hfold⟩ := strides_eq_ok h
  by_contra hno
  refine hne (Strides.get_foldlM hfold fun i hi hresult => ?_)
  by_contra hvarying
  refine hno ⟨i, hresult, by simpa using hvarying, fun j hj => ?_⟩
  obtain rfl := hk.result_inj hresult hj
  obtain ⟨b, hb, hi⟩ := mem_flatMap.mp hi
  obtain ⟨pre, post, hsplit⟩ := append_of_mem hi
  exact ⟨b, pre, post, (mem_order_iff_reached hg hentry).mp hb, hsplit⟩

/-- **A stride is recorded by the strides of the operands**, as they are recorded in the end. -/
theorem ofInstr_of_strides (hsound : k.Sound (k.flow entry)) (hentry : k.entry? = some entry)
    (h : k.strides classify d dimension = .ok s) (hb : (k.flow entry).Reached b)
    (hsplit : k.instsOf b = pre ++ i :: post) (hresult : k.result? i = some v) (hvarying : d.isVaryingInst i = true) :
    ∃ s0 e call, k.inst? i = some e ∧ k.callKind? classify i = .ok call ∧
      Strides.ofInstr s0 k dimension e.instr call = .ok (s.get v) ∧
      ∀ x, k.Ready (k.flow entry) b pre x → s0.get x = s.get x := by
  obtain ⟨g, hg, hfold⟩ := strides_eq_ok h
  obtain ⟨bs1, bs2, horder⟩ := append_of_mem ((mem_order_iff_reached hg hentry).mpr hb)
  have hbehind := fun x (hx : k.Ready (k.flow entry) b pre x) => not_result_behind hsound hg hentry horder hsplit hx
  have hnodup := nodup_visited hsound.coherent hg
  rw [visited_split horder hsplit] at hfold hnodup
  rw [foldlM_append] at hfold
  obtain ⟨s0, _, hfold⟩ := bind_eq_ok.mp hfold
  have hrest := hfold
  rw [foldlM_cons] at hfold
  obtain ⟨s', hs', hfold⟩ := bind_eq_ok.mp hfold
  rcases Strides.record_eq_ok hs' with ⟨_, hno⟩ | ⟨u, e, call, stride, hu, _, he, hcall, hstride, rfl⟩
  · exact absurd hvarying (by simp [hno v hresult])
  · obtain rfl := mem_unique hu hresult
    refine ⟨s0, e, call, he, hcall, ?_, fun x hx => ?_⟩
    · -- nothing behind the instruction defines its result again
      rw [Strides.get_foldlM hfold, Strides.get_insert, if_pos rfl]
      · exact hstride
      · intro j hj hu'
        obtain rfl := hsound.coherent.result_inj hu hu'
        exact absurd hj (nodup_cons.mp (nodup_append.mp hnodup).2.1).1
    · exact (Strides.get_foldlM hrest fun j hj hresult => absurd hresult (hbehind x hx j hj)).symm

/-- A linear operator works on values of the type of its result. -/
theorem Sound.typed_binary (hs : k.Sound φ) (hi : i ∈ k.instsInOrder) {y : ValueId}
    (hinstr : k.instr? i = some (.binary op x y)) : k.Typed x (k.resultTy i) ∧ k.Typed y (k.resultTy i) := by
  obtain ⟨b, hb, hmem⟩ := mem_flatMap.mp hi
  obtain ⟨tys, htys, hflaw⟩ := verifyTypes_iff.mp (hs.typed b hb i hmem _ hinstr)
  obtain ⟨a, rest, hx, hrest, rfl⟩ := forall₂_cons_left_iff.mp htys
  obtain ⟨a', rest', hy, hnil, rfl⟩ := forall₂_cons_left_iff.mp hrest
  obtain rfl := forall₂_nil_left_iff.mp hnil
  have hrules := Machine.rules_of_firstBroken hflaw
  have hsame : a = a' := of_decide_eq_true (hrules _ mem_cons_self)
  have hresult : a = k.resultTy i := of_decide_eq_true (hrules _ (.tail _ mem_cons_self))
  exact ⟨hresult ▸ hx, hresult ▸ hsame ▸ hy⟩

theorem Sound.mem_instsInOrder (hs : k.Sound φ) (hb : φ.Reached b) (hsplit : k.instsOf b = pre ++ i :: post) :
    i ∈ k.instsInOrder :=
  mem_flatMap.mpr ⟨b, hs.reach b hb, hsplit ▸ mem_append_right _ mem_cons_self⟩

theorem Typed.resultTy_eq {ty : Ty} (h : k.Typed v ty) (hresult : k.result? i = some v) : k.resultTy i = ty := by
  obtain ⟨d, hd, rfl, _⟩ := h
  rw [resultTy, hresult, Option.bind_some, hd]
  rfl

theorem Sound.definedIn (hs : k.Sound φ) (hb : φ.Reached b) (h : k.Ready φ b pre v) : k.DefinedIn φ v := by
  obtain ⟨dv, hdv, hplace⟩ := h
  intro j hj
  obtain ⟨dv', hdv', hkind⟩ := map_eq_some_iff.mp (hs.coherent.defines j v hj)
  obtain rfl := mem_unique hdv hdv'
  obtain ⟨e, he, halive, hplace⟩ := hplace j hkind
  obtain ⟨pre', post', hsplit⟩ := append_of_mem (hs.mem_instsOf he halive).2
  refine ⟨e.block, pre', post', ?_, hsplit⟩
  rcases hplace with ⟨hsame, _⟩ | ⟨_, habove⟩
  · exact hsame ▸ hb
  · exact habove.1

end Kernel

/-! ## Sequences of words -/

/-- The integers grow by `n` from lane to lane, as words of `w` bits. -/
def StepsBy (w : Nat) (x : Nat → Int) (n : Int) : Prop := ∀ lane : Nat, x lane ≡ x 0 + lane * n [ZMOD 2 ^ w]

namespace StepsBy

variable {x y z : Nat → Int} {m c : Int}

/-- As words, only steps that are equal as words lead to the same. -/
theorem iff_modEq (h : StepsBy w x n) : StepsBy w x m ↔ n ≡ m [ZMOD 2 ^ w] := by
  constructor
  · intro h'
    have hone := (h 1).symm.trans (h' 1)
    simp only [Nat.cast_one, one_mul] at hone
    exact Int.ModEq.add_left_cancel' _ hone
  · intro hnm lane
    exact (h lane).trans ((hnm.mul_left _).add_left _)

theorem add (hx : StepsBy w x n) (hy : StepsBy w y m) (hz : ∀ lane, z lane ≡ x lane + y lane [ZMOD 2 ^ w]) :
    StepsBy w z (n + m) := by
  intro lane
  calc z lane ≡ x lane + y lane [ZMOD 2 ^ w] := hz lane
    _ ≡ (x 0 + lane * n) + (y 0 + lane * m) [ZMOD 2 ^ w] := (hx lane).add (hy lane)
    _ = (x 0 + y 0) + lane * (n + m) := by ring
    _ ≡ z 0 + lane * (n + m) [ZMOD 2 ^ w] := (hz 0).symm.add_right _

theorem sub (hx : StepsBy w x n) (hy : StepsBy w y m) (hz : ∀ lane, z lane ≡ x lane - y lane [ZMOD 2 ^ w]) :
    StepsBy w z (n - m) := by
  intro lane
  calc z lane ≡ x lane - y lane [ZMOD 2 ^ w] := hz lane
    _ ≡ (x 0 + lane * n) - (y 0 + lane * m) [ZMOD 2 ^ w] := (hx lane).sub (hy lane)
    _ = (x 0 - y 0) + lane * (n - m) := by ring
    _ ≡ z 0 + lane * (n - m) [ZMOD 2 ^ w] := (hz 0).symm.add_right _

theorem mul_const (hx : StepsBy w x n) (hz : ∀ lane, z lane ≡ x lane * c [ZMOD 2 ^ w]) : StepsBy w z (n * c) := by
  intro lane
  calc z lane ≡ x lane * c [ZMOD 2 ^ w] := hz lane
    _ ≡ (x 0 + lane * n) * c [ZMOD 2 ^ w] := (hx lane).mul_right _
    _ = x 0 * c + lane * (n * c) := by ring
    _ ≡ z 0 + lane * (n * c) [ZMOD 2 ^ w] := (hz 0).symm.add_right _

end StepsBy

/-! ## Lanes -/

/-- Whether an instruction is a linear operator. -/
def Instr.isLinear : Instr → Bool
  | .binary op _ _ => op.isLinear
  | _ => false

namespace Kernel

/-- The call asks for the index of the lane, in the dimension that is spread over lanes or in the sub-group. -/
def AsksLane (k : Kernel) (classify : Classifier) (dimension : Nat) (i : InstId) : Prop :=
  k.callKind? classify i = .ok (some (.laneIdentity (.index dimension))) ∨
    k.callKind? classify i = .ok (some (.laneIdentity .subGroup))

section

variable {classify : Classifier} {d : Divergence} {dimension : Nat} {s : Strides} {v : ValueId}
  (hs : k.Sound (k.flow entry)) (hentry : k.entry? = some entry)
  (hstrides : k.strides classify d dimension = .ok s) (hb : (k.flow entry).Reached b)
  (hsplit : k.instsOf b = pre ++ i :: post) (hresult : k.result? i = some v)
  (hvarying : d.isVaryingInst i = true)

include hs hentry hstrides hb hsplit hresult hvarying

theorem get_of_asksLane (hcall : k.AsksLane classify dimension i) : s.get v = .linear 1 := by
  obtain ⟨s0, e, call, he, hkind, hstride, _⟩ := ofInstr_of_strides hs hentry hstrides hb hsplit hresult hvarying
  have hinstr : k.instr? i = some e.instr := by rw [instr?, he]; rfl
  obtain ⟨callee, args, mask, heq⟩ : ∃ callee args mask, e.instr = .call callee args mask := by
    by_contra hno
    push Not at hno
    rw [AsksLane, callKind?_of_not_call hinstr hno] at hcall
    exact absurd hcall (by simp)
  rw [heq] at hstride
  rw [AsksLane, hkind] at hcall
  rcases hcall with hcall | hcall
  · cases hcall
    have hstride := pure_eq_ok.mp hstride
    rw [← hstride, if_pos rfl]
  · cases hcall
    exact (pure_eq_ok.mp hstride).symm

theorem ofBinary_eq_get {x y : ValueId} (hinstr : k.instr? i = some (.binary op x y)) :
    s.ofBinary k op x y = .ok (s.get v) := by
  obtain ⟨s0, e, call, he, -, hstride, hready⟩ := ofInstr_of_strides hs hentry hstrides hb hsplit hresult hvarying
  have heq : e.instr = .binary op x y := by
    rw [instr?, he] at hinstr
    exact Option.some.inj hinstr
  have hordered := hs.ordered b hb pre i post hsplit _ hinstr rfl
  rw [heq, Strides.ofInstr] at hstride
  rw [← hstride]
  exact (Strides.ofBinary_congr (hready x (hordered x (by simp [operands])))
    (hready y (hordered y (by simp [operands])))).symm

end

/-- The value is made of lane indices and uniform values by linear operators. -/
inductive Affine (k : Kernel) (classify : Classifier) (d : Divergence) (dimension : Nat) : ValueId → Prop
  | uniform {v : ValueId} (h : d.isVarying k v = .ok false) : Affine k classify d dimension v
  | index {v : ValueId} {i : InstId} (hresult : k.result? i = some v) (hcall : k.AsksLane classify dimension i) :
      Affine k classify d dimension v
  | binary {v x y : ValueId} {i : InstId} {op : BinaryOp} (hresult : k.result? i = some v)
      (hinstr : k.instr? i = some (.binary op x y)) (hop : op.isLinear = true) (hx : Affine k classify d dimension x)
      (hy : Affine k classify d dimension y) : Affine k classify d dimension v

end Kernel

/-- `u` is met on the way down from the operands of `v`. -/
def Kernel.Inside (k : Kernel) (only : Instr → Bool) (v u : ValueId) : Prop :=
  ∃ i instr w, k.result? i = some v ∧ k.instr? i = some instr ∧ only instr = true ∧ w ∈ instr.operands ∧ k.Under only w u

/-- If a value is shifted left by its width or more, then what is left of the stride after the shift, which counts modulo
the width, is nothing. -/
def Strides.ShiftFits (s : Strides) (k : Kernel) (elem : ScalarTy) (v : ValueId) : Prop :=
  ∀ i x y c n, k.result? i = some v → k.instr? i = some (.binary .shl x y) → k.constInt? y = .ok (some c) →
    s.step? x = some n → elem.bits ≤ c.toInt → c.toInt < 63 → 2 ^ elem.bits ∣ n * 2 ^ (c.toInt.toNat - elem.bits)

/-- Values for every lane of a group: the lanes agree on what does not vary, and lane indices count the lanes. -/
structure Machine.Abreast (m : Machine) (classify : Classifier) (d : Divergence) (dimension : Nat) (ρ : Nat → Valuation) :
    Prop where
  solves : ∀ lane, m.Solves (ρ lane) isLinear
  uniform : ∀ v, d.isVarying m.kernel v = .ok false → ∀ lane, ρ lane v = ρ 0 v
  index : ∀ i ∈ m.kernel.instsInOrder, m.kernel.AsksLane classify dimension i → ∀ v elem, m.kernel.result? i = some v →
    m.kernel.resultTy i = .scalar elem → StepsBy elem.bits (fun lane => (ρ lane v).toInt) 1

namespace Strides

variable {s : Strides} {x y : ValueId} {X Y V : Nat → Int}

theorem ofStep?_eq_linear {o : Option Int} (h : (pure (Stride.ofStep? o) : Checked Stride) = .ok (.linear n)) : o = some n := by
  cases o with
  | none => exact absurd (pure_eq_ok.mp h) (by simp [Stride.ofStep?])
  | some m => exact congrArg some (Stride.linear.inj (pure_eq_ok.mp h))

theorem ofBinary_ne_uniform {stride : Stride} (h : s.ofBinary k op x y = .ok stride) : stride ≠ .uniform := by
  have hstep : ∀ o : Option Int, Stride.ofStep? o ≠ .uniform := fun o => by cases o <;> simp [Stride.ofStep?]
  have hpure : ∀ st : Stride, st ≠ .uniform → (pure st : Checked Stride) = .ok stride → stride ≠ .uniform :=
    fun st hst h => pure_eq_ok.mp h ▸ hst
  cases op with
  | add | sub => exact hpure _ (hstep _) h
  | mul =>
    obtain ⟨cx, _, h⟩ := bind_eq_ok.mp h
    obtain ⟨cy, _, h⟩ := bind_eq_ok.mp h
    cases cx <;> cases cy <;> exact hpure _ (by first | exact hstep _ | simp) h
  | shl =>
    obtain ⟨cy, _, h⟩ := bind_eq_ok.mp h
    cases cy with
    | none => exact hpure _ (by simp) h
    | some c =>
      dsimp only at h
      split at h
      · exact hpure _ (hstep _) h
      · exact hpure _ (by simp) h
  | _ => exact hpure _ (by simp) h

theorem step?_eq_linear {v : ValueId} (hne : s.get v ≠ .uniform) (h : s.step? v = some n) : s.get v = .linear n := by
  unfold step? at h
  cases hget : s.get v with
  | uniform => exact absurd hget hne
  | linear a =>
    rw [hget] at h
    exact congrArg Stride.linear (some.inj h)
  | irregular =>
    rw [hget] at h
    exact absurd h (by simp [Stride.step?])

/-- The step by which the result of a linear operator really changes: the recorded one, but for shifts by the width or
more. -/
theorem stepsBy_or_of_ofBinary (hw : w = 32 ∨ w = 64) (h : s.ofBinary k op x y = .ok (.linear n))
    (hx : ∀ a, s.step? x = some a → StepsBy w X a) (hy : ∀ a, s.step? y = some a → StepsBy w Y a)
    (hconstX : ∀ c, k.constInt? x = .ok (some c) → ∀ lane, X lane ≡ c.toInt [ZMOD 2 ^ w])
    (hconstY : ∀ c, k.constInt? y = .ok (some c) → ∀ lane, Y lane ≡ c.toInt [ZMOD 2 ^ w])
    (hV : ∀ lane, ∃ r, op.onInts? w (X lane) (Y lane) = some r ∧ V lane ≡ r [ZMOD 2 ^ w]) :
    StepsBy w V n ∧ (op = .shl → ∀ c, k.constInt? y = .ok (some c) → c.toInt < w) ∨ ∃ c a, op = .shl ∧
      k.constInt? y = .ok (some c) ∧ s.step? x = some a ∧ w ≤ c.toInt ∧ c.toInt < 63 ∧
      n = a * 2 ^ c.toInt.toNat ∧ StepsBy w V (a * 2 ^ (c.toInt.toNat - w)) := by
  cases op with
  | add | sub =>
    have h := ofStep?_eq_linear h
    obtain ⟨a, ha, h⟩ := bind_eq_some_iff.mp h
    obtain ⟨b, hb, h⟩ := bind_eq_some_iff.mp h
    rw [signed64?_eq_some h]
    refine .inl ⟨?_, nofun⟩
    first
      | refine (hx a ha).add (hy b hb) fun lane => ?_
      | refine (hx a ha).sub (hy b hb) fun lane => ?_
    obtain ⟨r, hr, hmod⟩ := hV lane
    exact some.inj hr ▸ hmod
  | mul =>
    obtain ⟨cx, hcx, h⟩ := bind_eq_ok.mp h
    obtain ⟨cy, hcy, h⟩ := bind_eq_ok.mp h
    have hV : ∀ lane, V lane ≡ X lane * Y lane [ZMOD 2 ^ w] := by
      intro lane
      obtain ⟨r, hr, hmod⟩ := hV lane
      exact some.inj hr ▸ hmod
    cases cy with
    | some c =>
      obtain ⟨a, ha, h⟩ := bind_eq_some_iff.mp (ofStep?_eq_linear h)
      rw [signed64?_eq_some h]
      exact .inl ⟨(hx a ha).mul_const fun lane => (hV lane).trans ((hconstY c hcy lane).mul_left _), nofun⟩
    | none =>
      cases cx with
      | some c =>
        obtain ⟨a, ha, h⟩ := bind_eq_some_iff.mp (ofStep?_eq_linear h)
        rw [signed64?_eq_some h]
        refine .inl ⟨(hy a ha).mul_const fun lane => (hV lane).trans ?_, nofun⟩
        rw [mul_comm]
        exact (hconstX c hcx lane).mul_left _
      | none => cases pure_eq_ok.mp h
  | shl =>
    obtain ⟨cy, hcy, h⟩ := bind_eq_ok.mp h
    cases cy with
    | none => cases pure_eq_ok.mp h
    | some c =>
      dsimp only at h
      split at h
      next hc =>
        obtain ⟨a, ha, h⟩ := bind_eq_some_iff.mp (ofStep?_eq_linear h)
        have hlow : 0 ≤ c.toInt := Int64.le_iff_toInt_le.mp hc.1
        have hhigh : c.toInt < 63 := Int64.lt_iff_toInt_lt.mp hc.2
        have hn : n = a * 2 ^ c.toInt.toNat := by
          rw [signed64?_eq_some h, Nat.shiftLeft_eq]
          push_cast
          ring
        -- the count is taken modulo the width, which divides the modulus of the words
        have hdvd : (w : Int) ∣ 2 ^ w := by rcases hw with rfl | rfl <;> decide
        have hsteps : StepsBy w V (a * 2 ^ (c.toInt % w).toNat) := by
          refine (hx a ha).mul_const fun lane => ?_
          obtain ⟨r, hr, hmod⟩ := hV lane
          rw [← some.inj hr, show Y lane % (w : Int) = c.toInt % w from (hconstY c hcy lane).of_dvd hdvd] at hmod
          exact hmod
        by_cases hcw : c.toInt < w
        · rw [Int.emod_eq_of_lt hlow hcw] at hsteps
          refine .inl ⟨hn ▸ hsteps, fun _ c' hc' => ?_⟩
          cases ok_unique hcy hc'
          exact hcw
        · have hcount : (c.toInt % w).toNat = c.toInt.toNat - w := by
            rcases hw with rfl | rfl <;> omega
          exact .inr ⟨c, a, rfl, hcy, ha, by omega, hhigh, hn, hcount ▸ hsteps⟩
      · cases pure_eq_ok.mp h
  | _ => cases pure_eq_ok.mp h

end Strides

/-! ## Values and their strides -/

theorem scalar_of_mapLanes₂ {f : Val → Val → Except Trap Val} {x y z : Val} {elem : ScalarTy} (h : mapLanes₂ f x y = .ok z)
    (hz : z.scalarTy? = some elem) : f x y = .ok z := by
  have hvector : ∀ {zs : Except Trap (List Val)}, (do return Val.vector (← zs)) = .ok z → f x y = .ok z := by
    intro zs h
    obtain ⟨zs, _, h⟩ := bind_eq_ok.mp h
    rw [← pure_eq_ok.mp h] at hz
    exact absurd hz (by simp [Val.scalarTy?])
  cases x with
  | vector xs => cases y <;> exact hvector h
  | scalar s =>
    cases y with
    | vector ys => exact hvector h
    | scalar t => exact h

namespace Machine

variable {m : Machine} {ρ : Valuation} {elem : ScalarTy} {v : ValueId}

/-- An integer constant is the integer, cut to the width of its type. -/
theorem Solves.toInt_modEq_constant {only : Instr → Bool} (hρ : m.Solves ρ only) (helem : elem = .i32 ∨ elem = .i64)
    {c : Int64} (hc : m.kernel.constInt? v = .ok (some c)) (hval : (ρ v).scalarTy? = some elem) :
    (ρ v).toInt ≡ c.toInt [ZMOD 2 ^ elem.bits] := by
  obtain ⟨d, hd, hkind⟩ := constInt?_eq_some hc
  have hread := hρ.constant v d _ hd hkind
  unfold Machine.constant at hread
  split at hread
  · obtain ⟨n, _, hread⟩ := bind_eq_ok.mp hread
    rw [← pure_eq_ok.mp hread] at hval
    exact absurd hval (by simp [Val.scalarTy?])
  · rw [← pure_eq_ok.mp hread] at hval ⊢
    have hty : d.ty.element?.getD .bool = elem := by
      have := Option.some.inj hval
      rwa [Scalar.ty_ofConstant] at this
    rw [hty]
    rcases helem with rfl | rfl
    · show c.toInt32.toInt64.toInt ≡ c.toInt [ZMOD 2 ^ 32]
      rw [Int32.toInt_toInt64, Int64.toInt_toInt32]
      exact Int.bmod_emod
    · exact Int.ModEq.refl _

/-- A linear operator whose result is of a type has operands of that type, and computes on integers up to its width. -/
theorem Solves.modEq_binary (hρ : m.Solves ρ isLinear) {x y : ValueId} (hi : i ∈ m.kernel.instsInOrder)
    (hresult : m.kernel.result? i = some v) (hinstr : m.kernel.instr? i = some (.binary op x y))
    (hop : op.isLinear = true) (hval : (ρ v).scalarTy? = some elem) :
    (ρ x).scalarTy? = some elem ∧ (ρ y).scalarTy? = some elem ∧
      ∃ r, op.onInts? elem.bits (ρ x).toInt (ρ y).toInt = some r ∧ (ρ v).toInt ≡ r [ZMOD 2 ^ elem.bits] := by
  have heq : mapLanes₂ (evalBinary op · · i) (ρ x) (ρ y) = .ok (ρ v) := hρ.result i hi _ v hinstr hop hresult _ rfl
  obtain ⟨s, t, r, n, hs, ht, hr, hty, hty', _, hn, htoInt⟩ := toInt_evalBinary hop (scalar_of_mapLanes₂ heq hval)
  rw [hr] at hval
  obtain rfl : s.ty = elem := hty'.symm.trans (some.inj hval)
  refine ⟨by rw [hs]; rfl, by rw [ht]; exact congrArg some hty, n, hn, ?_⟩
  rw [htoInt]
  exact Int.bmod_emod

end Machine

/-- In all lanes the value is a word of one type, and it is defined where control gets to. -/
structure Machine.InWords (m : Machine) (φ : Flow) (ρ : Nat → Valuation) (elem : ScalarTy) (v : ValueId) : Prop where
  typed : m.kernel.Typed v (.scalar elem)
  defined : m.kernel.DefinedIn φ v
  scalar : ∀ lane, (ρ lane v).scalarTy? = some elem

/-- The value changes from lane to lane by the step that is recorded for it, if one is. -/
def Strides.Right (s : Strides) (ρ : Nat → Valuation) (elem : ScalarTy) (v : ValueId) : Prop :=
  ∀ n, s.step? v = some n → StepsBy elem.bits (fun lane => (ρ lane v).toInt) n

namespace Machine.Abreast

variable {m : Machine} {classify : Classifier} {d : Divergence} {dimension : Nat}
  {ρ : Nat → Valuation} {s : Strides} {elem : ScalarTy} {v : ValueId} {x y : ValueId}

section

variable (hρ : m.Abreast classify d dimension ρ)
include hρ

/-- **What a linear operator does to strides**: the recorded stride is right if those of the operands are, provided that a
shift fits, and only then. -/
theorem step_iff (hk : m.kernel.Coherent) (helem : elem = .i32 ∨ elem = .i64) (hi : i ∈ m.kernel.instsInOrder)
    (hresult : m.kernel.result? i = some v) (hinstr : m.kernel.instr? i = some (.binary op x y))
    (hop : op.isLinear = true) (hval : ∀ lane, (ρ lane v).scalarTy? = some elem) (hx : s.Right ρ elem x)
    (hy : s.Right ρ elem y) (hn : s.ofBinary m.kernel op x y = .ok (.linear n)) :
    StepsBy elem.bits (fun lane => (ρ lane v).toInt) n ↔ s.ShiftFits m.kernel elem v := by
  have hbits : elem.bits = 32 ∨ elem.bits = 64 := by rcases helem with rfl | rfl <;> decide
  have hlanes := fun lane => (hρ.solves lane).modEq_binary hi hresult hinstr hop (hval lane)
  have hunique : ∀ {j x' y'}, m.kernel.result? j = some v → m.kernel.instr? j = some (.binary .shl x' y') →
      op = .shl ∧ x = x' ∧ y = y' := by
    intro j x' y' hj hinstr'
    obtain rfl := hk.result_inj hresult hj
    exact binary.inj (mem_unique hinstr hinstr')
  rcases Strides.stepsBy_or_of_ofBinary hbits hn hx hy
    (fun c hc lane => (hρ.solves lane).toInt_modEq_constant helem hc (hlanes lane).1)
    (fun c hc lane => (hρ.solves lane).toInt_modEq_constant helem hc (hlanes lane).2.1)
    (fun lane => (hlanes lane).2.2) with ⟨hright, hsmall⟩ | ⟨c, a, rfl, hc, ha, hle, hlt, rfl, hsteps⟩
  · refine iff_of_true hright fun j x' y' c n' hj hj' hc _ hle _ => ?_
    obtain ⟨hshl, -, rfl⟩ := hunique hj hj'
    exact absurd (hsmall hshl c hc) (by omega)
  · have hpow : a * 2 ^ c.toInt.toNat = a * 2 ^ (c.toInt.toNat - elem.bits) * 2 ^ elem.bits := by
      rw [mul_assoc, ← pow_add, Nat.sub_add_cancel (by omega)]
    have hzero : a * 2 ^ c.toInt.toNat ≡ 0 [ZMOD 2 ^ elem.bits] := by
      rw [hpow]
      exact (Dvd.intro_left _ rfl).modEq_zero_int
    have hfits : s.ShiftFits m.kernel elem v ↔ 2 ^ elem.bits ∣ a * 2 ^ (c.toInt.toNat - elem.bits) := by
      constructor
      · exact fun h => h i x y c a hresult hinstr hc ha hle hlt
      · intro h j x' y' c' a' hj hj' hc' ha' _ _
        obtain ⟨-, rfl, rfl⟩ := hunique hj hj'
        cases ok_unique hc hc'
        obtain rfl := mem_unique ha ha'
        exact h
    rw [hsteps.iff_modEq, hfits]
    exact ⟨fun h => (Int.modEq_zero_iff_dvd).mp (h.trans hzero), fun h => h.modEq_zero_int.trans hzero.symm⟩

theorem right_of_not_varying (hk : m.kernel.Coherent) (hstrides : m.kernel.strides classify d dimension = .ok s)
    (hv : d.isVarying m.kernel v = .ok false) : s.Right ρ elem v := by
  intro n hn
  rw [Strides.step?, get_of_not_varying hk hstrides hv] at hn
  cases hn
  intro lane
  show (ρ lane v).toInt ≡ (ρ 0 v).toInt + lane * 0 [ZMOD 2 ^ elem.bits]
  rw [hρ.uniform v hv lane, mul_zero, add_zero]

variable (hs : m.kernel.Sound (m.kernel.flow entry)) (hentry : m.kernel.entry? = some entry)
  (hstrides : m.kernel.strides classify d dimension = .ok s)
include hs hentry hstrides

/-- The index of the lane changes by one. -/
theorem right_index (hv : m.InWords (m.kernel.flow entry) ρ elem v) (hresult : m.kernel.result? i = some v)
    (hvarying : d.isVaryingInst i = true) (hcall : m.kernel.AsksLane classify dimension i) : s.Right ρ elem v := by
  intro n hn
  obtain ⟨b, pre, post, hb, hsplit⟩ := hv.defined i hresult
  rw [Strides.step?, get_of_asksLane hs hentry hstrides hb hsplit hresult hvarying hcall] at hn
  cases hn
  exact hρ.index i (hs.mem_instsInOrder hb hsplit) hcall v elem hresult (hv.typed.resultTy_eq hresult)

/-- The operands of a linear operator are looked at first, and are of its type. So its own stride is right exactly if a
shift fits, provided that theirs are. -/
theorem stepsBy_iff_of_operands (helem : elem = .i32 ∨ elem = .i64) (hv : m.InWords (m.kernel.flow entry) ρ elem v)
    (hresult : m.kernel.result? i = some v) (hinstr : m.kernel.instr? i = some (.binary op x y))
    (hop : op.isLinear = true) (hvarying : d.isVaryingInst i = true)
    (hoperands : ∀ w ∈ [x, y], m.InWords (m.kernel.flow entry) ρ elem w → s.Right ρ elem w)
    (hn : s.step? v = some n) : StepsBy elem.bits (fun lane => (ρ lane v).toInt) n ↔ s.ShiftFits m.kernel elem v := by
  obtain ⟨b, pre, post, hb, hsplit⟩ := hv.defined i hresult
  have hi := hs.mem_instsInOrder hb hsplit
  have hordered := hs.ordered b hb pre i post hsplit _ hinstr rfl
  obtain ⟨htyX, htyY⟩ := hs.typed_binary hi hinstr
  rw [hv.typed.resultTy_eq hresult] at htyX htyY
  have hlanes := fun lane => (hρ.solves lane).modEq_binary hi hresult hinstr hop (hv.scalar lane)
  have hrecorded := ofBinary_eq_get hs hentry hstrides hb hsplit hresult hvarying hinstr
  rw [Strides.step?_eq_linear (Strides.ofBinary_ne_uniform hrecorded) hn] at hrecorded
  refine hρ.step_iff hs.coherent helem hi hresult hinstr hop hv.scalar ?_ ?_ hrecorded
  · exact hoperands x (by simp) ⟨htyX, hs.definedIn hb (hordered x (by simp [operands])), fun lane => (hlanes lane).1⟩
  · exact hoperands y (by simp) ⟨htyY, hs.definedIn hb (hordered y (by simp [operands])), fun lane => (hlanes lane).2.1⟩

/-- Strides are right all the way down, if all shifts on the way fit. -/
theorem right_of_affine (helem : elem = .i32 ∨ elem = .i64) (hchain : m.kernel.Affine classify d dimension v)
    (hv : m.InWords (m.kernel.flow entry) ρ elem v)
    (hfits : ∀ u, m.kernel.Under isLinear v u → s.ShiftFits m.kernel elem u) : s.Right ρ elem v := by
  induction hchain with
  | uniform huniform => exact hρ.right_of_not_varying hs.coherent hstrides huniform
  | @index v i hresult hcall =>
    cases hvarying : d.isVaryingInst i with
    | false => exact hρ.right_of_not_varying hs.coherent hstrides (hvarying ▸ hs.coherent.isVarying_eq hresult d)
    | true => exact hρ.right_index hs hentry hstrides hv hresult hvarying hcall
  | @binary v x y i op hresult hinstr hop _ _ ihX ihY =>
    cases hvarying : d.isVaryingInst i with
    | false => exact hρ.right_of_not_varying hs.coherent hstrides (hvarying ▸ hs.coherent.isVarying_eq hresult d)
    | true =>
      have hdown : ∀ w ∈ (binary op x y).operands, ∀ u, m.kernel.Under isLinear w u →
          s.ShiftFits m.kernel elem u := fun w hw u hu => hfits u (.operand hresult hinstr hop hw hu)
      intro n hn
      refine (hρ.stepsBy_iff_of_operands hs hentry hstrides helem hv hresult hinstr hop hvarying ?_ hn).mpr
        (hfits v (.self v))
      intro w hw hwords
      rcases mem_pair.mp hw with rfl | rfl
      · exact ihX hwords (hdown w hw)
      · exact ihY hwords (hdown w hw)

end

/-- **Recorded strides are right, but for shifts by the width or more.** -/
theorem stepsBy_get_iff (hρ : m.Abreast classify d dimension ρ) (hk : m.kernel.Coherent) (hv : m.kernel.verify = .ok ())
    (hstrides : m.kernel.strides classify d dimension = .ok s) (helem : elem = .i32 ∨ elem = .i64)
    (hty : m.kernel.Typed v (.scalar elem)) (hval : ∀ lane, (ρ lane v).scalarTy? = some elem)
    (hchain : m.kernel.Affine classify d dimension v)
    (hfits : ∀ u, m.kernel.Inside isLinear v u → s.ShiftFits m.kernel elem u) {n : Int} (hn : s.get v = .linear n) :
    (∀ lane : Nat, (ρ lane v).toInt ≡ (ρ 0 v).toInt + lane * n [ZMOD 2 ^ elem.bits]) ↔ s.ShiftFits m.kernel elem v := by
  obtain ⟨entry, hentry⟩ := exists_entry?_of_verify hv
  have hs := sound_of_verify hentry hk hv
  have hne : s.get v ≠ .uniform := by simp [hn]
  have hstep : s.step? v = some n := by rw [Strides.step?, hn]; rfl
  obtain ⟨i, hresult, hvarying, hin⟩ := definedIn_of_get hk hentry hstrides hne
  have hwords : m.InWords (m.kernel.flow entry) ρ elem v := ⟨hty, hin, hval⟩
  cases hchain with
  | uniform huniform => exact absurd (get_of_not_varying hk hstrides huniform) hne
  | index hresult' hcall =>
    obtain rfl := hk.result_inj hresult hresult'
    refine iff_of_true (hρ.right_index hs hentry hstrides hwords hresult hvarying hcall n hstep) ?_
    intro j x y c n' hj hinstr
    obtain rfl := hk.result_inj hresult hj
    rw [AsksLane, callKind?_of_not_call hinstr (by simp)] at hcall
    exact absurd hcall (by simp)
  | binary hresult' hinstr hop hx hy =>
    obtain rfl := hk.result_inj hresult hresult'
    refine hρ.stepsBy_iff_of_operands hs hentry hstrides helem hwords hresult hinstr hop hvarying ?_ hstep
    intro w hw hwordsW
    have hfitsW : ∀ u, m.kernel.Under isLinear w u → s.ShiftFits m.kernel elem u := fun u hu =>
      hfits u ⟨i, _, w, hresult, hinstr, hop, hw, hu⟩
    rcases mem_pair.mp hw with rfl | rfl
    · exact hρ.right_of_affine hs hentry hstrides helem hx hwordsW hfitsW
    · exact hρ.right_of_affine hs hentry hstrides helem hy hwordsW hfitsW

end Machine.Abreast

/-! ## A shift by more than the width -/

/-- Three times the index of the lane, and that shifted left by 33. -/
def shiftedIndex : Kernel := .ofListing "shifted_index" .void []
  [(.int 0, .scalar .i32), (.int 3, .scalar .i32), (.int 33, .scalar .i32)]
  [("entry", [(.call "get_global_id" [0] none, .scalar .i32), (.binary .mul 3 1, .scalar .i32),
      (.binary .shl 4 2, .scalar .i32), (.ret none, .void)])]

/-- The analyses find the strides 3 and 3 · 2³³. -/
theorem strides_shiftedIndex : ∃ d s, shiftedIndex.divergence (classify {}) 0 = .ok d ∧
    shiftedIndex.strides (classify {}) d 0 = .ok s ∧
    (∀ n < 3, d.isVaryingInst ⟨n⟩ = true) ∧ s.get 4 = .linear 3 ∧ s.get 5 = .linear (3 * 2 ^ 33) := by
  have h : (shiftedIndex.divergence (classify {}) 0).toOption.any (fun d =>
      (shiftedIndex.strides (classify {}) d 0).toOption.any fun s =>
        (∀ n < 3, d.isVaryingInst ⟨n⟩ = true) ∧ s.get 4 = .linear 3 ∧ s.get 5 = .linear (3 * 2 ^ 33)) = true := by
    decide +kernel
  obtain ⟨d, hd, h⟩ := exists_of_any h
  obtain ⟨s, hs, h⟩ := exists_of_any h
  exact ⟨d, s, hd, hs, of_decide_eq_true h⟩

/-- All values of the kernel in a lane. -/
def shiftedIndexAt (lane : Nat) : Valuation := fun v =>
  match v.index with
  | 1 => .scalar (.i32 3)
  | 2 => .scalar (.i32 33)
  | 3 => .scalar (.i32 (.ofNat lane))
  | 4 => .scalar (.i32 (.ofNat lane * 3))
  | 5 => .scalar (.i32 (.ofBitVec ((Int32.ofNat lane * 3).toBitVec <<< 1)))
  | _ => .scalar (.i32 0)

theorem abreast_shiftedIndexAt {d : Divergence} (hd : ∀ n < 3, d.isVaryingInst ⟨n⟩ = true) :
    Machine.Abreast ⟨shiftedIndex, 1⟩ (classify {}) d 0 shiftedIndexAt where
  solves lane := by
    constructor
    · rintro ⟨n⟩ e c he hc
      have hn : n < 6 := lt_size_of_value? he
      interval_cases n
      all_goals
        cases he
        first
          | (cases hc
             rfl)
          | exact nomatch hc
    · rintro ⟨n⟩ - instr v hinstr honly hresult r hr
      have hn : n < 4 := lt_size_of_instr? hinstr
      interval_cases n
      all_goals
        cases hinstr
        first
          | exact absurd honly (by decide)
          | (cases hresult
             cases hr
             rfl)
  uniform := by
    rintro ⟨n⟩ huniform lane
    obtain ⟨e, he, -⟩ := bind_eq_ok.mp huniform
    have hn : n < 6 := lt_size_of_value? (some?_eq_ok.mp he)
    have hvaries : ∀ j < 3, d.isVarying shiftedIndex ⟨j + 3⟩ = .ok true := by
      intro j hj
      rw [Coherent.isVarying_eq (i := ⟨j⟩) (by decide +kernel) (by interval_cases j <;> rfl), hd j hj]
    interval_cases n
    · rfl
    · rfl
    · rfl
    · cases (hvaries 0 (by decide)).symm.trans huniform
    · cases (hvaries 1 (by decide)).symm.trans huniform
    · cases (hvaries 2 (by decide)).symm.trans huniform
  index := by
    rintro ⟨n⟩ - hcall v elem hresult hty lane
    have hn : n < 4 := lt_size_of_result? hresult
    interval_cases n
    · cases hresult
      cases hty
      show (Int32.ofNat lane).toInt64.toInt ≡ 0 + lane * 1 [ZMOD 2 ^ 32]
      rw [Int32.toInt_toInt64, Int32.toInt_ofNat', zero_add, mul_one]
      exact Int.bmod_emod
    all_goals exact hcall.elim nofun nofun

/-- Shifts fit as long as nothing is shifted. -/
theorem shiftFits_shiftedIndex {s : Strides} (hv : v ≠ 5) : s.ShiftFits shiftedIndex .i32 v := by
  rintro ⟨n⟩ x y c a hresult hinstr
  have hn : n < 4 := lt_size_of_instr? hinstr
  interval_cases n
  · exact nomatch some.inj hinstr
  · exact nomatch some.inj hinstr
  · exact absurd (some.inj hresult).symm hv
  · exact nomatch some.inj hinstr

theorem under_shiftedIndex {u : ValueId} (h : shiftedIndex.Under isLinear v u) (hv : v ≠ 5) : u ≠ 5 := by
  induction h with
  | self => exact hv
  | @operand v w u i instr hresult hinstr honly hmem h ih =>
    refine ih ?_
    rintro rfl
    -- nothing reads what is shifted
    obtain ⟨n⟩ := i
    have hn : n < 4 := lt_size_of_instr? hinstr
    interval_cases n
    all_goals
      cases hinstr
      exact absurd hmem (by decide)

theorem affine_shiftedIndex (d : Divergence) :
    shiftedIndex.Affine (classify {}) d 0 4 ∧ shiftedIndex.Affine (classify {}) d 0 5 := by
  have hindex : shiftedIndex.Affine (classify {}) d 0 3 :=
    .index (i := 0) rfl (.inl (by rfl))
  have hconst : ∀ n < 3, shiftedIndex.Affine (classify {}) d 0 ⟨n⟩ := by
    intro n hn
    interval_cases n <;> exact .uniform rfl
  have htriple : shiftedIndex.Affine (classify {}) d 0 4 :=
    .binary (i := 1) rfl rfl rfl hindex (hconst 1 (by decide))
  exact ⟨htriple, .binary (i := 2) rfl rfl rfl htriple (hconst 2 (by decide))⟩

/-- Three times the index grows by three. -/
theorem stepsBy_shiftedIndex : ∃ d s, shiftedIndex.divergence (classify {}) 0 = .ok d ∧
    shiftedIndex.strides (classify {}) d 0 = .ok s ∧ s.get ⟨4⟩ = .linear 3 ∧
    ∀ lane : Nat, (shiftedIndexAt lane ⟨4⟩).toInt ≡ (shiftedIndexAt 0 ⟨4⟩).toInt + lane * 3 [ZMOD 2 ^ 32] := by
  obtain ⟨d, s, hd, hs, hvaries, hget, -⟩ := strides_shiftedIndex
  refine ⟨d, s, hd, hs, hget, ?_⟩
  have hty : shiftedIndex.Typed 4 (.scalar .i32) := ⟨_, rfl, rfl, fun _ hj => ValueKind.inst.inj hj ▸ rfl⟩
  refine (Machine.Abreast.stepsBy_get_iff (abreast_shiftedIndexAt hvaries) (by decide +kernel) (by decide +kernel) hs (.inl rfl)
    hty (fun _ => rfl) (affine_shiftedIndex d).1 ?_ hget).mpr
    (shiftFits_shiftedIndex (by decide))
  rintro u ⟨i, instr, w, hresult, hinstr, honly, hmem, hunder⟩
  exact shiftFits_shiftedIndex (under_shiftedIndex (.operand hresult hinstr honly hmem hunder) (by decide))

/-- Shifted left by 33, which is by one, it grows by six. The recorded stride is no number of that size, and as a word it is
zero. -/
theorem not_stepsBy_shiftedIndex : shiftedIndex.Coherent ∧ shiftedIndex.verify = .ok () ∧
    ∃ d s, shiftedIndex.divergence (classify {}) 0 = .ok d ∧
      shiftedIndex.strides (classify {}) d 0 = .ok s ∧
      Machine.Abreast ⟨shiftedIndex, 1⟩ (classify {}) d 0 shiftedIndexAt ∧
      shiftedIndex.Affine (classify {}) d 0 ⟨5⟩ ∧ s.get ⟨5⟩ = .linear (3 * 2 ^ 33) ∧
      (shiftedIndexAt 1 ⟨5⟩).toInt = (shiftedIndexAt 0 ⟨5⟩).toInt + 6 ∧
      ¬(shiftedIndexAt 1 ⟨5⟩).toInt ≡ (shiftedIndexAt 0 ⟨5⟩).toInt + (1 : Nat) * (3 * 2 ^ 33) [ZMOD 2 ^ 32] := by
  obtain ⟨d, s, hd, hs, hvaries, -, hget⟩ := strides_shiftedIndex
  exact ⟨by decide +kernel, by decide +kernel, d, s, hd, hs, abreast_shiftedIndexAt hvaries, (affine_shiftedIndex d).2, hget,
    by decide, by decide⟩

end Spmd
