import Mathlib.Data.Int.ModEq
import Mathlib.Tactic.Ring
import Spmd.Proofs.Exec.Conform
import Spmd.Proofs.Kernel.Coherent

/-!
# Values without a run

Analyses speak about all values of a kernel at once and not about the moments of a run. A valuation gives every name a
value, and solves the equations of a kind of instruction if every linked one of them makes its result of its operands
(`Machine.Solves`), by the functions that a run applies (`Machine.eval_of_compute?`).

Sums, differences, products and left shifts are computed in words. **`toInt_evalBinary`** says what that is in integers
without bounds, up to the width of the words.
-/

namespace Spmd

open Success

variable {n : Int} {w lane : Nat} {op : BinaryOp} {a b : BitVec w} {i : InstId} {x y z : Val} {xs : List Val}

/-! ## Words and integers -/

/-- The signed integer that a value stands for. -/
def Val.toInt (x : Val) : Int := x.toInt64.toInt

theorem signed64?_eq_some {m : Int} (h : signed64? n = some m) : m = n := by
  unfold signed64? at h
  split at h
  · exact (Option.some.inj h).symm
  · cases h

/-- Sums, differences, products and left shifts. -/
def BinaryOp.isLinear : BinaryOp → Bool
  | .add | .sub | .mul | .shl => true
  | _ => false

/-- What a linear operator on words of `w` bits does to integers without bounds. Shifts count modulo the width. -/
def BinaryOp.onInts? (op : BinaryOp) (w : Nat) (x y : Int) : Option Int :=
  match op with
  | .add => some (x + y)
  | .sub => some (x - y)
  | .mul => some (x * y)
  | .shl => some (x * 2 ^ (y % w).toNat)
  | _ => none

theorem toInt_emod_eq (hw : w ∣ 2 ^ w) (b : BitVec w) : b.toInt % (w : Int) = ((b.toNat % w : Nat) : Int) := by
  have hmod : b.toInt ≡ (b.toNat : Int) [ZMOD (2 ^ w : Nat)] := by
    rw [BitVec.toInt_eq_toNat_bmod]
    exact Int.bmod_emod
  rw [Int.natCast_mod]
  exact hmod.of_dvd (Int.natCast_dvd_natCast.mpr hw)

/-- A linear operator on words is the one on integers, cut to the width. -/
theorem onWords?_of_onInts? (hw : w ∣ 2 ^ w) (h : op.onInts? w a.toInt b.toInt = some n) :
    op.onWords? a b = some (BitVec.ofInt w n) := by
  cases op with
  | add | mul =>
    cases h
    simp [BinaryOp.onWords?, BitVec.ofInt_add, BitVec.ofInt_mul]
  | sub =>
    cases h
    rw [sub_eq_add_neg, BitVec.ofInt_add, BitVec.ofInt_neg, BitVec.ofInt_toInt, BitVec.ofInt_toInt, ← BitVec.sub_eq_add_neg]
    rfl
  | shl =>
    cases h
    have hpow : BitVec.ofInt w (2 ^ (b.toNat % w)) = BitVec.twoPow w (b.toNat % w) := by
      rw [show (2 : Int) ^ (b.toNat % w) = ((2 ^ (b.toNat % w) : Nat) : Int) by push_cast; rfl, BitVec.ofInt_natCast]
      refine BitVec.eq_of_toNat_eq ?_
      rw [BitVec.toNat_ofNat, BitVec.toNat_twoPow]
    rw [toInt_emod_eq hw, Int.toNat_natCast, BitVec.ofInt_mul, BitVec.ofInt_toInt, hpow, ← BitVec.shiftLeft_eq_mul_twoPow]
    rfl
  | _ => exact absurd h (by simp [BinaryOp.onInts?])

theorem evalWords_eq_ok (hw : w ∣ 2 ^ w) {r : BitVec w} (hn : op.onInts? w a.toInt b.toInt = some n)
    (h : evalWords op a b i = .ok r) : r.toInt = n.bmod (2 ^ w) := by
  -- no linear operator is a division
  have heval : evalWords op a b i = orMismatch i (.onIntegers op) (op.onWords? a b) := by
    cases op with
    | add | sub | mul | shl => rfl
    | _ => exact absurd hn (by simp [BinaryOp.onInts?])
  rw [heval, onWords?_of_onInts? hw hn] at h
  cases h
  exact BitVec.toInt_ofInt n

theorem exists_onInts? (hop : op.isLinear = true) (w : Nat) (x y : Int) : ∃ n, op.onInts? w x y = some n := by
  cases op with
  | add | sub | mul | shl => exact ⟨_, rfl⟩
  | _ => cases hop

/-- **A linear operator computes in words**: its operands and its result are of one type, and the result is what the
operator makes of the integers, cut to the width of that type. -/
theorem toInt_evalBinary (hop : op.isLinear = true) (h : evalBinary op x y i = .ok z) :
    ∃ s t r n, x = .scalar s ∧ y = .scalar t ∧ z = .scalar r ∧ t.ty = s.ty ∧ r.ty = s.ty ∧
      (s.ty.bits = 32 ∨ s.ty.bits = 64) ∧ op.onInts? s.ty.bits x.toInt y.toInt = some n ∧
      z.toInt = n.bmod (2 ^ s.ty.bits) := by
  have hbools : ∀ a b, op.onBools? a b = none := by cases op <;> first | (intros; rfl) | cases hop
  have hfloats : ∀ a b, op.onFloats? a b = none := by cases op <;> first | (intros; rfl) | cases hop
  have hfloats32 : ∀ a b, op.onFloat32s? a b = none := by
    cases op <;> first | (intros; rfl) | cases hop
  unfold evalBinary at h
  split at h
  next a b =>
    obtain ⟨r, hr, rfl⟩ := bind_pure_eq_ok.mp h
    obtain ⟨n, hn⟩ := exists_onInts? hop 32 a.toInt b.toInt
    refine ⟨_, _, _, n, rfl, rfl, rfl, rfl, rfl, .inl rfl, ?_, ?_⟩
    · show op.onInts? 32 a.toInt64.toInt b.toInt64.toInt = some n
      rw [Int32.toInt_toInt64, Int32.toInt_toInt64, hn]
    · show (Int32.ofBitVec r).toInt64.toInt = _
      rw [Int32.toInt_toInt64]
      exact evalWords_eq_ok (by decide) hn hr
  next a b =>
    obtain ⟨r, hr, rfl⟩ := bind_pure_eq_ok.mp h
    obtain ⟨n, hn⟩ := exists_onInts? hop 64 a.toInt b.toInt
    exact ⟨_, _, _, n, rfl, rfl, rfl, rfl, rfl, .inr rfl, hn, evalWords_eq_ok (by decide) hn hr⟩
  next a b =>
    obtain ⟨r, hr, rfl⟩ := bind_pure_eq_ok.mp h
    obtain ⟨n, hn⟩ := exists_onInts? hop 64 a.toBitVec.toInt b.toBitVec.toInt
    exact ⟨_, _, _, n, rfl, rfl, rfl, rfl, rfl, .inr rfl, hn, evalWords_eq_ok (by decide) hn hr⟩
  · rw [hfloats32] at h
    exact absurd h throw_ne_ok
  · rw [hfloats] at h
    exact absurd h throw_ne_ok
  · rw [hbools] at h
    exact absurd h throw_ne_ok
  · exact absurd h throw_ne_ok

/-! ## Lanes -/

/-- The value can be asked for a lane: it is a scalar, or a vector that is long enough. -/
def Val.HasLane (x : Val) (lane : Nat) : Prop := ∀ n, x.width? = some n → lane < n

theorem Val.hasLane_scalar (s : Scalar) (lane : Nat) : (Val.scalar s).HasLane lane := fun _ h =>
  absurd h (by simp [width?, lanes?])

theorem Val.hasLane_vector : (Val.vector xs).HasLane lane ↔ lane < xs.length := by
  simp [HasLane, width?, lanes?]

theorem Val.lane_vector (h : lane < xs.length) : (Val.vector xs).lane lane = xs[lane] := by
  show xs[lane]?.getD _ = _
  rw [List.getElem?_eq_getElem h]
  rfl

theorem getElem_mapM {α β ε : Type} {f : α → Except ε β} {xs : List α} {ys : List β} (h : xs.mapM f = .ok ys) {n : Nat}
    (hn : n < ys.length) : ∃ hx : n < xs.length, f xs[n] = .ok ys[n] := by
  have hall := mapM_eq_ok.mp h
  have hx : n < xs.length := by rw [hall.length_eq]; exact hn
  exact ⟨hx, hall.get hx hn⟩

/-- An operation lane by lane does to each lane what it does to scalars. -/
theorem mapLanes_lane {f : Val → Except Trap Val} (hf : ∀ a c, f a = .ok c → c.width? = none) (h : mapLanes f x = .ok z)
    (hz : z.HasLane lane) : x.HasLane lane ∧ f (x.lane lane) = .ok (z.lane lane) := by
  cases x with
  | vector xs =>
    obtain ⟨zs, hzs, rfl⟩ := bind_pure_eq_ok.mp h
    obtain ⟨hx, hlane⟩ := getElem_mapM hzs (Val.hasLane_vector.mp hz)
    refine ⟨Val.hasLane_vector.mpr hx, ?_⟩
    rw [Val.lane_vector hx, Val.lane_vector (Val.hasLane_vector.mp hz)]
    exact hlane
  | scalar s =>
    refine ⟨Val.hasLane_scalar s lane, ?_⟩
    cases z with
    | scalar r => exact h
    | vector zs => exact absurd (hf _ _ h) (by simp [Val.width?, Val.lanes?])

theorem mapLanes₂_lane {f : Val → Val → Except Trap Val} (hf : ∀ a b c, f a b = .ok c → c.width? = none)
    (h : mapLanes₂ f x y = .ok z) (hz : z.HasLane lane) :
    x.HasLane lane ∧ y.HasLane lane ∧ f (x.lane lane) (y.lane lane) = .ok (z.lane lane) := by
  cases x with
  | vector xs =>
    cases y with
    | vector ys =>
      obtain ⟨zs, hzs, rfl⟩ := bind_pure_eq_ok.mp h
      obtain ⟨hxy, hlane⟩ := getElem_mapM hzs (Val.hasLane_vector.mp hz)
      have hx : lane < xs.length := by rw [List.length_zip] at hxy; omega
      have hy : lane < ys.length := by rw [List.length_zip] at hxy; omega
      refine ⟨Val.hasLane_vector.mpr hx, Val.hasLane_vector.mpr hy, ?_⟩
      rw [Val.lane_vector hx, Val.lane_vector hy, Val.lane_vector (Val.hasLane_vector.mp hz)]
      rw [List.getElem_zip] at hlane
      exact hlane
    | scalar t =>
      obtain ⟨zs, hzs, rfl⟩ := bind_pure_eq_ok.mp h
      obtain ⟨hx, hlane⟩ := getElem_mapM hzs (Val.hasLane_vector.mp hz)
      refine ⟨Val.hasLane_vector.mpr hx, Val.hasLane_scalar t lane, ?_⟩
      rw [Val.lane_vector hx, Val.lane_vector (Val.hasLane_vector.mp hz)]
      exact hlane
  | scalar s =>
    cases y with
    | vector ys =>
      obtain ⟨zs, hzs, rfl⟩ := bind_pure_eq_ok.mp h
      obtain ⟨hy, hlane⟩ := getElem_mapM hzs (Val.hasLane_vector.mp hz)
      refine ⟨Val.hasLane_scalar s lane, Val.hasLane_vector.mpr hy, ?_⟩
      rw [Val.lane_vector hy, Val.lane_vector (Val.hasLane_vector.mp hz)]
      exact hlane
    | scalar t =>
      refine ⟨Val.hasLane_scalar s lane, Val.hasLane_scalar t lane, ?_⟩
      cases z with
      | scalar r => exact h
      | vector zs => exact absurd (hf _ _ _ h) (by simp [Val.width?, Val.lanes?])

theorem width?_evalBinary {a b c : Val} (h : evalBinary op a b i = .ok c) : c.width? = none := by
  cases c with
  | scalar s => rfl
  | vector cs =>
    unfold evalBinary at h
    split at h
    all_goals first
      | (obtain ⟨r, _, h⟩ := bind_eq_ok.mp h
         exact absurd (pure_eq_ok.mp h) (by simp [Val.bool]))
      | exact absurd h throw_ne_ok

theorem width?_evalCast (op : CastOp) (a : Val) (dest : ScalarTy) : (evalCast op a dest).width? = none := by
  have hty := scalarTy?_evalCast op a dest
  exact (Val.allOf_of_scalarTy? hty).2

/-! ## Equations -/

/-- A value for every name. -/
abbrev Valuation := ValueId → Val

namespace Machine

variable {m : Machine} {ρ : Valuation}

/-- What an instruction on numbers and addresses makes of the values of its operands. -/
def compute? (m : Machine) (ρ : Valuation) (i : InstId) : Instr → Option (Except Trap Val)
  | .binary op lhs rhs => some (mapLanes₂ (evalBinary op · · i) (ρ lhs) (ρ rhs))
  | .cast op x => some (mapLanes (fun a => pure (evalCast op a (m.elementOf i))) (ρ x))
  | .elementPtr base index elem => some (mapLanes₂ (fun a b => pure (evalElementPtr elem a b)) (ρ base) (ρ index))
  | _ => none

/-- That is what carrying it out gives where the operands have these values. -/
theorem eval_of_compute? {σ : Type} {env : Environment σ} {f : Frame} {i : InstId} {instr : Instr} {r : Except Trap Val}
    (h : m.compute? ρ i instr = some r) (hread : ∀ u ∈ instr.operands, m.read f u = .ok (ρ u)) :
    m.eval env f i instr = some <$> (liftM r : Exec σ Val) := by
  cases instr with
  | binary op lhs rhs | elementPtr lhs rhs =>
    cases h
    have hlhs := hread lhs (by simp [Instr.operands])
    have hrhs := hread rhs (by simp [Instr.operands])
    simp only [eval, hlhs, hrhs]
    rfl
  | cast op x =>
    cases h
    have hx := hread x (by simp [Instr.operands])
    simp only [eval, hx]
    rfl
  | _ => exact absurd h (by simp [compute?])

/-- The valuation gives constants the value that they stand for, and the result of every linked instruction that `only`
lets through what the instruction computes. -/
structure Solves (m : Machine) (ρ : Valuation) (only : Instr → Bool) : Prop where
  constant : ∀ v d c, m.kernel.value? v = some d → d.kind = .const c → m.constant d.ty c = .ok (ρ v)
  result : ∀ i ∈ m.kernel.instsInOrder, ∀ instr v, m.kernel.instr? i = some instr → only instr = true →
    m.kernel.result? i = some v → ∀ r, m.compute? ρ i instr = some r → r = .ok (ρ v)

end Machine

/-! ## Definitions -/

theorem Kernel.constInt?_eq_some {k : Kernel} {v : ValueId} {c : Int64} (h : k.constInt? v = .ok (some c)) :
    ∃ d, k.value? v = some d ∧ d.kind = .const (.int c) := by
  obtain ⟨o, ho, h⟩ := bind_eq_ok.mp h
  obtain ⟨d, hd, ho⟩ := bind_eq_ok.mp ho
  refine ⟨d, some?_eq_ok.mp hd, ?_⟩
  cases hkind : d.kind with
  | const c' =>
    rw [hkind] at ho
    obtain rfl := pure_eq_ok.mp ho
    cases c' with
    | int i => rw [Option.some.inj (pure_eq_ok.mp h)]
    | bool _ | float _ => cases pure_eq_ok.mp h
  | param _ | inst _ | undef =>
    rw [hkind] at ho
    obtain rfl := pure_eq_ok.mp ho
    cases pure_eq_ok.mp h

/-- `u` is met on the way from `v` down the operands of instructions that `only` lets through. -/
inductive Kernel.Under (k : Kernel) (only : Instr → Bool) : ValueId → ValueId → Prop
  | self (v : ValueId) : Under k only v v
  | operand {v w u : ValueId} {i : InstId} {instr : Instr} (hresult : k.result? i = some v) (hinstr : k.instr? i = some instr)
      (honly : only instr = true) (hmem : w ∈ instr.operands) (h : Under k only w u) : Under k only v u

end Spmd
