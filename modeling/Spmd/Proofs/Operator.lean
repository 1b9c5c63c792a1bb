import Spmd.Proofs.Recurrence

/-!
# Operators and what they compute

What is said of an operator without evaluating it holds of the evaluator: on the elements it accepts it has an answer,
save for a division by zero (`evalBinary_of_accepts`), it does not matter in which order a commutative one gets its
operands (`evalBinary_comm`), and the inverse of a comparison holds where the comparison does not
(`compareVals_inverse`).
-/

namespace Spmd

open BinaryOp

variable {op : BinaryOp} {a b : Scalar} {w : Nat}

/-! ## What comes of an operator -/

/-- What comes of an operator that accepts its operands: a trap exactly if it divides by zero, and else an element of
their type. -/
def GivesOrTraps (op : BinaryOp) (a b : Scalar) (i : InstId) (r : Except Trap Val) : Prop :=
  (op.mayTrap = true ∧ b = .zero b.ty) ∧ r = .error (.divisionByZero i) ∨
    ¬(op.mayTrap = true ∧ b = .zero b.ty) ∧ ∃ c : Scalar, c.ty = a.ty ∧ r = .ok (.scalar c)

/-- The evaluator takes for divisions exactly the operators that are said to be able to trap. -/
theorem evalWords_eq (op : BinaryOp) (x y : BitVec w) (i : InstId) :
    evalWords op x y i =
      if op.mayTrap = true ∧ y = 0#w then .error (.divisionByZero i)
      else orMismatch i (.onIntegers op) (op.onWords? x y) := by
  cases op with
  | sdiv | srem | udiv | urem =>
    rw [evalWords]
    simp only [mayTrap, true_and, beq_iff_eq]
    rfl
  | _ => rfl

theorem evalWords_cases (h : op.isFloat = false) (x y : BitVec w) (i : InstId) :
    (op.mayTrap = true ∧ y = 0#w) ∧ evalWords op x y i = .error (.divisionByZero i) ∨
      ¬(op.mayTrap = true ∧ y = 0#w) ∧ ∃ r, evalWords op x y i = .ok r := by
  obtain ⟨r, hr⟩ : ∃ r, op.onWords? x y = some r := by
    cases op <;> first | exact ⟨_, rfl⟩ | cases h
  rw [evalWords_eq]
  by_cases hzero : op.mayTrap = true ∧ y = 0#w
  · exact .inl ⟨hzero, if_pos hzero⟩
  · exact .inr ⟨hzero, r, by rw [if_neg hzero, hr]; rfl⟩

/-- The same for elements that are words, as `of` makes them. -/
theorem givesOrTraps_words (h : op.isFloat = false) (of : BitVec w → Scalar) (hof : ∀ r, (of r).ty = a.ty) {x y : BitVec w}
    (hzero : b = .zero b.ty ↔ y = 0#w) (i : InstId) :
    GivesOrTraps op a b i (evalWords op x y i >>= fun r => pure (.scalar (of r))) := by
  rw [GivesOrTraps, hzero]
  rcases evalWords_cases h x y i with ⟨hdiv, heq⟩ | ⟨hdiv, r, heq⟩
  · exact .inl ⟨hdiv, by rw [heq]; rfl⟩
  · exact .inr ⟨hdiv, of r, hof r, by rw [heq]; rfl⟩

/-- An operator that cannot trap, with an answer. -/
theorem givesOrTraps_some {α : Type} (htrap : op.mayTrap = false) (of : α → Scalar) (hof : ∀ r, (of r).ty = a.ty)
    {answer : Option α} (h : answer.isSome = true) (i : InstId) (m : Mismatch) :
    GivesOrTraps op a b i (orMismatch i m answer >>= fun r => pure (.scalar (of r))) := by
  obtain ⟨r, rfl⟩ := Option.isSome_iff_exists.mp h
  exact .inr ⟨by simp [htrap], of r, hof r, rfl⟩

theorem isFloat_of_accepts {elem : ScalarTy} (h : op.accepts elem = true) : op.isFloat = elem.isFloat := by
  revert h
  cases elem <;> cases op <;> decide

theorem evalBinary_of_accepts (h : op.accepts a.ty = true) (hty : b.ty = a.ty) (i : InstId) :
    GivesOrTraps op a b i (evalBinary op (.scalar a) (.scalar b) i) := by
  have hfloat := isFloat_of_accepts h
  cases a <;> cases b <;> try (cases hty; done)
  case i32.i32 x y =>
    refine givesOrTraps_words hfloat (fun r => .i32 (.ofBitVec r)) (fun _ => rfl) ?_ i
    rw [show Scalar.zero _ = .i32 0 from rfl, Scalar.i32.injEq, ← Int32.toBitVec_inj]
    rfl
  case i64.i64 x y =>
    refine givesOrTraps_words hfloat (fun r => .i64 (.ofBitVec r)) (fun _ => rfl) ?_ i
    rw [show Scalar.zero _ = .i64 0 from rfl, Scalar.i64.injEq, ← Int64.toBitVec_inj]
    rfl
  case bool.bool x y =>
    refine givesOrTraps_some ?_ .bool (fun _ => rfl) ?_ i _
    · cases op <;> first | rfl | cases h
    · cases op <;> first | rfl | cases h
  case f32.f32 x y =>
    refine givesOrTraps_some ?_ .ofFloat32 (fun _ => rfl) ?_ i _
    · cases op <;> first | rfl | cases hfloat
    · cases op <;> first | rfl | cases hfloat
  case f64.f64 x y =>
    refine givesOrTraps_some ?_ .ofFloat (fun _ => rfl) ?_ i _
    · cases op <;> first | rfl | cases hfloat
    · cases op <;> first | rfl | cases hfloat
  case ptr.ptr x y => cases op <;> cases h

/-! ## Order of operands -/

section

variable (h : op.isCommutative = true)
include h

theorem exists_binaryOp_eq : ∃ kind : RecurKind, kind.binaryOp = op := by
  have : ∃ kind ∈ RecurKind.all, kind.binaryOp = op := by
    revert h
    cases op <;> decide
  obtain ⟨kind, -, hkind⟩ := this
  exact ⟨kind, hkind⟩

theorem evalWords_comm (x y : BitVec w) (i : InstId) : evalWords op x y i = evalWords op y x i := by
  obtain ⟨kind, rfl⟩ := exists_binaryOp_eq h
  cases hfloat : kind.isFloat with
  | false =>
    obtain ⟨g, hg⟩ := RecurKind.exists_combinesWords w hfloat
    rw [hg.eval, hg.eval, hg.comm]
  | true => cases kind <;> first | rfl | cases hfloat

theorem onBools?_comm (x y : Bool) : op.onBools? x y = op.onBools? y x := by
  revert h x y
  cases op <;> decide

theorem evalBinary_comm (hty : a.ty = b.ty) (hfloat : a.ty.isFloat = false) (i : InstId) :
    evalBinary op (.scalar a) (.scalar b) i = evalBinary op (.scalar b) (.scalar a) i := by
  cases a <;> cases b <;> try (cases hty; done)
  case bool.bool x y => rw [evalBinary, evalBinary, onBools?_comm h]
  case i32.i32 x y | i64.i64 x y | ptr.ptr x y => rw [evalBinary, evalBinary, evalWords_comm h]
  case f32.f32 | f64.f64 => cases hfloat

end

/-! ## Inverse comparisons -/

theorem compareVals_inverse {c c' : CmpOp} (h : c.inverse? = some c') (a b : Val) :
    compareVals c' a b = !compareVals c a b := by
  cases c with
  | eq | ne =>
    cases h
    simp [compareVals, bne]
  | slt | sgt | ult | ugt | sle | sge | ule | uge =>
    cases h
    simp only [compareVals, ← decide_not, Int64.not_lt, UInt64.not_lt, Int64.not_le, UInt64.not_le]
  | feq | fne | flt | fle | fgt | fge => cases h

/-- **What operators are said to do is what they compute.** Two elements of a type that an operator accepts give an
element of that type or a trap, and a trap exactly if the operator may trap and the second element is zero. The order of
the operands of a commutative operator does not matter on elements of one type that are no floats. Elements of two
types are a mismatch in either order. Where a comparison has an inverse, one of the two holds and the other does not. -/
theorem operators_compute_as_said (i : InstId) :
    (∀ (op : BinaryOp) (a b : Scalar), op.accepts a.ty = true → b.ty = a.ty →
      ((∃ c : Scalar, c.ty = a.ty ∧ evalBinary op (.scalar a) (.scalar b) i = .ok (.scalar c)) ∨
        evalBinary op (.scalar a) (.scalar b) i = .error (.divisionByZero i)) ∧
      (evalBinary op (.scalar a) (.scalar b) i = .error (.divisionByZero i) ↔ op.mayTrap = true ∧ b = .zero b.ty)) ∧
    (∀ (op : BinaryOp) (a b : Scalar), op.isCommutative = true → a.ty ∈ [ScalarTy.bool, .i32, .i64, .ptr] →
      if a.ty = b.ty then evalBinary op (.scalar a) (.scalar b) i = evalBinary op (.scalar b) (.scalar a) i
      else evalBinary op (.scalar a) (.scalar b) i = .error (.typeMismatch i (.operands op (.scalar a) (.scalar b)))) ∧
    ∀ (c c' : CmpOp) (a b : Val), c.inverse? = some c' →
      ∃ holds, evalCompare c a b = .bool holds ∧ evalCompare c' a b = .bool !holds := by
  refine ⟨fun op a b h hty => ?_, fun op a b h hmem => ?_, fun c c' a b h => ⟨_, rfl, ?_⟩⟩
  · rcases evalBinary_of_accepts h hty i with ⟨hzero, heq⟩ | ⟨hzero, c, hc, heq⟩
    · exact ⟨.inr heq, fun _ => hzero, fun _ => heq⟩
    · refine ⟨.inl ⟨c, hc, heq⟩, fun htrap => ?_, fun h => absurd h hzero⟩
      rw [heq] at htrap
      cases htrap
  · split
    next hty => exact evalBinary_comm h hty (by revert hmem; cases a.ty <;> decide) i
    next hty =>
      cases a <;> cases b <;> first | rfl | exact absurd rfl hty
  · rw [evalCompare, compareVals_inverse h]

/-- The least number cannot be divided by zero, but by minus one. -/
theorem divisions_compute_as_said :
    evalBinary .sdiv (.scalar (.i32 Int32.minValue)) (.scalar (.i32 0)) ⟨7⟩ = .error (.divisionByZero ⟨7⟩) ∧
    (∃ c : Scalar, c.ty = .i32 ∧
      evalBinary .sdiv (.scalar (.i32 Int32.minValue)) (.scalar (.i32 (-1))) ⟨7⟩ = .ok (.scalar c)) ∧
    evalBinary .smin (.scalar (.bool true)) (.scalar (.bool false)) ⟨7⟩ =
      evalBinary .smin (.scalar (.bool false)) (.scalar (.bool true)) ⟨7⟩ := by
  obtain ⟨haccepts, hcomm, -⟩ := operators_compute_as_said 7
  refine ⟨(haccepts .sdiv (.i32 Int32.minValue) (.i32 0) rfl rfl).2.mpr ⟨rfl, rfl⟩, ?_,
    hcomm .smin (.bool true) (.bool false) rfl (by decide)⟩
  obtain ⟨hanswer, htrap⟩ := haccepts .sdiv (.i32 Int32.minValue) (.i32 (-1)) rfl rfl
  exact hanswer.resolve_right fun h => absurd (htrap.mp h).2 (by decide)

end Spmd
