import Spmd.Packet.Collective
import Spmd.Proofs.Exec.Conform

/-!
# Combining lanes

What the lanes of a group compute together is `x 0 op x 1 op … op x n` from left to right
(`BinaryOp.through?`). The code that computes it groups the lanes in another way and fills up with neutral elements.

* **`RecurKind.combines`** — on integers and truth values the order and the grouping do not matter, and the neutral
  element is neutral: for sums and products modulo the width, for signed and unsigned minima and maxima, bit by bit.
* **`BinaryOp.Combines.doubled`** — combining every lane with the lane `1, 2, 4, …` before it gives every lane all lanes
  up to itself. After the step by `k` a lane has the window of the last `2 * k` lanes, or all of them if there are not
  so many.
-/

namespace Spmd

open List

variable {op : BinaryOp} {elem : ScalarTy} {x : Nat → Scalar}

namespace BinaryOp

/-- What an operator makes of two values. -/
def on? (op : BinaryOp) (a b : Val) : Option Val := (evalBinary op a b .absent).toOption

/-- `x 0 op x 1 op … op x n`, from left to right. -/
def through? (op : BinaryOp) (x : Nat → Scalar) : Nat → Option Val
  | 0 => some (.scalar (x 0))
  | n + 1 => (op.through? x n).bind (op.on? · (.scalar (x (n + 1))))

/-- What an operator makes of two scalars; the first of them if that is no scalar. -/
def onScalars (op : BinaryOp) (a b : Scalar) : Scalar :=
  match op.on? (.scalar a) (.scalar b) with
  | some (.scalar c) => c
  | _ => a

/-- The operator can be applied to all elements of a type, in any grouping and in any order, and `e` changes none. -/
structure Combines (op : BinaryOp) (elem : ScalarTy) (e : Scalar) : Prop where
  eval : ∀ {a b : Scalar}, a.ty = elem → b.ty = elem → ∀ i,
    evalBinary op (.scalar a) (.scalar b) i = .ok (.scalar (op.onScalars a b))
  ty : ∀ {a b : Scalar}, a.ty = elem → b.ty = elem → (op.onScalars a b).ty = elem
  assoc : ∀ {a b c : Scalar}, a.ty = elem → b.ty = elem → c.ty = elem →
    op.onScalars (op.onScalars a b) c = op.onScalars a (op.onScalars b c)
  comm : ∀ {a b : Scalar}, a.ty = elem → b.ty = elem → op.onScalars a b = op.onScalars b a
  neutral_ty : e.ty = elem
  neutral : ∀ {a : Scalar}, a.ty = elem → op.onScalars a e = a

/-! ## Words -/

/-- On words of a width the operator is `g`, which can be applied in any grouping and in any order, and `e` changes
none. -/
structure CombinesWords {w : Nat} (op : BinaryOp) (g : BitVec w → BitVec w → BitVec w) (e : BitVec w) : Prop where
  eval : ∀ a b i, evalWords op a b i = .ok (g a b)
  assoc : ∀ a b c, g (g a b) c = g a (g b c)
  comm : ∀ a b, g a b = g b a
  neutral : ∀ a, g a e = a

/-- The one with the lesser key; the first if there is no difference. -/
def lesser {w : Nat} (key : BitVec w → Int) (a b : BitVec w) : BitVec w := if key b < key a then b else a

section Words

variable {w : Nat} {e : BitVec w}

theorem combinesWords_lesser {key : BitVec w → Int} (heval : ∀ a b i, evalWords op a b i = .ok (lesser key a b))
    (hkey : ∀ a b, key a = key b → a = b) (hbound : ∀ a, key a ≤ key e) : op.CombinesWords (lesser key) e where
  eval := heval
  assoc a b c := by
    unfold lesser
    split_ifs <;> first | rfl | omega
  comm a b := by
    unfold lesser
    split_ifs
    · omega
    · rfl
    · rfl
    · exact hkey a b (by omega)
  neutral a := by
    have := hbound a
    exact if_neg (by omega)

theorem combinesWords_add : add.CombinesWords (w := w) (· + ·) 0#w :=
  ⟨fun _ _ _ => rfl, BitVec.add_assoc, BitVec.add_comm, fun a => BitVec.add_zero a⟩

theorem combinesWords_mul : mul.CombinesWords (w := w) (· * ·) 1#w :=
  ⟨fun _ _ _ => rfl, BitVec.mul_assoc, BitVec.mul_comm, fun a => BitVec.mul_one a⟩

theorem combinesWords_and : and.CombinesWords (w := w) (· &&& ·) (BitVec.allOnes w) :=
  ⟨fun _ _ _ => rfl, BitVec.and_assoc, BitVec.and_comm, fun _ => BitVec.and_allOnes⟩

theorem combinesWords_or : or.CombinesWords (w := w) (· ||| ·) 0#w :=
  ⟨fun _ _ _ => rfl, BitVec.or_assoc, BitVec.or_comm, fun _ => BitVec.or_zero⟩

theorem combinesWords_xor : xor.CombinesWords (w := w) (· ^^^ ·) 0#w :=
  ⟨fun _ _ _ => rfl, BitVec.xor_assoc, BitVec.xor_comm, fun _ => BitVec.xor_zero⟩

theorem combinesWords_smin (hbound : ∀ a : BitVec w, a.toInt ≤ e.toInt) :
    smin.CombinesWords (lesser BitVec.toInt) e := by
  refine combinesWords_lesser (fun a b i => ?_) (fun a b => BitVec.eq_of_toInt_eq) hbound
  simp [evalWords, orMismatch, onWords?, lesser, BitVec.slt, pure, Except.pure]

theorem combinesWords_smax (hbound : ∀ a : BitVec w, e.toInt ≤ a.toInt) :
    smax.CombinesWords (lesser fun a => -a.toInt) e := by
  refine combinesWords_lesser (fun a b i => ?_) (fun a b h => BitVec.eq_of_toInt_eq (by omega)) fun a => ?_
  · simp [evalWords, orMismatch, onWords?, lesser, BitVec.slt, pure, Except.pure]
  · have := hbound a
    omega

theorem combinesWords_umin : umin.CombinesWords (lesser fun a => (a.toNat : Int)) (BitVec.allOnes w) := by
  refine combinesWords_lesser (fun a b i => ?_) (fun a b h => BitVec.eq_of_toNat_eq (by omega)) fun a => ?_
  · simp [evalWords, orMismatch, onWords?, lesser, BitVec.ult, pure, Except.pure]
  · have := a.isLt
    rw [BitVec.toNat_allOnes]
    omega

theorem combinesWords_umax : umax.CombinesWords (lesser fun a => -(a.toNat : Int)) 0#w := by
  refine combinesWords_lesser (fun a b i => ?_) (fun a b h => BitVec.eq_of_toNat_eq (by omega)) fun a => ?_
  · simp [evalWords, orMismatch, onWords?, lesser, BitVec.ult, pure, Except.pure]
  · rw [BitVec.toNat_ofNat, Nat.zero_mod]
    omega

end Words

/-! ## Elements -/

section Elements

variable {a : Scalar}

theorem onScalars_of_eval {b c : Scalar} (h : ∀ i, evalBinary op (.scalar a) (.scalar b) i = .ok (.scalar c)) :
    op.onScalars a b = c := by
  rw [onScalars, on?, h]
  rfl

theorem CombinesWords.eval_i32 {g : BitVec 32 → BitVec 32 → BitVec 32} {e : BitVec 32} (h : op.CombinesWords g e)
    (a b : Int32) (i : InstId) : evalBinary op (.scalar (.i32 a)) (.scalar (.i32 b)) i =
      .ok (.scalar (.i32 (.ofBitVec (g a.toBitVec b.toBitVec)))) := by
  rw [evalBinary, h.eval]
  rfl

theorem CombinesWords.eval_i64 {g : BitVec 64 → BitVec 64 → BitVec 64} {e : BitVec 64} (h : op.CombinesWords g e)
    (a b : Int64) (i : InstId) : evalBinary op (.scalar (.i64 a)) (.scalar (.i64 b)) i =
      .ok (.scalar (.i64 (.ofBitVec (g a.toBitVec b.toBitVec)))) := by
  rw [evalBinary, h.eval]
  rfl

theorem exists_of_ty_i32 (h : a.ty = .i32) : ∃ x : BitVec 32, a = .i32 (.ofBitVec x) := by
  cases a with
  | i32 x => exact ⟨x.toBitVec, rfl⟩
  | bool | i64 | f32 | f64 | ptr => exact absurd h (by simp [Scalar.ty])

theorem exists_of_ty_i64 (h : a.ty = .i64) : ∃ x : BitVec 64, a = .i64 (.ofBitVec x) := by
  cases a with
  | i64 x => exact ⟨x.toBitVec, rfl⟩
  | bool | i32 | f32 | f64 | ptr => exact absurd h (by simp [Scalar.ty])

theorem exists_of_ty_bool (h : a.ty = .bool) : ∃ x : Bool, a = .bool x := by
  cases a with
  | bool x => exact ⟨x, rfl⟩
  | i32 | i64 | f32 | f64 | ptr => exact absurd h (by simp [Scalar.ty])

theorem combines_of_embedding {α : Type} (of : α → Scalar) {g : α → α → α} {e : α}
    (hof : ∀ {a : Scalar}, a.ty = elem → ∃ x, a = of x) (hty : ∀ x, (of x).ty = elem)
    (heval : ∀ a b i, evalBinary op (.scalar (of a)) (.scalar (of b)) i = .ok (.scalar (of (g a b))))
    (hassoc : ∀ a b c, g (g a b) c = g a (g b c)) (hcomm : ∀ a b, g a b = g b a) (hneutral : ∀ a, g a e = a) :
    op.Combines elem (of e) := by
  have hon : ∀ a b, op.onScalars (of a) (of b) = of (g a b) := fun a b => onScalars_of_eval (heval a b)
  refine ⟨fun ha hb i => ?_, fun ha hb => ?_, fun ha hb hc => ?_, fun ha hb => ?_, hty e, fun ha => ?_⟩
  · obtain ⟨a, rfl⟩ := hof ha
    obtain ⟨b, rfl⟩ := hof hb
    rw [hon, heval]
  · obtain ⟨a, rfl⟩ := hof ha
    obtain ⟨b, rfl⟩ := hof hb
    rw [hon, hty]
  · obtain ⟨a, rfl⟩ := hof ha
    obtain ⟨b, rfl⟩ := hof hb
    obtain ⟨c, rfl⟩ := hof hc
    simp only [hon, hassoc]
  · obtain ⟨a, rfl⟩ := hof ha
    obtain ⟨b, rfl⟩ := hof hb
    rw [hon, hon, hcomm]
  · obtain ⟨a, rfl⟩ := hof ha
    rw [hon, hneutral]

theorem CombinesWords.i32 {g : BitVec 32 → BitVec 32 → BitVec 32} {e : BitVec 32} (h : op.CombinesWords g e) :
    op.Combines .i32 (.i32 (.ofBitVec e)) :=
  combines_of_embedding (fun x => .i32 (.ofBitVec x)) exists_of_ty_i32 (fun _ => rfl)
    (fun a b i => h.eval_i32 (.ofBitVec a) (.ofBitVec b) i) h.assoc h.comm h.neutral

theorem CombinesWords.i64 {g : BitVec 64 → BitVec 64 → BitVec 64} {e : BitVec 64} (h : op.CombinesWords g e) :
    op.Combines .i64 (.i64 (.ofBitVec e)) :=
  combines_of_embedding (fun x => .i64 (.ofBitVec x)) exists_of_ty_i64 (fun _ => rfl)
    (fun a b i => h.eval_i64 (.ofBitVec a) (.ofBitVec b) i) h.assoc h.comm h.neutral

theorem combines_and_bool : and.Combines .bool (.bool true) :=
  combines_of_embedding .bool exists_of_ty_bool (fun _ => rfl) (fun _ _ _ => rfl) Bool.and_assoc Bool.and_comm
    Bool.and_true

theorem combines_or_bool : or.Combines .bool (.bool false) :=
  combines_of_embedding .bool exists_of_ty_bool (fun _ => rfl) (fun _ _ _ => rfl) Bool.or_assoc Bool.or_comm
    Bool.or_false

theorem combines_xor_bool : xor.Combines .bool (.bool false) :=
  combines_of_embedding .bool exists_of_ty_bool (fun _ => rfl) (fun _ _ _ => rfl) (by decide) (by decide) (by decide)

end Elements

end BinaryOp

namespace RecurKind

variable {kind : RecurKind}

/-- The word of a width that changes no other. -/
def neutralWord (w : Nat) : RecurKind → BitVec w
  | .mul => 1#w
  | .and | .umin => BitVec.allOnes w
  | .smin => BitVec.intMax w
  | .smax => BitVec.intMin w
  | _ => 0#w

theorem exists_combinesWords (w : Nat) (h : kind.isFloat = false) :
    ∃ g, kind.binaryOp.CombinesWords g (kind.neutralWord w) := by
  cases kind with
  | add => exact ⟨_, BinaryOp.combinesWords_add⟩
  | mul => exact ⟨_, BinaryOp.combinesWords_mul⟩
  | smin => exact ⟨_, BinaryOp.combinesWords_smin fun a => BitVec.toInt_intMax.symm ▸ BitVec.toInt_le⟩
  | smax => exact ⟨_, BinaryOp.combinesWords_smax BitVec.toInt_intMin_le⟩
  | umin => exact ⟨_, BinaryOp.combinesWords_umin⟩
  | umax => exact ⟨_, BinaryOp.combinesWords_umax⟩
  | and => exact ⟨_, BinaryOp.combinesWords_and⟩
  | or => exact ⟨_, BinaryOp.combinesWords_or⟩
  | xor => exact ⟨_, BinaryOp.combinesWords_xor⟩
  | fadd | fmul | fmin | fmax => cases h

theorem isFloat_of_accepts (helem : elem ∈ [ScalarTy.bool, .i32, .i64]) (h : kind.binaryOp.accepts elem = true) :
    kind.isFloat = false := by
  revert h helem
  cases elem <;> cases kind <;> decide

/-- Only floats start a scan from another element. -/
theorem scanIdentity_eq (h : kind.isFloat = false) (elem : ScalarTy) : kind.scanIdentity elem = kind.neutral elem := by
  cases kind with
  | fadd | fmul | fmin | fmax => cases h
  | add | mul | smin | smax | umin | umax | and | or | xor => rfl

/-- **The order and the grouping of lanes do not matter**, and lanes can be filled up with the neutral element, for
every way of combining integers or truth values. -/
theorem combines (helem : elem ∈ [ScalarTy.bool, .i32, .i64]) (h : kind.binaryOp.accepts elem = true) :
    kind.binaryOp.Combines elem (.ofConstant elem (kind.neutral elem)) := by
  have hfloat := isFloat_of_accepts helem h
  cases elem with
  | bool =>
    cases kind with
    | and => exact BinaryOp.combines_and_bool
    | or => exact BinaryOp.combines_or_bool
    | xor => exact BinaryOp.combines_xor_bool
    | add | mul | smin | smax | umin | umax | fadd | fmul | fmin | fmax => cases h
  | i32 =>
    obtain ⟨g, hwords⟩ := exists_combinesWords 32 hfloat
    have heq : Scalar.ofConstant .i32 (kind.neutral .i32) = .i32 (.ofBitVec (kind.neutralWord 32)) := by
      revert hfloat
      cases kind <;> decide
    exact heq ▸ hwords.i32
  | i64 =>
    obtain ⟨g, hwords⟩ := exists_combinesWords 64 hfloat
    have heq : Scalar.ofConstant .i64 (kind.neutral .i64) = .i64 (.ofBitVec (kind.neutralWord 64)) := by
      revert hfloat
      cases kind <;> decide
    exact heq ▸ hwords.i64
  | f32 | f64 | ptr => exact absurd helem (by decide)

end RecurKind

/-! ## Stretches and windows -/

namespace BinaryOp

/-- `x a op … op x (a + n)`. -/
def stretch (op : BinaryOp) (x : Nat → Scalar) (a : Nat) : Nat → Scalar
  | 0 => x a
  | n + 1 => op.onScalars (op.stretch x a n) (x (a + n + 1))

/-- Lane `j` combined with the `k - 1` lanes before it, or with all of them if there are not so many. -/
def window (op : BinaryOp) (x : Nat → Scalar) (k j : Nat) : Scalar := op.stretch x (j + 1 - k) (j - (j + 1 - k))

/-- Every lane combined with the lane `k` before it, if there is one, for every `k` in turn. -/
def shifted (op : BinaryOp) (e : Scalar) (ks : List Nat) (x : Nat → Scalar) : Nat → Scalar :=
  ks.foldl (fun acc k j => op.onScalars (acc j) (if k ≤ j then acc (j - k) else e)) x

/-- Some of the truth values hold. -/
theorem stretch_or (t : Nat → Bool) (n : Nat) :
    or.stretch (fun l => .bool (t l)) 0 n = .bool ((range (n + 1)).any t) := by
  induction n with
  | zero => simp [stretch]
  | succ n ih =>
    rw [stretch, ih, Nat.zero_add, range_succ (n := n + 1), any_append, any_cons, any_nil,
      Bool.or_false]
    rfl

/-- All of them hold. -/
theorem stretch_and (t : Nat → Bool) (n : Nat) :
    and.stretch (fun l => .bool (t l)) 0 n = .bool ((range (n + 1)).all t) := by
  induction n with
  | zero => simp [stretch]
  | succ n ih =>
    rw [stretch, ih, Nat.zero_add, range_succ (n := n + 1), all_append, all_cons, all_nil,
      Bool.and_true]
    rfl

namespace Combines

variable {e : Scalar}

section

variable (h : op.Combines elem e) (hx : ∀ n, (x n).ty = elem)
include h hx

theorem ty_stretch (a n : Nat) : (op.stretch x a n).ty = elem := by
  induction n with
  | zero => exact hx a
  | succ n ih => exact h.ty ih (hx _)

theorem through?_eq (n : Nat) : op.through? x n = some (.scalar (op.stretch x 0 n)) := by
  induction n with
  | zero => rfl
  | succ n ih =>
    rw [through?, ih, Option.bind_some, on?, h.eval (h.ty_stretch hx 0 n) (hx (n + 1)), stretch, Nat.zero_add]
    rfl

/-- Two neighbouring stretches make one. -/
theorem stretch_append (a n m : Nat) :
    op.onScalars (op.stretch x a n) (op.stretch x (a + n + 1) m) = op.stretch x a (n + m + 1) := by
  induction m with
  | zero => rfl
  | succ m ih =>
    have hty := h.ty_stretch hx
    have hlast : a + n + 1 + m + 1 = a + (n + m + 1) + 1 := by omega
    rw [stretch, ← h.assoc (hty a n) (hty _ m) (hx _), ih, hlast]
    rfl

/-- A step by the length of the windows makes them twice as long. -/
theorem window_double {k : Nat} (hk : 1 ≤ k) (j : Nat) :
    op.onScalars (op.window x k j) (if k ≤ j then op.window x k (j - k) else e) = op.window x (2 * k) j := by
  have hty := h.ty_stretch hx
  unfold window
  split
  next hle =>
    -- the window that ends `k` lanes before ends where the one of `j` starts
    have hfrom : j - k + 1 - k = j + 1 - 2 * k := by omega
    have hnext : j + 1 - 2 * k + (j - k - (j + 1 - 2 * k)) + 1 = j + 1 - k := by omega
    have hlength : j - k - (j + 1 - 2 * k) + (j - (j + 1 - k)) + 1 = j - (j + 1 - 2 * k) := by omega
    have happend := h.stretch_append hx (j + 1 - 2 * k) (j - k - (j + 1 - 2 * k)) (j - (j + 1 - k))
    rw [hnext, hlength] at happend
    rw [h.comm (hty _ _) (hty _ _), hfrom, happend]
  · have hfrom : j + 1 - k = 0 := by omega
    have hfrom' : j + 1 - 2 * k = 0 := by omega
    rw [h.neutral (hty _ _), hfrom, hfrom']

theorem shifted_window (m : Nat) : op.shifted e ((range m).map (1 <<< ·)) x = op.window x (1 <<< m) := by
  induction m with
  | zero =>
    funext j
    show x j = op.stretch x (j + 1 - 1) (j - (j + 1 - 1))
    rw [Nat.add_sub_cancel, Nat.sub_self]
    rfl
  | succ m ih =>
    rw [shifted] at ih
    rw [shifted, range_succ, map_append, foldl_append, ih, map_singleton,
      foldl_cons, foldl_nil]
    funext j
    have hpos : 1 ≤ 1 <<< m := by
      rw [Nat.one_shiftLeft]
      exact Nat.one_le_two_pow
    rw [h.window_double hx hpos, Nat.shiftLeft_succ]

end

end Combines

end BinaryOp

/-- The doublings are the powers of two up to the first that is not below the number of lanes. -/
theorem Build.exists_doublings (lanes : Nat) :
    ∃ m, Build.doublings lanes = (range m).map (1 <<< ·) ∧ lanes ≤ 1 <<< m := by
  have hfirst : ∀ n, ∃ m, ((range n).map (1 <<< ·)).filter (· < lanes) = (range m).map (1 <<< ·) ∧
      (m = n ∨ m < n ∧ lanes ≤ 1 <<< m) := by
    intro n
    induction n with
    | zero => exact ⟨0, rfl, .inl rfl⟩
    | succ n ih =>
      obtain ⟨m, hm, hcase⟩ := ih
      rw [range_succ, map_append, filter_append, hm, map_singleton]
      rcases hcase with rfl | ⟨hlt, hle⟩
      · by_cases hn : 1 <<< m < lanes
        · refine ⟨m + 1, ?_, .inl rfl⟩
          rw [range_succ, map_append, filter_cons_of_pos (by simpa using hn)]
          rfl
        · refine ⟨m, ?_, .inr ⟨Nat.lt_succ_self m, by omega⟩⟩
          rw [filter_cons_of_neg (by simpa using hn), filter_nil, append_nil]
      · have hgrow : 1 <<< m ≤ 1 <<< n := by
          rw [Nat.one_shiftLeft, Nat.one_shiftLeft]
          exact Nat.pow_le_pow_right (by decide) (Nat.le_of_lt hlt)
        refine ⟨m, ?_, .inr ⟨Nat.lt_succ_of_lt hlt, hle⟩⟩
        rw [filter_cons_of_neg (by simp; omega), filter_nil, append_nil]
  obtain ⟨m, hm, hcase⟩ := hfirst (lanes.log2 + 1)
  refine ⟨m, hm, ?_⟩
  rcases hcase with rfl | ⟨-, hle⟩
  · rw [Nat.one_shiftLeft]
    exact Nat.le_of_lt Nat.lt_log2_self
  · exact hle

/-- For up to 2^31 lanes, the doublings and the lanes that a shift picks are words of 32 bits. -/
theorem Build.doublings_lt {lanes n : Nat} (hlanes : lanes ≤ 0x80000000) (hn : n ∈ Build.doublings lanes) :
    2 * n < 0x100000000 ∧ ∀ j ∈ Build.shiftLanes lanes n, j < 0x100000000 := by
  have hlt : n < lanes := by simpa using (mem_filter.mp hn).2
  refine ⟨by omega, fun j hj => ?_⟩
  obtain ⟨l, hl, rfl⟩ := mem_map.mp hj
  have := mem_range.mp hl
  split <;> omega

/-- **Shifting by `1, 2, 4, …` lanes** gives every lane the combination of all lanes up to itself. -/
theorem BinaryOp.Combines.doubled {e : Scalar} (h : op.Combines elem e) (hx : ∀ n, (x n).ty = elem) {lanes j : Nat}
    (hj : j < lanes) : op.shifted e (Build.doublings lanes) x j = op.stretch x 0 j := by
  obtain ⟨m, hm, hle⟩ := Build.exists_doublings lanes
  have hfrom : j + 1 - 1 <<< m = 0 := by omega
  rw [hm, h.shifted_window hx, window, hfrom, Nat.sub_zero]

end Spmd
