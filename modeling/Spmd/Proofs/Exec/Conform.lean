import Spmd.Proofs.Exec.Access
import Spmd.Kernel.WellFormed

/-!
# Values of a type

A value conforms to a type if it is a scalar of that very kind, or a vector with as many lanes as the type has on the
machine, each of them a scalar of the element's kind. Lanes and kind can be looked at apart (`Machine.conforms_iff`).

The typing rules of a verified kernel make most instructions give a value that conforms to the type of their result.
They say nothing about the result of a shuffle, nothing about the lanes of an address, and nothing about the result of
a call with vectors for arguments. `Machine.shaped` is what is missing there:

* **`Machine.conforms_eval_iff`** — an instruction with operands that conform gives a value that conforms exactly if it
  is shaped. There is a lemma for each kind of instruction that has to do with lanes.
-/

namespace Spmd

open Success List Bool

variable {z c y : Val} {elem : ScalarTy} {i : InstId} {tys : List Ty} {n : Nat} {σ : Type} {env : Environment σ}
  {w w' : World σ} {ret : Ty}

variable {a x : Val} {α : Type}

/-! ## Kinds of elements -/

namespace Scalar

theorem ty_ofInt64 (elem : ScalarTy) (i : Int64) : (ofInt64 elem i).ty = elem := by
  cases elem <;> rfl

theorem ty_ofDouble (elem : ScalarTy) (x : Float) : (ofDouble elem x).ty = elem := by
  cases elem <;> rfl

theorem ty_ofBits (elem : ScalarTy) (n : Nat) : (ofBits elem n).ty = elem := by
  cases elem <;> rfl

/-- A constant is of the kind it is read as, unless it is a truth value. -/
theorem ty_ofConstant (elem : ScalarTy) (c : Constant) :
    (ofConstant elem c).ty = match c with
      | .bool _ => .bool
      | _ => elem := by
  cases c with
  | bool b => rfl
  | int i => exact ty_ofInt64 elem i
  | float bits => exact ty_ofDouble elem _

end Scalar

theorem scalarTy?_zero (elem : ScalarTy) : (Val.zero elem).scalarTy? = some elem := congrArg some (Scalar.ty_ofInt64 elem 0)

theorem scalarTy?_evalBinary {op : BinaryOp} {b : Val} (h : evalBinary op a b i = .ok c) :
    c.scalarTy? = a.scalarTy? := by
  unfold evalBinary at h
  split at h
  all_goals first
    | obtain ⟨r, _, h⟩ := bind_eq_ok.mp h
      obtain rfl := pure_eq_ok.mp h
      rfl
    | exact absurd h throw_ne_ok

theorem scalarTy?_evalUnary {op : UnaryOp} (h : evalUnary op a i = .ok c) : c.scalarTy? = a.scalarTy? := by
  unfold evalUnary at h
  split at h
  all_goals first
    | obtain rfl := pure_eq_ok.mp h
      rfl
    | exact absurd h throw_ne_ok

theorem scalarTy?_evalCast (op : CastOp) (a : Val) (dest : ScalarTy) : (evalCast op a dest).scalarTy? = some dest := by
  cases op with
  | sext =>
    dsimp only [evalCast]
    split <;> exact congrArg some (Scalar.ty_ofInt64 dest _)
  | zext | trunc | fptosi => exact congrArg some (Scalar.ty_ofInt64 dest _)
  | sitofp | fpext | fptrunc => exact congrArg some (Scalar.ty_ofDouble dest _)

/-! ## Lanes -/

namespace Val

variable {lanes : List Val}

/-- How many lanes a value has; none if it is a scalar. -/
def width? (x : Val) : Option Nat := x.lanes?.map List.length

/-- All lanes of the value are scalars of one kind. -/
def AllOf (x : Val) (elem : ScalarTy) : Prop := ∀ y ∈ Machine.sourceLanes x, y.scalarTy? = some elem

instance (x : Val) (elem : ScalarTy) : Decidable (x.AllOf elem) :=
  inferInstanceAs (Decidable (∀ y ∈ Machine.sourceLanes x, y.scalarTy? = some elem))

theorem allOf_of_scalarTy? {x : Val} (h : x.scalarTy? = some elem) : x.AllOf elem ∧ x.width? = none := by
  cases x with
  | scalar s => exact ⟨fun y hy => mem_singleton.mp hy ▸ h, rfl⟩
  | vector lanes => exact absurd h (by simp [scalarTy?])

theorem allOf_vector : (vector lanes).AllOf elem ↔ ∀ y ∈ lanes, y.scalarTy? = some elem := Iff.rfl

theorem lane_of_lt (h : n < lanes.length) : (vector lanes).lane n ∈ lanes := by
  rw [lane, getElem?_eq_getElem h]
  exact getElem_mem h

end Val

/-- The lanes of an operation on two values lane by lane. -/
def joinWidth : Option Nat → Option Nat → Option Nat
  | some a, some b => some (min a b)
  | some a, none => some a
  | none, b => b

theorem joinWidth_self (a : Option Nat) : joinWidth a a = a := by
  cases a <;> simp [joinWidth]

theorem allOf_mapLanes {f : Val → Except Trap Val} {elem' : ScalarTy} (h : mapLanes f x = .ok z) (hx : x.AllOf elem)
    (hf : ∀ a c, a.scalarTy? = some elem → f a = .ok c → c.scalarTy? = some elem') :
    z.width? = x.width? ∧ z.AllOf elem' := by
  cases x with
  | vector xs =>
    obtain ⟨zs, hzs, rfl⟩ := bind_pure_eq_ok.mp h
    refine ⟨congrArg some (mapM_eq_ok.mp hzs).length_eq.symm, fun c hc => ?_⟩
    obtain ⟨a, ha, hfa⟩ := exists_of_mem_mapM hzs hc
    exact hf a c (hx a ha) hfa
  | scalar s =>
    have hz := hf (.scalar s) z (hx _ (.head _)) h
    obtain ⟨hall, hwidth⟩ := Val.allOf_of_scalarTy? hz
    exact ⟨hwidth, hall⟩

theorem allOf_mapLanes₂ {f : Val → Val → Except Trap Val} {e1 e2 : ScalarTy} (h : mapLanes₂ f x y = .ok z)
    (hx : x.AllOf e1) (hy : y.AllOf e2)
    (hf : ∀ a b c, a.scalarTy? = some e1 → b.scalarTy? = some e2 → f a b = .ok c → c.scalarTy? = some elem) :
    z.width? = joinWidth x.width? y.width? ∧ z.AllOf elem := by
  have hself : ∀ s : Scalar, (Val.scalar s) ∈ Machine.sourceLanes (.scalar s) := fun s => .head _
  cases x with
  | vector xs =>
    cases y with
    | vector ys =>
      obtain ⟨zs, hzs, rfl⟩ := bind_pure_eq_ok.mp h
      have hlen := (mapM_eq_ok.mp hzs).length_eq
      refine ⟨?_, fun c hc => ?_⟩
      · show some zs.length = some (min xs.length ys.length)
        rw [← hlen, length_zip]
      · obtain ⟨⟨a, b⟩, hab, hfab⟩ := exists_of_mem_mapM hzs hc
        exact hf a b c (hx a (of_mem_zip hab).1) (hy b (of_mem_zip hab).2) hfab
    | scalar s =>
      obtain ⟨zs, hzs, rfl⟩ := bind_pure_eq_ok.mp h
      refine ⟨congrArg some (mapM_eq_ok.mp hzs).length_eq.symm, fun c hc => ?_⟩
      obtain ⟨a, ha, hfa⟩ := exists_of_mem_mapM hzs hc
      exact hf a _ c (hx a ha) (hy _ (hself s)) hfa
  | scalar s =>
    cases y with
    | vector ys =>
      obtain ⟨zs, hzs, rfl⟩ := bind_pure_eq_ok.mp h
      refine ⟨congrArg some (mapM_eq_ok.mp hzs).length_eq.symm, fun c hc => ?_⟩
      obtain ⟨b, hb, hfb⟩ := exists_of_mem_mapM hzs hc
      exact hf _ b c (hx _ (hself s)) (hy b hb) hfb
    | scalar t =>
      obtain ⟨hall, hwidth⟩ := Val.allOf_of_scalarTy? (hf _ _ z (hx _ (hself s)) (hy _ (hself t)) h)
      exact ⟨hwidth, hall⟩

theorem orMismatch_eq_ok {mismatch : Mismatch} {x : Option α} {a : α} (h : orMismatch i mismatch x = .ok a) :
    x = some a := by
  cases x with
  | none => exact absurd h throw_ne_ok
  | some b => exact congrArg some (pure_eq_ok.mp h)

/-- Doing something in turn gives one result for each time. -/
theorem Exec.inTurn_eq_ok {f : Nat → Exec σ α} {xs : List α} (h : inTurn n f w = .ok xs w') :
    xs.length = n ∧ ∀ x ∈ xs, ∃ i u u', f i u = .ok x u' := by
  have hmapM : ∀ {is : List Nat} {w xs}, is.mapM f w = .ok xs w' →
      xs.length = is.length ∧ ∀ x ∈ xs, ∃ i u u', f i u = .ok x u' := by
    intro is
    induction is with
    | nil =>
      intro w xs h
      obtain ⟨rfl, _⟩ := Exec.pure_eq_ok.mp (mapM_nil (f := f) ▸ h)
      exact ⟨rfl, nofun⟩
    | cons i is ih =>
      intro w xs h
      rw [mapM_cons] at h
      obtain ⟨y, u, hy, h⟩ := Exec.bind_eq_ok.mp h
      obtain ⟨ys, hys, rfl⟩ := Exec.bind_pure_eq_ok.mp h
      obtain ⟨hlength, hmem⟩ := ih hys
      refine ⟨congrArg (· + 1) hlength, fun x hx => ?_⟩
      rcases mem_cons.mp hx with rfl | hx
      · exact ⟨i, w, u, hy⟩
      · exact hmem x hx
  rw [inTurn_eq_mapM] at h
  obtain ⟨hlength, hmem⟩ := hmapM h
  exact ⟨hlength.trans length_range, hmem⟩

/-! ## Conforming values -/

namespace Machine

variable {m : Machine} {x : Val} {ty : Ty} {a : Ty} {lanes xs ys : List Val} {picks : List Nat} {f : Frame}

/-- How many lanes the values of a type have; none if the type is not a vector. -/
def widthOf (m : Machine) : Ty → Checked (Option Nat)
  | .vector shape => return some (← m.lanesOf (.vector shape))
  | _ => return none

/-- The value is one of the type. -/
def Conforms (m : Machine) (x : Val) : Ty → Prop
  | .void => False
  | .scalar elem => x.scalarTy? = some elem
  | .vector shape => ∃ lanes, x = .vector lanes ∧ m.lanesOf (.vector shape) = .ok lanes.length ∧
    ∀ y ∈ lanes, y.scalarTy? = some shape.elem

/-- A value conforms exactly if it has the lanes of the type and all of them the kind of its element. -/
theorem conforms_iff : m.Conforms x ty ↔ m.widthOf ty = .ok x.width? ∧ ∃ elem, ty.element? = some elem ∧ x.AllOf elem := by
  cases ty with
  | void => simp [Conforms, Ty.element?]
  | scalar elem =>
    cases x with
    | scalar s => simp [Conforms, widthOf, Val.width?, Val.lanes?, Ty.element?, Val.AllOf, sourceLanes, pure, Except.pure]
    | vector lanes => simp [Conforms, widthOf, Val.width?, Val.lanes?, Val.scalarTy?, pure, Except.pure]
  | vector shape =>
    have hwidth : ∀ n, m.widthOf (.vector shape) = .ok n ↔ ∃ l, m.lanesOf (.vector shape) = .ok l ∧ n = some l := by
      intro n
      rw [widthOf, bind_eq_ok]
      exact exists_congr fun l => and_congr_right fun _ => pure_eq_ok.trans eq_comm
    rw [hwidth]
    cases x with
    | scalar s => simp [Conforms, Val.width?, Val.lanes?]
    | vector lanes => simp [Conforms, Val.width?, Val.lanes?, Ty.element?, Val.allOf_vector]

instance (m : Machine) (x : Val) (ty : Ty) : Decidable (m.Conforms x ty) :=
  decidable_of_iff (m.widthOf ty = .ok x.width? ∧ ∃ elem ∈ ty.element?, x.AllOf elem) conforms_iff.symm

theorem Conforms.allOf (h : m.Conforms x ty) (helem : ty.element? = some elem) : x.AllOf elem := by
  obtain ⟨_, elem', helem', hall⟩ := conforms_iff.mp h
  exact mem_unique helem helem' ▸ hall

theorem Conforms.width (h : m.Conforms x ty) : m.widthOf ty = .ok x.width? := (conforms_iff.mp h).1

theorem Conforms.exists_element (h : m.Conforms x ty) : ∃ elem, ty.element? = some elem :=
  have ⟨_, elem, helem, _⟩ := conforms_iff.mp h
  ⟨elem, helem⟩

/-- A value of the right kind conforms exactly if it has the right lanes. -/
theorem conforms_iff_width (helem : ty.element? = some elem) (hx : x.AllOf elem) :
    m.Conforms x ty ↔ m.widthOf ty = .ok x.width? :=
  ⟨Conforms.width, fun h => conforms_iff.mpr ⟨h, elem, helem, hx⟩⟩

/-- A value that conforms to a vector type is a vector. -/
theorem Conforms.exists_lanes (h : m.Conforms x ty) (hty : ty.isVector = true) (helem : ty.element? = some elem) :
    ∃ lanes, x = .vector lanes ∧ m.widthOf ty = .ok (some lanes.length) ∧ ∀ y ∈ lanes, y.scalarTy? = some elem := by
  cases ty with
  | vector shape =>
    obtain ⟨lanes, rfl, hlanes, hall⟩ := h
    exact ⟨lanes, rfl, bind_eq_ok.mpr ⟨lanes.length, hlanes, rfl⟩, Option.some.inj helem ▸ hall⟩
  | _ => exact absurd hty (by simp [Ty.isVector])

/-- A value that conforms to a scalar type is a scalar. -/
theorem Conforms.scalarTy? (h : m.Conforms x ty) (hty : ty.isScalar = true) (helem : ty.element? = some elem) :
    x.scalarTy? = some elem := by
  cases ty with
  | scalar elem' => exact Option.some.inj helem ▸ h
  | _ => exact absurd hty (by simp [Ty.isScalar])

theorem conforms_of_isScalar (hty : ty.isScalar = true) (helem : ty.element? = some elem) (hx : x.scalarTy? = some elem) :
    m.Conforms x ty := by
  cases ty with
  | scalar elem' => exact hx.trans helem.symm
  | _ => exact absurd hty (by simp [Ty.isScalar])

theorem conforms_scalar {s : Scalar} (h : s.ty = elem) : m.Conforms (.scalar s) (.scalar elem) := congrArg some h

theorem widthOf_withElement (m : Machine) (elem : ScalarTy) (ty : Ty) : m.widthOf (ty.withElement elem) = m.widthOf ty := by
  cases ty <;> rfl

theorem widthOf_eq_of_sameShape {b : Ty} (h : a.sameShape b = true) : m.widthOf a = m.widthOf b := by
  rw [← widthOf_withElement m .bool a, ← widthOf_withElement m .bool b, of_decide_eq_true h]

theorem exists_element_of_not_void (h : ty.isVoid = false) : ∃ elem, ty.element? = some elem := by
  cases ty with
  | void => exact absurd h (by simp [Ty.isVoid])
  | scalar elem => exact ⟨elem, rfl⟩
  | vector shape => exact ⟨shape.elem, rfl⟩

theorem conforms_vector (hty : ty.isVector = true) (helem : ty.element? = some elem)
    (hlength : m.lanesOf ty = .ok lanes.length) (hlanes : ∀ y ∈ lanes, y.scalarTy? = some elem) :
    m.Conforms (.vector lanes) ty := by
  cases ty with
  | vector shape => exact ⟨lanes, rfl, hlength, Option.some.inj helem ▸ hlanes⟩
  | _ => exact absurd hty (by simp [Ty.isVector])

theorem conforms_replicate (hty : ty.isVector = true) (helem : ty.element? = some elem) (hn : m.lanesOf ty = .ok n)
    (hx : x.scalarTy? = some elem) : m.Conforms (.vector (replicate n x)) ty :=
  conforms_vector hty helem (by rw [length_replicate, hn]) fun _ hy => (mem_replicate.mp hy).2 ▸ hx

/-- Zero is of every type but void. -/
theorem conforms_zeroOf (h : m.zeroOf ty = .ok x) (hty : ty.isVoid = false) : m.Conforms x ty := by
  cases ty with
  | void => exact absurd hty (by simp [Ty.isVoid])
  | scalar elem =>
    obtain rfl := pure_eq_ok.mp h
    exact scalarTy?_zero elem
  | vector shape =>
    obtain ⟨n, hn, rfl⟩ := bind_pure_eq_ok.mp h
    exact conforms_replicate rfl rfl hn (scalarTy?_zero shape.elem)

/-! ## Instructions -/

section

variable {mask : Option Val} {address : Nat → UInt64} {args : List Val}

theorem scalarTy?_loadLane {lane : Nat} (h : (loadLane elem mask address lane : Exec σ Val) w = .ok x w') :
    x.scalarTy? = some elem := by
  unfold loadLane at h
  split at h
  · obtain ⟨s, hread, rfl, _⟩ := Exec.read_eq_ok.mp h
    obtain ⟨_, _, rfl⟩ := bind_pure_eq_ok.mp hread
    exact congrArg some (Scalar.ty_ofBits elem _)
  · obtain ⟨rfl, _⟩ := Exec.pure_eq_ok.mp h
    exact scalarTy?_zero elem

/-- What is loaded conforms, masked or not. -/
theorem conforms_load (hty : ty.isVoid = false) (h : (m.load ty mask address : Exec σ Val) w = .ok x w') :
    m.Conforms x ty := by
  cases ty with
  | void => exact absurd hty (by simp [Ty.isVoid])
  | scalar elem => exact scalarTy?_loadLane h
  | vector shape =>
    obtain ⟨n, hlanes, h⟩ := Exec.bind_liftChecked_eq_ok.mp h
    obtain ⟨xs, hxs, rfl⟩ := Exec.bind_pure_eq_ok.mp h
    obtain ⟨hlength, hmem⟩ := Exec.inTurn_eq_ok hxs
    refine ⟨xs, rfl, hlength.symm ▸ hlanes, fun y hy => ?_⟩
    obtain ⟨lane, u, u', hlane⟩ := hmem y hy
    exact scalarTy?_loadLane hlane

/-- The lanes that a call works on, given the types of its operands. -/
def callWidth? (m : Machine) (tys : List Ty) : Option Nat :=
  (tys.filterMap fun ty => (m.widthOf ty).toOption.join).max?

/-- What the typing rules leave open. Addresses have the lanes of base and index, a shuffle has the lanes it picks, of
the kind of its sources, and a call with a vector among its operands has as many lanes as those. -/
def shaped (m : Machine) (result : Ty) : Instr → List Ty → Bool
  | .elementPtr .., [base, index] => m.widthOf result = (return joinWidth (← m.widthOf base) (← m.widthOf index))
  | .shuffle _ picks, first :: _ =>
    m.widthOf result = .ok (some picks.length) && (picks.isEmpty || result.element? = first.element?)
  | .call .., tys => (m.callWidth? tys).all fun lanes => m.widthOf result = .ok (some lanes)
  | _, _ => true

/-- The environment answers a call with what its result type says: with a lane of it, if it is called lane by lane. -/
def Answers (m : Machine) (env : Environment σ) (callee : String) (result : Ty) (tys : List Ty) : Prop :=
  ∀ args w x w', env callee args w = .ok (some x) w' →
    if tys.any Ty.isVector then x.scalarTy? = result.element? else m.Conforms x result

theorem Conforms.isVector_eq (h : m.Conforms x ty) : ty.isVector = x.width?.isSome := by
  cases ty with
  | void => exact h.elim
  | scalar elem =>
    rw [(Val.allOf_of_scalarTy? h).2]
    rfl
  | vector shape =>
    obtain ⟨lanes, rfl, _⟩ := h
    rfl

/-- The operands of a call show the lanes that their types have. -/
theorem callLanes?_eq (h : Forall₂ m.Conforms (args ++ mask.toList) tys) :
    callLanes? args mask = m.callWidth? tys ∧ tys.any Ty.isVector = (m.callWidth? tys).isSome := by
  rw [callLanes?, callWidth?]
  generalize args ++ mask.toList = xs at h
  have hwidths : xs.filterMap (fun x => x.lanes?.map length) = tys.filterMap fun ty => (m.widthOf ty).toOption.join := by
    induction h with
    | nil => rfl
    | @cons x ty xs tys hx _ ih =>
      rw [filterMap_cons, filterMap_cons, ih, hx.width]
      rfl
  have hany : tys.any Ty.isVector = !(xs.filterMap fun x => x.lanes?.map length).isEmpty := by
    clear hwidths
    induction h with
    | nil => rfl
    | @cons x ty xs tys hx _ ih =>
      rw [any_cons, ih, hx.isVector_eq, filterMap_cons, Val.width?]
      cases x.lanes?.map length <;> simp
  refine ⟨congrArg max? hwidths, ?_⟩
  rw [hany, hwidths]
  cases tys.filterMap fun ty => (m.widthOf ty).toOption.join with
  | nil => rfl
  | cons n ns => simp [max?_cons]

/-- A call gives a value that conforms exactly if it has as many lanes as its operands. -/
theorem conforms_call_iff {callee : String} (hargs : Forall₂ m.Conforms (args ++ mask.toList) tys)
    (hty : ty.isVoid = false) (hanswers : m.Answers env callee ty tys)
    (h : m.call env callee args mask ty w = .ok (some x) w') :
    m.Conforms x ty ↔ ((m.callWidth? tys).all fun lanes => m.widthOf ty = .ok (some lanes)) = true := by
  obtain ⟨hlanes, hany⟩ := callLanes?_eq hargs
  obtain ⟨elem, helem⟩ := exists_element_of_not_void hty
  rw [call, hlanes] at h
  cases hwidth : m.callWidth? tys with
  | none =>
    rw [hwidth] at h hany
    refine ⟨fun _ => rfl, fun _ => ?_⟩
    dsimp only at h
    split at h
    · have := hanswers args w x w' h
      rwa [if_neg (by rw [hany]; decide)] at this
    · rw [if_neg (by rw [hty]; decide)] at h
      obtain ⟨z, hzero, h⟩ := Exec.bind_liftChecked_eq_ok.mp h
      obtain ⟨heq, _⟩ := Exec.pure_eq_ok.mp h
      exact Option.some.inj heq ▸ conforms_zeroOf hzero hty
  | some lanes =>
    rw [hwidth] at h hany
    obtain ⟨results, _, hresults, h⟩ := Exec.bind_eq_ok.mp h
    rw [if_neg (by rw [hty]; decide)] at h
    obtain ⟨heq, rfl⟩ := Exec.pure_eq_ok.mp h
    cases heq
    obtain ⟨hlength, hmem⟩ := Exec.inTurn_eq_ok hresults
    have hall : (Val.vector results).AllOf elem := by
      intro y hy
      obtain ⟨lane, u, u', hlane⟩ := hmem y hy
      split at hlane
      · obtain ⟨r, hr, rfl⟩ := Exec.bind_pure_eq_ok.mp hlane
        cases r with
        | none => simpa [helem] using scalarTy?_zero elem
        | some r =>
          have := hanswers _ u r _ hr
          rw [if_pos (by rw [hany]; rfl), helem] at this
          exact this
      · obtain ⟨rfl, _⟩ := Exec.pure_eq_ok.mp hlane
        simpa [helem] using scalarTy?_zero elem
    rw [conforms_iff_width helem hall]
    simp [Val.width?, Val.lanes?, hlength]

end

/-- A choice between two values of a type is of that type. -/
theorem conforms_selectVals {t e : Val} {mask : Ty} (hc : m.Conforms c mask) (ht : m.Conforms t ty)
    (he : m.Conforms e ty) (hmask : mask.isScalar = true ∨ mask.sameShape ty = true) :
    m.Conforms (selectVals c t e) ty := by
  cases c with
  | scalar s =>
    show m.Conforms (if (Val.scalar s).isTrue then t else e) ty
    split
    · exact ht
    · exact he
  | vector lanes =>
    have hshape : mask.sameShape ty = true := by
      refine hmask.resolve_left fun hscalar => ?_
      cases mask with
      | scalar elem => exact absurd hc (by simp [Conforms, Val.scalarTy?])
      | _ => exact absurd hscalar (by simp [Ty.isScalar])
    have hwidth : m.widthOf ty = .ok (some lanes.length) := widthOf_eq_of_sameShape hshape ▸ hc.width
    obtain ⟨elem, helem⟩ := ht.exists_element
    have hlanes : ∀ {v : Val}, m.Conforms v ty → ∀ n < lanes.length, (v.lane n).scalarTy? = some elem := by
      intro v hv n hn
      have hsame := ok_unique hwidth hv.width
      cases v with
      | scalar s => exact absurd hsame (by simp [Val.width?, Val.lanes?])
      | vector vs =>
        have hlength : lanes.length = vs.length := Option.some.inj hsame
        exact hv.allOf helem _ (Val.lane_of_lt (hlength ▸ hn))
    have hall : (selectVals (.vector lanes) t e).AllOf elem := by
      intro y hy
      obtain ⟨⟨c, n⟩, hcn, rfl⟩ := mem_map.mp hy
      have hn := (mem_zipIdx' hcn).1
      dsimp only
      split
      · exact hlanes ht n hn
      · exact hlanes he n hn
    rw [conforms_iff_width helem hall, hwidth]
    simp [selectVals, Val.width?, Val.lanes?]

theorem scalarTy?_reduceVal {kind : RecurKind} (h : reduceVal kind i x = .ok z) (hx : x.AllOf elem) :
    z.scalarTy? = some elem := by
  cases x with
  | scalar s => exact absurd h throw_ne_ok
  | vector lanes =>
    cases lanes with
    | nil => exact absurd h throw_ne_ok
    | cons y ys =>
      refine foldlM_invariant (fun z => z.scalarTy? = some elem) (fun a b c _ ha hc => ?_)
        (hx y (.head _)) h
      exact (scalarTy?_evalBinary hc).trans ha

theorem lanes?_eq_some (h : x.lanes? = some lanes) : x = .vector lanes := by
  cases x with
  | scalar s => exact absurd h (by simp [Val.lanes?])
  | vector ys => exact congrArg Val.vector (Option.some.inj h)

theorem conforms_set (h : m.Conforms (.vector lanes) ty) (helem : ty.element? = some elem)
    (hy : y.scalarTy? = some elem) : m.Conforms (.vector (lanes.set n y)) ty := by
  have hall : (Val.vector (lanes.set n y)).AllOf elem := by
    intro z hz
    rcases mem_or_eq_of_mem_set hz with hz | rfl
    · exact h.allOf helem z hz
    · exact hy
  rw [conforms_iff_width helem hall, h.width]
  simp [Val.width?, Val.lanes?]

theorem allOf_of_forall₂ (h : Forall₂ m.Conforms xs tys) (helem : ∀ ty ∈ tys, ty.element? = some elem) :
    ∀ x ∈ xs, x.AllOf elem := by
  induction h with
  | nil => exact nofun
  | cons hfirst _ ih =>
    intro x hx
    rcases mem_cons.mp hx with rfl | hx
    · exact hfirst.allOf (helem _ (.head _))
    · exact ih (fun ty hty => helem ty (.tail _ hty)) x hx

/-- The lanes that a shuffle picks. -/
theorem picks_eq_some {lanes : Array Val} (h : picks.mapM (lanes[·]?) = some ys) :
    ys.length = picks.length ∧ ∀ y ∈ ys, y ∈ lanes.toList := by
  induction picks generalizing ys with
  | nil =>
    obtain rfl : [] = ys := by simpa using h
    exact ⟨rfl, nofun⟩
  | cons p picks ih =>
    rw [mapM_cons] at h
    obtain ⟨y, hy, h⟩ := bind_eq_some_iff.mp h
    obtain ⟨zs, hzs, h⟩ := bind_eq_some_iff.mp h
    obtain rfl : y :: zs = ys := Option.some.inj h
    obtain ⟨hlength, hmem⟩ := ih hzs
    refine ⟨congrArg (· + 1) hlength, fun z hz => ?_⟩
    rcases mem_cons.mp hz with rfl | hz
    · exact Array.mem_def.mp (Array.mem_of_getElem? hy)
    · exact hmem z hz

/-- A shuffle gives a value that conforms exactly if its result has the lanes and the kind of what is picked. -/
theorem conforms_shuffle_iff (hxs : Forall₂ m.Conforms xs tys) (helem : ∀ ty ∈ tys, ty.element? = some elem)
    (hys : picks.mapM ((xs.flatMap sourceLanes).toArray[·]?) = some ys) :
    m.Conforms (.vector ys) ty ↔ m.widthOf ty = .ok (some picks.length) ∧ (picks = [] ∨ ty.element? = some elem) := by
  obtain ⟨hlength, hmem⟩ := picks_eq_some hys
  have hall : (Val.vector ys).AllOf elem := by
    intro y hy
    obtain ⟨x, hx, hyx⟩ := mem_flatMap.mp (hmem y hy)
    exact allOf_of_forall₂ hxs helem x hx y hyx
  have hwidth : (Val.vector ys).width? = some picks.length := congrArg some hlength
  rw [conforms_iff, hwidth]
  -- a vector without lanes is of every kind
  refine and_congr_right fun hty => ⟨?_, ?_⟩
  · rintro ⟨elem', helem', hall'⟩
    cases ys with
    | nil => exact .inl (length_eq_zero_iff.mp hlength.symm)
    | cons y ys =>
      have := (hall y (.head _)).symm.trans (hall' y (.head _))
      exact .inr (helem'.trans this.symm)
  · rintro (rfl | helem')
    · obtain rfl := length_eq_zero_iff.mp hlength
      cases ty with
      | vector shape => exact ⟨shape.elem, rfl, nofun⟩
      | _ => cases Except.ok.inj hty
    · exact ⟨elem, helem', hall⟩

theorem element?_withElement (elem : ScalarTy) (h : ∃ kind, ty.element? = some kind) :
    (ty.withElement elem).element? = some elem := by
  cases ty with
  | void => exact absurd h (by simp [Ty.element?])
  | _ => rfl

/-! ## Typing rules -/

/-- Whatever the value reads as is one of the type. -/
def Fits (m : Machine) (f : Frame) (v : ValueId) (ty : Ty) : Prop := ∀ x, m.read f v = .ok x → m.Conforms x ty

/-- What an instruction reads first conforms. -/
theorem Fits.read {α : Type} {v : ValueId} {next : Val → Exec σ α} {r : α} (h : m.Fits f v ty)
    (hread : ((liftM (m.read f v) : Exec σ Val) >>= next) w = .ok r w') : ∃ x, m.Conforms x ty ∧ next x w = .ok r w' := by
  obtain ⟨x, hx, hnext⟩ := Exec.bind_liftChecked_eq_ok.mp hread
  exact ⟨x, h x hx, hnext⟩

theorem rules_of_firstBroken {rules : List (Bool × Flaw)}
    (h : (pure (Instr.firstBroken rules) : Checked (Option Flaw)) = .ok none) : ∀ r ∈ rules, r.1 = true := by
  intro r hr
  have hnone := Option.map_eq_none_iff.mp (pure_eq_ok.mp h)
  simpa using find?_eq_none.mp hnone r hr

theorem conforms_mapLanes {f : Val → Except Trap Val} (h : mapLanes f x = .ok z) (hx : m.Conforms x a)
    (hwidth : m.widthOf ty = m.widthOf a) (helem : ty.element? = some elem)
    (hf : ∀ x z, x.scalarTy? = a.element? → f x = .ok z → z.scalarTy? = some elem) : m.Conforms z ty := by
  obtain ⟨elem', helem'⟩ := hx.exists_element
  obtain ⟨hz, hall⟩ := allOf_mapLanes h (hx.allOf helem') fun x z hx => hf x z (hx.trans helem'.symm)
  rw [conforms_iff_width helem hall, hwidth, hz, hx.width]

theorem conforms_mapLanes₂ {f : Val → Val → Except Trap Val} (h : mapLanes₂ f x y = .ok z) (hx : m.Conforms x a)
    (hy : m.Conforms y a) (hwidth : m.widthOf ty = m.widthOf a) (helem : ty.element? = some elem)
    (hf : ∀ x y z, x.scalarTy? = a.element? → f x y = .ok z → z.scalarTy? = some elem) : m.Conforms z ty := by
  obtain ⟨elem', helem'⟩ := hx.exists_element
  obtain ⟨hz, hall⟩ := allOf_mapLanes₂ h (hx.allOf helem') (hy.allOf helem') fun x y z hx _ =>
    hf x y z (hx.trans helem'.symm)
  have hsame : x.width? = y.width? := ok_unique hx.width hy.width
  rw [conforms_iff_width helem hall, hwidth, hz, ← hsame, joinWidth_self, hx.width]

theorem forall₂_conforms {vs : List ValueId} (hfits : Forall₂ (m.Fits f) vs tys)
    (hreads : Forall₂ (fun v x => m.read f v = .ok x) vs xs) : Forall₂ m.Conforms xs tys := by
  induction hfits generalizing xs with
  | nil =>
    cases hreads
    exact .nil
  | cons hfit _ ih =>
    cases hreads with
    | cons hread hreads => exact .cons (hfit _ hread) (ih hreads)

theorem forall₂_readMask {mask : Option ValueId} {x? : Option Val} (h : m.readMask f mask = .ok x?) :
    Forall₂ (fun v x => m.read f v = .ok x) mask.toList x?.toList := by
  cases mask with
  | none =>
    obtain rfl := pure_eq_ok.mp h
    exact .nil
  | some v =>
    obtain ⟨x, hx, rfl⟩ := bind_pure_eq_ok.mp h
    exact .cons hx .nil

/-- The sources of a shuffle are of one kind. -/
theorem kinds_of_shuffle {first : Ty} {sources : List ValueId}
    (h : (Instr.shuffle sources picks).typeFlaw? ret ty (first :: tys) = .ok none) :
    ∀ ty ∈ first :: tys, ty.element? = first.element? := by
  unfold Instr.typeFlaw? at h
  dsimp only at h
  split at h
  · cases pure_eq_ok.mp h
  next hall =>
    simp only [not_eq_true', not_eq_false, all_eq_true, and_eq_true, decide_eq_true_eq] at hall
    exact fun ty hty => (hall ty hty).1

section

variable {f : Frame} {instr : Instr}

/-- **An instruction with operands that conform gives a value that conforms exactly if it is shaped.** -/
theorem conforms_eval_iff (hfits : Forall₂ (m.Fits f) instr.operands tys)
    (hrules : instr.typeFlaw? ret (m.kernel.resultTy i) tys = .ok none) (hty : (m.kernel.resultTy i).isVoid = false)
    (hanswers : ∀ callee args mask, instr = .call callee args mask → m.Answers env callee (m.kernel.resultTy i) tys)
    (h : m.eval env f i instr w = .ok (some x) w') :
    m.Conforms x (m.kernel.resultTy i) ↔ m.shaped (m.kernel.resultTy i) instr tys = true := by
  obtain ⟨elem, helem⟩ := exists_element_of_not_void hty
  have helement : m.elementOf i = elem := by rw [elementOf, helem, Option.getD_some]
  -- only an address, a call and a shuffle have anything to be shaped like
  cases instr with
  | binary op lhs rhs =>
    rcases hfits with _ | ⟨ha, _ | ⟨hb, _ | _⟩⟩
    obtain ⟨a, ha, h⟩ := ha.read h
    obtain ⟨b, hb, h⟩ := hb.read h
    obtain ⟨hmap, _⟩ := Exec.some_map_liftExcept_eq_ok.mp h
    have hrules := rules_of_firstBroken hrules
    simp only [forall_mem_cons, decide_eq_true_eq] at hrules
    obtain ⟨rfl, rfl, _⟩ := hrules
    refine iff_of_true ?_ rfl
    exact conforms_mapLanes₂ hmap ha hb rfl helem fun x y z hx hz =>
      (scalarTy?_evalBinary hz).trans (hx.trans helem)
  | unary op v =>
    rcases hfits with _ | ⟨ha, _ | _⟩
    obtain ⟨a, ha, h⟩ := ha.read h
    obtain ⟨hmap, _⟩ := Exec.some_map_liftExcept_eq_ok.mp h
    have hrules := rules_of_firstBroken hrules
    simp only [forall_mem_cons, decide_eq_true_eq] at hrules
    obtain ⟨rfl, _⟩ := hrules
    refine iff_of_true ?_ rfl
    exact conforms_mapLanes hmap ha rfl helem fun x z hx hz => (scalarTy?_evalUnary hz).trans (hx.trans helem)
  | compare op lhs rhs =>
    rcases hfits with _ | ⟨ha, _ | ⟨hb, _ | _⟩⟩
    obtain ⟨a, ha, h⟩ := ha.read h
    obtain ⟨b, hb, h⟩ := hb.read h
    obtain ⟨hmap, _⟩ := Exec.some_map_liftExcept_eq_ok.mp h
    have hrules := rules_of_firstBroken hrules
    simp only [forall_mem_cons, decide_eq_true_eq] at hrules
    obtain ⟨rfl, hresult, _⟩ := hrules
    refine iff_of_true ?_ rfl
    rw [hresult]
    exact conforms_mapLanes₂ hmap ha hb (widthOf_withElement m _ _)
      (element?_withElement _ ha.exists_element) fun x y z _ hz => pure_eq_ok.mp hz ▸ rfl
  | cast op v =>
    rcases hfits with _ | ⟨ha, _ | _⟩
    obtain ⟨a, ha, h⟩ := ha.read h
    obtain ⟨hmap, _⟩ := Exec.some_map_liftExcept_eq_ok.mp h
    have hrules := rules_of_firstBroken hrules
    simp only [forall_mem_cons] at hrules
    refine iff_of_true ?_ rfl
    refine conforms_mapLanes hmap ha (widthOf_eq_of_sameShape hrules.1).symm helem fun x z _ hz => ?_
    rw [← pure_eq_ok.mp hz, scalarTy?_evalCast, helement]
  | select cond thenValue elseValue =>
    rcases hfits with _ | ⟨hc, _ | ⟨ht, _ | ⟨he, _ | _⟩⟩⟩
    obtain ⟨c, hc, h⟩ := hc.read h
    obtain ⟨t, ht, h⟩ := ht.read h
    obtain ⟨e, he, h⟩ := he.read h
    obtain ⟨heq, _⟩ := Exec.pure_eq_ok.mp h
    cases heq
    have hrules := rules_of_firstBroken hrules
    simp only [forall_mem_cons, decide_eq_true_eq, Ty.isMaskFor, and_eq_true, or_eq_true] at hrules
    obtain ⟨rfl, rfl, ⟨_, hmask⟩, _⟩ := hrules
    exact iff_of_true (conforms_selectVals hc ht he hmask) rfl
  | elementPtr base index stride =>
    rcases hfits with _ | ⟨hb, _ | ⟨hn, _ | _⟩⟩
    obtain ⟨b, hb, h⟩ := hb.read h
    obtain ⟨n, hn, h⟩ := hn.read h
    obtain ⟨hmap, _⟩ := Exec.some_map_liftExcept_eq_ok.mp h
    have hrules := rules_of_firstBroken hrules
    simp only [forall_mem_cons, Ty.hasElement, decide_eq_true_eq] at hrules
    obtain ⟨hptr, _, hresult, _⟩ := hrules
    obtain ⟨kind, hkind⟩ := hn.exists_element
    have haddress : ∀ x y z, (pure (evalElementPtr stride x y) : Except Trap Val) = .ok z → z.scalarTy? = some .ptr :=
      fun x y z hz => pure_eq_ok.mp hz ▸ rfl
    obtain ⟨hwidth, hall⟩ := allOf_mapLanes₂ hmap (hb.allOf hptr) (hn.allOf hkind)
      fun x y z _ _ => haddress x y z
    rw [conforms_iff_width hresult hall, hwidth, shaped, decide_eq_true_iff, hb.width, hn.width]
    rfl
  | alloca kind count =>
    obtain ⟨address, _, heq⟩ := Exec.bind_pure_eq_ok.mp h
    cases heq
    have hrules := rules_of_firstBroken hrules
    simp only [forall_mem_cons, Ty.isPtr, decide_eq_true_eq] at hrules
    refine iff_of_true ?_ rfl
    rw [hrules.1]
    exact conforms_scalar rfl
  | load _ _ _ | strideLoad _ _ _ | gather _ _ =>
    obtain ⟨_, _, h⟩ := Exec.bind_liftChecked_eq_ok.mp h
    obtain ⟨_, _, h⟩ := Exec.bind_liftChecked_eq_ok.mp h
    obtain ⟨y, hload, heq⟩ := Exec.map_eq_ok.mp h
    refine iff_of_true ?_ rfl
    exact Option.some.inj heq ▸ conforms_load hty hload
  | call callee args mask =>
    obtain ⟨xs, hxs, h⟩ := Exec.bind_liftChecked_eq_ok.mp h
    obtain ⟨x?, hmask, h⟩ := Exec.bind_liftChecked_eq_ok.mp h
    have hreads := rel_append (mapM_eq_ok.mp hxs) (forall₂_readMask hmask)
    exact conforms_call_iff (forall₂_conforms hfits hreads) hty (hanswers callee args mask rfl) h
  | splat v =>
    rcases hfits with _ | ⟨ha, _ | _⟩
    obtain ⟨a, ha, h⟩ := ha.read h
    obtain ⟨n, hn, h⟩ := Exec.bind_liftChecked_eq_ok.mp h
    obtain ⟨heq, _⟩ := Exec.pure_eq_ok.mp h
    cases heq
    have hrules := rules_of_firstBroken hrules
    simp only [forall_mem_cons, and_eq_true, decide_eq_true_eq] at hrules
    obtain ⟨⟨⟨hscalar, hvector⟩, hkind⟩, _⟩ := hrules
    exact iff_of_true (conforms_replicate hvector helem hn (ha.scalarTy? hscalar (hkind.trans helem))) rfl
  | stepVector =>
    obtain ⟨n, hn, h⟩ := Exec.bind_liftChecked_eq_ok.mp h
    obtain ⟨heq, _⟩ := Exec.pure_eq_ok.mp h
    cases heq
    have hrules := rules_of_firstBroken hrules
    simp only [forall_mem_cons, and_eq_true] at hrules
    refine iff_of_true (conforms_vector hrules.1.1 helem ?_ fun y hy => ?_) rfl
    · rw [hn, length_map, length_range]
    · obtain ⟨_, _, rfl⟩ := mem_map.mp hy
      exact congrArg some (helement ▸ Scalar.ty_ofInt64 _ _)
  | extract vector index =>
    rcases hfits with _ | ⟨ha, _ | ⟨_, _ | _⟩⟩
    obtain ⟨a, ha, h⟩ := ha.read h
    obtain ⟨n, _, h⟩ := Exec.bind_liftChecked_eq_ok.mp h
    obtain ⟨hpick, _⟩ := Exec.some_map_liftExcept_eq_ok.mp h
    obtain ⟨p, _, hx⟩ := bind_eq_some_iff.mp (orMismatch_eq_ok hpick)
    have hrules := rules_of_firstBroken hrules
    simp only [forall_mem_cons, and_eq_true, decide_eq_true_eq] at hrules
    obtain ⟨⟨⟨hvector, hkind⟩, hscalar⟩, _⟩ := hrules
    obtain ⟨lanes, rfl, _, hall⟩ := ha.exists_lanes hvector (hkind.trans helem)
    exact iff_of_true (conforms_of_isScalar hscalar helem (hall x (mem_of_getElem? hx))) rfl
  | insert vector value index =>
    rcases hfits with _ | ⟨ha, _ | ⟨hy, _ | ⟨_, _ | _⟩⟩⟩
    obtain ⟨a, ha, h⟩ := ha.read h
    obtain ⟨lanes, _, hlanes, h⟩ := Exec.bind_eq_ok.mp h
    obtain ⟨n, _, h⟩ := Exec.bind_liftChecked_eq_ok.mp h
    obtain ⟨p, _, _, h⟩ := Exec.bind_eq_ok.mp h
    obtain ⟨y, hy, h⟩ := hy.read h
    obtain ⟨heq, _⟩ := Exec.pure_eq_ok.mp h
    cases heq
    have hrules := rules_of_firstBroken hrules
    simp only [forall_mem_cons, and_eq_true, decide_eq_true_eq] at hrules
    obtain ⟨⟨⟨rfl, hscalar⟩, hkind⟩, _⟩ := hrules
    obtain rfl := lanes?_eq_some (orMismatch_eq_ok (Exec.liftExcept_eq_ok.mp hlanes).1)
    exact iff_of_true (conforms_set ha helem (hy.scalarTy? hscalar (hkind.trans helem))) rfl
  | shuffle sources picks =>
    obtain ⟨xs, hxs, h⟩ := Exec.bind_liftChecked_eq_ok.mp h
    obtain ⟨ys, hys, heq⟩ := Exec.bind_pure_eq_ok.mp h
    cases heq
    have hpicks := orMismatch_eq_ok (Exec.liftExcept_eq_ok.mp hys).1
    have hconform := forall₂_conforms hfits (mapM_eq_ok.mp hxs)
    cases tys with
    | nil => exact absurd hrules throw_ne_ok
    | cons first tys =>
      have hkinds := kinds_of_shuffle hrules
      obtain ⟨x, hx⟩ : ∃ x, m.Conforms x first := by
        cases hconform with
        | cons hfirst _ => exact ⟨_, hfirst⟩
      obtain ⟨kind, hkind⟩ := hx.exists_element
      rw [conforms_shuffle_iff hconform (fun ty hty => (hkinds ty hty).trans hkind) hpicks, shaped, ← hkind]
      simp only [and_eq_true, or_eq_true, decide_eq_true_eq, List.isEmpty_iff]
  | reduce kind vector =>
    rcases hfits with _ | ⟨ha, _ | _⟩
    obtain ⟨a, ha, h⟩ := ha.read h
    obtain ⟨hreduce, _⟩ := Exec.some_map_liftExcept_eq_ok.mp h
    have hrules := rules_of_firstBroken hrules
    simp only [forall_mem_cons, and_eq_true, decide_eq_true_eq] at hrules
    obtain ⟨⟨_, hkind⟩, _⟩ := hrules
    obtain ⟨elem', helem', hresult⟩ := map_eq_some_iff.mp hkind
    refine iff_of_true ?_ rfl
    rw [← hresult]
    exact scalarTy?_reduceVal hreduce (ha.allOf helem')
  | store _ _ _ _ | strideStore _ _ _ _ =>
    obtain ⟨_, _, h⟩ := Exec.bind_liftChecked_eq_ok.mp h
    obtain ⟨_, _, h⟩ := Exec.bind_liftChecked_eq_ok.mp h
    obtain ⟨_, _, h⟩ := Exec.bind_liftChecked_eq_ok.mp h
    obtain ⟨_, _, h⟩ := Exec.bind_liftChecked_eq_ok.mp h
    obtain ⟨_, _, _, h⟩ := Exec.bind_eq_ok.mp h
    exact absurd (Exec.pure_eq_ok.mp h).1 (by simp)
  | scatter _ _ _ =>
    obtain ⟨_, _, h⟩ := Exec.bind_liftChecked_eq_ok.mp h
    obtain ⟨_, _, h⟩ := Exec.bind_liftChecked_eq_ok.mp h
    obtain ⟨_, _, h⟩ := Exec.bind_liftChecked_eq_ok.mp h
    obtain ⟨_, _, _, h⟩ := Exec.bind_eq_ok.mp h
    exact absurd (Exec.pure_eq_ok.mp h).1 (by simp)
  | phi _ | br _ | condBr _ _ _ | switch _ _ _ | ret _ | unreachable => exact absurd (Exec.pure_eq_ok.mp h).1 (by simp)

end

end Machine

end Spmd
