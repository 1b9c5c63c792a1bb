import Spmd.Proofs.Exec.Conform
import Spmd.Proofs.Exec.Written
import Spmd.Proofs.Kernel.Declared
import Spmd.Proofs.Kernel.Listing
import Spmd.Proofs.Kernel.SoundEdit

/-!
# The types of a run

Verification looks at types, so the values of a run should have them. They do as long as two things hold that are not
verified: a value that is read as a constant or as undefined has a type with such values (`Machine.readable`), and what
an instruction defines is shaped like its result type (`Machine.shaped`).

* **`Machine.conforms_read_iff`** — what a value reads as conforms exactly if the value is readable.
* **`Machine.TypedFrame`** — the invariant of a run: arguments and results conform to their types. A step keeps it
  (`TypedFrame.step`).
* **`Machine.ofType_along_run`** — so it holds all along a run of a well-shaped kernel, and nothing less will do.
  Verification alone does not (`not_ofType_shortShuffle`).
-/

namespace Spmd

open Success List Kernel Machine

variable {vs : List ValueId} {tys : List Ty} {k : Kernel} {s : RunState} {v : ValueId} {d : ValueDef} {args : List Val}
  {instr : Instr} {i : InstId} {g : FlowGraph} {prev : Option BlockId}

namespace Kernel

/-- The types of values, void for one that the kernel does not have. -/
def tysOf (k : Kernel) (vs : List ValueId) : List Ty := vs.map fun v => ((k.value? v).map (·.ty)).getD .void

theorem tysOf_eq (h : Forall₂ k.Typed vs tys) : k.tysOf vs = tys := by
  induction h with
  | nil => rfl
  | cons hv _ ih =>
    obtain ⟨d, hd, rfl, _⟩ := hv
    rw [← ih, tysOf, map_cons, hd]
    rfl

theorem resultTy_of_result? (h : k.result? i = some v) (hd : k.value? v = some d) : k.resultTy i = d.ty := by
  rw [resultTy, h, Option.bind_some, hd]
  rfl

end Kernel

/-- What is carried out in a run of a verified kernel is linked. -/
theorem OnTrack.mem_instsInOrder {m : Machine} (hv : m.kernel.verify = .ok ()) (hg : m.kernel.flowGraph = .ok g)
    (h : OnTrack m g s) {rest : List InstId} (htodo : s.todo = i :: rest) : i ∈ m.kernel.instsInOrder :=
  mem_flatMap.mpr ⟨s.block, order_subset_layout hv hg h.block, h.todo i (htodo ▸ (.head _))⟩

namespace Machine

variable {σ : Type} {m : Machine} {f : Frame} {x : Val} {ty : Ty}

/-! ## What can be read -/

/-- The values of the type are what the value can read as. A truth value stays one whatever its type says, unless there
is no lane to see it in. -/
def readable (m : Machine) (d : ValueDef) : Bool :=
  !d.ty.isVoid && match d.kind with
    | .const (.bool _) => d.ty.element? = some .bool || m.widthOf d.ty = .ok (some 0)
    | _ => true

theorem conforms_zeroOf_iff (h : m.zeroOf ty = .ok x) : m.Conforms x ty ↔ ty.isVoid = false := by
  refine ⟨fun hx => ?_, conforms_zeroOf h⟩
  cases ty with
  | void => exact hx.elim
  | _ => rfl

theorem conforms_constant_iff {c : Constant} (h : m.constant ty c = .ok x) :
    m.Conforms x ty ↔ m.readable ⟨.const c, ty⟩ = true := by
  cases ty with
  | void => exact iff_of_false id (by simp [readable, Ty.isVoid])
  | scalar elem =>
    obtain rfl := pure_eq_ok.mp h
    have hkind := Scalar.ty_ofConstant elem c
    cases c with
    | bool b => simp [Conforms, Val.scalarTy?, readable, Ty.element?, Ty.isVoid, hkind, widthOf, pure, Except.pure, eq_comm]
    | _ => simp [Conforms, Val.scalarTy?, readable, Ty.element?, Ty.isVoid, hkind]
  | vector shape =>
    obtain ⟨n, hn, rfl⟩ := bind_pure_eq_ok.mp h
    have hkind := Scalar.ty_ofConstant shape.elem c
    have hwidth : m.widthOf (.vector shape) = .ok (some n) := bind_eq_ok.mpr ⟨n, hn, rfl⟩
    have hlanes : m.Conforms (.vector (replicate n (.scalar (.ofConstant shape.elem c)))) (.vector shape) ↔
        n = 0 ∨ (Scalar.ofConstant shape.elem c).ty = shape.elem := by
      simp [Conforms, hn, Val.scalarTy?, or_iff_not_imp_left]
    refine hlanes.trans ?_
    cases c with
    | bool b =>
      rw [hkind]
      simp [readable, Ty.element?, Ty.isVoid, hwidth, or_comm, eq_comm (a := ScalarTy.bool)]
    | _ => simp [readable, Ty.isVoid, hkind]

/-- The value is of the type that the kernel declares for it. -/
def OfType (m : Machine) (v : ValueId) (x : Val) : Prop := ∃ d, m.kernel.value? v = some d ∧ m.Conforms x d.ty

instance (m : Machine) (v : ValueId) (x : Val) : Decidable (m.OfType v x) :=
  inferInstanceAs (Decidable (∃ d ∈ m.kernel.value? v, m.Conforms x d.ty))

/-- All that a run has computed so far is of the type it was declared with. -/
structure TypedFrame (m : Machine) (f : Frame) : Prop where
  args : Forall₂ m.Conforms f.args (m.kernel.params.map (·.ty))
  results : ∀ v x, f.results[v]? = some x → m.OfType v x

/-- There is an argument for every parameter, and it is of its type. -/
theorem exists_arg {params : List Param} {n : Nat} {p : Param} (h : Forall₂ m.Conforms args (params.map (·.ty)))
    (hp : params[n]? = some p) : ∃ y, args[n]? = some y ∧ m.Conforms y p.ty := by
  rw [forall₂_map_right_iff] at h
  induction h generalizing n with
  | nil => cases hp
  | @cons y q _ _ hy _ ih =>
    cases n with
    | zero => exact ⟨y, rfl, Option.some.inj hp ▸ hy⟩
    | succ n => exact ih hp

/-- **What a value reads as conforms exactly if the value is readable.** -/
theorem conforms_read_iff (hk : m.kernel.Declared) (hf : m.TypedFrame f) (hd : m.kernel.value? v = some d)
    (h : m.read f v = .ok x) : m.Conforms x d.ty ↔ m.readable d = true := by
  rw [read_eq f hd] at h
  obtain ⟨kind, ty⟩ := d
  cases kind with
  | param n =>
    obtain ⟨p, hp, hty⟩ := hk.params v _ n hd rfl
    obtain ⟨y, hy, hconf⟩ := exists_arg hf.args hp
    have hxy : y = x := by simpa [hy] using h
    rw [hty, hxy] at hconf
    refine iff_of_true hconf ?_
    obtain ⟨elem, helem⟩ := hconf.exists_element
    cases ty with
    | void => exact absurd helem (by simp [Ty.element?])
    | _ => rfl
  | const c => exact conforms_constant_iff h
  | undef =>
    rw [conforms_zeroOf_iff h]
    simp [readable]
  | inst i =>
    have hvoid : ty.isVoid = false := hk.nonvoid v _ i hd rfl
    have hread : m.readable ⟨.inst i, ty⟩ = true := by simp [readable, hvoid]
    rw [iff_true_right hread]
    dsimp only at h
    split at h
    next y hy =>
      obtain ⟨d', hd', hconf⟩ := hf.results v y hy
      obtain rfl := mem_unique hd hd'
      exact Except.ok.inj h ▸ hconf
    · exact conforms_zeroOf h hvoid

theorem ofType_iff (hd : m.kernel.value? v = some d) : m.OfType v x ↔ m.Conforms x d.ty := by
  refine ⟨fun ⟨e, he, hconf⟩ => ?_, fun hconf => ⟨d, hd, hconf⟩⟩
  exact mem_unique he hd ▸ hconf

/-! ## What a kernel has to be like -/

/-- What verification leaves open about an instruction: all operands are readable, and it is shaped if it defines a
value. -/
def wellShapedAt (m : Machine) (i : InstId) : Bool :=
  (m.kernel.operandsOf i).all (fun v => (m.kernel.value? v).any m.readable) &&
    (m.kernel.instr? i).all fun instr => (m.kernel.result? i).isNone ||
      m.shaped (m.kernel.resultTy i) instr (m.kernel.tysOf instr.operands)

def wellShaped (m : Machine) : Bool := m.kernel.instsInOrder.all m.wellShapedAt

theorem wellShaped_iff : m.wellShaped = true ↔ ∀ i ∈ m.kernel.instsInOrder, ∀ instr, m.kernel.instr? i = some instr →
    (∀ v ∈ instr.operands, (m.kernel.value? v).any m.readable = true) ∧
      ((m.kernel.result? i).isSome = true → m.shaped (m.kernel.resultTy i) instr (m.kernel.tysOf instr.operands) = true) := by
  rw [wellShaped, all_eq_true]
  refine forall₂_congr fun i _ => ?_
  unfold wellShapedAt operandsOf
  cases m.kernel.instr? i with
  | none => simp
  | some instr =>
    cases m.kernel.result? i <;> simp [all_eq_true]

/-- All calls that define a value are answered with what their types say. -/
def Serves (m : Machine) (env : Environment σ) : Prop :=
  ∀ i ∈ m.kernel.instsInOrder, ∀ callee args mask, m.kernel.instr? i = some (.call callee args mask) →
    (m.kernel.result? i).isSome = true → m.Answers env callee (m.kernel.resultTy i) (m.kernel.tysOf (args ++ mask.toList))

section

variable (hv : m.kernel.verify = .ok ()) (hi : i ∈ m.kernel.instsInOrder) (hinstr : m.kernel.instr? i = some instr)
include hv hi hinstr

/-- What verification says about the types of a linked instruction. -/
theorem typed_of_verify : Forall₂ m.kernel.Typed instr.operands (m.kernel.tysOf instr.operands) ∧
      instr.typeFlaw? m.kernel.ret (m.kernel.resultTy i) (m.kernel.tysOf instr.operands) = .ok none := by
  obtain ⟨b, hb, hib⟩ := mem_flatMap.mp hi
  obtain ⟨_, _, g, hg, _⟩ := verify_eq_ok.mp hv
  obtain ⟨d, hd, _, _, htypes, _⟩ := linked_of_verify hv hg hb hib
  obtain rfl : d.instr = instr := by
    rw [instr?, hd] at hinstr
    exact Option.some.inj hinstr
  obtain ⟨tys, htys, hflaw⟩ := verifyTypes_iff.mp htypes
  obtain rfl := tysOf_eq htys
  exact ⟨htys, hflaw⟩

theorem exists_value_of_verify (hmem : v ∈ instr.operands) : ∃ d, m.kernel.value? v = some d := by
  obtain ⟨htys, _⟩ := typed_of_verify hv hi hinstr
  obtain ⟨n, hn, rfl⟩ := getElem_of_mem hmem
  obtain ⟨hlength, htyped⟩ := forall₂_iff_get.mp htys
  obtain ⟨d, hd, _⟩ := htyped n hn (hlength ▸ hn)
  exact ⟨d, hd⟩

end

/-- Operands that are readable read as what their types say. -/
theorem fits_of_readable (hk : m.kernel.Declared) (hf : m.TypedFrame f) (htys : Forall₂ m.kernel.Typed vs tys)
    (h : ∀ v ∈ vs, (m.kernel.value? v).any m.readable = true) : Forall₂ (m.Fits f) vs tys := by
  induction htys with
  | nil => exact .nil
  | @cons v ty vs tys hv _ ih =>
    refine .cons (fun x hx => ?_) (ih fun u hu => h u (.tail _ hu))
    obtain ⟨d, hd, rfl, _⟩ := hv
    have hread := h v (.head _)
    rw [hd] at hread
    exact (conforms_read_iff hk hf hd hx).mpr hread

/-! ## Steps -/

variable {env : Environment σ} {w w' : World σ}

/-- **What an instruction defines conforms exactly if the instruction is shaped.** -/
theorem ofType_eval_iff (hv : m.kernel.verify = .ok ()) (hk : m.kernel.Declared) (henv : m.Serves env) (hf : m.TypedFrame f)
    (hi : i ∈ m.kernel.instsInOrder) (hinstr : m.kernel.instr? i = some instr)
    (hread : ∀ v ∈ instr.operands, (m.kernel.value? v).any m.readable = true) (hresult : m.kernel.result? i = some v)
    (h : m.eval env f i instr w = .ok (some x) w') :
    m.OfType v x ↔ m.shaped (m.kernel.resultTy i) instr (m.kernel.tysOf instr.operands) = true := by
  obtain ⟨htys, hflaw⟩ := typed_of_verify hv hi hinstr
  obtain ⟨d, hd, hkind⟩ := hk.results i v hresult
  have hty := resultTy_of_result? hresult hd
  rw [ofType_iff hd, ← hty]
  refine conforms_eval_iff (fits_of_readable hk hf htys hread) hflaw (hty ▸ hk.nonvoid v d i hd hkind) ?_ h
  rintro callee args mask rfl
  exact henv i hi callee args mask hinstr (by rw [hresult]; rfl)

namespace TypedFrame

theorem record {v? : Option ValueId} {x? : Option Val} (hf : m.TypedFrame f)
    (h : ∀ v x, v? = some v → x? = some x → m.OfType v x) : m.TypedFrame (f.record v? x?) := by
  cases v? with
  | none => exact hf
  | some v =>
    cases x? with
    | none => exact hf
    | some x =>
      refine ⟨hf.args, fun u y hy => ?_⟩
      rw [Frame.record, Frame.getElem?_define] at hy
      split at hy
      next heq =>
        exact heq ▸ Option.some.inj hy ▸ h v x rfl rfl
      · exact hf.results u y hy

theorem definePhis {phis : List (InstId × Val)} (hf : m.TypedFrame f)
    (h : ∀ p ∈ phis, ∀ v, m.kernel.result? p.1 = some v → m.OfType v p.2) : m.TypedFrame (m.definePhis f phis) := by
  induction phis generalizing f with
  | nil => exact hf
  | cons p phis ih =>
    refine ih (hf.record fun v x hv hx => ?_) fun q hq => h q (.tail _ hq)
    exact Option.some.inj hx ▸ h p (.head _) v hv

section

variable (hv : m.kernel.verify = .ok ()) (hk : m.kernel.Declared) (hshaped : m.wellShaped = true)
include hv hk hshaped

/-- A phi becomes a value of its type. -/
theorem ofType_phiValue (hf : m.TypedFrame f) (hi : i ∈ m.kernel.instsInOrder) (hphi : m.kernel.isPhi i = true)
    (h : m.phiValue f prev i = .ok x) (hresult : m.kernel.result? i = some v) : m.OfType v x := by
  obtain ⟨instr, hinstr, hisPhi⟩ := (Option.any_eq_true _ _).mp hphi
  obtain ⟨incoming, rfl⟩ := Instr.isPhi_iff.mp hisPhi
  obtain ⟨hread, _⟩ := wellShaped_iff.mp hshaped i hi _ hinstr
  obtain ⟨htys, hflaw⟩ := typed_of_verify hv hi hinstr
  obtain ⟨d, hd, hkind⟩ := hk.results i v hresult
  have hty := resultTy_of_result? hresult hd
  refine ⟨d, hd, ?_⟩
  rw [phiValue_eq f prev hinstr] at h
  split at h
  next y hy =>
    have hmem := mem_of_find?_eq_some hy
    have htyped := verifyTypes_phi.mp (verifyTypes_iff.mpr ⟨_, htys, hflaw⟩) y hmem
    obtain ⟨e, he, hety, _⟩ := htyped
    have := hread y.2 (mem_map_of_mem hmem)
    rw [he] at this
    rw [← hty, ← hety]
    exact (conforms_read_iff hk hf he h).mpr this
  · rw [hty] at h
    exact conforms_zeroOf h (hk.nonvoid v d i hd hkind)

theorem enter {b : BlockId} (hf : m.TypedFrame f) (hb : b ∈ m.kernel.layout) (h : m.enter f b prev = .ok s) :
    m.TypedFrame s.frame := by
  obtain ⟨values, hvalues, _, _, hframe, _⟩ := enter_eq_ok h
  rw [hframe]
  refine hf.definePhis fun p hp v hresult => ?_
  have hphi := (of_mem_zip hp).1
  have hi : p.1 ∈ m.kernel.instsInOrder := mem_flatMap.mpr ⟨b, hb, (takeWhile_sublist _).subset hphi⟩
  exact ofType_phiValue hv hk hshaped hf hi (all_eq_true.mp all_takeWhile _ hphi)
    ((forall₂_iff_zip.mp (mapM_eq_ok.mp hvalues)).2 hp) hresult

/-- **A step keeps the frame typed.** -/
theorem step (hg : m.kernel.flowGraph = .ok g) (henv : m.Serves env) {s' : RunState} (htrack : OnTrack m g s)
    (hf : m.TypedFrame s.frame) (h : m.step env s w = .ok (.next s') w') : m.TypedFrame s'.frame := by
  obtain ⟨i, rest, instr, htodo, hinstr, hcase⟩ := step_cases h
  have hi := htrack.mem_instsInOrder hv hg htodo
  have hrecord : ∀ {x? w'}, m.eval env s.frame i instr w = .ok x? w' →
      m.TypedFrame (s.frame.record (m.kernel.result? i) x?) := by
    intro x? w' heval
    refine hf.record fun v x hresult hx => ?_
    subst hx
    obtain ⟨hread, hshape⟩ := wellShaped_iff.mp hshaped i hi instr hinstr
    exact (ofType_eval_iff hv hk henv hf hi hinstr hread hresult heval).mpr (hshape (by rw [hresult]; rfl))
  cases hcase with
  | jump target _ hterm htarget henter =>
    have htarget := succs_mem_order hg htrack.block (htrack.jump hv hg htodo hinstr hterm htarget)
    exact hf.enter hv hk hshaped (order_subset_layout hv hg htarget) henter
  | again x _ _ _ heval _ henter =>
    exact (hrecord heval).enter hv hk hshaped (order_subset_layout hv hg htrack.block) henter
  | onward x _ _ heval => exact hrecord heval

/-- **All frames of a run of a well-shaped kernel are typed.** -/
theorem moments (henv : m.Serves env) (hargs : Forall₂ m.Conforms args (m.kernel.params.map (·.ty))) {limit : Nat}
    {c : Moment σ} (hc : c ∈ m.moments env args limit w) : m.TypedFrame c.state.frame := by
  obtain ⟨_, _, g, hg, _⟩ := verify_eq_ok.mp hv
  refine moments_invariant (P := fun s => m.TypedFrame s.frame) (fun entry s hentry henter => ?_)
    (fun hmem h hstep => h.step hv hk hshaped hg henv (.moments hv hg hmem) hstep) c hc
  have hstart : m.TypedFrame { args } := ⟨hargs, fun v x hx => by cases hx⟩
  exact hstart.enter hv hk hshaped (mem_of_mem_head? hentry) henter

end

end TypedFrame

/-! ## Runs -/

/-- What a step reads is an operand of a linked instruction. -/
theorem Reads.exists_operand (hv : m.kernel.verify = .ok ()) (hg : m.kernel.flowGraph = .ok g) (htrack : OnTrack m g s)
    (h : m.Reads s v) : ∃ i ∈ m.kernel.instsInOrder, ∃ instr, m.kernel.instr? i = some instr ∧ v ∈ instr.operands := by
  cases h with
  | operand htodo hinstr hmem => exact ⟨_, htrack.mem_instsInOrder hv hg htodo, _, hinstr, hmem⟩
  | @input i phi rest instr target incoming v htodo hinstr htarget hphi hincoming hmem =>
    have hterm : instr.isTerminator = true := by
      cases instr with
      | br _ | condBr _ _ _ | switch _ _ _ => rfl
      | _ => cases Except.ok.inj htarget
    have hnext := succs_mem_order hg htrack.block (htrack.jump hv hg htodo hinstr hterm htarget)
    have hlinked : phi ∈ m.kernel.instsInOrder :=
      mem_flatMap.mpr ⟨target, order_subset_layout hv hg hnext, takeWhile_subset _ hphi⟩
    exact ⟨phi, hlinked, _, hincoming, mem_map_of_mem hmem⟩

/-- **Verification is not enough for values to have their types, and this is what is missing.** In a run of a verified
kernel that is well shaped, with arguments and answers of their types, every value in the frame and every value that a
step reads is of its type. In any verified kernel, as long as the frame is typed, a value that is read is of its type
exactly if it is readable, and what an instruction defines from readable operands exactly if the instruction is
shaped. -/
theorem ofType_along_run (hv : m.kernel.verify = .ok ()) (hk : m.kernel.Declared) (henv : m.Serves env) {args : List Val}
    (hargs : Forall₂ m.Conforms args (m.kernel.params.map (·.ty))) {limit : Nat} {c : Moment σ}
    (hc : c ∈ m.moments env args limit w) :
    (m.wellShaped = true → m.TypedFrame c.state.frame ∧
      ∀ v x, m.Reads c.state v → m.read c.state.frame v = .ok x → m.OfType v x) ∧
    (m.TypedFrame c.state.frame →
      (∀ v x, m.Reads c.state v → m.read c.state.frame v = .ok x →
        (m.OfType v x ↔ (m.kernel.value? v).any m.readable = true)) ∧
      ∀ i rest instr v x w', c.state.todo = i :: rest → m.kernel.instr? i = some instr →
        (∀ u ∈ instr.operands, (m.kernel.value? u).any m.readable = true) → m.kernel.result? i = some v →
        m.eval env c.state.frame i instr c.world = .ok (some x) w' →
        (m.OfType v x ↔ m.shaped (m.kernel.resultTy i) instr (m.kernel.tysOf instr.operands) = true)) := by
  obtain ⟨_, _, g, hg, _⟩ := verify_eq_ok.mp hv
  have htrack := OnTrack.moments hv hg hc
  have hread : m.TypedFrame c.state.frame → ∀ v x, m.Reads c.state v → m.read c.state.frame v = .ok x →
      (m.OfType v x ↔ (m.kernel.value? v).any m.readable = true) := by
    intro hf v x hreads hx
    obtain ⟨i, hi, instr, hinstr, hmem⟩ := hreads.exists_operand hv hg htrack
    obtain ⟨d, hd⟩ := exists_value_of_verify hv hi hinstr hmem
    rw [ofType_iff hd, conforms_read_iff hk hf hd hx, hd, Option.any_some]
  refine ⟨fun hshaped => ?_, fun hf => ⟨hread hf, fun i rest instr v x w' htodo hinstr => ?_⟩⟩
  · have hf := TypedFrame.moments hv hk hshaped henv hargs hc
    refine ⟨hf, fun v x hreads hx => (hread hf v x hreads hx).mpr ?_⟩
    obtain ⟨i, hi, instr, hinstr, hmem⟩ := hreads.exists_operand hv hg htrack
    exact (wellShaped_iff.mp hshaped i hi instr hinstr).1 v hmem
  · exact ofType_eval_iff hv hk henv hf (htrack.mem_instsInOrder hv hg htodo) hinstr

end Machine

/-- Numbers the lanes, asks for each of them, and adds up what the last two were answered. -/
def lastTwo : Kernel := .ofListing "last_two" (.scalar .i64) [("base", .ptr)] []
  [("entry", [(.stepVector, .fixedVector .i64 4), (.call "ask" [1] none, .fixedVector .i64 4),
      (.elementPtr 0 1 .i64, .fixedVector .ptr 4), (.shuffle [2] [3, 2], .fixedVector .i64 2),
      (.reduce .add 4, .scalar .i64), (.ret (some 5), .void)])]

/-- At its end all values of the run are of their types, the sum too that is returned. -/
theorem ofType_lastTwo : ∃ c ∈ moments ⟨lastTwo, 1⟩ threeEnv [.scalar (.ptr 64)] 100 ⟨.empty, ()⟩,
    c.state.todo = [⟨5⟩] ∧ TypedFrame ⟨lastTwo, 1⟩ c.state.frame ∧
      ∀ x, read ⟨lastTwo, 1⟩ c.state.frame ⟨5⟩ = .ok x → OfType ⟨lastTwo, 1⟩ ⟨5⟩ x := by
  have hany : (moments ⟨lastTwo, 1⟩ threeEnv [.scalar (.ptr 64)] 100 ⟨.empty, ()⟩).any
      (fun c => c.state.todo = [5]) = true := by
    decide +kernel
  obtain ⟨c, hc, htodo⟩ := any_eq_true.mp hany
  have htodo := of_decide_eq_true htodo
  have hmade : (edit { name := "last_two", ret := .scalar .i64 }
      [.addParam "base" .ptr {}, .addBlock "entry", .insertAt (.atEnd 0) .stepVector (.fixedVector .i64 4),
        .insertAt (.atEnd 0) (.call "ask" [1] none) (.fixedVector .i64 4),
        .emitAt (.atEnd 0) (.elementPtr 0 1 .i64) .void, .emitAt (.atEnd 0) (.shuffle [2] [3, 2]) .void,
        .emitAt (.atEnd 0) (.reduce .add 4) .void, .emitAt (.atEnd 0) (.ret (some 5)) .void]).toOption.map
      (·.1) = some lastTwo := by
    decide +kernel
  have hserves : Serves ⟨lastTwo, 1⟩ threeEnv := by
    intro i hi callee args mask hcall _
    have honly : ∀ i ∈ lastTwo.instsInOrder, (lastTwo.instr? i).any Instr.onlyComputes = false → i = 1 := by
      decide
    obtain rfl := honly i hi (by rw [hcall]; rfl)
    cases hcall
    intro args w x w' h
    obtain ⟨hx, _⟩ := Exec.pure_eq_ok.mp h
    exact Option.some.inj hx ▸ rfl
  have hargs : Forall₂ (Conforms ⟨lastTwo, 1⟩) [.scalar (.ptr 64)] (lastTwo.params.map (·.ty)) :=
    .cons rfl .nil
  obtain ⟨hframe, hreads⟩ := (ofType_along_run (m := ⟨lastTwo, 1⟩) (by decide +kernel)
    (declared_of_made hmade) hserves hargs hc).1 (by decide +kernel)
  exact ⟨c, hc, htodo, hframe, fun x => hreads 5 x (.operand htodo rfl (.head _))⟩

/-- Picks two lanes for a vector of four. -/
def shortShuffle : Kernel := .ofListing "short_shuffle" (.fixedVector .i32 4) []
  [(.int 5, .fixedVector .i32 2)]
  [("entry", [(.shuffle [0] [0, 1], .fixedVector .i32 4), (.ret (some 1), .void)])]

/-- The kernel is verified, and in its frame there is a vector of two lanes where its type says four. -/
theorem not_ofType_shortShuffle : shortShuffle.verify = .ok () ∧ shortShuffle.Declared ∧
    Serves ⟨shortShuffle, 1⟩ threeEnv ∧
    ∃ c ∈ moments ⟨shortShuffle, 1⟩ threeEnv [] 100 ⟨.empty, ()⟩, ∃ x,
      c.state.frame.results[(⟨1⟩ : ValueId)]? = some x ∧ x.width? = some 2 ∧ ¬OfType ⟨shortShuffle, 1⟩ ⟨1⟩ x := by
  have hany : (moments ⟨shortShuffle, 1⟩ threeEnv [] 100 ⟨.empty, ()⟩).any
      (fun c => (c.state.frame.results[(1 : ValueId)]?).any (·.width? = some 2)) = true := by
    decide +kernel
  obtain ⟨c, hc, hresult⟩ := any_eq_true.mp hany
  obtain ⟨x, hx, hwidth⟩ := (Option.any_eq_true _ _).mp hresult
  have hwidth := of_decide_eq_true hwidth
  have hmade : (edit { name := "short_shuffle", ret := .fixedVector .i32 4 }
      [.addConst (.fixedVector .i32 2) (.int 5), .addBlock "entry",
        .insertAt (.atEnd 0) (.shuffle [0] [0, 1]) (.fixedVector .i32 4),
        .insertAt (.atEnd 0) (.ret (some 1)) .void]).toOption.map (·.1) = some shortShuffle := by
    decide +kernel
  have hnone : ∀ i ∈ shortShuffle.instsInOrder, (shortShuffle.instr? i).any Instr.onlyComputes = true := by decide
  refine ⟨by decide +kernel, declared_of_made hmade, fun i hi callee args mask hcall => ?_, c, hc, x, hx, hwidth, ?_⟩
  · exact absurd (hnone i hi) (by simp [hcall, Instr.onlyComputes])
  · rintro ⟨d, hd, hconf⟩
    cases hd
    have := hconf.width
    rw [hwidth] at this
    cases this

end Spmd
