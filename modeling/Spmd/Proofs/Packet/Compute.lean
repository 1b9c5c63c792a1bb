import Spmd.Proofs.Exec.Passage
import Spmd.Proofs.Kernel.SoundEdit
import Spmd.Proofs.Packet.Grow

/-!
# Code that computes a value

Instructions are laid down one behind the other in front of a point of a block (`Cursor.Lays`). They are new, and they
take only values that are known or that the code itself defines. Whoever carries them out where the known values read as
expected ends up where the value they are for reads as expected too (`Cursor.Computes`). What is expected may depend on
a parameter, such as the values of the lanes: the code is the same for all of them.

* **`Build.exists_computes`** — an instruction can always be laid down, and computes what its evaluation says.
* **`Cursor.Computes.trans`** — code behind code. The second part may use what the first has computed.
* `Build.exists_callValue` — a call is carried out once, and what it answers is known from then on.
-/

namespace Spmd

open Success List Kernel

variable {v u : ValueId} {m : Machine} {ρ σ : Type} {post pre rest : List InstId} {b : BlockId} {c : Cursor}
  {j : InstId} {d : ValueDef} {f g : Frame} {env : Environment σ} {w w' : World σ} {prev : Option BlockId}
  {P : Moment σ → Prop} {r : ρ} {elem : ScalarTy}

/-- One scalar per lane. -/
def Val.ofLanes (lanes : Nat) (x : Nat → Scalar) : Val := .vector ((range lanes).map fun n => .scalar (x n))

theorem Val.ofLanes_inj {lanes : Nat} {x y : Nat → Scalar} :
    ofLanes lanes x = ofLanes lanes y ↔ ∀ n < lanes, x n = y n := by
  rw [ofLanes, ofLanes, Val.vector.injEq, map_inj_left]
  simp only [mem_range, Val.scalar.injEq]

/-- The instructions of a list are the same in `k'` as in `k`, and so are all values of `k`. -/
structure Kernel.Carries (k k' : Kernel) (js : List InstId) : Prop where
  inst : ∀ j ∈ js, k'.inst? j = k.inst? j
  value : ∀ v d, k.value? v = some d → k'.value? v = some d

/-- A value of a kernel, with its type and how it reads. -/
structure Fact (ρ : Type) where
  value : ValueId
  ty : Ty
  reads : ρ → Val

/-- A value with one scalar per lane. -/
def Fact.lanes {ρ : Type} (v : ValueId) (elem : ScalarTy) (lanes : Nat) (x : ρ → Nat → Scalar) : Fact ρ :=
  ⟨v, .vector ⟨elem, lanes, false⟩, fun r => .ofLanes lanes (x r)⟩

def Fact.scalar {ρ : Type} (v : ValueId) (elem : ScalarTy) (x : ρ → Scalar) : Fact ρ :=
  ⟨v, .scalar elem, fun r => .scalar (x r)⟩

namespace Cursor

variable {c1 c' : Cursor} {js js' : List InstId} {known known' : List (Fact ρ)}

/-- The cursor stands where `known` has been defined. -/
structure Knows (c : Cursor) (b : BlockId) (pre post : List InstId) (known : List (Fact ρ)) : Prop where
  place : c.At b pre post
  linked : c.kernel.Linked
  held : ∀ e ∈ known, c.kernel.valueTy e.value = .ok e.ty

/-- Code that starts at `c` may take what is known there, and what is not there yet: its own results. -/
def Offers (c : Cursor) (known : List (Fact ρ)) (u : ValueId) : Prop :=
  (∃ e ∈ known, e.value = u) ∨ c.kernel.value? u = none

/-- From `c` to `c'` the instructions `js` are laid down. They are new, and take only the values of `known` and each
other's. -/
structure Lays (c : Cursor) (b : BlockId) (pre post : List InstId) (known : List (Fact ρ)) (js : List InstId)
    (c' : Cursor) : Prop where
  start : c.Knows b pre post known
  place : c'.At b (pre ++ js) post
  /-- A point in front of an instruction stays there. -/
  point : ∀ i, c.point = .before i → c'.point = .before i
  grows : c.kernel.Grows c'.kernel
  fresh : ∀ j ∈ js, c.kernel.inst? j = none
  operands : ∀ j ∈ js, ∀ instr, c'.kernel.instr? j = some instr → ∀ u ∈ instr.operands, c.Offers known u

/-- The instructions `js` compute `e`. -/
structure Computes (c : Cursor) (b : BlockId) (pre post : List InstId) (known : List (Fact ρ)) (e : Fact ρ)
    (js : List InstId) (c' : Cursor) : Prop extends Lays c b pre post known js c' where
  result : c.Offers known e.value
  ty : c'.kernel.valueTy e.value = .ok e.ty
  passes : ∀ (r : ρ) (σ : Type) (env : Environment σ) (m : Machine) (f : Frame) (w : World σ) (prev : Option BlockId)
    (rest : List InstId), c'.kernel.Carries m.kernel js → (∀ e ∈ known, m.read f e.value = .ok (e.reads r)) →
    ∃ g, m.Passes env (fun _ => True) b prev rest js f w g w ∧ m.read g e.value = .ok (e.reads r)

theorem Knows.value? (h : c.Knows b pre post known) {e : Fact ρ} (he : e ∈ known) :
    ∃ d, c.kernel.value? e.value = some d ∧ d.ty = e.ty := by
  obtain ⟨d, hd, hty⟩ := bind_eq_ok.mp (h.held e he)
  exact ⟨d, some?_eq_ok.mp hd, pure_eq_ok.mp hty⟩

/-- What later code may take, the code before and behind it may take as a whole. -/
theorem Offers.of_grows (h : c1.Offers known' u) (hgrows : c.kernel.Grows c1.kernel)
    (hknown : ∀ e ∈ known', c.Offers known e.value) : c.Offers known u := by
  rcases h with ⟨e, he, rfl⟩ | hnew
  · exact hknown e he
  · exact .inr (hgrows.value?_eq_none hnew)

namespace Lays

variable {k : Kernel}

section

variable (h : c.Lays b pre post known js c')
include h

theorem linked : c'.kernel.Linked := h.grows.linked h.start.linked

theorem made (hj : j ∈ js) : ∃ d, c'.kernel.inst? j = some d := by
  have hmem : j ∈ c'.kernel.instsOf b := by
    rw [h.place.insts]
    simp [hj]
  obtain ⟨d, hd, -⟩ := h.linked.inst?_of_mem hmem
  exact ⟨d, hd⟩

/-- Old values are none of the results. -/
theorem result?_ne (hcarry : c'.kernel.Carries k js) (hu : c.kernel.value? u = some d) (hj : j ∈ js) :
    k.result? j ≠ some u := by
  intro hresult
  rw [result?, hcarry.inst j hj] at hresult
  have hkind := (h.linked.defines_iff j u).mp hresult
  rw [h.grows.value u d hu] at hkind
  -- the value had its definition before, but then the instruction was not new
  have hold := (h.start.linked.defines_iff j u).mpr ((congrArg (Option.map _) hu).trans hkind)
  rw [result?, h.fresh j hj] at hold
  cases hold

/-- Old values read as before. -/
theorem read_eq (hcarry : c'.kernel.Carries m.kernel js) (hpass : m.Passes env P b prev rest js f w g w')
    (hu : c.kernel.value? u = some d) : m.read g u = m.read f u :=
  hpass.read_eq fun _ hj => h.result?_ne hcarry hu hj

theorem knows : c'.Knows b (pre ++ js) post known :=
  ⟨h.place, h.linked, fun e he => h.grows.valueTy (h.start.held e he)⟩

/-- What is known stays known. -/
theorem reads (hcarry : c'.kernel.Carries m.kernel js) (hpass : m.Passes env P b prev rest js f w g w')
    (hread : ∀ e ∈ known, m.read f e.value = .ok (e.reads r)) : ∀ e ∈ known, m.read g e.value = .ok (e.reads r) := by
  intro e he
  obtain ⟨d, hd, -⟩ := h.start.value? he
  rw [h.read_eq hcarry hpass hd]
  exact hread e he

/-- A kernel that grows keeps the code. -/
theorem carries (hgrows : c'.kernel.Grows k) : c'.kernel.Carries k js := by
  refine ⟨fun j hj => ?_, hgrows.value⟩
  obtain ⟨d, hd⟩ := h.made hj
  rw [hd, hgrows.inst j d hd]

end

/-- What carries all of the code carries its first part. -/
theorem carries_left (h : c.Lays b pre post known js c1) (hgrows : c1.kernel.Grows c'.kernel)
    (hcarry : c'.kernel.Carries k (js ++ js')) : c1.kernel.Carries k js := by
  have hcarry1 := h.carries hgrows
  exact ⟨fun j hj => (hcarry.inst j (mem_append_left _ hj)).trans (hcarry1.inst j hj),
    fun v d hd => hcarry.value v d (hcarry1.value v d hd)⟩

theorem trans (h : c.Lays b pre post known js c1) (h' : c1.Lays b (pre ++ js) post known' js' c')
    (hknown : ∀ e ∈ known', c.Offers known e.value) : c.Lays b pre post known (js ++ js') c' where
  start := h.start
  place := append_assoc pre js js' ▸ h'.place
  point i hi := h'.point i (h.point i hi)
  grows := h.grows.trans h'.grows
  fresh j hj := by
    rcases mem_append.mp hj with hj | hj
    · exact h.fresh j hj
    · exact h.grows.inst?_eq_none (h'.fresh j hj)
  operands j hj instr hinstr u hu := by
    rcases mem_append.mp hj with hj | hj
    · obtain ⟨d, hd⟩ := h.made hj
      refine h.operands j hj instr ?_ u hu
      rw [instr?, hd, ← h'.grows.inst j d hd]
      exact hinstr
    · exact (h'.operands j hj instr hinstr u hu).of_grows h.grows hknown

end Lays

namespace Computes

variable {e : Fact ρ}

/-- What is known needs no code. -/
theorem nil (h : c.Knows b pre post known) {e : Fact ρ} (he : e ∈ known) : c.Computes b pre post known e [] c where
  start := h
  place := (append_nil pre).symm ▸ h.place
  point _ hi := hi
  grows := .refl _
  fresh _ hj := by cases hj
  operands _ hj := by cases hj
  result := .inl ⟨e, he, rfl⟩
  ty := h.held e he
  passes _ _ _ _ f _ _ _ _ hread := ⟨f, .nil, hread e he⟩

section

variable (h : c.Computes b pre post known e js c')
include h

theorem knows : c'.Knows b (pre ++ js) post (e :: known) := by
  refine ⟨h.place, h.linked, fun e' he' => ?_⟩
  rcases mem_cons.mp he' with rfl | he'
  · exact h.ty
  · exact h.grows.valueTy (h.start.held e' he')

theorem offers : ∀ e' ∈ e :: known, c.Offers known e'.value :=
  forall_mem_cons.mpr ⟨h.result, fun e' he' => .inl ⟨e', he', rfl⟩⟩

/-- What has been computed is known from then on. -/
theorem reads_cons (hcarry : c'.kernel.Carries m.kernel js) (hpass : m.Passes env P b prev rest js f w g w')
    (hread : ∀ e ∈ known, m.read f e.value = .ok (e.reads r)) (hlast : m.read g e.value = .ok (e.reads r)) :
    ∀ e' ∈ e :: known, m.read g e'.value = .ok (e'.reads r) := by
  intro e' he'
  rcases mem_cons.mp he' with rfl | he'
  · exact hlast
  · exact h.reads hcarry hpass hread e' he'

end

/-- **Code behind code**: the second part may use what the first has computed. -/
theorem trans {e e' : Fact ρ} (h : c.Computes b pre post known e js c1)
    (h' : c1.Computes b (pre ++ js) post (e :: known) e' js' c') : c.Computes b pre post known e' (js ++ js') c' := by
  refine ⟨h.toLays.trans h'.toLays h.offers, h'.result.of_grows h.grows h.offers, h'.ty,
    fun r σ env m f w prev rest hcarry hread => ?_⟩
  have hcarry1 := h.carries_left h'.grows hcarry
  obtain ⟨g1, hpass1, hread1⟩ := h.passes r σ env m f w prev (js' ++ rest) hcarry1 hread
  have hcarry2 : c'.kernel.Carries m.kernel js' :=
    ⟨fun j hj => hcarry.inst j (mem_append_right _ hj), hcarry.value⟩
  obtain ⟨g, hpass, hlast⟩ := h'.passes r σ env m g1 w prev rest hcarry2 (h.reads_cons hcarry1 hpass1 hread hread1)
  exact ⟨g, hpass1.append hpass, hlast⟩

end Computes

end Cursor

/-! ## One instruction -/

theorem Machine.read_record_self {ty : Ty} (hv : m.kernel.value? v = some ⟨.inst j, ty⟩) (f : Frame) (x : Val) :
    m.read (f.record (some v) (some x)) v = .ok x := by
  rw [read_eq _ hv, f.getElem?_record_self]

/-- A constant of the kernel. -/
def Fact.IsConst {ρ : Type} (e : Fact ρ) (k : Kernel) : Prop :=
  ∃ elem x, k.value? e.value = some ⟨.const x, .scalar elem⟩ ∧ e = .scalar e.value elem fun _ => .ofConstant elem x

theorem Machine.read_const {x : Constant} (h : m.kernel.value? v = some ⟨.const x, .scalar elem⟩) (f : Frame) :
    m.read f v = .ok (.scalar (.ofConstant elem x)) := by
  rw [read_eq f h]
  rfl

namespace Build

variable {known : List (Fact ρ)} {instr : Instr} {given ty : Ty}

/-- Every instruction can be laid down for its value. -/
theorem exists_lays (h : c.Knows b pre post known) (hty : resultTy given instr c = .ok (ty, c))
    (hvoid : ty.isVoid = false) (hops : ∀ u ∈ instr.operands, ∃ e ∈ known, e.value = u) :
    ∃ v j c', emitValue instr given c = .ok (v, c') ∧ c.Lays b pre post known [j] c' ∧
      c'.kernel.inst? j = some ⟨instr, some v, b, false⟩ ∧ c'.kernel.value? v = some ⟨.inst j, ty⟩ ∧
      c.kernel.value? v = none := by
  have hmade : ∀ i ∈ c.kernel.instsOf b, (c.kernel.inst? i).isSome = true := fun i hi => by
    obtain ⟨d, hd, -⟩ := h.linked.inst?_of_mem hi
    rw [hd]
    rfl
  have hindex : pre.length ≤ (c.kernel.instsOf b).length := by
    rw [h.place.insts, length_append]
    omega
  obtain ⟨k', j, hinsert⟩ := exists_insertInst h.place.block hindex instr ty
  have hrun := insert_of_place (h.place.place (h.linked.nodup b)) hinsert
  obtain ⟨hins, hat⟩ := h.place.insert_of_nodup (h.linked.nodup b) hmade hrun
  refine ⟨c.kernel.values.nextId, j, ⟨k', c.point.advance j⟩, ?_, ?_, ?_, hins.value_new hvoid, value?_nextId _⟩
  · have hresult : (k'.result? j).getD .absent = c.kernel.values.nextId := by
      rw [hins.result?_new hvoid]
      rfl
    rw [← hresult]
    exact stateBind_eq_ok.mpr ⟨ty, c, hty, stateBind_eq_ok.mpr ⟨j, _, hrun, rfl⟩⟩
  · refine ⟨h, hat, fun i hi => ?_, (grows_insert instr ty).kernel c j _ hrun, fun l hl => ?_, fun l hl instr' hinstr u hu => ?_⟩
    · rw [hi]
      rfl
    · obtain rfl := mem_singleton.mp hl
      rw [hins.id]
      exact inst?_nextId _
    · obtain rfl := mem_singleton.mp hl
      obtain rfl := mem_unique hins.instr?_new hinstr
      exact .inl (hops u hu)
  · rw [hins.inst_new, hvoid]
    rfl

/-- **An instruction computes what its evaluation says.** -/
theorem exists_computes (x : ρ → Val) (h : c.Knows b pre post known) (hty : resultTy given instr c = .ok (ty, c))
    (hvoid : ty.isVoid = false) (hterm : instr.isTerminator = false)
    (hops : ∀ u ∈ instr.operands, ∃ e ∈ known, e.value = u)
    (heval : ∀ (r : ρ) (σ : Type) (env : Environment σ) (m : Machine) (f : Frame) (j : InstId) (w : World σ),
      m.kernel.resultTy j = ty → (∀ e ∈ known, m.read f e.value = .ok (e.reads r)) → m.eval env f j instr w =
      .ok (some (x r)) w) :
    ∃ v j c', emitValue instr given c = .ok (v, c') ∧ c.Computes b pre post known ⟨v, ty, x⟩ [j] c' := by
  obtain ⟨v, j, c', hrun, hlays, hinst, hvalue, hnew⟩ := exists_lays h hty hvoid hops
  refine ⟨v, j, c', hrun, hlays, .inr hnew, ?_, fun r σ env m f w prev rest hcarry hread => ?_⟩
  · exact bind_eq_ok.mpr ⟨_, some?_eq_ok.mpr hvalue, rfl⟩
  · have hinst' := (hcarry.inst j (.head _)).trans hinst
    have hvalue' := hcarry.value v _ hvalue
    have hresult : m.kernel.result? j = some v := by
      rw [result?, hinst']
      rfl
    have hresultTy : m.kernel.resultTy j = ty := by
      rw [Kernel.resultTy, hresult, Option.bind_some, hvalue']
      rfl
    have hinstr : m.kernel.instr? j = some instr := by
      rw [instr?, hinst']
      rfl
    refine ⟨_, .single hinstr hterm trivial (heval r σ env m f j w hresultTy hread), ?_⟩
    rw [hresult]
    exact Machine.read_record_self hvalue' f (x r)

/-- A call is carried out once, with what its operand reads as. -/
theorem exists_callValue {z : ρ → Scalar} (callee : String) (ret : ScalarTy) (h : c.Knows b pre post known)
    (hv : .scalar v elem z ∈ known) :
    ∃ p j c', callValue callee [v] (.scalar ret) c = .ok (p, c') ∧ c.Lays b pre post known [j] c' ∧
      c.kernel.value? p = none ∧ c'.kernel.valueTy p = .ok (.scalar ret) ∧
      ∀ (r : ρ) (σ : Type) (env : Environment σ) (m : Machine) (f : Frame) (w u : World σ) (prev : Option BlockId)
        (rest : List InstId) (y : Val), c'.kernel.Carries m.kernel [j] →
        (∀ e ∈ known, m.read f e.value = .ok (e.reads r)) → env callee [.scalar (z r)] w = .ok (some y) u →
        ∃ g, m.Passes env (fun _ => True) b prev rest [j] f w g u ∧ m.read g p = .ok y := by
  have hops : ∀ w ∈ (Instr.call callee [v] none).operands, ∃ e ∈ known, e.value = w :=
    fun w hw => ⟨_, hv, (mem_singleton.mp hw).symm⟩
  have hty : resultTy (.scalar ret) (.call callee [v] none) c = .ok (.scalar ret, c) := rfl
  obtain ⟨p, j, c', hrun, hlays, hinst, hvalue, hnew⟩ := exists_lays h hty rfl hops
  refine ⟨p, j, c', hrun, hlays, hnew, bind_eq_ok.mpr ⟨_, some?_eq_ok.mpr hvalue, rfl⟩,
    fun r σ env m f w u prev rest y hcarry hread hcall => ?_⟩
  have hinst' := (hcarry.inst j (.head _)).trans hinst
  have hresult : m.kernel.result? j = some p := by
    rw [result?, hinst']
    rfl
  have hinstr : m.kernel.instr? j = some (.call callee [v] none) := by
    rw [instr?, hinst']
    rfl
  have hargs : [v].mapM (m.read f) = .ok [.scalar (z r)] := mapM_eq_ok.mpr (.cons (hread _ hv) .nil)
  have heval : m.eval env f j (.call callee [v] none) w = .ok (some y) u :=
    Exec.bind_eq_ok.mpr ⟨_, w, Exec.liftChecked_eq_ok.mpr ⟨hargs, rfl⟩, hcall⟩
  refine ⟨_, .single hinstr rfl trivial heval, ?_⟩
  rw [hresult]
  exact Machine.read_record_self (hcarry.value p _ hvalue) f y

end Build

end Spmd
