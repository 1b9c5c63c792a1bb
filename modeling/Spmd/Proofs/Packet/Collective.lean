import Spmd.Proofs.Kernel.Listing
import Spmd.Proofs.Packet.Extend
import Spmd.Proofs.Packet.LaneCode

/-!
# What lanes compute together

A call in which the lanes of a group work together is spelled out for them: as a reduction, as a vote, or as a scan.
What the lanes should get is said lane by lane, from left to right (`Collective.Gives`). The code in front of the call
shuffles whole packets.

* **`Widening.Spells`** — carrying out the new instructions in front of the call gives what the lanes give together. They
  leave the memory alone and call nothing, except that a scan of a work group asks the runtime once.
* `Collective.gives_reduce`, `gives_vote`, `gives_scan` — the values that the code computes are the right ones.
* `Widen.settles_of_packet` — all calls begin by asking for the packet of their operand. From there on nothing fails.
* `Widen.settles_reduce`, `settles_vote`, `settles_scan` — the three kinds of calls.
-/

namespace Spmd

open Success List Kernel Build

variable {p identity neutral : ValueId} {js post pre : List InstId} {c' c0 : Cursor} {ρ : Type}
  {k : Kernel} {s s' : Widening} {t : WidenTask} {b : BlockId} {i : InstId}

/-! ## What lanes give together -/

namespace Collective

/-- What the lanes of a group give together if they hold `x`. -/
def Gives (c : Collective) (elem ret : ScalarTy) (N : Nat) (x : Nat → Scalar) (y : Val) : Prop :=
  match c.op with
  | .reduce => c.recurrence.binaryOp.through? x (N - 1) = some y
  | .any => ((∃ n < N, x n ≠ .zero elem) → y = .ofInt64 ret 1) ∧ ((∀ n < N, x n = .zero elem) → y = .ofInt64 ret 0)
  | .all => ((∀ n < N, x n ≠ .zero elem) → y = .ofInt64 ret 1) ∧ ((∃ n < N, x n = .zero elem) → y = .ofInt64 ret 0)
  | .scanInclusive => ∃ z, y = .ofLanes N z ∧ ∀ n < N, c.recurrence.binaryOp.through? x n = some (.scalar (z n))
  | .scanExclusive => ∃ z, y = .ofLanes N z ∧ z 0 = .ofConstant elem (c.recurrence.scanIdentity elem) ∧
      ∀ n, n + 1 < N → c.recurrence.binaryOp.through? x n = some (.scalar (z (n + 1)))
  | .broadcast => True

/-- Whether the runtime is asked for what the groups before this one have computed together. -/
def asksRuntime (c : Collective) : Bool := c.scope == .workGroup && (c.op == .scanInclusive || c.op == .scanExclusive)

variable {c : Collective} {elem ret : ScalarTy} {N : Nat} {x y : Nat → Scalar} {e : Scalar}

theorem through?_congr (op : BinaryOp) {n : Nat} (h : ∀ m ≤ n, x m = y m) : op.through? x n = op.through? y n := by
  induction n with
  | zero => rw [BinaryOp.through?, BinaryOp.through?, h 0 (Nat.le_refl 0)]
  | succ n ih =>
    rw [BinaryOp.through?, BinaryOp.through?, ih fun m hm => h m (Nat.le_succ_of_le hm), h (n + 1) (Nat.le_refl _)]

/-- Only the lanes of the group matter. -/
theorem Gives.congr {v : Val} (h : c.Gives elem ret N x v) (hN : 1 ≤ N) (hxy : ∀ n < N, x n = y n) :
    c.Gives elem ret N y v := by
  have hthrough : ∀ n < N, c.recurrence.binaryOp.through? y n = c.recurrence.binaryOp.through? x n :=
    fun n hn => through?_congr _ fun m hm => (hxy m (by omega)).symm
  revert h
  unfold Gives
  cases c.op with
  | reduce => exact fun h => (hthrough _ (by omega)).trans h
  | any =>
    exact fun h => ⟨fun ⟨n, hn, hne⟩ => h.1 ⟨n, hn, hxy n hn ▸ hne⟩,
      fun hall => h.2 fun n hn => (hxy n hn).trans (hall n hn)⟩
  | all =>
    exact fun h => ⟨fun hall => h.1 fun n hn => hxy n hn ▸ hall n hn,
      fun ⟨n, hn, hzero⟩ => h.2 ⟨n, hn, (hxy n hn).trans hzero⟩⟩
  | scanInclusive => exact fun ⟨z, hv, hz⟩ => ⟨z, hv, fun n hn => (hthrough n hn).trans (hz n hn)⟩
  | scanExclusive =>
    exact fun ⟨z, hv, hfirst, hz⟩ => ⟨z, hv, hfirst, fun n hn => (hthrough n (by omega)).trans (hz n hn)⟩
  | broadcast => exact id

theorem gives_reduce (hop : c.op = .reduce) (h : c.recurrence.binaryOp.Combines elem e) (hx : ∀ n, (x n).ty = elem) :
    c.Gives elem ret N x (.scalar (c.recurrence.binaryOp.stretch x 0 (N - 1))) := by
  rw [Gives, hop]
  exact h.through?_eq hx (N - 1)

/-- What a lane gets from a scan of its group. -/
def scanned (c : Collective) (elem : ScalarTy) (x : Nat → Scalar) (n : Nat) : Scalar :=
  if c.op = .scanExclusive then
    if 1 ≤ n then c.recurrence.binaryOp.stretch x 0 (n - 1) else .ofConstant elem (c.recurrence.scanIdentity elem)
  else c.recurrence.binaryOp.stretch x 0 n

theorem gives_scan (hop : c.op = .scanInclusive ∨ c.op = .scanExclusive) (h : c.recurrence.binaryOp.Combines elem e)
    (hx : ∀ n, (x n).ty = elem) : c.Gives elem ret N x (.ofLanes N (c.scanned elem x)) := by
  rcases hop with hop | hop
  · rw [Gives, hop]
    refine ⟨_, rfl, fun n _ => ?_⟩
    rw [scanned, if_neg (by simp [hop])]
    exact h.through?_eq hx n
  · rw [Gives, hop]
    refine ⟨_, rfl, ?_, fun n _ => ?_⟩
    · rw [scanned, if_pos hop, if_neg (by omega)]
    · rw [scanned, if_pos hop, if_pos (by omega)]
      exact h.through?_eq hx n

theorem ty_scanned (hfloat : c.recurrence.isFloat = false)
    (h : c.recurrence.binaryOp.Combines elem (.ofConstant elem (c.recurrence.neutral elem))) (hx : ∀ n, (x n).ty = elem)
    (n : Nat) : (c.scanned elem x n).ty = elem := by
  unfold scanned
  split
  · split
    · exact h.ty_stretch hx 0 (n - 1)
    · exact RecurKind.scanIdentity_eq hfloat elem ▸ h.neutral_ty
  · exact h.ty_stretch hx 0 n

/-- The fold of a vote over the truth values of the lanes. -/
def ballot : CollectiveOp → RecurKind
  | .all => .and
  | _ => .or

/-- A vote in the type of the result. -/
def voteOf (ret : ScalarTy) (a : Scalar) : Scalar := if ret = .bool then a else .ofInt64 ret a.toUInt64.toInt64

theorem voteOf_bool (ret : ScalarTy) (b : Bool) : voteOf ret (.bool b) = .ofInt64 ret (if b then 1 else 0) := by
  unfold voteOf
  split
  next hret =>
    subst hret
    cases b <;> rfl
  · cases b <;> rfl

theorem gives_vote (hop : c.op = .any ∨ c.op = .all) (hN : 1 ≤ N) :
    c.Gives elem ret N x (.scalar (voteOf ret ((ballot c.op).binaryOp.stretch (truths elem x) 0 (N - 1)))) := by
  have hrange : N - 1 + 1 = N := by omega
  rcases hop with hop | hop
  · have hsome : (ballot c.op).binaryOp.stretch (truths elem x) 0 (N - 1) =
        .bool ((range N).any fun n => decide (x n ≠ .zero elem)) := by
      have hstretch := BinaryOp.stretch_or (fun n => decide (x n ≠ .zero elem)) (N - 1)
      rw [hrange] at hstretch
      rw [hop]
      exact hstretch
    rw [hsome, voteOf_bool, Gives, hop]
    refine ⟨fun ⟨n, hn, hne⟩ => ?_, fun hall => ?_⟩
    · rw [any_eq_true.mpr ⟨n, mem_range.mpr hn, decide_eq_true hne⟩]
      rfl
    · rw [any_eq_false.mpr fun n hn => by simpa using hall n (mem_range.mp hn)]
      rfl
  · have hall : (ballot c.op).binaryOp.stretch (truths elem x) 0 (N - 1) =
        .bool ((range N).all fun n => decide (x n ≠ .zero elem)) := by
      have hstretch := BinaryOp.stretch_and (fun n => decide (x n ≠ .zero elem)) (N - 1)
      rw [hrange] at hstretch
      rw [hop]
      exact hstretch
    rw [hall, voteOf_bool, Gives, hop]
    refine ⟨fun hall => ?_, fun ⟨n, hn, hzero⟩ => ?_⟩
    · rw [all_eq_true.mpr fun n hn => decide_eq_true (hall n (mem_range.mp hn))]
      rfl
    · rw [all_eq_false.mpr ⟨n, mem_range.mpr hn, by simpa using hzero⟩]
      rfl

end Collective

/-! ## Calls in which lanes work together -/

/-- A call with a result in which the lanes of a group of `N` work together on `x`. -/
structure Widening.Gathers (s : Widening) (t : WidenTask) (b : BlockId) (i : InstId) (x r : ValueId)
    (elem ret : ScalarTy) (N : Nat) : Prop where
  linked : s.kernel.Linked
  sized : s.Sized t
  place : i ∈ s.kernel.instsOf b
  call : ∃ callee rest mask, s.kernel.instr? i = some (.call callee (x :: rest) mask)
  operand : s.kernel.valueTy x = .ok (.scalar elem)
  result : s.kernel.result? i = some r
  resultTy : s.kernel.valueTy r = .ok (.scalar ret)
  apart : x ≠ r
  group : t.group = ⟨N, false⟩
  lanes : 1 ≤ N
  elem : elem ∈ [ScalarTy.bool, .i32, .i64]

/-- Where the value goes that a group of lanes has computed together: every lane of a scan has its own, a sub-group's
takes the place of the call's result, and a work group's is what the call is made with. -/
def Widening.HandsOn (s s' : Widening) (i : InstId) (r v : ValueId) (c : Collective) : Prop :=
  match c.op, c.scope with
  | .scanInclusive, _ | .scanExclusive, _ => s'.packets[r]? = some v ∧ i ∈ s'.replaced
  | _, .subGroup => i ∈ s'.replaced ∧ ∀ l ∈ s'.kernel.instsInOrder, ∀ instr, s.kernel.instr? l = some instr →
      s'.kernel.instr? l = some (instr.replaceOperand r v)
  | _, .workGroup => ∀ callee x args mask, s.kernel.instr? i = some (.call callee (x :: args) mask) →
      s'.kernel.instr? i = some (.call callee (v :: args) mask)

namespace Widening

variable {r v : ValueId} {c : Collective}

theorem handsOn_subGroup (hop : c.op = .reduce ∨ c.op = .any ∨ c.op = .all) (hscope : c.scope = .subGroup) :
    s.HandsOn s' i r v c ↔ i ∈ s'.replaced ∧ ∀ l ∈ s'.kernel.instsInOrder, ∀ instr, s.kernel.instr? l = some instr →
      s'.kernel.instr? l = some (instr.replaceOperand r v) := by
  rcases hop with hop | hop | hop <;> rw [HandsOn, hop, hscope]

theorem handsOn_workGroup (hop : c.op = .reduce ∨ c.op = .any ∨ c.op = .all) (hscope : c.scope = .workGroup) :
    s.HandsOn s' i r v c ↔ ∀ callee x args mask, s.kernel.instr? i = some (.call callee (x :: args) mask) →
      s'.kernel.instr? i = some (.call callee (v :: args) mask) := by
  rcases hop with hop | hop | hop <;> rw [HandsOn, hop, hscope]

theorem handsOn_scan (hop : c.op = .scanInclusive ∨ c.op = .scanExclusive) :
    s.HandsOn s' i r v c ↔ s'.packets[r]? = some v ∧ i ∈ s'.replaced := by
  rcases hop with hop | hop <;> rw [HandsOn, hop]

end Widening

/-- The call has been spelled out in front of it by new instructions: what they compute is what the lanes give together.
A scan of a work group asks the runtime once, with all lanes combined, and every lane gets the answer combined with its
own. -/
def Widening.Spells (s s' : Widening) (b : BlockId) (i : InstId) (x r : ValueId) (elem ret : ScalarTy) (N : Nat)
    (c : Collective) (p : ValueId) : Prop :=
  (∀ u d, s.kernel.value? u = some d → s'.kernel.value? u = some d) ∧ s'.packets[x]? = some p ∧
  ∃ v pre js post, s'.kernel.instsOf b = pre ++ js ++ i :: post ∧ (∀ j ∈ js, s.kernel.inst? j = none) ∧
    s.HandsOn s' i r v c ∧
    ∀ (σ : Type) (env : Environment σ) (m : Machine) (f : Frame) (w : World σ) (prev : Option BlockId)
      (y : Nat → Scalar), m.kernel = s'.kernel → m.read f p = .ok (.ofLanes N y) → (∀ n < N, (y n).ty = elem) →
      (c.asksRuntime = false → ∃ g a, m.Passes env (fun _ => True) b prev (i :: post) js f w g w ∧ m.read g v = .ok a ∧
        c.Gives elem ret N y a) ∧
      (c.asksRuntime = true → ∃ total, c.recurrence.binaryOp.through? y (N - 1) = some total ∧
        ∀ first u, first.ty = elem →
        env ("work_group_scan_exclusive_" ++ c.recurrence.suffix) [total] w = .ok (some (.scalar first)) u →
        ∃ g a z, m.Passes env (fun _ => True) b prev (i :: post) js f w g u ∧ m.read g v = .ok (.ofLanes N z) ∧
          c.Gives elem ret N y (.ofLanes N a) ∧
          ∀ n < N, c.recurrence.binaryOp.on? (.scalar first) (.scalar (a n)) = some (.scalar (z n)))

namespace Widening.Gathers

variable {x r : ValueId} {elem ret : ScalarTy} {N : Nat}

theorem grows (h : s.Gathers t b i x r elem ret N) (hgrows : s.kernel.Grows s'.kernel) (hs : s'.Sized t) :
    s'.Gathers t b i x r elem ret N := by
  obtain ⟨d, hd, -, -⟩ := (h.linked.mem_iff b i).mp h.place
  have hinst := hgrows.inst i d hd
  refine ⟨hgrows.linked h.linked, hs, (hgrows.sublist b).subset h.place, ?_, hgrows.valueTy h.operand, ?_,
    hgrows.valueTy h.resultTy, h.apart, h.group, h.lanes, h.elem⟩
  · obtain ⟨callee, rest, mask, hcall⟩ := h.call
    refine ⟨callee, rest, mask, ?_⟩
    rw [instr?, hinst, ← hd]
    exact hcall
  · rw [result?, hinst, ← hd]
    exact h.result

/-- A cursor in front of the call knows the packet of the operand, whatever the lanes hold, and all constants. -/
theorem knows (h : s.Gathers t b i x r elem ret N) (hp : s.packets[x]? = some p) (y : ρ → Nat → Scalar)
    {known : List (Fact ρ)} (hconst : ∀ e ∈ known, e.IsConst s.kernel) :
    ∃ pre post, Cursor.Knows ⟨s.kernel, .before i⟩ b pre (i :: post) (.lanes p elem N y :: known) := by
  obtain ⟨pre, post, hat⟩ := h.linked.at_before h.place
  refine ⟨pre, post, hat, h.linked, fun e he => ?_⟩
  rcases mem_cons.mp he with rfl | he
  · obtain ⟨ty, elem', hty, helem, hvector⟩ := h.sized x p hp
    obtain rfl := ok_unique h.operand hty
    cases helem
    rw [Widen.shape, h.group] at hvector
    exact hvector
  · obtain ⟨elem', x, hv, heq⟩ := hconst e he
    rw [heq]
    exact bind_eq_ok.mpr ⟨_, some?_eq_ok.mpr hv, rfl⟩

end Widening.Gathers

namespace Widen

variable {x r v : ValueId} {elem ret : ScalarTy} {N : Nat}

/-- One more call has been spelled out. -/
def counted : Widen Unit := modify fun s => { s with collectiveCount := s.collectiveCount + 1 }

theorem exists_addConst (elem : ScalarTy) (x : Constant) (s : Widening) :
    ∃ v s', addConst (.scalar elem) x s = .ok v s' ∧ s.kernel.Grows s'.kernel ∧ s'.packets = s.packets ∧
      s'.kernel.value? v = some ⟨.const x, .scalar elem⟩ :=
  ⟨_, _, rfl, .addValue s.kernel (fun _ => by simp) rfl, rfl,
    (value?_addValue s.kernel (.const x) (.scalar elem) _).trans (if_pos rfl)⟩

/-! ### Handing on one value -/

variable {known : List (Fact ρ)} {c : Collective}

/-- Code that does not read the replaced value stays as it is. -/
theorem carries_replaceUses (h : c0.Lays b pre post known js c') (hne : ∀ e ∈ known, e.value ≠ r) {d : ValueDef}
    (hr : c0.kernel.value? r = some d) (v : ValueId) : c'.kernel.Carries (c'.kernel.replaceUses r v) js := by
  refine ⟨fun j hj => ?_, fun u d hu => (value?_replaceUses _ _ _ _).trans hu⟩
  obtain ⟨e, he⟩ := h.made hj
  -- the code reads what was known and its own results, and the replaced value is neither
  have hops : e.instr.replaceOperand r v = e.instr := by
    refine Instr.mapOperands_id fun u hu => if_neg ?_
    rintro rfl
    rcases h.operands j hj e.instr (by rw [instr?, he]; rfl) u hu with ⟨l, hl, heq⟩ | hnew
    · exact hne l hl heq
    · cases hr.symm.trans hnew
  rw [inst?_replaceUses, he, Option.map_some]
  split
  · rw [hops]
  · rfl

/-- The value of a reduction or a vote is handed on. -/
theorem exists_finish (h : s.Gathers t b i x r elem ret N)
    (hlays : Cursor.Lays ⟨s.kernel, .before i⟩ b pre (i :: post) known js c') (hne : ∀ e ∈ known, e.value ≠ r)
    (hop : c.op = .reduce ∨ c.op = .any ∨ c.op = .all) (v : ValueId) :
    ∃ s', (finishReduction i c.scope (some r) v >>= fun _ => counted) { s with kernel := c'.kernel } = .ok () s' ∧
      s'.packets = s.packets ∧ c'.kernel.Carries s'.kernel js ∧ s'.kernel.instsOf b = pre ++ js ++ i :: post ∧
      s.HandsOn s' i r v c := by
  obtain ⟨d, hd, -⟩ := h.linked.inst?_of_mem h.place
  cases hscope : c.scope with
  | subGroup =>
    obtain ⟨e, he, -⟩ := Success.bind_eq_ok.mp h.resultTy
    refine ⟨_, rfl, rfl, carries_replaceUses hlays hne (some?_eq_ok.mp he) v, ?_, ?_⟩
    · exact (instsOf_replaceUses _ _ _ _).trans hlays.place.insts
    · refine (Widening.handsOn_subGroup hop hscope).mpr
        ⟨mem_append_right _ (.head _), fun l hl instr hl' => ?_⟩
      obtain ⟨b', hb', hmem⟩ := mem_flatMap.mp ((instsInOrder_replaceUses c'.kernel r v) ▸ hl)
      obtain ⟨e, he, rfl⟩ := map_eq_some_iff.mp hl'
      rw [instr?_replaceUses hb' hmem, instr?, hlays.grows.inst l e he]
      rfl
  | workGroup =>
    refine ⟨_, rfl, rfl, ⟨fun j hj => ?_, fun _ _ hu => hu⟩, hlays.place.insts, ?_⟩
    · -- the call itself is not part of the code
      refine (inst?_modifyInst _ _ _ _).trans (if_neg ?_)
      rintro rfl
      cases hd.symm.trans (hlays.fresh _ hj)
    · refine (Widening.handsOn_workGroup hop hscope).mpr fun callee y args mask hcall' => ?_
      obtain ⟨e, he, hinstr'⟩ := map_eq_some_iff.mp hcall'
      show ((modifyInst _ _ _).inst? i).map (·.instr) = _
      rw [inst?_modifyInst, if_pos rfl, hlays.grows.inst i e he, Option.map_some, hinstr']
      rfl

end Widen

theorem Widening.HandsOn.of_grows {s s1 s' : Widening} {i : InstId} {r v : ValueId} {c : Collective}
    (hgrows : s.kernel.Grows s1.kernel) (h : s1.HandsOn s' i r v c) : s.HandsOn s' i r v c := by
  have hinstr : ∀ l instr, s.kernel.instr? l = some instr → s1.kernel.instr? l = some instr := by
    intro l instr hl
    obtain ⟨d, hd, rfl⟩ := map_eq_some_iff.mp hl
    rw [instr?, hgrows.inst l d hd]
    rfl
  revert h
  unfold HandsOn
  cases c.op with
  | scanInclusive | scanExclusive => exact id
  | reduce | any | all | broadcast =>
    cases c.scope with
    | subGroup => exact fun h => ⟨h.1, fun l hl instr hinstr' => h.2 l hl instr (hinstr l instr hinstr')⟩
    | workGroup => exact fun h callee x args mask hcall => h callee x args mask (hinstr i _ hcall)

namespace Widen

variable {s1 s2 : Widening} {x r v : ValueId} {elem ret : ScalarTy} {N : Nat}
  {known : List (Fact ρ)} {c : Collective} {y : ρ → Nat → Scalar} {zero : ValueId}

/-- Where the packet of the operand reads as expected, so does all that code in front of the call may use. -/
theorem reads_known (hconst : ∀ e ∈ known, e.IsConst k) {m : Machine}
    (hvalue : ∀ v d, k.value? v = some d → m.kernel.value? v = some d) {f : Frame} {a : ρ}
    (hp : m.read f p = .ok (.ofLanes N (y a))) :
    ∀ e ∈ Fact.lanes p elem N y :: known, m.read f e.value = .ok (e.reads a) := by
  intro e he
  rcases mem_cons.mp he with rfl | he
  · exact hp
  · obtain ⟨elem', x, hv, heq⟩ := hconst e he
    rw [heq]
    exact Machine.read_const (hvalue _ _ hv) f

/-- The result of the call is none of the values that the code in front of it uses. -/
theorem value_ne_result (h : s.Gathers t b i x r elem ret N) (hknows : c0.Knows b pre post (.lanes p elem N y :: known))
    (hconst : ∀ e ∈ known, e.IsConst s.kernel) (hkernel : c0.kernel = s.kernel) :
    ∀ e ∈ Fact.lanes p elem N y :: known, e.value ≠ r := by
  intro e he
  rcases mem_cons.mp he with rfl | he
  · rintro rfl
    have hty := hkernel ▸ hknows.held _ (.head _)
    exact absurd (ok_unique h.resultTy hty) (by simp [Fact.lanes])
  · rintro rfl
    obtain ⟨elem', x, hv, -⟩ := hconst e he
    have hkind := (h.linked.defines_iff i e.value).mp h.result
    rw [hv] at hkind
    cases Option.some.inj hkind

/-- What lanes of a type hold. -/
abbrev Lanes (elem : ScalarTy) : Type := { y : Nat → Scalar // ∀ n, (y n).ty = elem }

/-- Lanes beyond the group do not matter. -/
theorem exists_lanes {y : Nat → Scalar} (hy : ∀ n < N, (y n).ty = elem) : ∃ a : Lanes elem, ∀ n < N, a.1 n = y n := by
  refine ⟨⟨fun n => if n < N then y n else .zero elem, fun n => ?_⟩, fun n hn => if_pos hn⟩
  dsimp only
  split
  next hn =>
    exact hy n hn
  · exact Scalar.ty_ofInt64 elem 0

theorem spells_of_computes {known : List (Fact (Lanes elem))} {e : Fact (Lanes elem)} (hN : 1 ≤ N)
    (hgrows : s.kernel.Grows s1.kernel)
    (hcomp : Cursor.Computes ⟨s1.kernel, .before i⟩ b pre (i :: post) (.lanes p elem N Subtype.val :: known) e js c')
    (hconst : ∀ e ∈ known, e.IsConst s1.kernel) (hcarry : c'.kernel.Carries s'.kernel js)
    (hplace : s'.kernel.instsOf b = pre ++ js ++ i :: post) (hp : s'.packets[x]? = some p)
    (hhands : s.HandsOn s' i r e.value c) (hlocal : c.asksRuntime = false)
    (hgives : ∀ a, c.Gives elem ret N a.1 (e.reads a)) : s.Spells s' b i x r elem ret N c p := by
  refine ⟨fun u d hd => hcarry.value u d (hcomp.grows.value u d (hgrows.value u d hd)), hp, e.value, pre, js, post,
    hplace, fun j hj => hgrows.inst?_eq_none (hcomp.fresh j hj), hhands, fun σ env m f w prev y hm hread hy =>
    ⟨fun _ => ?_, fun hasks => by cases hlocal.symm.trans hasks⟩⟩
  -- lanes of the type beyond the group too, since the code is right for those only
  obtain ⟨a, ha⟩ := exists_lanes hy
  rw [← Val.ofLanes_inj.mpr ha] at hread
  have hcarry' : c'.kernel.Carries m.kernel js := hm ▸ hcarry
  obtain ⟨g, hpass, hlast⟩ := hcomp.passes a σ env m f w prev (i :: post) hcarry'
    (reads_known hconst (fun v d hd => hcarry'.value v d (hcomp.grows.value v d hd)) hread)
  exact ⟨g, _, hpass, hlast, (hgives a).congr hN ha⟩

/-- A reduction or a vote, given code that computes it. -/
theorem exists_spelled (known : List (Fact (Lanes elem))) (ty : Ty) {z : Lanes elem → Val} {action : Build ValueId}
    (h : s1.Gathers t b i x r elem ret N) (hgrows : s.kernel.Grows s1.kernel) (hp : s1.packets[x]? = some p)
    (hop : c.op = .reduce ∨ c.op = .any ∨ c.op = .all) (hconst : ∀ e ∈ known, e.IsConst s1.kernel)
    (haction : ∀ (c0 : Cursor) pre post, c0.Knows b pre post (.lanes p elem N Subtype.val :: known) →
      ∃ v js c', action c0 = .ok (v, c') ∧
        c0.Computes b pre post (.lanes p elem N Subtype.val :: known) ⟨v, ty, z⟩ js c')
    (hgives : ∀ a, c.Gives elem ret N a.1 (z a)) :
    ∃ s', (before i action >>= fun v => finishReduction i c.scope (some r) v >>= fun _ => counted) s1 = .ok () s' ∧
      s.Spells s' b i x r elem ret N c p := by
  obtain ⟨pre, post, hknows⟩ := h.knows hp Subtype.val hconst
  obtain ⟨v, js, c', hrun, hcomp⟩ := haction _ pre (i :: post) hknows
  have hne := value_ne_result h hknows hconst rfl
  obtain ⟨s', hfinish, hpackets, hcarry, hplace, hhands⟩ := exists_finish h hcomp.toLays hne hop v
  refine ⟨s', ?_, spells_of_computes h.lanes hgrows hcomp hconst hcarry hplace (hpackets ▸ hp)
    (hhands.of_grows hgrows) ?_ hgives⟩
  · rw [bind_of_eq_ok (before_eq_ok.mpr ⟨c', hrun, rfl⟩)]
    exact hfinish
  · rw [Collective.asksRuntime]
    rcases hop with hop | hop | hop <;> rw [hop] <;> exact Bool.and_false _

/-- A call is spelled out as soon as its operand has a packet, and only as it should be. -/
def Settles (s : Widening) (t : WidenTask) (b : BlockId) (i : InstId) (x r : ValueId) (elem ret : ScalarTy) (N : Nat)
    (c : Collective) : Prop :=
  ((s.packets[x]?).isSome = true → ∃ s', lowerCollective t i c s = .ok () s') ∧
    ∀ s', lowerCollective t i c s = .ok () s' → ∃ p, (∀ q, s.packets[x]? = some q → q = p) ∧
      s.Spells s' b i x r elem ret N c p

section

variable (h : s.Gathers t b i x r elem ret N)
include h

theorem settles_of_packet {rest : ValueId → Widen Unit}
    (hrun : lowerCollective t i c s = (packetOf t x >>= rest) s1) (hgrows : s.kernel.Grows s1.kernel)
    (hpackets : s1.packets = s.packets)
    (hrest : ∀ p s2, s2.Gathers t b i x r elem ret N → s.kernel.Grows s2.kernel → s1.kernel.Grows s2.kernel →
      s2.packets[x]? = some p → ∃ s', rest p s2 = .ok () s' ∧ s.Spells s' b i x r elem ret N c p) :
    Settles s t b i x r elem ret N c := by
  have hs1 := sized_of_grows h.sized hgrows hpackets
  -- once there is a packet the rest succeeds, so both parts follow from what comes behind it
  have hafter : ∀ p s2, packetOf t x s1 = .ok p s2 → ∃ s', rest p s2 = .ok () s' ∧
      (∀ q, s.packets[x]? = some q → q = p) ∧ s.Spells s' b i x r elem ret N c p := by
    intro p s2 hpacket
    obtain ⟨hgrows2, hs2, hp⟩ := packetOf_eq_ok hs1 hpacket
    have hall := hgrows.trans hgrows2.kernel
    obtain ⟨s', hs', hspells⟩ := hrest p s2 (h.grows hall hs2) hall hgrows2.kernel hp
    refine ⟨s', hs', fun q hq => ?_, hspells⟩
    exact mem_unique (hgrows2.packets x q (hpackets ▸ hq)) hp
  rw [Settles, hrun]
  refine ⟨fun hsome => ?_, fun s' hs' => ?_⟩
  · obtain ⟨p, hp⟩ := isSome_iff_exists.mp hsome
    have hpacket := packetOf_of_packet (t := t) (hpackets ▸ hp)
    obtain ⟨s', hs', -⟩ := hafter p s1 hpacket
    exact ⟨s', (bind_of_eq_ok hpacket).trans hs'⟩
  · obtain ⟨p, s2, hpacket, hlast⟩ := bind_eq_ok.mp hs'
    obtain ⟨s'', hs'', hspells⟩ := hafter p s2 hpacket
    cases hlast.symm.trans hs''
    exact ⟨p, hspells⟩

/-- What a call that stands in a kernel is spelled out as. -/
theorem lowerCollective_of_gathers :
    (c.op = .reduce → lowerCollective t i c s = (packetOf t x >>= fun p =>
      before i (reduce c.recurrence p) >>= fun v =>
      finishReduction i c.scope (some r) v >>= fun _ => counted) s) ∧
    (c.op = .any ∨ c.op = .all → lowerCollective t i c s = (
      lowerVote t i (Collective.ballot c.op) x (some r) >>= fun v =>
      finishReduction i c.scope (some r) v >>= fun _ => counted) s) ∧
    (c.op = .scanInclusive ∨ c.op = .scanExclusive → lowerCollective t i c s = (lowerScan t i c x >>= fun v =>
      setPacket r v >>= fun _ => replace i >>= fun _ => counted) s) := by
  obtain ⟨callee, rest, mask, hcall⟩ := h.call
  obtain ⟨d, hd, hinstr⟩ := map_eq_some_iff.mp hcall
  have hinst : s.kernel.inst i = .ok d := some?_eq_ok.mpr hd
  rw [lowerCollective, bind_of_eq_ok (kernel_eq_ok.mpr ⟨rfl, rfl⟩), bind_of_eq_ok (lift_eq_ok.mpr ⟨hinst, rfl⟩), hinstr,
    h.result]
  refine ⟨fun hop => ?_, fun hop => ?_, fun hop => ?_⟩
  · rw [hop]
    rfl
  · rcases hop with hop | hop <;> rw [hop] <;> rfl
  · rcases hop with hop | hop <;> rw [hop] <;> rfl

theorem settles_reduce (hop : c.op = .reduce)
    (haccepts : c.recurrence.binaryOp.accepts elem = true) :
    Settles s t b i x r elem ret N c := by
  have hcombines := RecurKind.combines h.elem haccepts
  refine settles_of_packet h ((lowerCollective_of_gathers h).1 hop) (.refl _) rfl fun p s2 h2 hgrows _ hp => ?_
  refine exists_spelled [] (.scalar elem) h2 hgrows hp (.inl hop) (fun e he => by cases he)
    (fun c0 pre post hknows => ?_) fun a => Collective.gives_reduce hop hcombines a.2
  obtain ⟨v, j, c', hrun, hcomp⟩ := exists_reduce hcombines (fun a : Lanes elem => a.2) h.lanes hknows
    (.head _)
  exact ⟨v, [j], c', hrun, hcomp⟩

end

theorem isConst_scalar {k' : Kernel} {x : Constant} (h : k.value? v = some ⟨.const x, .scalar elem⟩)
    (hgrows : k.Grows k') : (Fact.scalar v elem fun _ : ρ => .ofConstant elem x).IsConst k' :=
  ⟨elem, x, hgrows.value _ _ h, rfl⟩

/-- The code of a vote, in the type of the result. -/
def voteCode (kind : RecurKind) (elem ret : ScalarTy) (shape : VectorTy) (zero p : ValueId) : Build ValueId := do
  let vote ← vote kind elem shape p zero
  if ret = .bool then return vote else cast .zext vote ret

theorem exists_voteCode {kind : RecurKind} {e : Scalar} (hkind : kind.binaryOp.Combines .bool e)
    (helem : elem ∈ [ScalarTy.bool, .i32, .i64]) (hN : 1 ≤ N) (hy : ∀ a n, (y a n).ty = elem)
    (h : c0.Knows b pre post known) (hp : .lanes p elem N y ∈ known)
    (hzero : .scalar zero elem (fun _ => .zero elem) ∈ known) :
    ∃ v js c', voteCode kind elem ret ⟨elem, N, false⟩ zero p c0 = .ok (v, c') ∧
      c0.Computes b pre post known (.scalar v ret fun a =>
        Collective.voteOf ret (kind.binaryOp.stretch (truths elem (y a)) 0 (N - 1))) js c' := by
  obtain ⟨v, js, c1, hvote, hcomp⟩ := exists_vote hkind helem hy hN h hp hzero
  by_cases hret : ret = .bool
  · subst hret
    refine ⟨v, js, c1, stateBind_eq_ok.mpr ⟨v, c1, hvote, ?_⟩, hcomp⟩
    rw [if_pos rfl]
    rfl
  · obtain ⟨u, j, c2, hcast, hcomp2⟩ := exists_cast ret hcomp.knows (.head _)
    refine ⟨u, js ++ [j], c2, stateBind_eq_ok.mpr ⟨v, c1, hvote, ?_⟩, ?_⟩
    · rw [if_neg hret]
      exact hcast
    · simp only [Collective.voteOf, if_neg hret]
      exact hcomp.trans hcomp2

theorem bind_eq_of_run {α β : Type} {x y : Widen α} (h : x s = y s1) (f : α → Widen β) :
    (x >>= f) s = (y >>= f) s1 := by
  show EStateM.bind x f s = EStateM.bind y f s1
  rw [EStateM.bind, EStateM.bind, h]

theorem lowerVote_eq (kind : RecurKind) (h : s.Gathers t b i x r elem ret N)
    (hzero : addConst (.scalar elem) (.int 0) s = .ok zero s1) :
    lowerVote t i kind x (some r) s =
      (packetOf t x >>= fun p => before i (voteCode kind elem ret ⟨elem, N, false⟩ zero p)) s1 := by
  have hshape : shape t elem = ⟨elem, N, false⟩ := by rw [shape, h.group]
  -- only floats are compared with a zero of their own
  have hconstant : (if elem.isFloat = true then Constant.posZero else Constant.int 0) = .int 0 := by
    have := h.elem
    revert this
    cases elem <;> decide
  rw [← hconstant] at hzero
  rw [lowerVote, bind_of_eq_ok (valueTy_eq_ok.mpr ⟨h.operand, rfl⟩)]
  refine (bind_of_eq_ok (valueTy_eq_ok.mpr ⟨h.resultTy, rfl⟩)).trans ?_
  refine (bind_of_eq_ok (pure_eq_ok.mpr ⟨rfl, rfl⟩)).trans ((bind_of_eq_ok hzero).trans ?_)
  rw [← hshape]
  rfl

theorem settles_vote (h : s.Gathers t b i x r elem ret N) (hop : c.op = .any ∨ c.op = .all) :
    Settles s t b i x r elem ret N c := by
  have hcombines : ∃ e, (Collective.ballot c.op).binaryOp.Combines .bool e := by
    rcases hop with hop | hop <;> rw [hop]
    · exact ⟨_, BinaryOp.combines_or_bool⟩
    · exact ⟨_, BinaryOp.combines_and_bool⟩
  obtain ⟨e, hcombines⟩ := hcombines
  obtain ⟨zero, s1, hconst, hgrows, hpackets, hvalue⟩ := exists_addConst elem (.int 0) s
  have hrun : lowerCollective t i c s = (packetOf t x >>= fun p =>
      before i (voteCode (Collective.ballot c.op) elem ret ⟨elem, N, false⟩ zero p) >>= fun v =>
      finishReduction i c.scope (some r) v >>= fun _ => counted) s1 := by
    rw [(lowerCollective_of_gathers h).2.1 hop, bind_eq_of_run (lowerVote_eq _ h hconst), bind_assoc]
  refine settles_of_packet h hrun hgrows hpackets fun p s2 h2 hgrows2 hgrows' hp => ?_
  refine exists_spelled [.scalar zero elem fun _ => .ofConstant elem (.int 0)] (.scalar ret) h2 hgrows2 hp (.inr hop)
    (fun e he => ?_) (fun c0 pre post hknows => ?_) fun a => Collective.gives_vote hop h.lanes
  · obtain rfl := mem_singleton.mp he
    exact isConst_scalar hvalue hgrows'
  · exact exists_voteCode hcombines h.elem h.lanes (fun a : Lanes elem => a.2) hknows (.head _)
      (.tail _ (.head _))

/-! ### Scans -/

/-- The code of a scan within the group. -/
def scanCode (c : Collective) (N : Nat) (shape : VectorTy) (neutral identity p : ValueId) : Build ValueId := do
  let pad ← splat neutral shape
  let inclusive ← scan c.recurrence.binaryOp N pad p
  if c.op = .scanExclusive then moveUp N (← splat identity shape) inclusive else return inclusive

theorem exists_scanCode (hcombines : c.recurrence.binaryOp.Combines elem (.ofConstant elem (c.recurrence.neutral elem)))
    (hy : ∀ a n, (y a n).ty = elem) (h : c0.Knows b pre post known) (hp : .lanes p elem N y ∈ known)
    (hneutral : .scalar neutral elem (fun _ => .ofConstant elem (c.recurrence.neutral elem)) ∈ known)
    (hidentity : .scalar identity elem (fun _ => .ofConstant elem (c.recurrence.scanIdentity elem)) ∈ known) :
    ∃ v js c', scanCode c N ⟨elem, N, false⟩ neutral identity p c0 = .ok (v, c') ∧
      c0.Computes b pre post known (.lanes v elem N fun a => c.scanned elem (y a)) js c' := by
  obtain ⟨pad, j1, c1, hpad, hcomp1⟩ := exists_splat N h hneutral
  obtain ⟨inclusive, js, c2, hscan, hcomp2⟩ := exists_scan hcombines hy hcomp1.knows (.tail _ hp)
    (.head _)
  by_cases hop : c.op = .scanExclusive
  · obtain ⟨first, j3, c3, hfirst, hcomp3⟩ := exists_splat N hcomp2.knows
      (.tail _ (.tail _ hidentity))
    obtain ⟨v, j4, c', hmove, hcomp4⟩ := exists_moveUp hcomp3.knows (.tail _ (.head _))
      (.head _)
    have hscanned : (fun a : ρ => c.scanned elem (y a)) = fun a n => if 1 ≤ n then
        c.recurrence.binaryOp.stretch (y a) 0 (n - 1) else .ofConstant elem (c.recurrence.scanIdentity elem) :=
      funext fun a => funext fun n => if_pos hop
    rw [hscanned]
    refine ⟨v, _, c', ?_, hcomp1.trans (hcomp2.trans (hcomp3.trans hcomp4))⟩
    refine stateBind_eq_ok.mpr ⟨pad, c1, hpad, stateBind_eq_ok.mpr ⟨inclusive, c2, hscan, ?_⟩⟩
    rw [if_pos hop]
    exact stateBind_eq_ok.mpr ⟨first, c3, hfirst, hmove⟩
  · have hscanned : (fun a : ρ => c.scanned elem (y a)) = fun a => c.recurrence.binaryOp.stretch (y a) 0 :=
      funext fun a => funext fun n => if_neg hop
    rw [hscanned]
    refine ⟨inclusive, _, c2, ?_, hcomp1.trans hcomp2⟩
    refine stateBind_eq_ok.mpr ⟨pad, c1, hpad, stateBind_eq_ok.mpr ⟨inclusive, c2, hscan, ?_⟩⟩
    rw [if_neg hop]
    rfl

/-- The code that asks the runtime for what the groups before this one have computed together. -/
def askCode (c : Collective) (elem : ScalarTy) (p : ValueId) : Build ValueId := do
  let total ← reduce c.recurrence p
  callValue ("work_group_scan_exclusive_" ++ c.recurrence.suffix) [total] (.scalar elem)

/-- The code that combines every lane with an earlier value. -/
def offsetCode (op : BinaryOp) (shape : VectorTy) (v earlier : ValueId) : Build ValueId := do
  let offset ← splat earlier shape
  binary op offset v

theorem lowerScan_eq (h : s.Gathers t b i x r elem ret N)
    (hneutral : addConst (.scalar elem) (c.recurrence.neutral elem) s = .ok neutral s1)
    (hidentity : addConst (.scalar elem) (c.recurrence.scanIdentity elem) s1 = .ok identity s2) :
    (c.scope = .subGroup → lowerScan t i c x s =
      (packetOf t x >>= fun p => before i (scanCode c N ⟨elem, N, false⟩ neutral identity p)) s2) ∧
    (c.scope = .workGroup → lowerScan t i c x s =
      (packetOf t x >>= fun p => before i (scanCode c N ⟨elem, N, false⟩ neutral identity p) >>= fun v =>
        before i (askCode c elem p) >>= fun earlier =>
        before i (offsetCode c.recurrence.binaryOp ⟨elem, N, false⟩ v earlier)) s2) := by
  have hshape : shape t elem = ⟨elem, N, false⟩ := by rw [shape, h.group]
  have hlanes : fixedLanes t i "scan" s = .ok N s := by
    rw [fixedLanes, h.group]
    rfl
  rw [lowerScan, bind_of_eq_ok hlanes, bind_of_eq_ok (valueTy_eq_ok.mpr ⟨h.operand, rfl⟩), ← hshape]
  refine ⟨fun hscope => ?_, fun hscope => ?_⟩
  · refine (bind_of_eq_ok hneutral).trans ((bind_of_eq_ok hidentity).trans ?_)
    rw [hscope]
    show (packetOf t x >>= fun p => before i (scanCode c N (shape t elem) neutral identity p) >>= pure) s2 = _
    simp only [bind_pure]
  · refine (bind_of_eq_ok hneutral).trans ((bind_of_eq_ok hidentity).trans ?_)
    rw [hscope]
    rfl

/-- The lanes of a scan get their values. -/
theorem exists_scanFinish (h : s.Gathers t b i x r elem ret N) (hp : s.packets[x]? = some p)
    (hop : c.op = .scanInclusive ∨ c.op = .scanExclusive) (s0 : Widening) (k : Kernel) (v : ValueId) :
    ∃ s', (setPacket r v >>= fun _ => replace i >>= fun _ => counted) { s with kernel := k } = .ok () s' ∧
      s'.kernel = k ∧ s'.packets[x]? = some p ∧ s0.HandsOn s' i r v c := by
  refine ⟨_, rfl, rfl, ?_, ?_⟩
  · have hother : (s.packets.insert r v)[x]? = s.packets[x]? := by
      simp only [Std.TreeMap.getElem?_insert, Std.LawfulEqOrd.compare_eq_iff_eq, if_neg h.apart.symm]
    exact hother.trans hp
  · exact (Widening.handsOn_scan hop).mpr
      ⟨Std.TreeMap.getElem?_insert_self, mem_append_right _ (.head _)⟩

section Scan

/-- The constants of a scan. -/
def scanConsts (ρ : Type) (c : Collective) (elem : ScalarTy) (neutral identity : ValueId) : List (Fact ρ) :=
  [.scalar neutral elem fun _ => .ofConstant elem (c.recurrence.neutral elem),
    .scalar identity elem fun _ => .ofConstant elem (c.recurrence.scanIdentity elem)]

theorem isConst_scanConsts (hneutral : k.value? neutral = some ⟨.const (c.recurrence.neutral elem), .scalar elem⟩)
    (hidentity : k.value? identity = some ⟨.const (c.recurrence.scanIdentity elem), .scalar elem⟩) :
    ∀ e ∈ scanConsts ρ c elem neutral identity, e.IsConst k := by
  intro e he
  rcases mem_pair.mp he with rfl | rfl
  · exact ⟨elem, _, hneutral, rfl⟩
  · exact ⟨elem, _, hidentity, rfl⟩

/-- The code of a scan of a work group asks the runtime once. -/
theorem exists_askingCode {y : ρ → Nat → Scalar} {first : ρ → Scalar} (helem : elem ∈ [ScalarTy.bool, .i32, .i64])
    (haccepts : c.recurrence.binaryOp.accepts elem = true) (hN : 1 ≤ N) (hy : ∀ a n, (y a n).ty = elem)
    (hfirst : ∀ a, (first a).ty = elem) (h : c0.Knows b pre post known) (hp : .lanes p elem N y ∈ known)
    (hneutral : .scalar neutral elem (fun _ => .ofConstant elem (c.recurrence.neutral elem)) ∈ known)
    (hidentity : .scalar identity elem (fun _ => .ofConstant elem (c.recurrence.scanIdentity elem)) ∈ known) :
    ∃ v c1 earlier c2 out c' js, scanCode c N ⟨elem, N, false⟩ neutral identity p c0 = .ok (v, c1) ∧
      askCode c elem p c1 = .ok (earlier, c2) ∧
      offsetCode c.recurrence.binaryOp ⟨elem, N, false⟩ v earlier c2 = .ok (out, c') ∧
      (∀ i, c0.point = .before i → c1.point = .before i ∧ c2.point = .before i) ∧ c0.Lays b pre post known js c' ∧
      ∀ (a : ρ) (σ : Type) (env : Environment σ) (m : Machine) (f : Frame) (w u : World σ) (prev : Option BlockId)
        (rest : List InstId), m.kernel = c'.kernel → (∀ e ∈ known, m.read f e.value = .ok (e.reads a)) →
        env ("work_group_scan_exclusive_" ++ c.recurrence.suffix)
          [.scalar (c.recurrence.binaryOp.stretch (y a) 0 (N - 1))] w = .ok (some (.scalar (first a))) u →
        ∃ g, m.Passes env (fun _ => True) b prev rest js f w g u ∧ m.read g out = .ok (.ofLanes N fun n =>
          c.recurrence.binaryOp.onScalars (first a) (c.scanned elem (y a) n)) := by
  have hcombines := RecurKind.combines helem haccepts
  have hscanned : ∀ a n, (c.scanned elem (y a) n).ty = elem :=
    fun a n => Collective.ty_scanned (RecurKind.isFloat_of_accepts helem haccepts) hcombines (hy a) n
  obtain ⟨v, js, c1, hscan, hcomp⟩ := exists_scanCode hcombines hy h hp hneutral hidentity
  obtain ⟨total, j1, c1', hreduce, hcomp1⟩ := exists_reduce hcombines hy hN hcomp.knows
    (.tail _ hp)
  have htotal := hcomp.trans hcomp1
  have hknows1 : c1'.Knows b (pre ++ (js ++ [j1])) post _ := ⟨htotal.place, hcomp1.linked, hcomp1.knows.held⟩
  obtain ⟨earlier, j2, c2, hcall, hlays2, hnew, hty2, hrun2⟩ := exists_callValue
    ("work_group_scan_exclusive_" ++ c.recurrence.suffix) elem hknows1 (.head _)
  have hoffers : ∀ e ∈ Fact.scalar total elem _ :: _ :: known, c0.Offers known e.value :=
    forall_mem_cons.mpr ⟨htotal.result, hcomp.offers⟩
  have hask := htotal.toLays.trans hlays2 hoffers
  -- what the runtime answers is known from here on
  have hknows2 : c2.Knows b (pre ++ (js ++ [j1] ++ [j2])) post (.scalar earlier elem first :: _) :=
    ⟨hask.place, hask.linked, forall_mem_cons.mpr ⟨hty2, hlays2.knows.held⟩⟩
  obtain ⟨offset, j3, c3, hsplat, hcomp3⟩ := exists_splat N hknows2 (.head _)
  obtain ⟨out, j4, c', hbinary, hcomp4⟩ := exists_binary hcombines (fun a _ => hfirst a) hscanned hcomp3.knows
    (.head _) (.tail _ (.tail _ (.tail _ (.head _))))
  have hcomp5 := hcomp3.trans hcomp4
  have hearlier : c0.Offers known earlier := Cursor.Offers.of_grows (.inr hnew) htotal.grows hoffers
  refine ⟨v, c1, earlier, c2, out, c', js ++ [j1] ++ [j2] ++ ([j3] ++ [j4]), hscan,
    stateBind_eq_ok.mpr ⟨total, c1', hreduce, hcall⟩, stateBind_eq_ok.mpr ⟨offset, c3, hsplat, hbinary⟩,
    fun i hi => ⟨hcomp.point i hi, hask.point i hi⟩,
    hask.trans hcomp5.toLays (forall_mem_cons.mpr ⟨hearlier, hoffers⟩),
    fun a σ env m f w u prev rest hm hread henv => ?_⟩
  have hgrows2 : c2.kernel.Grows m.kernel := hm ▸ hcomp5.grows
  have hgrows1 := hlays2.grows.trans hgrows2
  have hcarry := hcomp.carries (hcomp1.grows.trans hgrows1)
  have hcarry1 := hcomp1.carries hgrows1
  have hcarry2 := hlays2.carries hgrows2
  obtain ⟨g, hpass, hv⟩ := hcomp.passes a σ env m f w prev _ hcarry hread
  have hread1 := hcomp.reads_cons hcarry hpass hread hv
  obtain ⟨g1, hpass1, htotal⟩ := hcomp1.passes a σ env m g w prev _ hcarry1 hread1
  have hread2 := hcomp1.reads_cons hcarry1 hpass1 hread1 htotal
  obtain ⟨g2, hpass2, hearlier⟩ := hrun2 a σ env m g1 w u prev _ _ hcarry2 hread2 henv
  have hread3 := hlays2.reads hcarry2 hpass2 hread2
  obtain ⟨g3, hpass3, hout⟩ := hcomp5.passes a σ env m g2 u prev rest (hm ▸ hcomp5.carries (.refl _))
    (forall_mem_cons.mpr ⟨hearlier, hread3⟩)
  exact ⟨g3, ((hpass.append hpass1).append hpass2).append hpass3, hout⟩

section

variable (h : s1.Gathers t b i x r elem ret N) (hgrows : s.kernel.Grows s1.kernel)
  (hp : s1.packets[x]? = some p) (hop : c.op = .scanInclusive ∨ c.op = .scanExclusive)
  (hconst : ∀ (ρ : Type), ∀ e ∈ scanConsts ρ c elem neutral identity, e.IsConst s1.kernel)
include h hgrows hp hop hconst

/-- A scan of a sub-group, given its operand's packet. -/
theorem exists_spelled_subGroup (hscope : c.scope = .subGroup)
    (hcombines : c.recurrence.binaryOp.Combines elem (.ofConstant elem (c.recurrence.neutral elem))) :
    ∃ s', (before i (scanCode c N ⟨elem, N, false⟩ neutral identity p) >>= fun v =>
        setPacket r v >>= fun _ => replace i >>= fun _ => counted) s1 = .ok () s' ∧
      s.Spells s' b i x r elem ret N c p := by
  obtain ⟨pre, post, hknows⟩ := h.knows hp Subtype.val (hconst (Lanes elem))
  obtain ⟨v, js, c', hcode, hcomp⟩ := exists_scanCode hcombines (fun a : Lanes elem => a.2) hknows (.head _)
    (.tail _ (.head _)) (.tail _ (.tail _ (.head _)))
  obtain ⟨s', hfinish, hkernel, hp', hhands⟩ := exists_scanFinish h hp hop s c'.kernel v
  refine ⟨s', ?_, spells_of_computes h.lanes hgrows hcomp (hconst _) (hkernel ▸ hcomp.carries (.refl _))
    (hkernel ▸ hcomp.place.insts) hp' hhands ?_ fun a => Collective.gives_scan hop hcombines a.2⟩
  · rw [bind_of_eq_ok (before_eq_ok.mpr ⟨c', hcode, rfl⟩)]
    exact hfinish
  · rw [Collective.asksRuntime, hscope]
    rfl

/-- A scan of a work group, given its operand's packet. -/
theorem exists_spelled_workGroup (hscope : c.scope = .workGroup)
    (haccepts : c.recurrence.binaryOp.accepts elem = true) :
    ∃ s', (before i (scanCode c N ⟨elem, N, false⟩ neutral identity p) >>= fun v =>
        before i (askCode c elem p) >>= fun earlier =>
        before i (offsetCode c.recurrence.binaryOp ⟨elem, N, false⟩ v earlier) >>= fun v =>
        setPacket r v >>= fun _ => replace i >>= fun _ => counted) s1 = .ok () s' ∧
      s.Spells s' b i x r elem ret N c p := by
  have hcombines := RecurKind.combines h.elem haccepts
  obtain ⟨pre, post, hknows⟩ := h.knows hp (fun a : Lanes elem × { a : Scalar // a.ty = elem } => a.1.1) (hconst _)
  obtain ⟨v, c1, earlier, c2, out, c', js, hscan, hask, hoffset, hpoint, hlays, hpasses⟩ :=
    exists_askingCode h.elem haccepts h.lanes (fun a => a.1.2) (fun a => a.2.2) hknows (.head _)
      (.tail _ (.head _)) (.tail _ (.tail _ (.head _)))
  obtain ⟨hpoint1, hpoint2⟩ := hpoint i rfl
  obtain ⟨s', hfinish, hkernel, hp', hhands⟩ := exists_scanFinish h hp hop s c'.kernel out
  refine ⟨s', ?_, fun u d hd => hkernel ▸ hlays.grows.value u d (hgrows.value u d hd), hp', out, pre, js, post,
    hkernel ▸ hlays.place.insts, fun j hj => hgrows.inst?_eq_none (hlays.fresh j hj), hhands,
    fun σ env m f w prev y hm hread hy => ⟨fun hlocal => ?_, fun _ => ?_⟩⟩
  · -- each part is laid down in front of the call, where the one before has left off
    rw [bind_of_eq_ok (before_eq_ok.mpr ⟨c1, hscan, rfl⟩)]
    have hask' : askCode c elem p ⟨c1.kernel, .before i⟩ = .ok (earlier, c2) := hpoint1 ▸ hask
    have hoffset' : offsetCode c.recurrence.binaryOp ⟨elem, N, false⟩ v earlier ⟨c2.kernel, .before i⟩ =
        .ok (out, c') := hpoint2 ▸ hoffset
    rw [bind_of_eq_ok (before_eq_ok.mpr ⟨c2, hask', rfl⟩), bind_of_eq_ok (before_eq_ok.mpr ⟨c', hoffset', rfl⟩)]
    exact hfinish
  · have hasks : c.asksRuntime = true := by
      rw [Collective.asksRuntime, hscope]
      rcases hop with hop | hop <;> rw [hop] <;> rfl
    cases hlocal.symm.trans hasks
  · obtain ⟨a, ha⟩ := exists_lanes hy
    rw [← Val.ofLanes_inj.mpr ha] at hread
    have hN := h.lanes
    refine ⟨.scalar (c.recurrence.binaryOp.stretch a.1 0 (N - 1)), ?_, fun first u hfirst henv => ?_⟩
    · rw [← Collective.through?_congr _ fun n hn => ha n (by omega)]
      exact hcombines.through?_eq a.2 (N - 1)
    obtain ⟨g, hpass, hout⟩ := hpasses (a, ⟨first, hfirst⟩) σ env m f w u prev (i :: post) (hm.trans hkernel)
      (reads_known (hconst _) (fun v d hd => hm.trans hkernel ▸ hlays.grows.value v d hd) hread) henv
    refine ⟨g, _, _, hpass, hout, (Collective.gives_scan hop hcombines a.2).congr h.lanes ha, fun n _ => ?_⟩
    have hty := Collective.ty_scanned (RecurKind.isFloat_of_accepts h.elem haccepts) hcombines a.2 n
    rw [BinaryOp.on?, hcombines.eval hfirst hty]
    rfl

end

theorem settles_scan (h : s.Gathers t b i x r elem ret N) (hop : c.op = .scanInclusive ∨ c.op = .scanExclusive)
    (haccepts : c.recurrence.binaryOp.accepts elem = true) :
    Settles s t b i x r elem ret N c := by
  obtain ⟨neutral, s1, hneutral, hgrows1, hpackets1, hvalue1⟩ :=
    exists_addConst elem (c.recurrence.neutral elem) s
  obtain ⟨identity, s2, hidentity, hgrows2, hpackets2, hvalue2⟩ :=
    exists_addConst elem (c.recurrence.scanIdentity elem) s1
  have hscan := lowerScan_eq h hneutral hidentity
  have hrun := (lowerCollective_of_gathers h).2.2 hop
  have hconst : ∀ {s3 : Widening}, s2.kernel.Grows s3.kernel → ∀ (ρ : Type), ∀ e ∈ scanConsts ρ c elem neutral identity,
      e.IsConst s3.kernel := fun hgrows3 _ =>
    isConst_scanConsts (hgrows3.value _ _ (hgrows2.value _ _ hvalue1)) (hgrows3.value _ _ hvalue2)
  cases hscope : c.scope with
  | subGroup =>
    rw [bind_eq_of_run (hscan.1 hscope), bind_assoc] at hrun
    refine settles_of_packet h hrun (hgrows1.trans hgrows2) (hpackets2.trans hpackets1)
      fun p s3 h3 hgrows hgrows3 hp => ?_
    exact exists_spelled_subGroup h3 hgrows hp hop (hconst hgrows3) hscope (RecurKind.combines h.elem haccepts)
  | workGroup =>
    rw [bind_eq_of_run (hscan.2 hscope), bind_assoc] at hrun
    simp only [bind_assoc] at hrun
    refine settles_of_packet h hrun (hgrows1.trans hgrows2) (hpackets2.trans hpackets1)
      fun p s3 h3 hgrows hgrows3 hp => ?_
    exact exists_spelled_workGroup h3 hgrows hp hop (hconst hgrows3) hscope haccepts

end Scan

/-- **What lanes compute together is spelled out for them.** A call in which the lanes of a group of any fixed size work
together on integers or truth values is spelled out right in front of it, as soon as its operand has a packet. Carried
out, the code gives what the lanes give together: the fold of all lanes, a vote, or for every lane the fold of the lanes
up to itself or before itself. Numbers of lanes have no bound here; up to 2^31 they and what is computed from them are
words of 32 bits (`Build.doublings_lt`). -/
theorem lowerCollective_spells (h : s.Gathers t b i x r elem ret N) (hop : c.op ≠ .broadcast)
    (haccepts : c.op ∈ [.reduce, .scanInclusive, .scanExclusive] → c.recurrence.binaryOp.accepts elem = true) :
    ((s.packets[x]?).isSome = true → ∃ s', lowerCollective t i c s = .ok () s') ∧
      ∀ s', lowerCollective t i c s = .ok () s' → ∃ p, (∀ q, s.packets[x]? = some q → q = p) ∧
        s.Spells s' b i x r elem ret N c p := by
  cases hcase : c.op with
  | reduce => exact settles_reduce h hcase (haccepts (by simp [hcase]))
  | any => exact settles_vote h (.inl hcase)
  | all => exact settles_vote h (.inr hcase)
  | scanInclusive => exact settles_scan h (.inl hcase) (haccepts (by simp [hcase]))
  | scanExclusive => exact settles_scan h (.inr hcase) (haccepts (by simp [hcase]))
  | broadcast => exact absurd hcase hop

end Widen

/-! ## Three lanes behind others -/

/-- Sums up the `x` of all lanes before the own one. What the lanes have for `x` comes in as a vector. -/
def behindOthers : Kernel := .ofListing "behind_others" .void [("xs", .fixedVector .i32 3)] []
  [("entry", [(.call "x" [] none, .scalar .i32),
      (.call "work_group_scan_exclusive_add" [1] none, .scalar .i32)])]

def behindOthersTask : WidenTask where
  divergence := ⟨.ofList [0, 1], ∅, []⟩
  plan := { plans := (∅ : Std.TreeMap ValueId ValuePlan).insert 1 .packet |>.insert 2 .packet, memory := ∅ }
  options := {}
  group := ⟨3, false⟩
  entry := 0
  calls := ∅

def behindOthersCall : Collective := ⟨.scanExclusive, .workGroup, .add, .i32⟩

def behindOthersState : Widening where
  kernel := behindOthers
  packets := (∅ : Std.TreeMap ValueId ValueId).insert 1 0

theorem sized_behindOthersState : behindOthersState.Sized behindOthersTask := by
  intro v p hp
  simp only [behindOthersState, Std.TreeMap.getElem?_insert, Std.LawfulEqOrd.compare_eq_iff_eq] at hp
  split at hp
  next hv =>
    cases hp
    exact hv ▸ ⟨.scalar .i32, .i32, rfl, rfl, rfl⟩
  · cases hp

theorem gathers_behindOthers : behindOthersState.Gathers behindOthersTask 0 1 1 2 .i32 .i32 3 where
  linked := linked_of_coherent (by decide +kernel) (by decide +kernel) (by decide +kernel)
  sized := sized_behindOthersState
  place := show (1 : InstId) ∈ behindOthers.instsOf 0 by decide +kernel
  call := ⟨_, _, _, rfl⟩
  operand := rfl
  result := rfl
  resultTy := rfl
  apart := by decide
  group := rfl
  lanes := by decide
  elem := by decide

/-- The lanes have 5, -3 and 7 for `x`. -/
def behindOthersX (n : Nat) : Scalar := .i32 ([5, -3, 7].getD n 0)

/-- The groups before have 100 together. All calls are written down. -/
def noting : Environment (List (String × List Val)) := fun callee args w =>
  .ok (some (.scalar (.i32 100))) { w with env := (callee, args) :: w.env }

/-- The lanes of the group get 100, 105 and 102, and the runtime is asked once, with the 9 that they have together. -/
theorem lanes_behindOthers : ∃ s' v js rest g,
    Widen.lowerCollective behindOthersTask ⟨1⟩ behindOthersCall behindOthersState = .ok () s' ∧
    s'.packets[(⟨2⟩ : ValueId)]? = some v ∧
    Machine.Passes ⟨s'.kernel, 1⟩ noting (fun _ => True) ⟨0⟩ none rest js ⟨[.ofLanes 3 behindOthersX], ∅⟩ ⟨.empty, []⟩ g
      ⟨.empty, [("work_group_scan_exclusive_add", [.scalar (.i32 9)])]⟩ ∧
    Machine.read ⟨s'.kernel, 1⟩ g v = .ok (.vector [.scalar (.i32 100), .scalar (.i32 105), .scalar (.i32 102)]) := by
  obtain ⟨hsome, hspells⟩ := Widen.lowerCollective_spells (c := behindOthersCall) gathers_behindOthers (by decide)
    fun _ => rfl
  have hpacket : behindOthersState.packets[(1 : ValueId)]? = some 0 := rfl
  obtain ⟨s', hs'⟩ := hsome (hpacket ▸ rfl)
  obtain ⟨p, hp, hvalue, -, v, pre, js, post, -, -, hhands, hrun⟩ := hspells s' hs'
  obtain rfl := hp _ hpacket
  have hread : Machine.read ⟨s'.kernel, 1⟩ ⟨[.ofLanes 3 behindOthersX], ∅⟩ 0 = .ok (.ofLanes 3 behindOthersX) :=
    (Machine.read_eq _ (hvalue 0 _ rfl)).trans rfl
  obtain ⟨total, htotal, hask⟩ :=
    (hrun _ noting ⟨s'.kernel, 1⟩ _ ⟨.empty, []⟩ none behindOthersX rfl hread fun _ _ => rfl).2 rfl
  obtain rfl : Val.scalar (.i32 9) = total := Option.some.inj htotal
  obtain ⟨g, a, z, hpass, hout, ⟨a', heq, hzero, hbefore⟩, hoffset⟩ := hask (.i32 100) _ rfl rfl
  refine ⟨s', v, js, _, g, hs', hhands.1, hpass, hout.trans ?_⟩
  have hlanes := Val.ofLanes_inj.mp heq
  have hz : ∀ n < 3, ∀ y, a n = .i32 y → z n = .i32 (100 + y) := by
    intro n hn y hy
    have hon := hoffset n hn
    rw [hy] at hon
    exact (Val.scalar.inj (Option.some.inj hon)).symm
  have h1 : a 1 = .i32 5 := (hlanes 1 (by decide)).trans (Val.scalar.inj (Option.some.inj (hbefore 0 (by decide)))).symm
  have h2 : a 2 = .i32 2 := (hlanes 2 (by decide)).trans (Val.scalar.inj (Option.some.inj (hbefore 1 (by decide)))).symm
  show Except.ok (Val.vector [.scalar (z 0), .scalar (z 1), .scalar (z 2)]) = _
  rw [hz 0 (by decide) 0 ((hlanes 0 (by decide)).trans hzero), hz 1 (by decide) 5 h1, hz 2 (by decide) 2 h2]
  rfl

end Spmd
