import Spmd.Proofs.Packet.Compute
import Spmd.Proofs.Recurrence

/-!
# Code on lanes

What instructions on the lanes of a group compute one by one, and what they compute together as the code of a scan or a
vote.

* **`Build.exists_scan`** — the shifts of a scan, each combined with what the lanes have so far, give every lane the
  combination of all lanes up to itself. That the lanes add up is `BinaryOp.Combines.doubled`.
* **`Build.exists_vote`** — a vote folds the truth values of the lanes, whether it is on truth values or on integers.
-/

namespace Spmd

open Success List Exec

namespace Build

variable {ρ : Type} {c : Cursor} {b : BlockId} {pre post : List InstId} {known : List (Fact ρ)} {N : Nat}
  {elem : ScalarTy} {u v : ValueId} {x y : ρ → Nat → Scalar} {z : ρ → Scalar} {a e : Scalar} {op : BinaryOp}
  {kind : RecurKind}

/-! ## Single instructions -/

theorem exists_splat (N : Nat) (h : c.Knows b pre post known) (hv : .scalar v elem z ∈ known) :
    ∃ p j c', splat v ⟨elem, N, false⟩ c = .ok (p, c') ∧
      c.Computes b pre post known (.lanes p elem N fun r _ => z r) [j] c' := by
  refine exists_computes _ h (resultTy_splat _ (h.held _ hv)) rfl rfl (fun w hw => ⟨_, hv, ?_⟩)
    fun r σ env m f j w hty hread => ?_
  · exact (mem_singleton.mp hw).symm
  · refine bind_eq_ok.mpr ⟨_, w, liftChecked_eq_ok.mpr ⟨hread _ hv, rfl⟩, ?_⟩
    refine bind_eq_ok.mpr ⟨N, w, liftChecked_eq_ok.mpr ⟨hty ▸ rfl, rfl⟩, ?_⟩
    rw [Val.ofLanes, map_const', length_range]
    rfl

/-- Two operands with lanes of one type. -/
theorem operands_pair (hu : .lanes u elem N x ∈ known) (hv : .lanes v elem N y ∈ known) :
    ∀ w ∈ [u, v], ∃ e ∈ known, e.value = w := by
  intro w hw
  rcases mem_pair.mp hw with rfl | rfl
  · exact ⟨_, hu, rfl⟩
  · exact ⟨_, hv, rfl⟩

/-- Lane `n` of a shuffle is the lane `pick n` of its two sources. -/
theorem exists_shuffle {pick : Nat → Nat} {z : ρ → Nat → Scalar} (hpick : ∀ n < N, pick n < N + N)
    (hz : ∀ r, ∀ n < N, (if pick n < N then x r (pick n) else y r (pick n - N)) = z r n) (h : c.Knows b pre post known)
    (hu : .lanes u elem N x ∈ known) (hv : .lanes v elem N y ∈ known) :
    ∃ p j c', shuffle [u, v] ((range N).map pick) c = .ok (p, c') ∧
      c.Computes b pre post known (.lanes p elem N z) [j] c' := by
  have hty : resultTy .void (.shuffle [u, v] ((range N).map pick)) c = .ok (.vector ⟨elem, N, false⟩, c) := by
    refine stateBind_eq_ok.mpr ⟨_, c, tyOf_of_valueTy (h.held _ hu), ?_⟩
    rw [length_map, length_range]
    rfl
  refine exists_computes _ h hty rfl rfl (operands_pair hu hv) fun r σ env m f j w _ hread => ?_
  have hsources : [u, v].mapM (m.read f) = .ok [.ofLanes N (x r), .ofLanes N (y r)] :=
    mapM_eq_ok.mpr (.cons (hread _ hu) (.cons (hread _ hv) .nil))
  rw [Machine.eval_shuffle (fun p => .scalar (if p < N then x r p else y r (p - N))) hsources fun p hp => ?_]
  · rw [map_map, Val.ofLanes_inj.mpr fun n hn => (hz r n hn).symm]
    rfl
  · obtain ⟨n, hn, rfl⟩ := mem_map.mp hp
    have hlt := hpick n (mem_range.mp hn)
    show ((range N).map (fun n => Val.scalar (x r n)) ++
      ((range N).map (fun n => Val.scalar (y r n)) ++ []))[pick n]? = _
    rw [append_nil]
    split
    next hfirst =>
      rw [getElem?_append_left (by simpa using hfirst)]
      simp [hfirst]
    next hsecond =>
      rw [getElem?_append_right (by simpa using hsecond), length_map, length_range]
      have : pick n - N < N := by omega
      simp [this]

theorem mapLanes₂_ofLanes {g : Val → Val → Except Trap Val} {a b z : Nat → Scalar}
    (h : ∀ n, g (.scalar (a n)) (.scalar (b n)) = .ok (.scalar (z n))) :
    mapLanes₂ g (.ofLanes N a) (.ofLanes N b) = .ok (.ofLanes N z) := by
  refine bind_eq_ok.mpr ⟨_, mapM_eq_ok.mpr ?_, rfl⟩
  rw [zip_map', forall₂_map_left_iff, forall₂_map_right_iff, forall₂_same]
  exact fun n _ => h n

theorem exists_binary (hop : op.Combines elem e) (hx : ∀ r n, (x r n).ty = elem) (hy : ∀ r n, (y r n).ty = elem)
    (h : c.Knows b pre post known) (hu : .lanes u elem N x ∈ known) (hv : .lanes v elem N y ∈ known) :
    ∃ p j c', binary op u v c = .ok (p, c') ∧
      c.Computes b pre post known (.lanes p elem N fun r n => op.onScalars (x r n) (y r n)) [j] c' := by
  refine exists_computes _ h (tyOf_of_valueTy (h.held _ hu)) rfl rfl (operands_pair hu hv)
    fun r σ env m f j w _ hread => ?_
  refine bind_eq_ok.mpr ⟨_, w, liftChecked_eq_ok.mpr ⟨hread _ hu, rfl⟩, ?_⟩
  refine bind_eq_ok.mpr ⟨_, w, liftChecked_eq_ok.mpr ⟨hread _ hv, rfl⟩, ?_⟩
  refine map_eq_ok.mpr ⟨_, liftExcept_eq_ok.mpr ⟨?_, rfl⟩, rfl⟩
  exact mapLanes₂_ofLanes fun n => hop.eval (hx r n) (hy r n) j

theorem exists_compare (op : CmpOp) (h : c.Knows b pre post known) (hu : .lanes u elem N x ∈ known)
    (hv : .lanes v elem N y ∈ known) :
    ∃ p j c', compare op u v c = .ok (p, c') ∧ c.Computes b pre post known
      (.lanes p .bool N fun r n => .bool (compareVals op (.scalar (x r n)) (.scalar (y r n)))) [j] c' := by
  have hty : resultTy .void (.compare op u v) c = .ok (.vector ⟨.bool, N, false⟩, c) :=
    stateBind_eq_ok.mpr ⟨_, c, tyOf_of_valueTy (h.held _ hu), rfl⟩
  refine exists_computes _ h hty rfl rfl (operands_pair hu hv) fun r σ env m f j w _ hread => ?_
  refine bind_eq_ok.mpr ⟨_, w, liftChecked_eq_ok.mpr ⟨hread _ hu, rfl⟩, ?_⟩
  refine bind_eq_ok.mpr ⟨_, w, liftChecked_eq_ok.mpr ⟨hread _ hv, rfl⟩, ?_⟩
  refine map_eq_ok.mpr ⟨_, liftExcept_eq_ok.mpr ⟨?_, rfl⟩, rfl⟩
  exact mapLanes₂_ofLanes fun n => rfl

/-- The lanes behind lane `a` are combined one after another. -/
theorem foldlM_evalBinary (hop : op.Combines elem e) {z : Nat → Scalar} (hz : ∀ n, (z n).ty = elem) (i : InstId)
    (n : Nat) :
    ((range n).map fun l => Val.scalar (z (l + 1))).foldlM (fun acc y => evalBinary op acc y i) (.scalar (z 0)) =
      .ok (.scalar (op.stretch z 0 n)) := by
  induction n with
  | zero => rfl
  | succ n ih =>
    rw [range_succ, map_append, foldlM_append, ih]
    show (evalBinary op (.scalar (op.stretch z 0 n)) (.scalar (z (n + 1))) i >>= pure) = _
    rw [hop.eval (hop.ty_stretch hz 0 n) (hz (n + 1)), BinaryOp.stretch, Nat.zero_add]
    rfl

theorem exists_reduce (hop : kind.binaryOp.Combines elem e) (hx : ∀ r n, (x r n).ty = elem) (hN : 1 ≤ N)
    (h : c.Knows b pre post known) (hu : .lanes u elem N x ∈ known) :
    ∃ p j c', reduce kind u c = .ok (p, c') ∧
      c.Computes b pre post known (.scalar p elem fun r => kind.binaryOp.stretch (x r) 0 (N - 1)) [j] c' := by
  have hty : resultTy .void (.reduce kind u) c = .ok (.scalar elem, c) :=
    stateBind_eq_ok.mpr ⟨_, c, tyOf_of_valueTy (h.held _ hu), rfl⟩
  refine exists_computes _ h hty rfl rfl (fun w hw => ⟨_, hu, (mem_singleton.mp hw).symm⟩)
    fun r σ env m f j w _ hread => ?_
  refine bind_eq_ok.mpr ⟨_, w, liftChecked_eq_ok.mpr ⟨hread _ hu, rfl⟩, ?_⟩
  refine map_eq_ok.mpr ⟨_, liftExcept_eq_ok.mpr ⟨?_, rfl⟩, rfl⟩
  have hlanes : Val.ofLanes N (x r) =
      .vector (.scalar (x r 0) :: (range (N - 1)).map fun l => Val.scalar (x r (l + 1))) := by
    obtain ⟨n, rfl⟩ := Nat.exists_eq_add_of_le' hN
    rw [Val.ofLanes, range_succ_eq_map, map_cons, map_map]
    rfl
  show Machine.reduceVal kind j (.ofLanes N (x r)) = _
  rw [hlanes]
  exact foldlM_evalBinary hop (hx r) j (N - 1)

theorem exists_cast (dest : ScalarTy) (h : c.Knows b pre post known) (hu : .scalar u elem z ∈ known) :
    ∃ p j c', cast .zext u dest c = .ok (p, c') ∧
      c.Computes b pre post known (.scalar p dest fun r => .ofInt64 dest (z r).toUInt64.toInt64) [j] c' := by
  have hty : resultTy (.scalar dest) (.cast .zext u) c = .ok (.scalar dest, c) :=
    stateBind_eq_ok.mpr ⟨_, c, tyOf_of_valueTy (h.held _ hu), rfl⟩
  refine exists_computes _ h hty rfl rfl (fun w hw => ⟨_, hu, (mem_singleton.mp hw).symm⟩)
    fun r σ env m f j w hresult hread => ?_
  refine bind_eq_ok.mpr ⟨_, w, liftChecked_eq_ok.mpr ⟨hread _ hu, rfl⟩, ?_⟩
  refine map_eq_ok.mpr ⟨_, liftExcept_eq_ok.mpr ⟨?_, rfl⟩, rfl⟩
  have helem : m.elementOf j = dest := by
    rw [Machine.elementOf, hresult]
    rfl
  rw [helem]
  rfl

/-! ## Scans -/

/-- Lanes move up by `k`. What moves in comes from the second source. -/
theorem exists_shift {k : Nat} {fill : Nat → Nat} (hfill : ∀ n < N, fill n < N) (h : c.Knows b pre post known)
    (hu : .lanes u elem N x ∈ known) (hv : .lanes v elem N y ∈ known) :
    ∃ p j c', shuffle [u, v] ((range N).map fun n => if k ≤ n then n - k else N + fill n) c = .ok (p, c') ∧
      c.Computes b pre post known (.lanes p elem N fun r n => if k ≤ n then x r (n - k) else y r (fill n)) [j] c' := by
  refine exists_shuffle (fun n hn => ?_) (fun r n hn => ?_) h hu hv
  · have := hfill n hn
    split <;> omega
  · by_cases hle : k ≤ n
    · rw [if_pos hle, if_pos (by omega), if_pos hle]
    · rw [if_neg hle, if_neg (by omega), if_neg hle, Nat.add_sub_cancel_left]

/-- The steps of a scan, by induction on the shifts that are still to be made. -/
theorem exists_shifts (hop : op.Combines elem e) (ks : List Nat) (hx : ∀ r n, (x r n).ty = elem)
    (h : c.Knows b pre post known) (hu : .lanes u elem N x ∈ known) (hv : .lanes v elem N (fun _ _ => e) ∈ known) :
    ∃ p js c', (ks.foldlM (fun acc k => do binary op acc (← shuffle [acc, v] (shiftLanes N k))) u : Build ValueId) c =
        .ok (p, c') ∧
      c.Computes b pre post known (.lanes p elem N fun r => op.shifted e ks (x r)) js c' := by
  induction ks generalizing c pre known u x with
  | nil => exact ⟨u, [], c, rfl, .nil h hu⟩
  | cons k ks ih =>
    -- lanes with nothing before them are combined with the neutral element
    have hty : ∀ (r : ρ) n, (if k ≤ n then x r (n - k) else e).ty = elem := by
      intro r n
      split
      · exact hx r _
      · exact hop.neutral_ty
    obtain ⟨q, j1, c1, hshuffle, hcomp1⟩ := exists_shift (k := k) (fun n hn => hn) h hu hv
    obtain ⟨a, j2, c2, hbinary, hcomp2⟩ := exists_binary hop hx hty hcomp1.knows (.tail _ hu)
      (.head _)
    have hstep := hcomp1.trans hcomp2
    obtain ⟨p, js, c', hrest, hcomp⟩ := ih (fun r n => hop.ty (hx r n) (hty r n)) hstep.knows (.head _)
      (.tail _ hv)
    refine ⟨p, _, c', ?_, hstep.trans hcomp⟩
    refine stateBind_eq_ok.mpr ⟨a, c2, stateBind_eq_ok.mpr ⟨q, c1, hshuffle, hbinary⟩, hrest⟩

/-- A scan gives every lane the combination of all lanes up to itself. -/
theorem exists_scan (hop : op.Combines elem e) (hx : ∀ r n, (x r n).ty = elem) (h : c.Knows b pre post known)
    (hu : .lanes u elem N x ∈ known) (hv : .lanes v elem N (fun _ _ => e) ∈ known) :
    ∃ p js c', scan op N v u c = .ok (p, c') ∧
      c.Computes b pre post known (.lanes p elem N fun r => op.stretch (x r) 0) js c' := by
  obtain ⟨p, js, c', hrun, hcomp⟩ := exists_shifts hop (doublings N) hx h hu hv
  refine ⟨p, js, c', hrun, ?_⟩
  have hlanes : Fact.lanes p elem N (fun r => op.shifted e (doublings N) (x r)) =
      .lanes p elem N fun r => op.stretch (x r) 0 :=
    congrArg (Fact.mk p _) (funext fun r => Val.ofLanes_inj.mpr fun n hn => hop.doubled (hx r) hn)
  exact hlanes ▸ hcomp

theorem exists_moveUp (h : c.Knows b pre post known) (hu : .lanes u elem N x ∈ known) (hv : .lanes v elem N y ∈ known) :
    ∃ p j c', moveUp N v u c = .ok (p, c') ∧
      c.Computes b pre post known (.lanes p elem N fun r n => if 1 ≤ n then x r (n - 1) else y r 0) [j] c' :=
  exists_shift (fun _ hn => Nat.zero_lt_of_lt hn) h hu hv

/-! ## Votes -/

/-- Whether the lanes are not zero, as truth values. -/
def truths (elem : ScalarTy) (x : Nat → Scalar) (n : Nat) : Scalar := .bool (decide (x n ≠ .zero elem))

theorem truths_bool {x : Nat → Scalar} (hx : ∀ n, (x n).ty = .bool) : truths .bool x = x := by
  funext n
  obtain ⟨a, ha⟩ := BinaryOp.exists_of_ty_bool (hx n)
  rw [truths, ha]
  cases a <;> rfl

theorem toUInt64_eq_zero (helem : elem ∈ [ScalarTy.bool, .i32, .i64]) (ha : a.ty = elem)
    (h : a.toUInt64 = (Scalar.zero elem).toUInt64) : a = .zero elem := by
  cases a with
  | bool a =>
    obtain rfl : ScalarTy.bool = elem := ha
    revert h
    cases a <;> decide
  | i32 a =>
    obtain rfl : ScalarTy.i32 = elem := ha
    exact congrArg Scalar.i32 (Int32.toBitVec_inj.mp (congrArg UInt32.toBitVec (UInt32.toUInt64_inj.mp h)))
  | i64 a =>
    obtain rfl : ScalarTy.i64 = elem := ha
    exact congrArg Scalar.i64 (Int64.toBitVec_inj.mp (congrArg UInt64.toBitVec h))
  | f32 | f64 | ptr => exact absurd (ha ▸ helem) (by simp [Scalar.ty])

theorem compareVals_ne_zero (helem : elem ∈ [ScalarTy.bool, .i32, .i64]) (ha : a.ty = elem) :
    compareVals .ne (.scalar a) (.scalar (.zero elem)) = decide (a ≠ .zero elem) := by
  show (a.toUInt64 != (Scalar.zero elem).toUInt64) = _
  by_cases hzero : a = .zero elem
  · simp [hzero]
  · have hne : a.toUInt64 ≠ (Scalar.zero elem).toUInt64 := fun h => hzero (toUInt64_eq_zero helem ha h)
    simp [hzero, hne]

/-- A vote combines the truth values of the lanes. -/
theorem exists_vote (hkind : kind.binaryOp.Combines .bool e) (helem : elem ∈ [ScalarTy.bool, .i32, .i64])
    (hx : ∀ r n, (x r n).ty = elem) (hN : 1 ≤ N) (h : c.Knows b pre post known) (hu : .lanes u elem N x ∈ known)
    (hv : .scalar v elem (fun _ => .zero elem) ∈ known) :
    ∃ p js c', vote kind elem ⟨elem, N, false⟩ u v c = .ok (p, c') ∧ c.Computes b pre post known
      (.scalar p .bool fun r => kind.binaryOp.stretch (truths elem (x r)) 0 (N - 1)) js c' := by
  -- truth values are folded as they are, integers are compared with zero first
  by_cases hbool : elem = .bool
  · subst hbool
    obtain ⟨p, j, c', hrun, hcomp⟩ := exists_reduce hkind hx hN h hu
    refine ⟨p, [j], c', ?_, ?_⟩
    · rw [vote, if_pos rfl]
      exact stateBind_eq_ok.mpr ⟨u, c, rfl, hrun⟩
    · simp only [truths_bool (hx _)]
      exact hcomp
  · obtain ⟨zeros, j1, c1, hsplat, hcomp1⟩ := exists_splat N h hv
    obtain ⟨truth, j2, c2, hcompare, hcomp2⟩ := exists_compare .ne hcomp1.knows (.tail _ hu)
      (.head _)
    have hlanes : (fun (r : ρ) n => Scalar.bool (compareVals .ne (.scalar (x r n)) (.scalar (.zero elem)))) =
        fun r => truths elem (x r) :=
      funext fun r => funext fun n => congrArg Scalar.bool (compareVals_ne_zero helem (hx r n))
    rw [hlanes] at hcomp2
    obtain ⟨p, j3, c', hreduce, hcomp3⟩ := exists_reduce hkind (fun _ _ => rfl) hN hcomp2.knows (.head _)
    refine ⟨p, _, c', ?_, hcomp1.trans (hcomp2.trans hcomp3)⟩
    have hfloat : elem.isFloat = false := by
      revert helem
      cases elem <;> decide
    rw [vote, if_neg hbool, hfloat]
    exact stateBind_eq_ok.mpr ⟨zeros, c1, hsplat, stateBind_eq_ok.mpr ⟨truth, c2, hcompare, hreduce⟩⟩

end Build

end Spmd
