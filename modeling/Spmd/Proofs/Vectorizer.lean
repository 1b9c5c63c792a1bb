import Spmd.Proofs.Success
import Spmd.Vectorizer

/-!
# Flattening and vectorizing as a whole

* **`Kernel.flattens_of_linearize`** — flattening is a run of single steps that ends where no branch varies.
* **`Vectorizer.vectorize_delivers`** — only a kernel without varying branches is widened, and what comes of
  it is well-formed where that is asked for. One lane gets the kernel itself.
-/

namespace Spmd

open Success Attempt

variable {k k' : Kernel} {classify : Classifier} {options : Options} {n budget : Nat}

namespace Kernel

/-- The lanes of a group take every branch of the kernel together. -/
def InStep (k : Kernel) (classify : Classifier) (dimension : Nat) : Prop :=
  ∃ d, k.divergence classify dimension = .ok d ∧ d.branches = []

/-- The regions of `n` varying branches are flattened, one after the other. -/
def Flattens (classify : Classifier) (options : Options) : Nat → Kernel → Kernel → Prop
  | 0, k, k' => k = k'
  | n + 1, k, k' => ∃ k1, k.flattenFirst? classify options = .ok (some k1) ∧ Flattens classify options n k1 k'

theorem flattenFirst?_eq_none : k.flattenFirst? classify options = .ok none ↔ k.InStep classify options.dimension := by
  rw [flattenFirst?, bind_eq_ok]
  refine exists_congr fun d => and_congr liftM_eq_ok ?_
  cases d.branches with
  | nil => simp [pure_eq_ok]
  | cons branch rest => simp [bind_eq_ok, map_eq_ok]

theorem flattens_of_flattenAll (h : flattenAll classify options budget k = .ok (k', n)) :
    n < budget ∧ Flattens classify options n k k' ∧ k'.InStep classify options.dimension := by
  induction budget generalizing k n with
  | zero => exact absurd h throw_ne_ok
  | succ budget ih =>
    obtain ⟨step, hstep, h⟩ := bind_eq_ok.mp h
    cases step with
    | none =>
      -- nothing varies any more
      cases pure_eq_ok.mp h
      exact ⟨Nat.succ_pos budget, rfl, flattenFirst?_eq_none.mp hstep⟩
    | some next =>
      obtain ⟨⟨done, count⟩, hrest, h⟩ := bind_eq_ok.mp h
      cases pure_eq_ok.mp h
      obtain ⟨hlt, hflattens, hend⟩ := ih hrest
      exact ⟨Nat.succ_lt_succ hlt, ⟨next, hstep, hflattens⟩, hend⟩

/-- **Flattening ends where no branch varies.** -/
theorem flattens_of_linearize (h : k.linearize classify options = .ok (k', n)) :
    Flattens classify options n k k' ∧ k'.InStep classify options.dimension :=
  (flattens_of_flattenAll h).2

end Kernel

namespace Vectorizer

variable {v : Vectorizer} {group : LaneGroup} {p : Prepared} {report : Report} {done : Vectorized}

theorem inStep_of_flatten {d : Divergence} (hd : k.divergence v.classify v.options.dimension = .ok d)
    (h : v.flatten k d = .ok (k', n)) : k'.InStep v.classify v.options.dimension := by
  unfold flatten at h
  split at h
  next hempty =>
    cases pure_eq_ok.mp h
    exact ⟨d, hd, List.isEmpty_iff.mp hempty⟩
  · split at h
    · exact (Kernel.flattens_of_linearize h).2
    · exact absurd h throw_ne_ok

/-- What is widened has no varying branches. -/
theorem inStep_of_prepare (h : v.prepare k group = .ok p) (hgroup : group.isScalar = false) :
    p.kernel.divergence v.classify v.options.dimension = .ok p.divergence ∧ p.divergence.branches = [] := by
  obtain ⟨_, _, h⟩ := bind_eq_ok.mp h
  obtain ⟨_, _, h⟩ := bind_eq_ok.mp h
  obtain ⟨⟨pruned, _⟩, _, h⟩ := bind_eq_ok.mp h
  obtain ⟨d, hd, h⟩ := bind_eq_ok.mp h
  obtain ⟨_, _, h⟩ := bind_eq_ok.mp h
  rw [if_neg (by simp [hgroup])] at h
  obtain ⟨⟨flat, _⟩, hflat, h⟩ := bind_eq_ok.mp h
  obtain ⟨d', hd', h⟩ := bind_eq_ok.mp h
  obtain ⟨_, _, h⟩ := bind_eq_ok.mp h
  cases pure_eq_ok.mp h
  obtain ⟨d'', hd'', hbranches⟩ := inStep_of_flatten (liftM_eq_ok.mp hd) hflat
  exact ⟨liftM_eq_ok.mp hd', ok_unique hd'' (liftM_eq_ok.mp hd') ▸ hbranches⟩

theorem verify_of_deliver {advice : WidthAdvice} (h : v.deliver k group advice = .ok done) :
    done.kernel = k ∧ (v.options.verifyOutput = true → k.verify = .ok ()) := by
  unfold deliver at h
  split at h
  next =>
    obtain ⟨_, hverify, h⟩ := bind_eq_ok.mp h
    cases pure_eq_ok.mp h
    refine ⟨rfl, fun _ => ?_⟩
    unfold ofVerify at hverify
    split at hverify
    next heq => exact heq
    all_goals exact absurd hverify throw_ne_ok
  next hno =>
    cases pure_eq_ok.mp h
    exact ⟨rfl, fun hyes => absurd hyes hno⟩

/-- **What vectorizing delivers.** One lane gets the kernel itself. For a group, a kernel whose lanes stay in step is
widened and cleaned up, and the result is well-formed if that is to be checked. -/
theorem vectorize_delivers (h : v.vectorize k group = .ok report) (hdone : report.result = .ok done) :
    if group.isScalar then done.kernel = { k with laneGroup := some group }
    else (v.options.verifyOutput = true → done.kernel.verify = .ok ()) ∧
      ∃ flat d s merged, flat.divergence v.classify v.options.dimension = .ok d ∧ d.branches = [] ∧
        v.widen flat d group = .ok () s ∧ v.cleanUp s.kernel group = .ok (done.kernel, merged) := by
  -- a report only hands on what the attempt came to
  have hresult : (v.attempt k group).result = .ok done := by
    dsimp only [vectorize] at h
    split at h
    next heq =>
      cases pure_eq_ok.mp h
      cases hdone
      exact heq
    next =>
      obtain ⟨_, _, h⟩ := bind_eq_ok.mp h
      cases pure_eq_ok.mp h
      cases hdone
    next => exact absurd h throw_ne_ok
  unfold attempt at hresult
  split at hresult
  next => cases hresult
  next p hprepare =>
    cases hgroup : group.isScalar with
    | true =>
      rw [hgroup] at hresult
      cases hresult
      rfl
    | false =>
      obtain ⟨hd, hbranches⟩ := inStep_of_prepare hprepare hgroup
      rw [hgroup, if_neg Bool.false_ne_true] at hresult
      split at hresult
      next => cases hresult
      next s hwiden =>
        split at hresult
        next => cases hresult
        next kernel merged hclean =>
          obtain ⟨rfl, hverify⟩ := verify_of_deliver hresult
          exact ⟨hverify, p.kernel, p.divergence, s, merged, hd, hbranches, hwiden, hclean⟩

end Vectorizer

end Spmd
