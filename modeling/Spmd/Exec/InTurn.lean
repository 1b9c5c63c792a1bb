/-!
# Doing something a number of times

The steps are done in order and nothing is done past the first failure, so the count may be far larger than
the number of steps that can succeed. `inTurn_eq_mapM` gives the view on a list of positions.
-/

namespace Spmd

variable {m : Type → Type} [Monad m] {α : Type}

/-- Does `f` at `count` positions from `first` on and puts the results behind those in `done`. -/
@[specialize]
def inTurnFrom (f : Nat → m α) (done : Array α) (first : Nat) : Nat → m (List α)
  | 0 => pure done.toList
  | count + 1 => do inTurnFrom f (done.push (← f first)) (first + 1) count

/-- Does `f` at 0, 1, … below `count` and gives the results in that order. -/
@[inline]
def inTurn (count : Nat) (f : Nat → m α) : m (List α) := inTurnFrom f #[] 0 count

theorem inTurnFrom_eq_mapM [LawfulMonad m] (f : Nat → m α) (done : Array α) (first count : Nat) :
    inTurnFrom f done first count = (done.toList ++ ·) <$> (List.range' first count).mapM f := by
  induction count generalizing done first with
  | zero => simp [inTurnFrom]
  | succ count ih => simp [inTurnFrom, ih, List.range'_succ, List.mapM_cons]

theorem inTurn_eq_mapM [LawfulMonad m] (count : Nat) (f : Nat → m α) :
    inTurn count f = (List.range count).mapM f := by
  simp [inTurn, inTurnFrom_eq_mapM, List.range_eq_range']

end Spmd
