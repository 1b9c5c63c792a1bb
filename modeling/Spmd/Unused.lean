import Spmd.Callee
import Spmd.IndexSet
import Spmd.Kernel.Edit

/-!
# Unused results

An instruction whose only effect is its result can go once nothing else reads that result. Removing it may
leave others unused, so this is done until nothing is left to remove.
-/

namespace Spmd.Kernel

/-- Whether an instruction does nothing but define its result. -/
def isRemovable (k : Kernel) (classify : Classifier) (i : InstId) : Checked Bool := do
  match (← k.inst i).instr with
  | .call .. => return (← k.callKind? classify i).any CallKind.isRemovable
  | .load .. | .strideLoad .. | .gather .. | .alloca .. | .phi _ => return true
  | instr => return !instr.isTerminator && !instr.mayWrite && (k.result? i).isSome

/-- The values that some instruction other than their own definition reads. -/
def readElsewhere (k : Kernel) : IndexSet :=
  k.instsInOrder.foldl
    (fun s i => s.insertAll (((k.operandsOf i).filter fun v => k.result? i ≠ some v).map (·.index))) ∅

/-- The instructions that can go. -/
def unused (k : Kernel) (classify : Classifier) : Checked (List InstId) :=
  let read := k.readElsewhere
  k.instsInOrder.filterM fun i => do
    match k.result? i with
    | some v => if read.contains v.index then return false else k.isRemovable classify i
    | none => return false

-- the bound of `if h` is used for termination only
set_option linter.unusedVariables false in
/-- Removes unused instructions until there are none, and tells how many there were. -/
def removeUnused (k : Kernel) (classify : Classifier) : Checked (Kernel × Nat) := do
  let dead ← k.unused classify
  if dead.isEmpty then return (k, 0)
  let next ← dead.foldlM removeInst k
  if h : next.liveCount < k.liveCount then
    let (done, count) ← next.removeUnused classify
    return (done, count + dead.length)
  else throw .endless
termination_by k.liveCount

end Spmd.Kernel
