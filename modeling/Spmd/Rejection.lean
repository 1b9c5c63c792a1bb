import Spmd.Kernel.Text
import Spmd.Kernel.WellFormed

/-!
# Rejections

Why a kernel is not vectorized, and how it is said. A rejected kernel stays as it is.
-/

namespace Spmd

/-- What is wrong with the jumps of a kernel. -/
inductive FlowIssue where
  | empty
  | noExit
  | multipleExits (count : Nat)
  | switch (inst : InstId)
  /-- A jump goes back to a block that does not dominate its source. -/
  | irreducible (source target : BlockId)
deriving DecidableEq

def FlowIssue.message : FlowIssue → String
  | empty => "function has no blocks"
  | noExit => "function has no exit block"
  | multipleExits count => "function has " ++ toString count ++ " exit blocks, expected one"
  | switch inst => "switch at inst " ++ inst.text ++ " is not supported"
  | irreducible source target => "irreducible control flow on edge bb" ++ source.text ++ " -> bb" ++ target.text

/-- What is wrong with a requested lane group. -/
inductive WidthIssue where
  | zero
  | notPowerOfTwo
  | notScalable
  | tooWide
deriving DecidableEq

def WidthIssue.message : WidthIssue → String
  | zero => "lane count must be positive"
  | notPowerOfTwo => "lane count must be a power of two"
  | notScalable => "target has no scalable vectors"
  | tooWide => "lane count exceeds the target maximum"

/-- What there is no vector form for. -/
inductive Obstacle where
  | alreadyVectorized
  | vectorTypes
  | vectorMemory
  | divergentFlow
  | noJoin
  | divergentLoop
  | sideEntry
  | innerLoop
  | noEntry
  | voidOperand
  | useBeforeDefinition
  | noDefinition
  | laneNotBuilt (lane : Nat)
  | laneLimit (lanes limit : Nat)
  | scalableLanes (what : String)
  | dynamicLane
  | loadForm
  | lostResult
  | noVectorForm (mnemonic : String)
  | notACall
  | collectiveOperand
  | broadcastLane
  | workGroupBroadcast
  | varyingBroadcastLane
  | scanResult
  /-- Anything else, in the words of whoever found it. -/
  | note (text : String)
deriving DecidableEq

def Obstacle.message : Obstacle → String
  | alreadyVectorized => "function is already vectorized"
  | vectorTypes => "function already uses vector types"
  | vectorMemory => "vector memory operation in scalar input"
  | divergentFlow => "divergent control flow with linearization disabled"
  | noJoin => "divergent branch has no join point"
  | divergentLoop => "divergent loop"
  | sideEntry => "divergent region has more than one entry"
  | innerLoop => "loop inside a divergent region"
  | noEntry => "function has no entry block"
  | voidOperand => "void value used as an operand"
  | useBeforeDefinition => "vector value used before its definition"
  | noDefinition => "per-lane value without a definition"
  | laneNotBuilt lane => "lane " ++ toString lane ++ " could not be built"
  | laneLimit lanes limit => toString lanes ++ " lanes exceed the instantiation limit of " ++ toString limit
  | scalableLanes what => what ++ " needs a fixed lane count"
  | dynamicLane => "lane identity with a non-constant dimension"
  | loadForm => "load has no vector form"
  | lostResult => "call result vanished"
  | noVectorForm mnemonic => "no vector form for " ++ mnemonic
  | notACall => "collective is not a call"
  | collectiveOperand => "collective without an operand"
  | broadcastLane => "broadcast without a lane index"
  | workGroupBroadcast => "work-group broadcast"
  | varyingBroadcastLane => "broadcast from a varying lane"
  | scanResult => "scan without a result"
  | note text => text

/-- Why a kernel is not vectorized. -/
inductive Rejection where
  | flow (issue : FlowIssue)
  | unsupported (inst : Option InstId) (obstacle : Obstacle)
  /-- Lanes would have to wait for lanes that took another way. -/
  | divergentBarrier (inst : InstId)
  | width (group : LaneGroup) (issue : WidthIssue)
  /-- The result is not well-formed. -/
  | malformed (defect : Defect)
deriving DecidableEq

/-- The kinds of rejection that are counted. -/
inductive RejectionKind where
  | flow
  | unsupported
  | divergentBarrier
  | width
  | malformed
deriving DecidableEq, Repr

def RejectionKind.all : List RejectionKind := [flow, unsupported, divergentBarrier, width, malformed]

namespace Rejection

def kind : Rejection → RejectionKind
  | flow _ => .flow
  | unsupported .. => .unsupported
  | divergentBarrier _ => .divergentBarrier
  | width .. => .width
  | malformed _ => .malformed

/-- The instruction that is to blame, if one is known. -/
def inst? : Rejection → Option InstId
  | flow (.switch inst) | divergentBarrier inst => some inst
  | unsupported inst _ => inst
  | malformed defect => defect.inst
  | _ => none

/-- The defect behind the rejection, if there is one. -/
def cause? : Rejection → Option Defect
  | malformed defect => some defect
  | _ => none

def message : Rejection → String
  | flow issue => "ineligible control flow: " ++ issue.message
  | unsupported _ obstacle => "unsupported construct: " ++ obstacle.message
  | divergentBarrier inst => "synchronization at inst " ++ inst.text ++ " is reachable under divergent control"
  | width group issue => "invalid vectorization factor " ++ group.text ++ ": " ++ issue.message
  | malformed defect => "vectorized function is invalid: " ++ defect.message

end Rejection

/-- Why an attempt has no result. -/
inductive Failure where
  | rejected (r : Rejection)
  | fault (f : Fault)

/-- A computation that may reject the kernel it works on. -/
abbrev Attempt := Except Failure

namespace Attempt

variable {α : Type}

def ofChecked : Checked α → Attempt α
  | .ok a => pure a
  | .error f => throw (.fault f)

instance : MonadLift Checked Attempt := ⟨ofChecked⟩

theorem liftM_eq_ok {x : Checked α} {a : α} : (liftM x : Attempt α) = .ok a ↔ x = .ok a := by
  cases x with
  | error f =>
    refine ⟨fun h => ?_, fun h => ?_⟩
    · exact absurd h (by simp [liftM, monadLift, MonadLift.monadLift, ofChecked, throw, throwThe, MonadExceptOf.throw])
    · exact absurd h (by simp)
  | ok y => simp [liftM, monadLift, MonadLift.monadLift, ofChecked, pure, Except.pure]

def reject (r : Rejection) : Attempt α := throw (.rejected r)

/-- Rejects for want of a vector form of an instruction. -/
def unsupported (inst : InstId) (obstacle : Obstacle) : Attempt α := reject (.unsupported (some inst) obstacle)

/-- Rejects a kernel that is not well-formed. -/
def ofVerify : Verify α → Attempt α
  | .ok a => pure a
  | .error (.defect d) => reject (.malformed d)
  | .error (.fault f) => throw (.fault f)

end Attempt

end Spmd
