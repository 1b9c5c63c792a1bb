import Spmd.Eligibility
import Spmd.Interleave
import Spmd.Kernel.Prune
import Spmd.Linearize
import Spmd.Liveness
import Spmd.Packet.Widen
import Spmd.Remark
import Spmd.Tally
import Spmd.Unused

/-!
# The vectorizer

Makes out of a kernel that works on one lane a kernel that works on a group of lanes per call: branches that
lanes may decide differently are flattened, every instruction is widened, and what is left over is cleaned
up. A kernel that cannot be vectorized is rejected, and nothing is changed then.
-/

namespace Spmd

structure Vectorizer where
  target : Target
  options : Options
  classify : Classifier

/-- A vectorized kernel. -/
structure Vectorized where
  kernel : Kernel
  group : LaneGroup
  advice : WidthAdvice

/-- What came of an attempt. -/
structure Outcome where
  result : Attempt Vectorized
  /-- What was counted, also by an attempt that was given up. -/
  tally : Tally

namespace Vectorizer

/-- Target and options on one line. -/
def debugText (v : Vectorizer) : String :=
  "Vectorizer \x7b target: " ++ v.target.debugText ++ ", config: " ++ v.options.debugText ++ ", .. \x7d"

/-- Whether an instruction works on several lanes by itself. -/
def isLaneAccess : Instr → Bool
  | .strideLoad .. | .strideStore .. | .gather .. | .scatter .. | .shuffle .. => true
  | _ => false

/-- Accepts a kernel that works on one lane. -/
def checkScalar (k : Kernel) : Attempt Unit := do
  if k.laneGroup.isSome then .reject (.unsupported none .alreadyVectorized)
  if k.hasVectors then .reject (.unsupported none .vectorTypes)
  match k.instsInOrder.find? fun i => (k.instr? i).any isLaneAccess with
  | some i => .unsupported i .vectorMemory
  | none => pure ()

/-- Flattens divergent branches, if there are any, and tells how many. -/
def flatten (v : Vectorizer) (k : Kernel) (d : Divergence) : Attempt (Kernel × Nat) :=
  if d.branches.isEmpty then return (k, 0)
  else if v.options.linearize then k.linearize v.classify v.options
  else .reject (.unsupported d.branches.head? .divergentFlow)

/-- What is done with a kernel before it is widened. -/
structure Prepared where
  kernel : Kernel
  divergence : Divergence
  advice : WidthAdvice
  regions : Nat

/-- Checks a kernel and makes its control flow the same for all lanes. -/
def prepare (v : Vectorizer) (k : Kernel) (group : LaneGroup) : Attempt Prepared := do
  v.target.validate group
  checkScalar k
  let (pruned, _) ← k.removeUnreachable
  let divergence ← pruned.divergence v.classify v.options.dimension
  pruned.checkFlow
  if group.isScalar then
    let advice ← pruned.widthAdvice divergence v.target group
    return ⟨k, divergence, advice, 0⟩
  let (flat, regions) ← v.flatten pruned divergence
  let divergence ← flat.divergence v.classify v.options.dimension
  let advice ← flat.widthAdvice divergence v.target group
  return ⟨flat, divergence, advice, regions⟩

/-- Plans and widens a kernel. -/
def widen (v : Vectorizer) (k : Kernel) (d : Divergence) (group : LaneGroup) :
    EStateM.Result Failure Widening Unit :=
  let plan : Checked LanePlan := do
    let strides ← k.strides v.classify d v.options.dimension
    k.lanePlan v.classify d strides v.target v.options group
  match plan with
  | .ok plan => k.widen v.classify d plan v.options group
  | .error f => .error (.fault f) { kernel := k }

/-- Cleans up a widened kernel and tells how many groups of accesses were merged. -/
def cleanUp (v : Vectorizer) (k : Kernel) (group : LaneGroup) : Checked (Kernel × Nat) := do
  let (k, merged) ← if v.options.combineInterleaved && !group.scalable then k.combineInterleaved v.classify
    else pure (k, 0)
  let (k, _) ← k.removeUnused v.classify
  return (k, merged)

/-- Makes the result of an attempt, unless it is to be checked and is not well-formed. -/
def deliver (v : Vectorizer) (k : Kernel) (group : LaneGroup) (advice : WidthAdvice) : Attempt Vectorized := do
  if v.options.verifyOutput then Attempt.ofVerify k.verify
  return ⟨k, group, advice⟩

/-- Tries to vectorize a kernel. One lane gives the kernel itself back, marked with its group. -/
def attempt (v : Vectorizer) (k : Kernel) (group : LaneGroup) : Outcome :=
  match v.prepare k group with
  | .error e => ⟨.error e, {}⟩
  | .ok p =>
    if group.isScalar then ⟨.ok ⟨{ k with laneGroup := some group }, group, p.advice⟩, {}⟩
    else
      let counted (s : Widening) : Tally :=
        { regions := p.regions, packets := s.packetCount, instances := s.instanceCount
          collectives := s.collectiveCount }
      match v.widen p.kernel p.divergence group with
      | .error e s => ⟨.error e, counted s⟩
      | .ok () s =>
        match v.cleanUp s.kernel group with
        | .error f => ⟨.error (.fault f), counted s⟩
        | .ok (done, merged) => ⟨v.deliver done group p.advice, { counted s with merged }⟩

/-- What is said about a vectorized kernel. -/
def passedRemarks (name : String) (v : Vectorized) (t : Tally) : List Remark :=
  [{ kind := .passed, kernel := name
     message := "vectorized with factor " ++ v.group.text ++ " (" ++ toString t.packets ++ " packetized, "
       ++ toString t.instances ++ " instantiated)" },
   { kind := .analysis, kernel := name
     message := "peak live values " ++ toString v.advice.peakLive ++ ", vector pressure "
       ++ toString v.advice.pressure ++ ", widest profitable factor " ++ toString v.advice.maxWidth }]

/-- What is said about a rejected kernel. -/
def missedRemark (name : String) (group : LaneGroup) (r : Rejection) : Remark :=
  { kind := .missed, kernel := name, inst := r.inst?
    message := "not vectorized with factor " ++ group.text ++ ": " ++ r.message }

/-- A finished attempt with its counts and remarks. -/
structure Report where
  result : Except Rejection Vectorized
  tally : Tally
  remarks : List Remark

/-- Vectorizes a kernel and reports on it. -/
def vectorize (v : Vectorizer) (k : Kernel) (group : LaneGroup) : Checked Report := do
  let outcome := v.attempt k group
  let tally := { outcome.tally with attempts := 1 }
  match outcome.result with
  | .ok done =>
    let tally := { tally with successes := 1 }
    return ⟨.ok done, tally, passedRemarks k.name done tally⟩
  | .error (.rejected r) => return ⟨.error r, ← tally.reject r.kind, [missedRemark k.name group r]⟩
  | .error (.fault f) => throw f

end Vectorizer

end Spmd
