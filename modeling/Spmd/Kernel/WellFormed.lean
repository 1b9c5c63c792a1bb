import Std.Data.TreeMap
import Spmd.FlowGraph.Dominance
import Spmd.Kernel.Flaw

/-!
# Well-formed kernels

`Kernel.verify` checks, in this order, that

* every block ends in its only terminator, starts with its phis and jumps to blocks of the layout;
* every linked instruction is alive, linked to its block, and reads existing values of the right types;
* in reachable blocks every value is defined before it is used, where a phi uses its input at the end of the
  block the input comes from;
* in reachable blocks every phi has exactly one input for each block that control may come from.

The first flaw found is the answer.
-/

namespace Spmd

/-- Why a kernel is not accepted. -/
inductive VerifyError where
  | defect (d : Defect)
  | fault (f : Fault)
deriving DecidableEq

abbrev Verify := Except VerifyError

instance : MonadLift Checked Verify where
  monadLift
    | .ok a => .ok a
    | .error f => .error (.fault f)

namespace Ty

/-- The same lanes, whatever the elements. -/
def sameShape (a b : Ty) : Bool := a.withElement .bool = b.withElement .bool

/-- Whether `mask` can turn lanes of `data` on and off. -/
def isMaskFor (mask data : Ty) : Bool := mask.element? = some .bool && (mask.isScalar || mask.sameShape data)

def isPtr (t : Ty) : Bool := t = .ptr

def hasElement (elem : ScalarTy) (t : Ty) : Bool := t.element? = some elem

def hasIntElement (t : Ty) : Bool := t.element?.any (·.isInt)

end Ty

namespace Instr

/-- The flaw of the first rule that is broken. -/
def firstBroken (rules : List (Bool × Flaw)) : Option Flaw := (rules.find? fun r => !r.1).map (·.2)

/-- The typing rules of an instruction in a kernel that returns `ret`, given the type of its result and the
types of its operands; the answer is the first one broken. A shuffle counts its lanes in a 32-bit word and
needs a source. -/
def typeFlaw? (ret result : Ty) : Instr → List Ty → Checked (Option Flaw)
  | binary op .., [a, b] => pure <| firstBroken
    [(a = b, .binaryOperands), (a = result, .binaryResult), (op.accepts (a.element?.getD .bool), .binaryElement)]
  | unary .., [a] => pure <| firstBroken [(a = result, .unaryResult)]
  | compare .., [a, b] => pure <| firstBroken
    [(a = b, .compareOperands), (result = a.withElement .bool, .compareResult)]
  | cast .., [a] => pure <| firstBroken [(a.sameShape result, .castShape)]
  | select .., [c, t, e] => pure <| firstBroken
    [(t = e, .selectArms), (t = result, .selectResult), (c.isMaskFor t, .selectCondition)]
  | elementPtr .., [base, index] => pure <| firstBroken
    [(base.hasElement .ptr, .addressBase), (index.hasIntElement, .addressIndex),
      (result.hasElement .ptr, .addressResult)]
  | alloca .., _ => pure <| firstBroken [(result.isPtr, .allocaResult)]
  | load .., ptr :: mask | strideLoad .., ptr :: mask => pure <| firstBroken
    [(ptr.isPtr, .loadAddress), (mask.all (·.isMaskFor result), .loadMask)]
  | store .., ptr :: value :: mask | strideStore .., ptr :: value :: mask => pure <| firstBroken
    [(ptr.isPtr, .storeAddress), (mask.all (·.isMaskFor value), .storeMask)]
  | gather .., ptrs :: mask => pure <| firstBroken
    [(ptrs.isVector && ptrs.sameShape result, .gatherShape), (mask.all (·.isMaskFor result), .gatherMask)]
  | scatter .., ptrs :: value :: mask => pure <| firstBroken
    [(ptrs.isVector && ptrs.sameShape value, .scatterShape), (mask.all (·.isMaskFor value), .scatterMask)]
  | call _ _ (some _), tys => pure <| firstBroken [(tys.getLast?.any (·.hasElement .bool), .callMask)]
  | phi _, tys => pure <| firstBroken [(tys.all (· = result), .phiInputs)]
  | splat _, [a] => pure <| firstBroken
    [(a.isScalar && result.isVector && a.element? = result.element?, .splatShape)]
  | stepVector, _ => pure <| firstBroken [(result.isVector && result.hasIntElement, .stepShape)]
  | extract .., vector :: _ => pure <| firstBroken
    [(vector.isVector && vector.element? = result.element? && result.isScalar, .extractShape)]
  | insert .., vector :: value :: _ => pure <| firstBroken
    [(vector = result && value.isScalar && value.element? = vector.element?, .insertShape)]
  | shuffle .., [] => throw .outOfRange
  | shuffle _ lanes, tys@(first :: _) => do
    if !tys.all fun t => t.element? = first.element? && t.fixedLanes?.isSome then return some .shuffleSources
    let count ← Checked.word32 (total (tys.filterMap Ty.fixedLanes?))
    return firstBroken [(lanes.all (· < count), .shuffleLane)]
  | reduce kind _, [a] => pure <| firstBroken
    [(a.isVector && a.element?.map Ty.scalar = some result, .reduceShape),
      (kind.binaryOp.accepts (a.element?.getD .bool), .reduceKind)]
  | condBr .., [c] => pure <| firstBroken [(c = .bool, .branchCondition)]
  | switch .., [v] => pure <| firstBroken [(v.isScalar && v.hasIntElement, .switchValue)]
  | Instr.ret (some _), [v] => pure <| firstBroken [(v = ret, .returnType)]
  | Instr.ret none, _ => pure <| firstBroken [(ret.isVoid, .returnType)]
  | _, _ => pure none

end Instr

namespace Kernel

def fail {α : Type} (k : Kernel) (inst : Option InstId) (flaw : Flaw) : Verify α :=
  throw (.defect ⟨k.name, inst, flaw⟩)

def require (k : Kernel) (inst : Option InstId) (rule : Bool) (flaw : Flaw) : Verify Unit :=
  if rule then pure () else k.fail inst flaw

/-- What is wrong with the order of instructions in front of a terminator. -/
def bodyFlaw? (k : Kernel) : Bool → List InstId → Option (InstId × Flaw)
  | _, [] => none
  | pastPhis, i :: is =>
    if (k.instr? i).any Instr.isTerminator then some (i, .strayTerminator)
    else if k.isPhi i && pastPhis then some (i, .latePhi)
    else k.bodyFlaw? (pastPhis || !k.isPhi i) is

/-- One terminator at the end, phis at the start, and jumps into the layout. -/
def verifyShape (k : Kernel) (b : BlockId) : Verify Unit := do
  let name := ((k.block? b).map (·.name)).getD ""
  let insts := k.instsOf b
  match insts.getLast? with
  | none => k.fail none (.emptyBlock name)
  | some last =>
    k.require (some last) ((k.instr? last).any Instr.isTerminator) (.noTerminator name)
    match k.bodyFlaw? false insts.dropLast with
    | some (i, flaw) => k.fail (some i) flaw
    | none => k.require (some last) ((k.successors b).all k.layout.contains) .removedTarget

/-- The type of an operand, if it is a value that still exists. -/
def verifyOperand (k : Kernel) (i : InstId) (v : ValueId) : Verify Ty := do
  match k.value? v with
  | none => k.fail (some i) .notAValue
  | some d =>
    match d.kind with
    | .inst definer => k.require (some i) (!(k.inst? definer).any (·.dead)) (.deletedValue v)
    | _ => pure ()
    return d.ty

def verifyTypes (k : Kernel) (i : InstId) (instr : Instr) : Verify Unit := do
  let tys ← instr.operands.mapM (k.verifyOperand i)
  match ← instr.typeFlaw? k.ret (k.resultTy i) tys with
  | some flaw => k.fail (some i) flaw
  | none => pure ()

/-- The positions of the linked instructions in their blocks. -/
def positions (k : Kernel) : Std.TreeMap InstId Nat :=
  Std.TreeMap.ofList (k.layout.flatMap fun b => (k.instsOf b).zipIdx)

/-- The block and the position where a value is defined; none for a value that no instruction defines. -/
def definedAt? (k : Kernel) (positions : Std.TreeMap InstId Nat) (v : ValueId) : Option (BlockId × Nat) := do
  let d ← k.value? v
  match d.kind with
  | .inst i => return ((← k.inst? i).block, positions.getD i 0)
  | _ => none

/-- Every value an instruction of a reachable block reads is defined on every way to it. -/
def verifyDominance (k : Kernel) (g : FlowGraph) (dom : DominatorTree) (positions : Std.TreeMap InstId Nat)
    (b : BlockId) (i : InstId) : Instr → Verify Unit
  | .phi incoming =>
    incoming.forM fun (pred, v) =>
      match k.definedAt? positions v with
      | some (home, _) =>
        k.require (some i) (!g.isReachable pred || dom.dominates home pred) (.phiDominance v pred)
      | none => pure ()
  | instr =>
    instr.operands.forM fun v =>
      match k.definedAt? positions v with
      | some (home, position) =>
        k.require (some i)
          (if home = b then position < positions.getD i 0 else dom.dominates home b) (.useDominance v)
      | none => pure ()

/-- The inputs of the phis of a block match the blocks that control comes from, one to one. -/
def verifyPhis (k : Kernel) (g : FlowGraph) (b : BlockId) : Verify Unit :=
  (k.instsOf b).forM fun i =>
    match k.instr? i with
    | some (.phi incoming) => do
      (g.preds b).forM fun pred =>
        let count := incoming.countP (·.1 = pred)
        k.require (some i) (count = 1) (.phiCount count pred)
      match incoming.find? fun (source, _) => !(g.preds b).contains source with
      | some (source, _) => k.fail (some i) (.phiStranger source)
      | none => pure ()
    | _ => pure ()

def verifyInst (k : Kernel) (g : FlowGraph) (dom : DominatorTree) (positions : Std.TreeMap InstId Nat)
    (b : BlockId) (i : InstId) : Verify Unit := do
  let d ← k.inst i
  k.require (some i) (!d.dead) .deadLinked
  k.require (some i) (d.block = b) .staleLink
  k.verifyTypes i d.instr
  if g.isReachable b then k.verifyDominance g dom positions b i d.instr

/-- Accepts well-formed kernels. -/
def verify (k : Kernel) : Verify Unit := do
  k.require none (!k.layout.isEmpty) .noBlocks
  k.layout.forM k.verifyShape
  let g ← k.flowGraph
  let dom := g.dominators
  let positions := k.positions
  k.layout.forM fun b => do
    (k.instsOf b).forM (k.verifyInst g dom positions b)
    if g.isReachable b then k.verifyPhis g b

end Kernel

end Spmd
