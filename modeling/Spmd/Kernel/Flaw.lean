import Spmd.Kernel.Basic

/-!
# Flaws of kernels

What can be wrong with a kernel, and how it is said.
-/

namespace Spmd

/-- A rule of well-formedness that is broken. -/
inductive Flaw where
  | noBlocks
  | emptyBlock (name : String)
  | noTerminator (name : String)
  | strayTerminator
  | latePhi
  | removedTarget
  | deadLinked
  | staleLink
  | notAValue
  | deletedValue (v : ValueId)
  | binaryOperands
  | binaryResult
  | binaryElement
  | unaryResult
  | compareOperands
  | compareResult
  | castShape
  | selectArms
  | selectResult
  | selectCondition
  | addressBase
  | addressIndex
  | addressResult
  | allocaResult
  | loadAddress
  | loadMask
  | storeAddress
  | storeMask
  | gatherShape
  | gatherMask
  | scatterShape
  | scatterMask
  | callMask
  | phiInputs
  | splatShape
  | stepShape
  | extractShape
  | insertShape
  | shuffleSources
  | shuffleLane
  | reduceShape
  | reduceKind
  | branchCondition
  | switchValue
  | returnType
  | phiCount (count : Nat) (pred : BlockId)
  | phiStranger (b : BlockId)
  | phiDominance (v : ValueId) (pred : BlockId)
  | useDominance (v : ValueId)
  /-- Anything else, in the words of whoever found it. -/
  | note (text : String)
deriving DecidableEq

def Flaw.message : Flaw → String
  | noBlocks => "function has no blocks"
  | emptyBlock name => "block " ++ name ++ " is empty"
  | noTerminator name => "block " ++ name ++ " lacks a terminator"
  | strayTerminator => "terminator in the middle of a block"
  | latePhi => "phi after a non-phi instruction"
  | removedTarget => "branch to a removed block"
  | deadLinked => "dead instruction still linked"
  | staleLink => "instruction block link is stale"
  | notAValue => "operand is not a value"
  | deletedValue v => "use of deleted value %" ++ v.text
  | binaryOperands => "binary operand types differ"
  | binaryResult => "binary result type mismatch"
  | binaryElement => "binary operator not defined for type"
  | unaryResult => "unary result type mismatch"
  | compareOperands => "compare operand types differ"
  | compareResult => "compare result must be bool of operand shape"
  | castShape => "cast changes lane shape"
  | selectArms => "select arms differ"
  | selectResult => "select result type mismatch"
  | selectCondition => "select condition shape"
  | addressBase => "element pointer base must be a pointer"
  | addressIndex => "element pointer index must be an integer"
  | addressResult => "element pointer result must be a pointer"
  | allocaResult => "alloca yields a pointer"
  | loadAddress => "load address must be a scalar pointer"
  | loadMask => "load mask shape"
  | storeAddress => "store address must be a scalar pointer"
  | storeMask => "store mask shape"
  | gatherShape => "gather needs a pointer vector of the result shape"
  | gatherMask => "gather mask shape"
  | scatterShape => "scatter needs a pointer vector of the value shape"
  | scatterMask => "scatter mask shape"
  | callMask => "call mask must be bool"
  | phiInputs => "phi input type mismatch"
  | splatShape => "splat must widen a scalar"
  | stepShape => "step vector must be an integer vector"
  | extractShape => "extract element type mismatch"
  | insertShape => "insert element type mismatch"
  | shuffleSources => "shuffle sources must be fixed vectors of one element type"
  | shuffleLane => "shuffle mask index out of range"
  | reduceShape => "reduce yields the element type"
  | reduceKind => "reduction kind not defined for type"
  | branchCondition => "branch condition must be a scalar bool"
  | switchValue => "switch value must be a scalar integer"
  | returnType => "return type mismatch"
  | phiCount count pred => "phi has " ++ toString count ++ " inputs for predecessor " ++ pred.text
  | phiStranger b => "phi input from non-predecessor " ++ b.text
  | phiDominance v pred => "phi input %" ++ v.text ++ " does not dominate edge from " ++ pred.text
  | useDominance v => "use of %" ++ v.text ++ " not dominated by its definition"
  | note text => text

/-- A flaw with the place where it was found. -/
structure Defect where
  kernel : String
  inst : Option InstId
  flaw : Flaw
deriving DecidableEq

def Defect.message (d : Defect) : String :=
  let place := match d.inst with
    | some i => "in @" ++ d.kernel ++ " at inst " ++ i.text
    | none => "in @" ++ d.kernel
  place ++ ": " ++ d.flaw.message

end Spmd
