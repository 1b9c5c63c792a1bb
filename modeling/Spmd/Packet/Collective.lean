import Spmd.Packet.Lane
import Spmd.Recurrence

/-!
# What lanes compute together

The lanes of a group are the sub-group, so what a sub-group computes together is spelled out on the packet of
the operand. What a work group computes together is still asked for by a call, once per group of lanes, with
what the lanes of the group have computed together.

A scan combines every lane with the one `1, 2, 4, …` lanes before it. Lanes that have no such lane before
them are combined with the neutral element.
-/

namespace Spmd

/-- The last part of the names of functions that combine this way. -/
def RecurKind.suffix : RecurKind → String
  | .add | .fadd => "add"
  | .mul | .fmul => "mul"
  | .smin | .fmin => "min"
  | .smax | .fmax => "max"
  | .umin => "umin"
  | .umax => "umax"
  | .and => "and"
  | .or => "or"
  | .xor => "xor"

namespace Build

/-- The powers of two below a number of lanes. -/
def doublings (lanes : Nat) : List Nat := ((List.range (lanes.log2 + 1)).map (1 <<< ·)).filter (· < lanes)

/-- Lane `j` takes lane `j - k`, or a lane of the second source if there is none. -/
def shiftLanes (lanes k : Nat) : List Nat := (List.range lanes).map fun j => if k ≤ j then j - k else lanes + j

/-- Combines every lane with all lanes before it. -/
def scan (op : BinaryOp) (lanes : Nat) (pad packet : ValueId) : Build ValueId :=
  (doublings lanes).foldlM (fun acc k => do binary op acc (← shuffle [acc, pad] (shiftLanes lanes k))) packet

/-- Moves every lane up by one and puts `first` into lane 0. -/
def moveUp (lanes : Nat) (first packet : ValueId) : Build ValueId :=
  shuffle [packet, first] ((List.range lanes).map fun j => if 1 ≤ j then j - 1 else lanes)

/-- Whether some lanes, or all lanes, are not zero. -/
def vote (kind : RecurKind) (elem : ScalarTy) (shape : VectorTy) (packet zero : ValueId) : Build ValueId := do
  let truth ← if elem = .bool then pure packet
    else do
      let zeros ← splat zero shape
      compare (if elem.isFloat then .fne else .ne) packet zeros
  reduce kind truth

end Build

namespace Widen

/-- Puts a value in the place of a call. -/
def substitute (i : InstId) (result : Option ValueId) (value : ValueId) : Widen Unit := do
  if let some r := result then replaceUses r value
  replace i

/-- Hands on what the lanes of the group have computed together. -/
def finishReduction (i : InstId) (scope : CollectiveScope) (result : Option ValueId) (partialValue : ValueId) :
    Widen Unit :=
  match scope with
  | .subGroup => substitute i result partialValue
  | .workGroup => editKernel fun k => return k.modifyInst i fun d =>
    match d.instr with
    | .call callee (_ :: args) mask => { d with instr := .call callee (partialValue :: args) mask }
    | _ => d

def lowerBroadcast (t : WidenTask) (i : InstId) (scope : CollectiveScope) (x : ValueId) (index : Option ValueId)
    (result : Option ValueId) : Widen Unit := do
  match index with
  | none => unsupported (some i) .broadcastLane
  | some index =>
    if scope = .workGroup then unsupported (some i) .workGroupBroadcast
    if !(← isUniform t index) then unsupported (some i) .varyingBroadcastLane
    let packet ← packetOf t x
    substitute i result (← before i (Build.extract packet index))

def lowerVote (t : WidenTask) (i : InstId) (kind : RecurKind) (x : ValueId) (result : Option ValueId) :
    Widen ValueId := do
  let elem := (← valueTy x).element?.getD .i32
  let retElem ← match result with
    | some r => pure ((← valueTy r).element?.getD .i32)
    | none => pure .i32
  let zero ← addConst (.scalar elem) (if elem.isFloat then .posZero else .int 0)
  let packet ← packetOf t x
  before i do
    let vote ← Build.vote kind elem (shape t elem) packet zero
    if retElem = .bool then return vote else Build.cast .zext vote retElem

def lowerScan (t : WidenTask) (i : InstId) (c : Collective) (x : ValueId) : Widen ValueId := do
  let lanes ← fixedLanes t i "scan"
  let elem := (← valueTy x).element?.getD .i32
  let op := c.recurrence.binaryOp
  let neutral ← addConst (.scalar elem) (c.recurrence.neutral elem)
  let identity ← addConst (.scalar elem) (c.recurrence.scanIdentity elem)
  let packet ← packetOf t x
  let scanned ← before i do
    let pad ← Build.splat neutral (shape t elem)
    let inclusive ← Build.scan op lanes pad packet
    if c.op = .scanExclusive then Build.moveUp lanes (← Build.splat identity (shape t elem)) inclusive
    else return inclusive
  match c.scope with
  | .subGroup => return scanned
  | .workGroup =>
    -- what the groups before this one have computed together
    let earlier ← before i do
      let total ← Build.reduce c.recurrence packet
      Build.callValue ("work_group_scan_exclusive_" ++ c.recurrence.suffix) [total] (.scalar elem)
    before i do
      let offset ← Build.splat earlier (shape t elem)
      Build.binary op offset scanned

/-- Spells out a call in which lanes work together. -/
def lowerCollective (t : WidenTask) (i : InstId) (c : Collective) : Widen Unit := do
  let k ← kernel
  match (← k.inst i).instr with
  | .call _ [] _ => unsupported (some i) .collectiveOperand
  | .call _ (x :: rest) _ =>
    let result := k.result? i
    match c.op with
    | .broadcast => lowerBroadcast t i c.scope x rest.head? result
    | .reduce =>
      let packet ← packetOf t x
      finishReduction i c.scope result (← before i (Build.reduce c.recurrence packet))
    | .any => finishReduction i c.scope result (← lowerVote t i .or x result)
    | .all => finishReduction i c.scope result (← lowerVote t i .and x result)
    | .scanInclusive | .scanExclusive =>
      let scanned ← lowerScan t i c x
      match result with
      | none => unsupported (some i) .scanResult
      | some r =>
        setPacket r scanned
        replace i
    modify fun s => { s with collectiveCount := s.collectiveCount + 1 }
  | _ => unsupported (some i) .notACall

end Widen

end Spmd
