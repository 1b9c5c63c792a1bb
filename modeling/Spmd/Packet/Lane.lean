import Spmd.Packet.State

/-!
# Packets and instances of values

| value     | as a packet              | in lane `n`          |
|-----------|--------------------------|----------------------|
| uniform   | the value in every lane  | the value            |
| lane id   | the value plus the lanes | the value plus `n`   |
| packet    | as it is                 | the element `n`      |
| per lane  | put together lane by lane| a copy for the lane  |

Lane 0 of a value that is kept per lane is the value itself.
-/

namespace Spmd.Widen

/-- The packet that was made for a value. One that should have been made by now is missing. -/
def existingPacket (v : ValueId) : Widen ValueId := do
  let s ← get
  match s.packets[v]? with
  | some p => return p
  | none =>
    if (← s.kernel.valueTy v).element?.isNone then unsupported (← s.kernel.def? v) .voidOperand
    else unsupported (← s.kernel.def? v) .useBeforeDefinition

/-- The element of a packet. -/
def extractLane (t : WidenTask) (packet : ValueId) (lane : Nat) : Widen ValueId :=
  behind t packet do Build.extract packet (← Build.constInt .i32 (Int64.ofNat lane))

/-- A lane index, from that of lane 0. -/
def offsetLane (t : WidenTask) (v : ValueId) (lane : Nat) : Widen ValueId := do
  let elem := (← valueTy v).element?.getD .i32
  behind t v do Build.binary .add v (← Build.constInt elem (Int64.ofNat lane))

/-- A value in a lane, if it is there or can be had without copying its definition. -/
def readyInstance? (t : WidenTask) (v : ValueId) (lane : Nat) : Widen (Option ValueId) := do
  match (← get).instances[(v, lane)]? with
  | some x => return some x
  | none =>
    match t.plan.get v with
    | .uniform => return some v
    | .laneId =>
      let x ← if lane = 0 then pure v else offsetLane t v lane
      setInstance v lane x
      return some x
    | .packet =>
      let x ← extractLane t (← existingPacket v) lane
      setInstance v lane x
      return some x
    | .perLane =>
      if lane = 0 then
        setInstance v 0 v
        return some v
      else return none

/-- Accepts an instruction of which a copy per lane can be made, and gives the number of lanes. -/
def checkCopies (t : WidenTask) (i : InstId) : Widen Nat := do
  let lanes ← fixedLanes t i "per-lane instantiation"
  if t.options.maxInstances < lanes then unsupported (some i) (.laneLimit lanes t.options.maxInstances)
  return lanes

/-- The operands of an instruction with what they are in a lane. -/
def laneOperands (instance? : ValueId → Widen ValueId) (instr : Instr) : Widen (List (ValueId × ValueId)) :=
  instr.operands.eraseDups.mapM fun v => return (v, ← instance? v)

/-- An instruction with its operands replaced. -/
def withOperands (instr : Instr) (operands : List (ValueId × ValueId)) : Instr :=
  instr.mapOperands fun v => (operands.lookup v).getD v

/-- Makes a phi for a lane whose inputs follow later. -/
def lanePhi (v : ValueId) (i : InstId) (ty : Ty) (lane : Nat) : Widen ValueId := do
  let (x, _) ← buildAt (.after i) (Build.phi ty [])
  let phi := (← (← kernel).def? x).getD .absent
  addPending ⟨phi, i, .lane lane⟩
  setInstance v lane x
  return x

/-- The value of a per-lane definition in a lane, from copies of the definitions behind it; `depth` bounds how
far back it goes. Operands are copied last to first. -/
def copyLane (t : WidenTask) (lane : Nat) : Nat → ValueId → Widen ValueId
  | 0, _ => throw (.fault .endless)
  | depth + 1, v => do
    match (← get).instances[(v, lane)]? with
    | some x => return x
    | none =>
      let k ← kernel
      match ← k.def? v with
      | none => unsupported none .noDefinition
      | some i =>
        discard (checkCopies t i)
        let ty ← k.valueTy v
        let instr ← source i
        if instr.isPhi then lanePhi v i ty lane
        else
          let known := (← get).instances
          let missing := instr.operands.filter fun o => t.plan.get o = .perLane && !known.contains (o, lane)
          missing.reverse.forM fun o => discard (copyLane t lane depth o)
          let operands ← laneOperands
            (fun o => do
              match ← readyInstance? t o lane with
              | some x => return x
              | none => unsupported (← (← kernel).def? v) (.laneNotBuilt lane)) instr
          let x ← behind t v (Build.insertValue (withOperands instr operands) ty)
          setInstance v lane x
          if lane = 1 then modify fun s => { s with instanceCount := s.instanceCount + 1 }
          return x

/-- A value in a lane. -/
def laneOf (t : WidenTask) (v : ValueId) (lane : Nat) : Widen ValueId := do
  match ← readyInstance? t v lane with
  | some x => return x
  | none => copyLane t lane ((← kernel).insts.size + 1) v

/-- A packet from the values of all lanes. -/
def assemble (t : WidenTask) (v : ValueId) (ty : Ty) : Widen ValueId := do
  let i := (← (← kernel).def? v).getD .absent
  let lanes ← fixedLanes t i "assembling per-lane values"
  let parts ← (List.range lanes).mapM (laneOf t v)
  let (k, undef) := (← kernel).addUndef ty
  setKernel k
  behind t v (parts.zipIdx.foldlM (fun acc (part, lane) => do
    Build.insertElement acc part (← Build.constInt .i32 (Int64.ofNat lane))) undef)

/-- A value as a packet. -/
def packetOf (t : WidenTask) (v : ValueId) : Widen ValueId := do
  match (← get).packets[v]? with
  | some p => return p
  | none =>
    let ty ← valueTy v
    match ty.element? with
    | none => unsupported (← (← kernel).def? v) .voidOperand
    | some elem =>
      let vectorTy := ty.withLanes (shape t elem)
      let p ← match t.plan.get v with
        | .uniform => behind t v (Build.splat v (shape t elem))
        | .laneId => behind t v do
          let base ← Build.splat v (shape t elem)
          Build.binary .add base (← Build.stepVector vectorTy)
        | .packet => existingPacket v
        | .perLane => assemble t v vectorTy
      setPacket v p
      return p

/-- A value as it is if it is uniform, and else as a packet. -/
def packetUnlessUniform (t : WidenTask) (v : ValueId) : Widen ValueId := do
  if ← isUniform t v then return v else packetOf t v

/-- A mask for all lanes; a uniform one stays scalar. -/
def maskOf (t : WidenTask) : Option ValueId → Widen (Option ValueId)
  | some m => some <$> packetUnlessUniform t m
  | none => return none

end Spmd.Widen
