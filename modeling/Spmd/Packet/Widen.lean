import Spmd.Packet.Collective

/-!
# Widening all instructions

Instructions are taken in reverse post-order, so operands are widened before their users; only the inputs of
phis may come later. Uniform instructions stay as they are. An instruction with effects that has no vector
form is repeated for every lane in lane order, at its place.
-/

namespace Spmd.Widen

/-! ## Per lane -/

/-- Makes an instruction that of lane 0. -/
def makeLaneZero (t : WidenTask) (i : InstId) (instr : Instr) : Widen Unit := do
  let operands ← laneOperands (laneOf t · 0) instr
  editKernel fun k => return k.setInstr i (withOperands instr operands)
  setSource i instr

/-- Repeats an instruction for a lane behind the one before. -/
def repeatFor (t : WidenTask) (instr : Instr) (ty : Ty) (result : Option ValueId) (prev : InstId) (lane : Nat) :
    Widen InstId := do
  let operands ← laneOperands (laneOf t · lane) instr
  let (i, _) ← buildAt (.after prev) (Build.insert (withOperands instr operands) ty)
  if let (some r, some v) := (result, (← kernel).result? i) then setInstance r lane v
  return i

/-- Repeats an instruction with effects for every lane, in lane order. -/
def repeatEffect (t : WidenTask) (i : InstId) : Widen Unit := do
  let lanes ← checkCopies t i
  let k ← kernel
  let instr := (← k.inst i).instr
  let result := k.result? i
  makeLaneZero t i instr
  let last ← ((List.range lanes).drop 1).foldlM (repeatFor t instr (k.resultTy i) result) i
  if let some r := result then setInstance r 0 r
  modify fun s => { s with tails := s.tails.insert i last, instanceCount := s.instanceCount + 1 }

/-- Keeps a value per lane: its definition becomes lane 0, and other lanes follow when they are needed. -/
def keepPerLane (t : WidenTask) (i : InstId) (result : ValueId) : Widen Unit := do
  match t.calls[i]? with
  | some (.laneIdentity .dynamic) => unsupported (some i) .dynamicLane
  | some .unknown | some .neverConvergent | some .inherentlyVarying => repeatEffect t i
  | _ =>
    let instr := (← (← kernel).inst i).instr
    if instr.isPhi then
      setSource i instr
      addPending ⟨i, i, .lane 0⟩
    else makeLaneZero t i instr
    setInstance result 0 result

/-! ## Packets -/

/-- A load of all lanes. -/
def packetLoad (t : WidenTask) (i : InstId) (ty : Ty) (ptr : ValueId) (mask : Option ValueId) (align : Nat) :
    Widen ValueId := do
  let mask ← maskOf t mask
  match t.plan.memoryForm? i with
  | some .contiguous =>
    let base ← laneOf t ptr 0
    before i (Build.load ty base mask align)
  | some (.interleaved stride) =>
    let base ← laneOf t ptr 0
    before i (Build.strideLoad ty base (Int64.ofInt stride) mask)
  | some .gatherScatter =>
    let ptrs ← packetOf t ptr
    before i (Build.gather ty ptrs mask)
  | _ => unsupported (some i) .loadForm

/-- One instruction that stands for an instruction in all lanes. -/
def buildPacket (t : WidenTask) (i : InstId) (result : ValueId) : Widen ValueId := do
  let ty ← valueTy result
  let vectorTy := widenTy t ty
  match (← (← kernel).inst i).instr with
  | .binary op lhs rhs =>
    let l ← packetOf t lhs
    let r ← packetOf t rhs
    before i (Build.binary op l r)
  | .unary op x =>
    let x ← packetOf t x
    before i (Build.unary op x)
  | .compare op lhs rhs =>
    let l ← packetOf t lhs
    let r ← packetOf t rhs
    before i (Build.compare op l r)
  | .cast op x =>
    let x ← packetOf t x
    before i (Build.cast op x (ty.element?.getD .i32))
  | .select cond thenValue elseValue =>
    let c ← packetUnlessUniform t cond
    let a ← packetOf t thenValue
    let b ← packetOf t elseValue
    before i (Build.select c a b)
  | .elementPtr base index elem =>
    let base ← packetUnlessUniform t base
    let index ← packetUnlessUniform t index
    before i (Build.elementPtr base index elem)
  | .load ptr mask align => packetLoad t i vectorTy ptr mask align
  | .phi _ =>
    let phi ← before i (Build.phi vectorTy [])
    addPending ⟨(← (← kernel).def? phi).getD .absent, i, .packet⟩
    return phi
  | .call callee args mask =>
    let args ← args.mapM (packetOf t)
    let mask ← maskOf t mask
    let call ← before i (Build.call callee args mask vectorTy)
    match (← kernel).result? call with
    | some v => return v
    | none => unsupported (some i) .lostResult
  | instr => unsupported (some i) (.noVectorForm instr.mnemonic)

/-- A store of all lanes. -/
def packetStore (t : WidenTask) (i : InstId) (form : MemoryForm) (ptr value : ValueId) (mask : Option ValueId)
    (align : Nat) : Widen Unit := do
  let data ← packetOf t value
  let mask ← maskOf t mask
  match form with
  | .contiguous =>
    let base ← laneOf t ptr 0
    discard <| before i (Build.store base data mask align)
  | .interleaved stride =>
    let base ← laneOf t ptr 0
    discard <| before i (Build.strideStore base data (Int64.ofInt stride) mask)
  | _ =>
    let ptrs ← packetOf t ptr
    discard <| before i (Build.scatter ptrs data mask)
  replace i
  modify fun s => { s with packetCount := s.packetCount + 1 }

/-! ## Instructions -/

/-- Widens an instruction that defines a varying value. -/
def widenValue (t : WidenTask) (i : InstId) (result : ValueId) : Widen Unit := do
  match t.plan.get result with
  | .uniform | .laneId => pure ()
  | .packet =>
    let packet ← buildPacket t i result
    setPacket result packet
    replace i
    modify fun s => { s with packetCount := s.packetCount + 1 }
  | .perLane => keepPerLane t i result

/-- Widens a varying instruction that defines nothing. -/
def widenEffect (t : WidenTask) (i : InstId) : Widen Unit := do
  match (← (← kernel).inst i).instr with
  | .store ptr value mask align =>
    match (t.plan.memoryForm? i).getD .perLane with
    | .perLane => repeatEffect t i
    | form => packetStore t i form ptr value mask align
  | .call .. => repeatEffect t i
  | instr => unsupported (some i) (.noVectorForm instr.mnemonic)

/-- Returns the values of all lanes. -/
def widenReturn (t : WidenTask) (i : InstId) (v : ValueId) : Widen Unit := do
  let packet ← packetOf t v
  editKernel fun k =>
    let k := k.setInstr i (.ret (some packet))
    return { k with ret := widenTy t k.ret }

/-- Widens an instruction. -/
def widenInst (t : WidenTask) (i : InstId) : Widen Unit := do
  let k ← kernel
  let d ← k.inst i
  if d.dead then return
  match t.calls[i]?, d.instr with
  | some (.collective c), _ => lowerCollective t i c
  | _, .ret (some v) => widenReturn t i v
  | _, _ =>
    if t.divergence.isVaryingInst i then
      match d.result with
      | some result => widenValue t i result
      | none => widenEffect t i

/-! ## Phis -/

/-- What an input of a phi becomes. -/
def phiInput (t : WidenTask) (form : PhiForm) (v : ValueId) : Widen ValueId :=
  match form with
  | .packet => packetOf t v
  | .lane n => laneOf t v n

/-- Fills in the inputs of a phi. -/
def fillPhi (t : WidenTask) (p : PendingPhi) : Widen Unit := do
  match ← source p.source with
  | .phi incoming =>
    let inputs ← incoming.mapM fun (b, v) => return (b, ← phiInput t p.form v)
    editKernel fun k => return k.setInstr p.phi (.phi inputs)
  | _ => pure ()

/-- Fills in the inputs of all phis, latest first; that may ask for further phis. Every phi after the first
ones is for another lane of another value, which bounds their number. -/
def fillPhis (t : WidenTask) : Nat → Widen Unit
  | 0 => throw (.fault .endless)
  | fuel + 1 => do
    match (← get).pending with
    | [] => pure ()
    | p :: rest =>
      modify fun s => { s with pending := rest }
      fillPhi t p
      fillPhis t fuel

/-- How many phis there can be at most. -/
def phiBound (t : WidenTask) (s : Widening) : Nat := s.pending.length + t.plan.plans.size * max t.group.lanes 1 + 1

/-- Widens the given instructions of the kernel and removes those that others stand for. -/
def widenAll (t : WidenTask) (insts : List InstId) : Widen Unit := do
  insts.forM (widenInst t)
  fillPhis t (phiBound t (← get))
  (← get).replaced.forM fun i => editKernel (·.removeInst i)
  editKernel fun k => return { k with laneGroup := some t.group }

end Spmd.Widen

namespace Spmd.Kernel

/-- Widens a kernel to a group of lanes. No branch may vary, and the plan has to be one for this kernel. -/
def widen (k : Kernel) (classify : Classifier) (divergence : Divergence) (plan : LanePlan) (options : Options)
    (group : LaneGroup) : EStateM.Result Failure Widening Unit :=
  let start : Widening := { kernel := k }
  let task : Attempt (WidenTask × List InstId) := do
    match k.entry? with
    | none => .reject (.unsupported none .noEntry)
    | some entry =>
      let sites ← k.sites classify (← k.flowGraph)
      let calls := Std.TreeMap.ofList (sites.filterMap fun s => s.call.map (s.inst, ·))
      return ({ divergence, plan, options, group, entry, calls }, sites.map (·.inst))
  match task with
  | .ok (t, insts) => (Widen.widenAll t insts).run start
  | .error e => .error e start

end Spmd.Kernel
