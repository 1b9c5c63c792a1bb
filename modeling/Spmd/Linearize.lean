import Spmd.Kernel.Cursor
import Spmd.Region

/-!
# Flattening divergent regions

A divergent region becomes a chain of blocks that every lane goes through:

* every jump gets a mask, the lanes that take it, and every block the union of the masks of the jumps to it;
* memory accesses and calls with effects are masked, and a divisor is replaced by one in lanes that are off;
* phis become selections by the masks of the jumps they belong to.

The masks are plain truth values, so the kernel still works on a single lane. The outermost branch goes
first, and everything inside its region is flattened with it.
-/

namespace Spmd

/-- A kernel in which a region is being flattened. No mask means all lanes. -/
structure Flattening where
  kernel : Kernel
  /-- The lanes that go through a block. -/
  blockMask : BlockId → Option ValueId := fun _ => none
  /-- The lanes that take a jump. -/
  edgeMask : BlockId → BlockId → Option ValueId := fun _ _ => none

abbrev Flatten := StateT Flattening Checked

namespace Flatten

/-- Builds at a point of the kernel. -/
def buildAt (point : InsertPoint) {α : Type} (action : Build α) : Flatten α := do
  let s ← get
  let (a, c) ← s.kernel.build point action
  set { s with kernel := c.kernel }
  return a

def editKernel (f : Kernel → Checked Kernel) : Flatten Unit := do
  let s ← get
  set { s with kernel := ← f s.kernel }

def setBlockMask (b : BlockId) (mask : Option ValueId) : Flatten Unit :=
  modify fun s => { s with blockMask := fun c => if c = b then mask else s.blockMask c }

def setEdgeMask (source target : BlockId) (mask : Option ValueId) : Flatten Unit :=
  modify fun s => { s with
    edgeMask := fun p t => if p = source ∧ t = target then mask else s.edgeMask p t }

/-! ## Masks -/

/-- The union of the masks of all jumps to a block, computed at its start. -/
def unionMask (g : FlowGraph) (b : BlockId) : Flatten (Option ValueId) := do
  let s ← get
  match (g.preds b).mapM fun p => s.edgeMask p b with
  | some (first :: rest) => some <$> buildAt (.afterPhis b) (rest.foldlM (Build.binary .or) first)
  | _ => return none

/-- Gives the jumps at the end of a block their masks. -/
def maskEdges (b : BlockId) : Flatten Unit := do
  let s ← get
  let mask := s.blockMask b
  match s.kernel.terminatorInstr? b with
  | some (.br target) => setEdgeMask b target mask
  | some (.condBr cond thenBlock elseBlock) =>
    if thenBlock = elseBlock then setEdgeMask b thenBlock mask
    else
      let (taken, notTaken) ← buildAt (.beforeTerminator b) do
        let notCond ← Build.unary .not cond
        match mask with
        | some m => return (← Build.binary .and m cond, ← Build.binary .and m notCond)
        | none => return (cond, notCond)
      setEdgeMask b thenBlock (some taken)
      setEdgeMask b elseBlock (some notTaken)
  | _ => pure ()

/-! ## Phis -/

/-- One value out of the inputs of a phi of `target`, picked by the masks of the jumps. -/
def merge (point : InsertPoint) (target : BlockId) (incoming : List (BlockId × ValueId)) :
    Flatten (Option ValueId) := do
  let s ← get
  match incoming with
  | [] => return none
  | (_, first) :: rest =>
    some <$> buildAt point (rest.foldlM (fun acc (p, v) =>
      match s.edgeMask p target with
      | some m => Build.select m v acc
      | none => return v) first)

/-- The inputs of a phi with its result. -/
def phi? (k : Kernel) (i : InstId) : Option (List (BlockId × ValueId) × ValueId) :=
  match k.instr? i, k.result? i with
  | some (.phi incoming), some v => some (incoming, v)
  | _, _ => none

/-- The point behind the definition of a value, if that stands in the block; otherwise the old point. -/
def pointBehind (k : Kernel) (b : BlockId) (point : InsertPoint) (v : ValueId) : Checked InsertPoint := do
  match ← k.def? v with
  | some i => return if (← k.inst i).block = b then .after i else point
  | none => return point

/-- Replaces a phi of a block by a selection and gives the point for the next one. -/
def foldPhi (b : BlockId) (point : InsertPoint) (i : InstId) : Flatten InsertPoint := do
  match phi? (← get).kernel i with
  | none => return point
  | some (incoming, result) =>
    let merged ← merge point b incoming
    let point ← match merged with
      | some v =>
        let next ← pointBehind (← get).kernel b point v
        editKernel fun k => return k.replaceUses result v
        pure next
      | none => pure point
    editKernel (·.removeInst i)
    return point

/-- Replaces all phis of a block by selections. -/
def foldPhis (b : BlockId) : Flatten Unit := do
  let _ ← ((← get).kernel.leadingPhis b).foldlM (foldPhi b) (.afterPhis b)

/-! ## Guards -/

/-- Restricts an instruction to the lanes of a mask, on top of the mask it has. -/
def restrict (i : InstId) (mask : ValueId) : Flatten Unit := do
  let old := ((← get).kernel.instr? i).bind Instr.mask?
  let combined ← match old with
    | some e => buildAt (.before i) (Build.binary .and e mask)
    | none => pure mask
  editKernel fun k => return k.modifyInst i fun d => { d with instr := d.instr.setMask (some combined) }

/-- Replaces the divisor by one in the lanes that are off. -/
def guardDivisor (i : InstId) (op : BinaryOp) (lhs rhs mask : ValueId) : Flatten Unit := do
  match (← (← get).kernel.valueTy rhs).element? with
  | none => pure ()
  | some elem =>
    let safe ← buildAt (.before i) do Build.select mask rhs (← Build.constInt elem 1)
    editKernel fun k => return k.setInstr i (.binary op lhs safe)

/-- Keeps an instruction from doing harm in the lanes that are off. -/
def guard (classify : Classifier) (mask : ValueId) (i : InstId) : Flatten Unit := do
  let k := (← get).kernel
  match (← k.inst i).instr with
  | .load .. | .store .. | .gather .. | .scatter .. => restrict i mask
  | .call .. => if (← k.callKind? classify i).any CallKind.isPerLane then restrict i mask
  | .binary op lhs rhs => if op.mayTrap then guardDivisor i op lhs rhs mask
  | _ => pure ()

/-- Guards all instructions of a block. -/
def guardBlock (classify : Classifier) (b : BlockId) (mask : ValueId) : Flatten Unit := do
  let k := (← get).kernel
  let insts := (k.instsOf b).filter fun i => (k.instr? i).any fun x => !x.isPhi && !x.isTerminator
  insts.forM (guard classify mask)

/-! ## The chain -/

/-- Masks a block of the region. -/
def flattenBlock (classify : Classifier) (g : FlowGraph) (b : BlockId) : Flatten Unit := do
  let mask ← unionMask g b
  setBlockMask b mask
  foldPhis b
  if let some m := mask then guardBlock classify b m
  maskEdges b

/-- Turns the inputs of a phi at the join that come from the region into one from the end of the chain. -/
def foldJoinPhi (r : Region) (last : BlockId) (i : InstId) : Flatten Unit := do
  match (← get).kernel.instr? i with
  | some (.phi incoming) =>
    let (inside, outside) := incoming.partition fun (p, _) => p = r.head || r.blocks.contains p
    match ← merge (.beforeTerminator last) r.join inside with
    | some merged => editKernel fun k => return k.setInstr i (.phi (outside ++ [(last, merged)]))
    | none => pure ()
  | _ => pure ()

/-- Makes a block jump to the next one of the chain and nowhere else. -/
def chainTo (b next : BlockId) : Flatten Unit := do
  if let some i := (← get).kernel.terminator? b then editKernel (·.removeInst i)
  discard <| buildAt (.atEnd b) (Build.br next)

/-- Replaces a phi with a single input by that input. -/
def dropSinglePhi (i : InstId) : Flatten Unit := do
  let k := (← get).kernel
  match k.instr? i with
  | some (.phi [(_, v)]) =>
    if let some result := k.result? i then editKernel fun k => return k.replaceUses result v
    editKernel (·.removeInst i)
  | _ => pure ()

/-- Flattens a region. -/
def region (classify : Classifier) (g : FlowGraph) (r : Region) : Flatten Unit := do
  maskEdges r.head
  r.blocks.forM (flattenBlock classify g)
  let chain := r.head :: r.blocks
  let last := chain.getLast?.getD r.head
  ((← get).kernel.leadingPhis r.join).forM (foldJoinPhi r last)
  (chain.zip (r.blocks ++ [r.join])).forM fun (b, next) => chainTo b next
  -- a join that only the chain leads to needs no phis
  let k := (← get).kernel
  if k.layout.countP (fun b => (k.successors b).contains r.join) = 1 then
    (k.leadingPhis r.join).forM dropSinglePhi

end Flatten

namespace Kernel

/-- How many blocks end in a choice between several ways. -/
def branchCount (k : Kernel) : Nat :=
  k.layout.countP fun b =>
    match k.terminatorInstr? b with
    | some (.condBr ..) | some (.switch ..) => true
    | _ => false

def phiCount (k : Kernel) : Nat := k.instsInOrder.countP k.isPhi

/-- Flattens the region of the first varying branch; none if no branch varies. -/
def flattenFirst? (k : Kernel) (classify : Classifier) (options : Options) : Attempt (Option Kernel) := do
  let d ← k.divergence classify options.dimension
  match d.branches with
  | [] => return none
  | branch :: _ =>
    let g ← k.flowGraph
    let r ← k.region g g.postDominators branch
    k.checkWaits classify options r
    let ((), s) ← (Flatten.region classify g r).run { kernel := k }
    return some s.kernel

/-- Flattens divergent regions until there are none and tells how many there were; at most `budget - 1`. -/
def flattenAll (classify : Classifier) (options : Options) : Nat → Kernel → Attempt (Kernel × Nat)
  | 0, _ => throw (.fault .endless)
  | budget + 1, k => do
    match ← k.flattenFirst? classify options with
    | none => return (k, 0)
    | some next =>
      let (done, count) ← flattenAll classify options budget next
      return (done, count + 1)

/-- Flattens all divergent regions and tells how many there were. Flattening adds no branches and no phis. If
it leaves as many of both as there were, the flow is the same as before, and the second time in a row
nothing changes any more. -/
def linearize (k : Kernel) (classify : Classifier) (options : Options) : Attempt (Kernel × Nat) :=
  flattenAll classify options (2 * (k.branchCount + k.phiCount) + 3) k

end Kernel

end Spmd
