import Spmd.Kernel.Basic

/-!
# Editing kernels

Everything that changes a kernel goes through these operations. New values, instructions and blocks get
fresh ids. An instruction in a block's list is linked to that block and not dead, and an instruction that
left its block's list is dead; every operation here keeps that.
-/

namespace Spmd.Kernel

/-! ## Values -/

def addValue (k : Kernel) (kind : ValueKind) (ty : Ty) : Kernel × ValueId :=
  let (values, id) := k.values.alloc ⟨kind, ty⟩
  ({ k with values }, id)

def addParam (k : Kernel) (name : String) (ty : Ty) (attrs : ParamAttrs) : Kernel × ValueId :=
  let (k, value) := k.addValue (.param k.params.length) ty
  ({ k with params := k.params ++ [⟨name, ty, attrs, value⟩] }, value)

def addConst (k : Kernel) (ty : Ty) (c : Constant) : Kernel × ValueId := k.addValue (.const c) ty

def addUndef (k : Kernel) (ty : Ty) : Kernel × ValueId := k.addValue .undef ty

/-! ## Blocks and instructions -/

/-- Adds an empty block at the end of the layout. -/
def addBlock (k : Kernel) (name : String) : Kernel × BlockId :=
  let (blocks, id) := k.blocks.alloc ⟨name, []⟩
  ({ k with blocks, layout := k.layout ++ [id] }, id)

def modifyInst (k : Kernel) (i : InstId) (f : InstDef → InstDef) : Kernel :=
  { k with insts := k.insts.modify i f }

def modifyBlock (k : Kernel) (b : BlockId) (f : Block → Block) : Kernel :=
  { k with blocks := k.blocks.modify b f }

/-- Replaces what an instruction does and leaves its result and place alone. -/
def setInstr (k : Kernel) (i : InstId) (instr : Instr) : Kernel :=
  k.modifyInst i fun d => { d with instr }

/-- Changes an instruction that has to be there. -/
def editInst (k : Kernel) (i : InstId) (f : InstDef → InstDef) : Checked Kernel := do
  let _ ← k.inst i
  return k.modifyInst i f

/-- Adds an input to the phi that defines a value; any other value is left alone. -/
def addIncoming (k : Kernel) (v : ValueId) (b : BlockId) (input : ValueId) : Checked Kernel := do
  match ← k.def? v with
  | none => return k
  | some i => k.editInst i fun d =>
    match d.instr with
    | .phi incoming => { d with instr := .phi (incoming ++ [(b, input)]) }
    | _ => d

/-- Makes an instruction at a position of a block. A result type other than void gives it a new value. -/
def insertInst (k : Kernel) (b : BlockId) (index : Nat) (instr : Instr) (ty : Ty) : Checked (Kernel × InstId) := do
  let insts := (← k.block b).insts
  if index > insts.length then throw .outOfRange
  let id := k.insts.nextId
  let (k, result) :=
    if ty.isVoid then (k, none)
    else
      let (k, v) := k.addValue (.inst id) ty
      (k, some v)
  let k := { k with insts := (k.insts.alloc ⟨instr, result, b, false⟩).1 }
  return (k.modifyBlock b fun blk => { blk with insts := blk.insts.insertIdx index id }, id)

/-- Takes an instruction out of its block and marks it dead. -/
def removeInst (k : Kernel) (i : InstId) : Checked Kernel := do
  let d ← k.inst i
  if d.dead then return k
  let _ ← k.block d.block
  let k := k.modifyBlock d.block fun blk => { blk with insts := blk.insts.filter (· ≠ i) }
  return k.modifyInst i fun d => { d with dead := true }

/-- Replaces a value by another in every linked instruction. -/
def replaceUses (k : Kernel) (old new : ValueId) : Kernel :=
  k.instsInOrder.foldl (fun k i => k.modifyInst i fun d => { d with instr := d.instr.replaceOperand old new }) k

/-- Removes a block and all of its instructions. -/
def removeBlock (k : Kernel) (b : BlockId) : Checked Kernel := do
  let insts := (← k.block b).insts
  let k := insts.foldl (fun k i => k.modifyInst i fun d => { d with dead := true }) k
  let k := k.modifyBlock b fun blk => { blk with insts := [] }
  return { k with layout := k.layout.filter (· ≠ b) }

/-- Drops the inputs of a phi that come from blocks outside of `keep`. -/
def dropIncoming (keep : List BlockId) : Instr → Instr
  | .phi incoming => .phi (incoming.filter fun (b, _) => keep.contains b)
  | i => i

end Spmd.Kernel
