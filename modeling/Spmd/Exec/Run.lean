import Spmd.Exec.Machine

/-!
# Runs

A run goes from state to state, one instruction that is not a phi at a time. Entering a block gives all the
phis it starts with their values at once, from the block that control came from. The number of steps is
bounded from the start, so every run ends.
-/

namespace Spmd

/-- Where a run stands. -/
structure RunState where
  block : BlockId
  /-- The block that control came from. -/
  prev : Option BlockId
  frame : Frame
  /-- What is left to do in the block. -/
  todo : List InstId

/-- What one step leads to. -/
inductive Progress where
  | next (s : RunState)
  | done (result : Option Val)

namespace Machine

variable {σ : Type}

/-- What a phi becomes when control comes from `prev`: zero if it has no input for that block. -/
def phiValue (m : Machine) (f : Frame) (prev : Option BlockId) (i : InstId) : Checked Val := do
  match (← m.kernel.inst i).instr with
  | .phi incoming =>
    match incoming.find? fun (b, _) => some b == prev with
    | some (_, v) => m.read f v
    | none => m.zeroOf (m.kernel.resultTy i)
  | _ => m.zeroOf (m.kernel.resultTy i)

/-- Gives phis their values, all from the frame before. -/
def enterPhis (m : Machine) (f : Frame) (prev : Option BlockId) (phis : List InstId) : Checked Frame := do
  let values ← phis.mapM (m.phiValue f prev)
  return (phis.zip values).foldl
    (fun f (i, x) => match m.kernel.result? i with
      | some v => f.define v x
      | none => f) f

/-- The state at the start of a block. A block with nothing to do would be entered for ever. -/
def enter (m : Machine) (f : Frame) (b : BlockId) (prev : Option BlockId) : Checked RunState := do
  let insts := (← m.kernel.block b).insts
  let frame ← m.enterPhis f prev (m.kernel.leadingPhis b)
  match insts.filter fun i => !m.kernel.isPhi i with
  | [] => throw .endless
  | todo => return ⟨b, prev, frame, todo⟩

/-- One step. A block that does not end with a terminator starts over. -/
def step (m : Machine) (env : Environment σ) (s : RunState) : Exec σ Progress := do
  match s.todo with
  | [] => throw (.fault .endless)
  | i :: rest =>
    match (← m.kernel.inst i).instr with
    | .br target => .next <$> m.enter s.frame target (some s.block)
    | .condBr cond thenBlock elseBlock =>
      let c ← m.read s.frame cond
      .next <$> m.enter s.frame (if c.isTrue then thenBlock else elseBlock) (some s.block)
    | .switch value cases default =>
      let x := (← m.read s.frame value).toInt64
      let target := ((cases.find? fun (c, _) => c == x).map (·.2)).getD default
      .next <$> m.enter s.frame target (some s.block)
    | .ret none => return .done none
    | .ret (some v) => return .done (some (← m.read s.frame v))
    | .unreachable => throw (.unreachable i)
    | instr =>
      let x ← m.eval env s.frame i instr
      let frame := match m.kernel.result? i, x with
        | some v, some x => s.frame.define v x
        | _, _ => s.frame
      match rest with
      | [] => .next <$> m.enter frame s.block s.prev
      | _ => return .next { s with frame, todo := rest }

/-- Goes on for at most `budget` steps; `limit` is the bound that the run began with. -/
def advance (m : Machine) (env : Environment σ) (limit : Nat) : Nat → RunState → Exec σ (Option Val)
  | 0, _ => throw (.stepLimit limit)
  | budget + 1, s => do
    match ← m.step env s with
    | .next s => m.advance env limit budget s
    | .done result => return result

/-- How many steps a run may take unless said otherwise. -/
def defaultLimit : Nat := 1000000

/-- Runs the kernel from its entry. A kernel without blocks returns nothing. -/
def run (m : Machine) (env : Environment σ) (args : List Val) (limit : Nat) :
    Exec σ (Option Val) := do
  if args.length ≠ m.kernel.params.length then
    throw (.argumentCount m.kernel.params.length args.length)
  match m.kernel.entry? with
  | none => return none
  | some entry => m.advance env limit limit (← m.enter { args } entry none)

end Machine

end Spmd
