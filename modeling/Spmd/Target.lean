import Spmd.Rejection
import Spmd.Text.Quoted

/-!
# Targets

What the machine offers that a vectorized kernel is compiled for.
-/

namespace Spmd

structure Target where
  name : String
  /-- Width of a vector register in bits. -/
  nativeBits : Nat
  registers : Nat
  /-- There are vectors whose length is only known at run time. -/
  scalable : Bool := false
  gatherScatter : Bool := false
  maskedMemory : Bool := true
  /-- The widest lane group of fixed size. -/
  maxFixedWidth : Nat := 64
deriving DecidableEq

namespace Target

def generic128 : Target := { name := "generic-128", nativeBits := 128, registers := 16 }

def generic256 : Target := { name := "generic-256", nativeBits := 256, registers := 16, gatherScatter := true }

def generic512 : Target := { name := "generic-512", nativeBits := 512, registers := 32, gatherScatter := true }

def genericScalable : Target :=
  { name := "generic-scalable", nativeBits := 128, registers := 32, scalable := true, gatherScatter := true }

/-- A target by its name. -/
def preset? : String → Option Target
  | "generic_128" => some generic128
  | "generic_256" => some generic256
  | "generic_512" => some generic512
  | "generic_scalable" => some genericScalable
  | _ => none

/-- How many elements fit into a register; at least one. -/
def nativeLanes (t : Target) (elem : ScalarTy) : Nat := max 1 (t.nativeBits / (elem.size * 8))

/-- What speaks against a lane group on this target. -/
def widthIssue? (t : Target) (g : LaneGroup) : Option WidthIssue :=
  if g.lanes = 0 then some .zero
  else if 1 <<< g.lanes.log2 ≠ g.lanes then some .notPowerOfTwo
  else if g.scalable && !t.scalable then some .notScalable
  else if !g.scalable && t.maxFixedWidth < g.lanes then some .tooWide
  else none

/-- Accepts a lane group that the target can work on. -/
def validate (t : Target) (g : LaneGroup) : Attempt Unit :=
  match t.widthIssue? g with
  | some issue => .reject (.width g issue)
  | none => pure ()

/-- All properties of the target on one line. -/
def debugText (t : Target) : String :=
  "TargetDescriptor \x7b name: " ++ Text.quoted t.name
    ++ ", native_vector_bits: " ++ toString t.nativeBits
    ++ ", vector_registers: " ++ toString t.registers
    ++ ", supports_scalable: " ++ toString t.scalable
    ++ ", supports_gather_scatter: " ++ toString t.gatherScatter
    ++ ", supports_masked_memory: " ++ toString t.maskedMemory
    ++ ", max_fixed_width: " ++ toString t.maxFixedWidth ++ ", .. \x7d"

end Target

end Spmd
