/-!
# Options

What a vectorizer is asked to do and to leave alone.
-/

namespace Spmd

structure Options where
  /-- The dimension of the work range that is spread over lanes. -/
  dimension : Nat := 0
  /-- Access memory through one address per lane where the target can. -/
  gatherScatter : Bool := true
  /-- Merge strided accesses that together cover whole stretches of memory. -/
  combineInterleaved : Bool := true
  /-- Turn divergent branches into masks; otherwise they are rejected. -/
  linearize : Bool := true
  /-- Check that the result is well-formed. -/
  verifyOutput : Bool := true
  /-- The most lanes for which scalar copies are made. -/
  maxInstances : Nat := 64
  /-- Take calls about which nothing is known for ones that make lanes wait. -/
  unknownCallsConvergent : Bool := false
deriving DecidableEq, Repr

namespace Options

/-- No reordering of memory accesses, and unknown calls may make lanes wait. -/
def conservative : Options :=
  { gatherScatter := false, combineInterleaved := false, maxInstances := 16, unknownCallsConvergent := true }

/-- As much vectorization as possible. -/
def aggressive : Options := { maxInstances := 256, verifyOutput := false }

/-- Options by name. -/
def preset? : String → Option Options
  | "conservative" => some conservative
  | "aggressive" => some aggressive
  | _ => none

/-- All options on one line. -/
def debugText (o : Options) : String :=
  "VectorizeConfig \x7b dimension: " ++ toString o.dimension
    ++ ", enable_gather_scatter: " ++ toString o.gatherScatter
    ++ ", enable_interleaved_combine: " ++ toString o.combineInterleaved
    ++ ", enable_linearization: " ++ toString o.linearize
    ++ ", verify_output: " ++ toString o.verifyOutput
    ++ ", max_instantiation_width: " ++ toString o.maxInstances
    ++ ", assume_unknown_calls_convergent: " ++ toString o.unknownCallsConvergent ++ " \x7d"

end Options

end Spmd
