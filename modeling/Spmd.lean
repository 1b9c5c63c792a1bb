import Spmd.Exec.Literal
import Spmd.Kernel.Same
import Spmd.Proofs.Divergence.Lanes
import Spmd.Proofs.Linearize.Enclosed
import Spmd.Proofs.FlowGraph.Loops
import Spmd.Proofs.Interleave.Outcome
import Spmd.Proofs.Pointer.Distance
import Spmd.Proofs.Packet.Access
import Spmd.Proofs.LanePlan
import Spmd.Proofs.Liveness.Width
import Spmd.Proofs.Unused.Runs
import Spmd.Proofs.FlowGraph.Order
import Spmd.Proofs.Exec.Store
import Spmd.Proofs.Kernel.Uses
import Spmd.Proofs.Operator
import Spmd.Proofs.IndexSet
import Spmd.Proofs.Exec.Limit
import Spmd.Proofs.Vectorizer
