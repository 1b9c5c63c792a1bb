import Spmd.Callee
import Spmd.Kernel.Cursor
import Spmd.Pointer.Address
import Spmd.Pointer.Root

/-!
# Merging interleaved accesses

Accesses to every `s`-th element that start at `s` consecutive elements cover a whole stretch of memory
together. They become one access to the whole stretch and a shuffle. Loads move up to the first of them and
stores down to the last, so nothing in between may touch the same memory in a conflicting way.
-/

namespace Spmd

/-- An access to every `stride`-th element without a mask. -/
structure StridedAccess where
  inst : InstId
  /-- The position in its block. -/
  position : Nat
  ptr : ValueId
  elem : ScalarTy
  stride : Int
  lanes : Nat
  isStore : Bool
deriving DecidableEq

namespace StridedAccess

/-- Whether two accesses are of one kind. -/
def sameKind (a b : StridedAccess) : Bool :=
  a.isStore = b.isStore && a.elem = b.elem && a.stride = b.stride && a.lanes = b.lanes

/-- Splits accesses by kind, in the order in which the kinds first occur. -/
def buckets (as : List StridedAccess) : List (List StridedAccess) :=
  (as.map fun a => as.filter a.sameKind).eraseDups

end StridedAccess

/-- Accesses that together cover a whole stretch, by offset in elements. -/
structure InterleaveGroup where
  kind : StridedAccess
  members : List (StridedAccess × Nat)

namespace InterleaveGroup

/-- The member that comes first in the block. -/
def first (g : InterleaveGroup) : StridedAccess × Nat :=
  g.members.foldl (fun m n => if n.1.position < m.1.position then n else m) (g.members.headD (g.kind, 0))

/-- The member that comes last in the block. -/
def last (g : InterleaveGroup) : StridedAccess × Nat :=
  g.members.foldl (fun m n => if m.1.position < n.1.position then n else m) (g.members.headD (g.kind, 0))

def holds (g : InterleaveGroup) (i : InstId) : Bool := g.members.any (·.1.inst = i)

end InterleaveGroup

namespace Kernel

/-- The strided access that an instruction makes. -/
def stridedAccess? (k : Kernel) (position : Nat) (i : InstId) : Checked (Option StridedAccess) := do
  let make (ptr : ValueId) (stride : Int64) (isStore : Bool) (ty : Ty) : Option StridedAccess :=
    match ty with
    | .vector ⟨elem, lanes, false⟩ =>
      if 2 ≤ stride then some ⟨i, position, ptr, elem, stride.toInt, lanes, isStore⟩ else none
    | _ => none
  match (← k.inst i).instr with
  | .strideLoad ptr stride none => return make ptr stride false (k.resultTy i)
  | .strideStore ptr value stride none => return make ptr stride true (← k.valueTy value)
  | _ => return none

def stridedAccesses (k : Kernel) (b : BlockId) : Checked (List StridedAccess) :=
  (k.instsOf b).zipIdx.filterMapM fun (i, position) => k.stridedAccess? position i

/-- The offset of an access from another in elements, if it is a constant smaller than the stride. -/
def offsetFrom? (k : Kernel) (anchor a : StridedAccess) : Checked (Option (StridedAccess × Int)) := do
  match ← k.distance? anchor.ptr a.ptr with
  | none => return none
  | some bytes =>
    if bytes % a.elem.size ≠ 0 then return none
    let offset := bytes / a.elem.size
    -- the least integer has no absolute value
    let _ ← Checked.some? .overflow (signed64? (-offset))
    return if offset.natAbs < anchor.stride then some (a, offset) else none

/-- The accesses of a bucket around an anchor, if they cover a whole stretch. -/
def cluster? (k : Kernel) (bucket : List StridedAccess) (anchor : StridedAccess) : Checked (Option InterleaveGroup) := do
  let near ← bucket.filterMapM (k.offsetFrom? anchor)
  match (near.map (·.2)).min? with
  | none => return none
  | some least =>
    let shifted := near.map fun (a, offset) => (a, (offset - least).toNat)
    let within := shifted.filter fun (_, n) => (n : Int) < anchor.stride
    let sorted := within.mergeSort fun m n => m.2 < n.2 || m.2 = n.2 && m.1.position ≤ n.1.position
    return if sorted.length = anchor.stride ∧ sorted.map (·.2) = List.range sorted.length then some ⟨anchor, sorted⟩
      else none

/-- Whether an instruction lets the accesses of a group move past it. -/
def letsPass (k : Kernel) (classify : Classifier) (isStore : Bool) (root : MemRoot) (i : InstId) : Checked Bool := do
  match (← k.inst i).instr with
  | .call .. => return (← k.callKind? classify i).any CallKind.isRemovable
  | instr =>
    if instr.mayWrite || isStore && instr.mayRead then
      return !k.rootsMayAlias ((← k.accessRoot? i).getD .unknown) root
    else return true

/-- Whether the accesses of a group can be made at one place. -/
def canMerge (k : Kernel) (classify : Classifier) (b : BlockId) (g : InterleaveGroup) : Checked Bool := do
  let first := g.first.1
  let root ← k.memoryRoot first.ptr
  let span := ((k.instsOf b).drop first.position).take (g.last.1.position - first.position + 1)
  (span.filter fun i => !g.holds i).allM (k.letsPass classify g.kind.isStore root)

/-- The first group of a block that can be merged. -/
def findGroup? (k : Kernel) (classify : Classifier) (b : BlockId) : Checked (Option InterleaveGroup) := do
  let accesses ← k.stridedAccesses b
  let anchors := (StridedAccess.buckets accesses).flatMap fun bucket => bucket.map (bucket, ·)
  let complete := anchors.filter fun (bucket, a) => a.stride ≤ bucket.length
  complete.findSomeM? fun (bucket, anchor) => do
    match ← k.cluster? bucket anchor with
    | none => return none
    | some g => return if ← k.canMerge classify b g then some g else none

/-- The start of the stretch, from the address of a member. -/
def stretchStart (elem : ScalarTy) (ptr : ValueId) (offset : Nat) : Build ValueId := do
  if offset = 0 then return ptr
  Build.elementPtr ptr (← Build.constInt .i64 (Int64.ofInt (-offset))) elem

/-- Replaces a load of the group by a shuffle of the whole stretch. -/
def splitLoad (g : InterleaveGroup) (wide : ValueId) (k : Kernel) (m : StridedAccess × Nat) : Checked Kernel := do
  let stride := g.kind.stride.toNat
  let picks := (List.range g.kind.lanes).map fun lane => lane * stride + m.2
  let (part, c) ← k.build (.before m.1.inst) (Build.shuffle [wide] picks)
  let k := match c.kernel.result? m.1.inst with
    | some old => c.kernel.replaceUses old part
    | none => c.kernel
  k.removeInst m.1.inst

def mergeLoads (k : Kernel) (g : InterleaveGroup) : Checked Kernel := do
  let (first, offset) := g.first
  let count ← Checked.word32 (g.kind.stride.toNat * g.kind.lanes)
  let (wide, c) ← k.build (.before first.inst) do
    let start ← stretchStart g.kind.elem first.ptr offset
    Build.load (.fixedVector g.kind.elem count) start none g.kind.elem.size
  g.members.foldlM (splitLoad g wide) c.kernel

/-- The value that an access stores. -/
def storedValue? (k : Kernel) (a : StridedAccess) : Option ValueId :=
  match k.instr? a.inst with
  | some (.strideStore _ value _ _) => some value
  | _ => none

def mergeStores (k : Kernel) (g : InterleaveGroup) : Checked Kernel := do
  let (last, offset) := g.last
  let stride := g.kind.stride.toNat
  let lanes := g.kind.lanes
  let values := g.members.filterMap fun m => k.storedValue? m.1
  let count ← Checked.word32 (stride * lanes)
  let ((), c) ← k.build (.before last.inst) do
    let start ← stretchStart g.kind.elem last.ptr offset
    let wide ← Build.shuffle values ((List.range count).map fun n => n % stride * lanes + n / stride)
    discard <| Build.store start wide none g.kind.elem.size
  g.members.foldlM (fun k m => k.removeInst m.1.inst) c.kernel

/-- How many strided accesses a block has. -/
def strideCount (k : Kernel) (b : BlockId) : Nat :=
  (k.instsOf b).countP fun i =>
    match k.instr? i with
    | some (.strideLoad ..) | some (.strideStore ..) => true
    | _ => false

/-- Merges groups of a block until there are none and tells how many there were; at most `budget - 1`. -/
def combineGroups (classify : Classifier) (b : BlockId) : Nat → Kernel → Checked (Kernel × Nat)
  | 0, _ => throw .endless
  | budget + 1, k => do
    match ← k.findGroup? classify b with
    | none => return (k, 0)
    | some g =>
      let next ← if g.kind.isStore then k.mergeStores g else k.mergeLoads g
      let (done, count) ← combineGroups classify b budget next
      return (done, count + 1)

/-- Merges the groups of a block and tells how many there were. A merge that takes no access out of the block
can happen once for every access there is, since a merged store keeps its group from being merged again. -/
def combineBlock (k : Kernel) (classify : Classifier) (b : BlockId) : Checked (Kernel × Nat) :=
  let accesses := k.strideCount b + 1
  combineGroups classify b (accesses * accesses + 1) k

/-- Merges all groups of interleaved accesses and tells how many there were. -/
def combineInterleaved (k : Kernel) (classify : Classifier) : Checked (Kernel × Nat) :=
  k.layout.foldlM
    (fun (k, count) b => do
      let (k, n) ← k.combineBlock classify b
      return (k, count + n)) (k, 0)

end Kernel

end Spmd
