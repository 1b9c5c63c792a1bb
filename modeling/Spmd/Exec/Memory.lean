import Spmd.Exec.InTurn
import Spmd.Exec.Trap

/-!
# Memory

A flat store of bytes that only grows. The addresses below 64 are never given out, so that zero points to
nothing. A scalar is stored as the little-endian bytes of its bits.
-/

namespace Spmd

namespace Scalar

/-- The bits of a scalar as a number. -/
def bits : Scalar → Nat
  | bool b => if b then 1 else 0
  | i32 i => i.toUInt32.toNat
  | i64 i => i.toUInt64.toNat
  | f32 b => b.toNat
  | f64 b => b.toNat
  | ptr a => a.toNat

/-- The scalar of a type with these bits; what does not fit is cut off. -/
def ofBits (elem : ScalarTy) (n : Nat) : Scalar :=
  match elem with
  | .bool => bool (n.testBit 0)
  | .i32 => i32 (UInt32.ofNat n).toInt32
  | .i64 => i64 (UInt64.ofNat n).toInt64
  | .f32 => f32 (UInt32.ofNat n)
  | .f64 => f64 (UInt64.ofNat n)
  | .ptr => ptr (UInt64.ofNat n)

end Scalar

/-- The number that bytes spell, lowest byte first. -/
def natOfBytes : List UInt8 → Nat
  | [] => 0
  | b :: bs => b.toNat + 256 * natOfBytes bs

/-- The lowest `size` bytes of a number, lowest first. -/
def bytesOfNat (n : Nat) : Nat → List UInt8
  | 0 => []
  | size + 1 => UInt8.ofNat n :: bytesOfNat (n / 256) size

structure Memory where
  bytes : Array UInt8

namespace Memory

/-- The lowest address that is ever given out. -/
def base : Nat := 64

/-- Memory with nothing allocated. -/
def empty : Memory := ⟨Array.replicate base 0⟩

instance : Inhabited Memory := ⟨empty⟩

def size (m : Memory) : Nat := m.bytes.size

/-- Allocates zeroed bytes at a multiple of `align`. Faults if the memory would outgrow a signed 64-bit
size. -/
def alloc (m : Memory) (size align : Nat) : Checked (Memory × Nat) := do
  let align := max align 1
  let address ← Checked.word64 ((m.size + align - 1) / align * align)
  let top ← Checked.word64 (address + size)
  if 0x8000000000000000 ≤ top then throw .overflow
  return (⟨m.bytes ++ Array.replicate (top - m.size) 0⟩, address)

/-- Whether `size` bytes from `address` on are allocated. -/
def covers (m : Memory) (address size : Nat) : Bool := base ≤ address && address + size ≤ m.size

/-- The bytes from `address` on. -/
def bytesAt (m : Memory) (address size : Nat) : List UInt8 :=
  (List.range size).map fun i => m.bytes.getD (address + i) 0

def setBytes (m : Memory) (address : Nat) : List UInt8 → Memory
  | [] => m
  | b :: bs => setBytes ⟨m.bytes.setIfInBounds address b⟩ (address + 1) bs

/-- Accepts an access that stays within allocated memory. -/
def check (m : Memory) (address size : Nat) : Except Trap Unit :=
  if m.covers address size then pure () else throw (.outOfBounds address size)

def read (m : Memory) (address : Nat) (elem : ScalarTy) : Except Trap Scalar := do
  m.check address elem.size
  return .ofBits elem (natOfBytes (m.bytesAt address elem.size))

/-- Stores the bytes of a scalar. -/
def put (m : Memory) (address : Nat) (s : Scalar) : Memory := m.setBytes address (bytesOfNat s.bits s.ty.size)

/-- The scalar that a write may store. A vector cannot be written as a whole. -/
def writable (m : Memory) (address : Nat) : Val → Except Trap Scalar
  | .scalar s => do
    m.check address s.ty.size
    return s
  | .vector _ => throw (.outOfBounds address 0)

def write (m : Memory) (address : Nat) (v : Val) : Except Trap Memory :=
  return m.put address (← m.writable address v)

/-- Allocates room for scalars of one type and stores them one after another. -/
def allocArray (m : Memory) (elem : ScalarTy) (xs : List Scalar) : Checked (Memory × Nat) := do
  let (m, address) ← m.alloc (elem.size * xs.length) 16
  return (m.setBytes address (xs.flatMap fun s => bytesOfNat s.bits elem.size), address)

/-- Reads scalars of one type that stand one after another. -/
def readArray (m : Memory) (address : Nat) (elem : ScalarTy) (count : Nat) : Except Trap (List Scalar) :=
  inTurn count fun i => m.read (address + i * elem.size) elem

end Memory

end Spmd
