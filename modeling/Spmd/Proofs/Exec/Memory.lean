import Mathlib.Tactic.Common
import Spmd.Exec.Memory
import Spmd.Proofs.Success

/-!
# Memory byte by byte

`Memory.byte?` is the view under which the operations are simple: a write changes the bytes it covers and
no others, a read depends on the bytes it covers and on the size, and allocating adds zeroed bytes behind
the old ones. A scalar stands at an address if its bytes do (`Memory.Holds`).
-/

namespace Spmd.Memory

open Success List

variable {m n : Memory} {a b size : Nat} {s : Scalar} {elem : ScalarTy} {align p : Nat} {m' : Memory}

/-- The byte at an address; none past the end. -/
def byte? (m : Memory) (a : Nat) : Option UInt8 := m.bytes[a]?

theorem ext_byte? (h : ∀ a, m.byte? a = n.byte? a) : m = n := congrArg Memory.mk (Array.ext_getElem? h)

theorem covers_iff : m.covers a size = true ↔ base ≤ a ∧ a + size ≤ m.size := by
  rw [covers, Bool.and_eq_true, decide_eq_true_iff, decide_eq_true_iff]

theorem covers_congr (hsize : m.size ≤ n.size) (h : m.covers a size = true) : n.covers a size = true := by
  rw [covers_iff] at h ⊢
  omega

theorem check_eq_ok : m.check a size = .ok () ↔ m.covers a size = true := by
  rw [check]
  split
  next h =>
    exact ⟨fun _ => h, fun _ => rfl⟩
  next h =>
    exact ⟨fun h' => absurd h' throw_ne_ok, fun h' => absurd h' h⟩

/-! ## Writing -/

@[simp] theorem size_setBytes (m : Memory) (a : Nat) (bs : List UInt8) : (m.setBytes a bs).size = m.size := by
  induction bs generalizing m a with
  | nil => rfl
  | cons b bs ih =>
    rw [setBytes, ih]
    exact Array.size_setIfInBounds

theorem byte?_setBytes (m : Memory) (a : Nat) (bs : List UInt8) (c : Nat) :
    (m.setBytes a bs).byte? c =
      if a ≤ c ∧ c < a + bs.length ∧ c < m.size then bs[c - a]? else m.byte? c := by
  induction bs generalizing m a with
  | nil => rw [setBytes, if_neg (by simp only [length_nil]; omega)]
  | cons b bs ih =>
    rw [setBytes, ih]
    have hsize : size ⟨m.bytes.setIfInBounds a b⟩ = m.size := Array.size_setIfInBounds
    have hbyte : byte? ⟨m.bytes.setIfInBounds a b⟩ c = if a = c ∧ c < m.size then some b else m.byte? c := by
      simp only [byte?, Array.getElem?_setIfInBounds, Memory.size]
      by_cases hac : a = c
      · subst hac
        by_cases hlt : a < m.bytes.size
        · simp [hlt]
        · simp [hlt]
      · simp [hac]
    rw [hsize, hbyte, length_cons]
    -- the byte is the first of the list, a later one, or not among them
    rcases Nat.lt_trichotomy c a with hlt | rfl | hgt
    · rw [if_neg (by omega), if_neg (by omega), if_neg (by omega)]
    · rw [if_neg (by omega), Nat.sub_self, getElem?_cons_zero]
      by_cases hc : c < m.size
      · rw [if_pos ⟨rfl, hc⟩, if_pos ⟨Nat.le_refl c, by omega, hc⟩]
      · rw [if_neg (by omega), if_neg (by omega)]
    · have hsub : c - a = (c - (a + 1)) + 1 := by omega
      rw [if_neg (show ¬(a = c ∧ c < m.size) by omega), hsub, getElem?_cons_succ]
      by_cases hc : a + 1 ≤ c ∧ c < a + 1 + bs.length ∧ c < m.size
      · rw [if_pos hc, if_pos (by omega)]
      · rw [if_neg hc, if_neg (by omega)]

theorem length_bytesOfNat (n size : Nat) : (bytesOfNat n size).length = size := by
  induction size generalizing n with
  | zero => rfl
  | succ size ih => rw [bytesOfNat, length_cons, ih]

@[simp] theorem size_put (m : Memory) (a : Nat) (s : Scalar) : (m.put a s).size = m.size := size_setBytes ..

/-- A write changes the bytes it covers and no others. -/
theorem byte?_put (m : Memory) (a : Nat) (s : Scalar) (c : Nat) :
    (m.put a s).byte? c =
      if a ≤ c ∧ c < a + s.ty.size ∧ c < m.size then (bytesOfNat s.bits s.ty.size)[c - a]? else m.byte? c := by
  rw [put, byte?_setBytes, length_bytesOfNat]

theorem byte?_put_of_not_covered (h : ¬(a ≤ b ∧ b < a + s.ty.size)) : (m.put a s).byte? b = m.byte? b := by
  rw [byte?_put, if_neg (by tauto)]

/-- The same write keeps two bytes equal, and makes them equal where it covers them. -/
theorem byte?_put_congr (hsize : m.size = n.size) (h : m.byte? b = n.byte? b) :
    (m.put a s).byte? b = (n.put a s).byte? b := by
  rw [byte?_put, byte?_put, hsize, h]

theorem writable_eq_ok {v : Val} : m.writable a v = .ok s ↔ v = .scalar s ∧ m.covers a s.ty.size = true := by
  cases v with
  | vector lanes =>
    rw [writable]
    exact ⟨fun h => absurd h throw_ne_ok, fun h => by cases h.1⟩
  | scalar t =>
    rw [writable, bind_eq_ok, Val.scalar.injEq]
    constructor
    · rintro ⟨_, hcheck, h⟩
      obtain rfl := pure_eq_ok.mp h
      exact ⟨rfl, check_eq_ok.mp hcheck⟩
    · rintro ⟨rfl, hcovers⟩
      exact ⟨(), check_eq_ok.mpr hcovers, rfl⟩

/-- The scalar stands at the address. -/
def Holds (m : Memory) (a : Nat) (s : Scalar) : Prop :=
  m.covers a s.ty.size = true ∧ ∀ i < s.ty.size, m.byte? (a + i) = (bytesOfNat s.bits s.ty.size)[i]?

theorem holds_put (h : m.covers a s.ty.size = true) : (m.put a s).Holds a s := by
  refine ⟨covers_congr (Nat.le_of_eq (size_put ..).symm) h, fun i hi => ?_⟩
  have := (covers_iff.mp h).2
  rw [byte?_put, if_pos (by omega), Nat.add_sub_cancel_left]

/-- What stands at an address still does as long as its bytes are kept. -/
theorem Holds.of_bytes (h : m.Holds a s) (hsize : m.size ≤ n.size)
    (hbytes : ∀ b, a ≤ b → b < a + s.ty.size → n.byte? b = m.byte? b) : n.Holds a s :=
  ⟨covers_congr hsize h.1, fun i hi => (hbytes (a + i) (by omega) (by omega)).trans (h.2 i hi)⟩

/-! ## Reading -/

theorem bytesAt_congr (h : ∀ c, a ≤ c → c < a + size → m.byte? c = n.byte? c) :
    m.bytesAt a size = n.bytesAt a size := by
  rw [bytesAt, bytesAt]
  refine map_congr_left fun i hi => ?_
  rw [Array.getD_eq_getD_getElem?, Array.getD_eq_getD_getElem?]
  exact congrArg (·.getD 0) (h (a + i) (by omega) (by have := mem_range.mp hi; omega))

/-- What the bytes at an address spell. -/
def peek (m : Memory) (a : Nat) (elem : ScalarTy) : Scalar := .ofBits elem (natOfBytes (m.bytesAt a elem.size))

theorem read_eq_ok_iff : m.read a elem = .ok s ↔ m.covers a elem.size = true ∧ s = m.peek a elem := by
  rw [read, bind_eq_ok]
  constructor
  · rintro ⟨_, hcheck, h⟩
    exact ⟨check_eq_ok.mp hcheck, (pure_eq_ok.mp h).symm⟩
  · rintro ⟨hcovers, rfl⟩
    exact ⟨(), check_eq_ok.mpr hcovers, rfl⟩

/-- A read depends on the bytes it covers. -/
theorem read_congr (hsize : m.size = n.size) (h : ∀ c, a ≤ c → c < a + elem.size → m.byte? c = n.byte? c) :
    m.read a elem = n.read a elem := by
  have hcheck : m.check a elem.size = n.check a elem.size := by
    rw [check, check, covers, covers, hsize]
  rw [read, read, hcheck, bytesAt_congr h]

/-! ## Allocating -/

/-- The address that is given out, and zeroed bytes up to the end of what lies there. -/
theorem alloc_eq_ok (h : m.alloc size align = .ok (m', p)) :
    p = (m.size + max align 1 - 1) / max align 1 * max align 1 ∧
      m' = ⟨m.bytes ++ Array.replicate (p + size - m.size) 0⟩ := by
  have hword : ∀ {x y : Nat}, Checked.word64 x = .ok y → x = y := by
    intro x y hxy
    rw [Checked.word64] at hxy
    split at hxy
    · exact Except.ok.inj hxy
    · exact absurd hxy throw_ne_ok
  obtain ⟨address, haddress, h⟩ := bind_eq_ok.mp h
  obtain rfl := hword haddress
  obtain ⟨top, htop, h⟩ := bind_eq_ok.mp h
  obtain rfl := hword htop
  split at h
  · exact absurd h throw_ne_ok
  · cases pure_eq_ok.mp h
    exact ⟨rfl, rfl⟩

/-- Memories of one size give out the same address and grow alike, by zeroed bytes. -/
theorem alloc_congr (hsize : m.size = n.size) {n' : Memory} {q : Nat} (hm : m.alloc size align = .ok (m', p))
    (hn : n.alloc size align = .ok (n', q)) :
    p = q ∧ m'.size = n'.size ∧ ∀ c, m.byte? c = n.byte? c → m'.byte? c = n'.byte? c := by
  obtain ⟨hp, rfl⟩ := alloc_eq_ok hm
  obtain ⟨hq, rfl⟩ := alloc_eq_ok hn
  have hpq : p = q := by rw [hp, hq, hsize]
  have hbytes : m.bytes.size = n.bytes.size := hsize
  refine ⟨hpq, ?_, fun c hc => ?_⟩
  · simp [Memory.size, hbytes, hpq]
  · simp only [byte?, Array.getElem?_append] at hc ⊢
    rw [hbytes, hsize, hpq]
    split
    · exact hc
    · rfl

/-- Allocating keeps the bytes there are. -/
theorem alloc_keeps (h : m.alloc size align = .ok (m', p)) :
    m.size ≤ m'.size ∧ ∀ c, c < m.size → m'.byte? c = m.byte? c := by
  obtain ⟨_, rfl⟩ := alloc_eq_ok h
  refine ⟨?_, fun c hc => ?_⟩
  · simp [Memory.size]
  · exact Array.getElem?_append_left hc

end Spmd.Memory
