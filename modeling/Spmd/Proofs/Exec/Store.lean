import Spmd.Proofs.Exec.Action

/-!
# Memory as a store

A memory is used by a sequence of requests: to allocate, to allocate and fill, to write. What holds after any such
sequence (**`Memory.store_of_serveAll`**) rests on one invariant, that the places given out lie one behind another and
within the memory (`Memory.Laid`). Each request keeps it (`Memory.Laid.serve`). A scalar is read back as it was written
because its bits fit into its bytes (`Memory.Holds.peek`).
-/

namespace Spmd

open List

/-! ## Bits and bytes -/

theorem natOfBytes_bytesOfNat {n size : Nat} (h : n < Nat.pow 256 size) : natOfBytes (bytesOfNat n size) = n := by
  induction size generalizing n with
  | zero => exact (Nat.lt_one_iff.mp h).symm
  | succ size ih =>
    have hrest : n / 256 < Nat.pow 256 size := Nat.div_lt_of_lt_mul (Nat.mul_comm .. ▸ h)
    rw [bytesOfNat, natOfBytes, ih hrest, UInt8.toNat_ofNat', Nat.mod_add_div]

namespace Scalar

theorem bits_lt (s : Scalar) : s.bits < Nat.pow 256 s.ty.size := by
  cases s with
  | bool b => cases b <;> decide
  | i32 i => exact i.toUInt32.toNat_lt
  | i64 i => exact i.toUInt64.toNat_lt
  | f32 b => exact b.toNat_lt
  | f64 b => exact b.toNat_lt
  | ptr a => exact a.toNat_lt

theorem ofBits_bits (s : Scalar) : ofBits s.ty s.bits = s := by
  cases s with
  | bool b => cases b <;> rfl
  | i32 i => simp [ofBits, bits, ty]
  | i64 i => simp [ofBits, bits, ty]
  | f32 b => simp [ofBits, bits, ty]
  | f64 b => simp [ofBits, bits, ty]
  | ptr a => simp [ofBits, bits, ty]

end Scalar

namespace Memory

open Success

variable {m m' : Memory} {a p size align : Nat} {s : Scalar} {elem : ScalarTy} {xs : List Scalar}

/-- A scalar that stands at an address is what the bytes there spell. -/
theorem Holds.peek (h : m.Holds a s) : m.peek a s.ty = s := by
  have hbytes : m.bytesAt a s.ty.size = bytesOfNat s.bits s.ty.size := by
    refine ext_getElem? fun i => ?_
    by_cases hi : i < s.ty.size
    · have hbyte := h.2 i hi
      have hlt : i < (bytesOfNat s.bits s.ty.size).length := by rwa [length_bytesOfNat]
      rw [getElem?_eq_getElem hlt] at hbyte
      rw [bytesAt, getElem?_map, getElem?_range hi, Option.map_some, Array.getD_eq_getD_getElem?,
        getElem?_eq_getElem hlt]
      exact congrArg some (congrArg (·.getD 0) hbyte)
    · rw [getElem?_eq_none (by simpa [bytesAt] using hi), getElem?_eq_none (by simpa [length_bytesOfNat] using hi)]
  rw [Memory.peek, hbytes, natOfBytes_bytesOfNat s.bits_lt, s.ofBits_bits]

theorem Holds.read (h : m.Holds a s) : m.read a s.ty = .ok s := read_eq_ok_iff.mpr ⟨h.1, h.peek.symm⟩

/-! ## One request -/

/-- What is allocated lies behind all there was, at a multiple of the alignment, and holds zeros. -/
theorem place_of_alloc (h : m.alloc size align = .ok (m', p)) :
    max align 1 ∣ p ∧ m.size ≤ p ∧ m'.size = p + size ∧ ∀ c, m.size ≤ c → c < m'.size → m'.byte? c = some 0 := by
  obtain ⟨hp, rfl⟩ := alloc_eq_ok h
  have hbehind : m.size ≤ p := by
    have hdiv := Nat.div_add_mod (m.size + max align 1 - 1) (max align 1)
    have hmod := Nat.mod_lt (m.size + max align 1 - 1) (show 0 < max align 1 by omega)
    rw [Nat.mul_comm] at hdiv
    omega
  have hsize : Memory.size ⟨m.bytes ++ Array.replicate (p + size - m.size) 0⟩ = p + size := by
    have : m.bytes.size ≤ p := hbehind
    simp only [Memory.size, Array.size_append, Array.size_replicate]
    omega
  refine ⟨hp ▸ Nat.dvd_mul_left .., hbehind, hsize, fun c hle hlt => ?_⟩
  have hrest : c - m.bytes.size < p + size - m.size := Nat.sub_lt_sub_right hle (hsize ▸ hlt)
  rw [byte?, Array.getElem?_append_right hle]
  exact Array.getElem?_eq_some_iff.mpr ⟨by simpa using hrest, by simp⟩

theorem getElem?_flatMap_of_length {α β : Type} {f : α → List β} {n : Nat} (hf : ∀ x, (f x).length = n) {l : List α}
    {x : α} {i j : Nat} (hi : l[i]? = some x) (hj : j < n) : (l.flatMap f)[i * n + j]? = (f x)[j]? := by
  induction l generalizing i with
  | nil => cases hi
  | cons y l ih =>
    rw [flatMap_cons]
    cases i with
    | zero =>
      cases hi
      rw [Nat.zero_mul, Nat.zero_add, getElem?_append_left (by rwa [hf])]
    | succ i =>
      rw [getElem?_append_right (by rw [hf, Nat.succ_mul]; omega), hf, ← ih hi]
      congr 1
      rw [Nat.succ_mul]
      omega

/-- What is allocated for scalars holds them, one behind another. -/
theorem place_of_allocArray (hbase : base ≤ m.size) (h : m.allocArray elem xs = .ok (m', p)) :
    16 ∣ p ∧ m.size ≤ p ∧ m'.size = p + elem.size * xs.length ∧ (∀ c < m.size, m'.byte? c = m.byte? c) ∧
      ∀ i x, xs[i]? = some x → x.ty = elem → m'.Holds (p + i * elem.size) x := by
  obtain ⟨⟨m1, p'⟩, halloc, h⟩ := bind_eq_ok.mp h
  cases pure_eq_ok.mp h
  obtain ⟨haligned, hbehind, hsize, _⟩ := place_of_alloc halloc
  have hlength : ∀ x : Scalar, (bytesOfNat x.bits elem.size).length = elem.size := fun x => length_bytesOfNat ..
  have hall : (xs.flatMap fun x => bytesOfNat x.bits elem.size).length = elem.size * xs.length := by
    simp [length_flatMap, hlength, Nat.mul_comm]
  refine ⟨haligned, hbehind, by rw [size_setBytes, hsize], fun c hc => ?_, fun i x hx hty => ?_⟩
  · rw [byte?_setBytes, if_neg (by omega)]
    exact (alloc_keeps halloc).2 c hc
  · subst hty
    have hi : i * x.ty.size + x.ty.size ≤ x.ty.size * xs.length := by
      rw [← Nat.succ_mul, Nat.mul_comm]
      exact Nat.mul_le_mul_left _ (List.getElem?_eq_some_iff.mp hx).1
    refine ⟨covers_iff.mpr ⟨by omega, by rw [size_setBytes, hsize]; omega⟩, fun j hj => ?_⟩
    rw [byte?_setBytes, hall, if_pos (by omega), ← getElem?_flatMap_of_length hlength hx hj]
    congr 1
    omega

/-- A write stores a scalar where the memory has room for it. -/
theorem write_eq_ok {v : Val} :
    m.write a v = .ok m' ↔ ∃ s, v = .scalar s ∧ m.covers a s.ty.size = true ∧ m.put a s = m' := by
  rw [write, bind_pure_eq_ok]
  simp only [writable_eq_ok, and_assoc]

/-! ## Sequences of requests -/

/-- What can be asked of a memory. -/
inductive Request where
  | alloc (size align : Nat)
  | allocArray (elem : ScalarTy) (xs : List Scalar)
  | write (address : Nat) (v : Val)

/-- Serves one request. A place that is given out is told with its size. A write that fails leaves the memory as it
is. -/
def serve (m : Memory) : Request → Checked (Memory × List (Nat × Nat))
  | .alloc size align => do
    let (m, address) ← m.alloc size align
    return (m, [(address, size)])
  | .allocArray elem xs => do
    let (m, address) ← m.allocArray elem xs
    return (m, [(address, elem.size * xs.length)])
  | .write address v => return ((m.write address v).toOption.getD m, [])

/-- Serves requests one after another, and tells the places that were given out. -/
def serveAll (m : Memory) (places : List (Nat × Nat)) : List Request → Checked (Memory × List (Nat × Nat))
  | [] => return (m, places)
  | r :: rs => do
    let (m, new) ← m.serve r
    m.serveAll (places ++ new) rs

/-- The places lie one behind another, between the lowest address and the end of the memory. -/
structure Laid (m : Memory) (places : List (Nat × Nat)) : Prop where
  room : base ≤ m.size
  within : ∀ q ∈ places, base ≤ q.1 ∧ q.1 + q.2 ≤ m.size
  apart : places.Pairwise fun q r => q.1 + q.2 ≤ r.1

namespace Laid

variable {places new : List (Nat × Nat)} {r : Request} {rs : List Request}

theorem grow (hl : m.Laid places) (hp : m.size ≤ p) (hsize : m'.size = p + size) : m'.Laid (places ++ [(p, size)]) := by
  have hroom := hl.room
  refine ⟨by omega, fun q hq => ?_, pairwise_append.mpr ⟨hl.apart, pairwise_singleton .., fun q hq r hr => ?_⟩⟩
  · rcases mem_append.mp hq with hq | hq
    · have := hl.within q hq
      omega
    · obtain rfl := mem_singleton.mp hq
      omega
  · obtain rfl := mem_singleton.mp hr
    exact Nat.le_trans (hl.within q hq).2 hp

/-- **Each request keeps the places apart**, and the memory does not shrink. -/
theorem serve (hl : m.Laid places) (h : m.serve r = .ok (m', new)) : m'.Laid (places ++ new) ∧ m.size ≤ m'.size := by
  cases r with
  | alloc size align =>
    obtain ⟨⟨m1, p⟩, halloc, h⟩ := bind_eq_ok.mp h
    cases pure_eq_ok.mp h
    obtain ⟨_, hp, hsize, _⟩ := place_of_alloc halloc
    exact ⟨hl.grow hp hsize, by omega⟩
  | allocArray elem xs =>
    obtain ⟨⟨m1, p⟩, halloc, h⟩ := bind_eq_ok.mp h
    cases pure_eq_ok.mp h
    obtain ⟨_, hp, hsize, _⟩ := place_of_allocArray hl.room halloc
    exact ⟨hl.grow hp hsize, by omega⟩
  | write address v =>
    cases pure_eq_ok.mp h
    have hsize : ((m.write address v).toOption.getD m).size = m.size := by
      cases hwrite : m.write address v with
      | error t => rfl
      | ok m1 =>
        obtain ⟨s, _, _, rfl⟩ := write_eq_ok.mp hwrite
        exact size_put ..
    rw [append_nil]
    exact ⟨⟨hsize ▸ hl.room, hsize ▸ hl.within, hl.apart⟩, Nat.le_of_eq hsize.symm⟩

theorem serveAll (hl : m.Laid places) (h : m.serveAll places rs = .ok (m', new)) : m'.Laid new ∧ m.size ≤ m'.size := by
  induction rs generalizing m places with
  | nil =>
    cases pure_eq_ok.mp h
    exact ⟨hl, Nat.le_refl _⟩
  | cons r rs ih =>
    obtain ⟨⟨m1, new1⟩, hserve, h⟩ := bind_eq_ok.mp h
    obtain ⟨hl1, hle⟩ := hl.serve hserve
    obtain ⟨hl', hle'⟩ := ih hl1 h
    exact ⟨hl', Nat.le_trans hle hle'⟩

end Laid

theorem laid_empty : empty.Laid [] := ⟨by decide, by simp, .nil⟩

/-- A write of a running machine that fails leaves the world as it is. -/
theorem world_of_write_error {σ : Type} {w w' : World σ} {address : UInt64} {v : Val} {t : Trap}
    (h : (Exec.write address v : Exec σ Unit) w = .error t w') : w' = w := by
  cases hwritable : w.memory.writable address.toNat v with
  | ok s =>
    obtain ⟨hv, hcovers⟩ := writable_eq_ok.mp hwritable
    rw [Exec.write_eq_ok.mpr ⟨s, hv, hcovers, rfl⟩] at h
    cases h
  | error t' =>
    have hfail : (Exec.write address v : Exec σ Unit) w = .error t' w := by
      show ((liftM (w.memory.writable address.toNat v) : Exec σ Scalar) >>= _) w = _
      rw [hwritable]
      rfl
    rw [hfail] at h
    exact (EStateM.Result.error.inj h).2.symm

/-- **Memory is a flat store.** After any sequence of requests the places that were given out lie apart from each
other, from the lowest address to the end of the memory. What is allocated next is aligned, lies behind all of them and
holds zeros, or the scalars it was made for; the bytes there were are kept. Exactly what lies within the memory can be
read, and only a scalar can be written there. A write is read back as it was, and no other byte changes. A write that
fails changes nothing, and no request shrinks the memory. -/
theorem store_of_serveAll {rs : List Request} {m : Memory} {places : List (Nat × Nat)}
    (h : empty.serveAll [] rs = .ok (m, places)) :
    (64 ≤ m.size ∧ (∀ q ∈ places, 64 ≤ q.1 ∧ q.1 + q.2 ≤ m.size) ∧ places.Pairwise fun q r => q.1 + q.2 ≤ r.1) ∧
    (∀ size align m' p, m.alloc size align = .ok (m', p) →
      max align 1 ∣ p ∧ 64 ≤ p ∧ (∀ q ∈ places, q.1 + q.2 ≤ p) ∧ p + size ≤ m'.size ∧
      (∀ c, p ≤ c → c < p + size → m'.byte? c = some 0) ∧ ∀ c < m.size, m'.byte? c = m.byte? c) ∧
    (∀ elem xs m' p, m.allocArray elem xs = .ok (m', p) →
      16 ∣ p ∧ 64 ≤ p ∧ (∀ q ∈ places, q.1 + q.2 ≤ p) ∧ p + elem.size * xs.length ≤ m'.size ∧
      (∀ i x, xs[i]? = some x → x.ty = elem → m'.read (p + i * elem.size) elem = .ok x) ∧
      ∀ c < m.size, m'.byte? c = m.byte? c) ∧
    (∀ a elem, (∃ s, m.read a elem = .ok s) ↔ 64 ≤ a ∧ a + elem.size ≤ m.size) ∧
    (∀ a v, (∃ m', m.write a v = .ok m') ↔ ∃ s, v = .scalar s ∧ 64 ≤ a ∧ a + s.ty.size ≤ m.size) ∧
    (∀ a s m', m.write a (.scalar s) = .ok m' → m'.read a s.ty = .ok s ∧
      ∀ c, ¬(a ≤ c ∧ c < a + s.ty.size) → m'.byte? c = m.byte? c) ∧
    (∀ a v t, m.write a v = .error t → m.serve (.write a v) = .ok (m, [])) ∧
    (∀ (σ : Type) (w w' : World σ) address v t, (Exec.write address v : Exec σ Unit) w = .error t w' → w' = w) ∧
    ∀ r m' new, m.serve r = .ok (m', new) → m.size ≤ m'.size := by
  obtain ⟨hl, _⟩ := laid_empty.serveAll h
  have hroom := hl.room
  have hbehind : ∀ {p}, m.size ≤ p → 64 ≤ p ∧ ∀ q ∈ places, q.1 + q.2 ≤ p := fun hp =>
    ⟨Nat.le_trans hroom hp, fun q hq => Nat.le_trans (hl.within q hq).2 hp⟩
  refine ⟨⟨hroom, hl.within, hl.apart⟩, fun size align m' p halloc => ?_, fun elem xs m' p halloc => ?_,
    fun a elem => ?_, fun a v => ?_, fun a s m' hwrite => ?_, fun a v t hwrite => ?_,
    fun σ w w' address v t => world_of_write_error, fun r m' new hserve => (hl.serve hserve).2⟩
  · obtain ⟨haligned, hp, hsize, hzero⟩ := place_of_alloc halloc
    exact ⟨haligned, (hbehind hp).1, (hbehind hp).2, Nat.le_of_eq hsize.symm,
      fun c hle hlt => hzero c (Nat.le_trans hp hle) (hsize ▸ hlt), (alloc_keeps halloc).2⟩
  · obtain ⟨haligned, hp, hsize, hkept, hholds⟩ := place_of_allocArray hroom halloc
    exact ⟨haligned, (hbehind hp).1, (hbehind hp).2, Nat.le_of_eq hsize.symm,
      fun i x hx hty => hty ▸ (hholds i x hx hty).read, hkept⟩
  · simp only [read_eq_ok_iff, exists_and_left, exists_eq, and_true, covers_iff]
    rfl
  · constructor
    · rintro ⟨m', hwrite⟩
      obtain ⟨s, hv, hcovers, _⟩ := write_eq_ok.mp hwrite
      exact ⟨s, hv, covers_iff.mp hcovers⟩
    · rintro ⟨s, hv, hcovers⟩
      exact ⟨_, write_eq_ok.mpr ⟨s, hv, covers_iff.mpr hcovers, rfl⟩⟩
  · obtain ⟨s', hs, hcovers, rfl⟩ := write_eq_ok.mp hwrite
    cases hs
    exact ⟨(holds_put hcovers).read, fun c hc => byte?_put_of_not_covered hc⟩
  · rw [serve, hwrite]
    rfl

/-- Three bytes, a write to nothing that fails, and a word at a multiple of eight that a number is written to. -/
theorem store_of_three_requests :
    ∃ m, empty.serveAll [] [.alloc 3 1, .write 0 (.scalar (.bool true)), .alloc 4 8] = .ok (m, [(64, 3), (72, 4)]) ∧
      ∃ m', m.write 72 (.scalar (.i32 (-2))) = .ok m' ∧ m'.read 72 .i32 = .ok (.i32 (-2)) := by
  refine ⟨_, rfl, ?_⟩
  obtain ⟨_, _, _, _, hroom, hback, _⟩ :=
    @store_of_serveAll [.alloc 3 1, .write 0 (.scalar (.bool true)), .alloc 4 8] _ _ rfl
  obtain ⟨m', hm'⟩ := (hroom 72 (.scalar (.i32 (-2)))).mpr ⟨_, rfl, by decide, by decide⟩
  exact ⟨m', hm', (hback 72 _ m' hm').1⟩

end Memory

end Spmd
