import Mathlib.Algebra.Group.Nat.Defs
import Spmd.Proofs.Exec.Follow

/-!
# Stretches of memory

A stretch is a number of elements that lie one behind another (`Stretch`), and accesses to every `s`-th of them take
part of its positions each (`Stretch.stepped_spot`). What matters about loads and stores of such parts:

* **`Machine.load_eq_ok_iff`** — a load without a mask gives what stands at its addresses, if all of that is allocated.
* **`Stretch.writes`** — after a list of positions was written to, they hold what was written, the other positions hold
  what they held, and nothing but the stretch has changed.
* **`Stretch.write_all`** — writing to all positions what one world holds there turns a world that differs in the stretch
  into that one.
-/

namespace Spmd

open List Exec Machine

variable {σ : Type} {w w' : World σ} {ns : List Nat}

namespace Machine

variable {m : Machine} {elem : ScalarTy} {lanes : Nat} {address : Nat → UInt64} {x : Val}

theorem mapM_loadLane_eq_ok {ls : List Nat} {xs : List Val} :
    ls.mapM (loadLane elem none address : Nat → Exec σ Val) w = .ok xs w' ↔ w' = w ∧
      (∀ l ∈ ls, w.memory.covers (address l).toNat elem.size = true) ∧
      xs = ls.map fun l => .scalar (w.memory.peek (address l).toNat elem) := by
  have hlane : ∀ {l y u}, loadLane elem none address l w = .ok y u ↔ u = w ∧
      w.memory.covers (address l).toNat elem.size = true ∧ y = .scalar (w.memory.peek (address l).toNat elem) := by
    intro l y u
    show (Exec.read (address l) elem : Exec σ Val) w = .ok y u ↔ _
    rw [read_eq_ok]
    constructor
    · rintro ⟨s, hs, rfl, rfl⟩
      obtain ⟨hcovers, rfl⟩ := Memory.read_eq_ok_iff.mp hs
      exact ⟨rfl, hcovers, rfl⟩
    · rintro ⟨rfl, hcovers, rfl⟩
      exact ⟨_, Memory.read_eq_ok_iff.mpr ⟨hcovers, rfl⟩, rfl, rfl⟩
  induction ls generalizing xs w' with
  | nil =>
    rw [mapM_nil, pure_eq_ok]
    exact ⟨fun h => ⟨h.2.symm, nofun, h.1.symm⟩, fun h => ⟨h.2.2.symm, h.1.symm⟩⟩
  | cons l ls ih =>
    rw [mapM_cons, bind_eq_ok, map_cons, forall_mem_cons]
    constructor
    · rintro ⟨y, u, hy, h⟩
      obtain ⟨rfl, hcovers, rfl⟩ := hlane.mp hy
      obtain ⟨ys, u', hys, h⟩ := bind_eq_ok.mp h
      obtain ⟨rfl, hall, rfl⟩ := ih.mp hys
      obtain ⟨rfl, rfl⟩ := pure_eq_ok.mp h
      exact ⟨rfl, ⟨hcovers, hall⟩, rfl⟩
    · rintro ⟨rfl, ⟨hcovers, hall⟩, rfl⟩
      exact ⟨_, w', hlane.mpr ⟨rfl, hcovers, rfl⟩, bind_eq_ok.mpr ⟨_, w', ih.mpr ⟨rfl, hall, rfl⟩, rfl⟩⟩

/-- **A load gives what stands at its addresses.** -/
theorem load_eq_ok_iff : m.load (.fixedVector elem lanes) none address w = .ok x w' ↔ w' = w ∧
    (∀ l < lanes, w.memory.covers (address l).toNat elem.size = true) ∧
    x = .vector ((range lanes).map fun l => .scalar (w.memory.peek (address l).toNat elem)) := by
  rw [Ty.fixedVector, load_vector rfl, inTurn_eq_mapM, map_eq_ok]
  constructor
  · rintro ⟨ys, hys, rfl⟩
    obtain ⟨rfl, hall, rfl⟩ := mapM_loadLane_eq_ok.mp hys
    exact ⟨rfl, fun l hl => hall l (mem_range.mpr hl), rfl⟩
  · rintro ⟨rfl, hall, rfl⟩
    exact ⟨_, mapM_loadLane_eq_ok.mpr ⟨rfl, fun l hl => hall l (mem_range.mp hl), rfl⟩, rfl⟩

end Machine

/-- Elements of one type that lie one behind another. -/
structure Stretch where
  start : UInt64
  elem : ScalarTy
  count : Nat

namespace Stretch

variable {t : Stretch} {n n' a : Nat} {s : Nat → Scalar}

/-- The address of an element. -/
def spot (t : Stretch) : Nat → UInt64 := stepped t.start (UInt64.ofNat t.elem.size)

/-- The byte belongs to the element at a position. -/
def At (t : Stretch) (n a : Nat) : Prop := (t.spot n).toNat ≤ a ∧ a < (t.spot n).toNat + t.elem.size

/-- The byte belongs to the stretch. -/
def Has (t : Stretch) (a : Nat) : Prop := ∃ n < t.count, t.At n a

/-- Steps of whole strides go to every `stride`-th element. -/
theorem stepped_spot (t : Stretch) {stride : Int64} (hstride : 0 ≤ stride.toInt) (offset : Nat) :
    stepped (t.spot offset) (UInt64.ofNat t.elem.size * stride.toUInt64) =
      fun l => t.spot (l * stride.toInt.toNat + offset) := by
  have hword : stride.toUInt64 = UInt64.ofNat stride.toInt.toNat := by
    rw [← ofInt_natCast, Int.toNat_of_nonneg hstride, ← toUInt64_ofInt64, Int64.ofInt_toInt]
  funext l
  simp only [spot, stepped]
  rw [hword, UInt64.ofNat_add, UInt64.ofNat_mul]
  grind

/-- Going back by as many elements leads to the start. -/
theorem start_eq (t : Stretch) (offset : Nat) :
    t.spot offset + (Int64.ofInt (-offset)).toUInt64 * UInt64.ofNat t.elem.size = t.start := by
  rw [toUInt64_ofInt64, UInt64.ofInt_neg, ofInt_natCast]
  simp only [spot, stepped]
  grind

/-- From any element every other one can be reached. -/
theorem spot_eq (t : Stretch) (n offset : Nat) :
    t.spot offset + UInt64.ofInt ((n - offset) * t.elem.size) = t.spot n := by
  rw [UInt64.ofInt_mul, Int.sub_eq_add_neg, UInt64.ofInt_add, UInt64.ofInt_neg, ofInt_natCast, ofInt_natCast, ofInt_natCast]
  simp only [spot, stepped]
  grind

/-- No byte belongs to two elements. -/
theorem At.unique (hcount : t.count < 2 ^ 32) (hn : n < t.count) (hn' : n' < t.count) (h : t.At n a) (h' : t.At n' a) :
    n = n' := by
  obtain ⟨hge, hlt⟩ := h
  obtain ⟨hge', hlt'⟩ := h'
  have hspot : ∀ n < t.count, (t.spot n).toNat = (t.start.toNat + n * t.elem.size) % 2 ^ 64 := by
    intro n hn
    have hsize : t.elem.size ≤ 8 := by cases t.elem <;> decide
    have hbound : n * t.elem.size ≤ n * 8 := Nat.mul_le_mul_left _ hsize
    simp only [spot, stepped, UInt64.toNat_add, UInt64.toNat_mul, UInt64.toNat_ofNat']
    rw [Nat.mod_eq_of_lt (show n < 2 ^ 64 by omega), Nat.mod_eq_of_lt (show t.elem.size < 2 ^ 64 by omega),
      Nat.mod_eq_of_lt (show n * t.elem.size < 2 ^ 64 by omega)]
  rw [hspot n hn] at hge hlt
  rw [hspot n' hn'] at hge' hlt'
  have hsize : t.elem.size ≤ 8 := by cases t.elem <;> decide
  -- two elements lie at least the size of one apart, and never as far as memory is long
  have hfar : ∀ {p q : Nat}, p < q → q < t.count → p * t.elem.size + t.elem.size ≤ q * t.elem.size ∧
      q * t.elem.size ≤ 2 ^ 32 * 8 := by
    intro p q hpq hq
    refine ⟨?_, Nat.mul_le_mul (by omega) hsize⟩
    rw [← Nat.succ_mul]
    exact Nat.mul_le_mul_right _ hpq
  rcases Nat.lt_trichotomy n n' with hlt'' | heq | hgt
  · obtain ⟨h1, h2⟩ := hfar hlt'' hn'
    generalize n * t.elem.size = p at *
    generalize n' * t.elem.size = q at *
    have := t.start.toNat_lt
    omega
  · exact heq
  · obtain ⟨h1, h2⟩ := hfar hgt hn
    generalize n * t.elem.size = p at *
    generalize n' * t.elem.size = q at *
    have := t.start.toNat_lt
    omega

/-! ## What stands at positions -/

def element (t : Stretch) (w : World σ) (n : Nat) : Val := .scalar (w.memory.peek (t.spot n).toNat t.elem)

/-- What was allocated and has been kept is still there. -/
theorem element_eq (h : Memory.Kept t.Has w.memory w'.memory) (hn : n < t.count)
    (hcovers : w.memory.covers (t.spot n).toNat t.elem.size = true) : t.element w' n = t.element w n := by
  simp only [Memory.covers, Bool.and_eq_true, decide_eq_true_eq] at hcovers
  unfold element Memory.peek
  rw [Memory.bytesAt_congr fun a hge hlt => h.bytes a ⟨n, hn, hge, hlt⟩ (by omega)]

/-! ## Writing to positions -/

/-- Writes to some positions, one after another. -/
def write (t : Stretch) (s : Nat → Scalar) (ns : List Nat) : Exec σ Unit :=
  ns.forM fun n => Exec.write (t.spot n) (.scalar (s n))

/-- The element at a position is in place. -/
def Settled (t : Stretch) (s : Nat → Scalar) (w : World σ) (n : Nat) : Prop := w.memory.Holds (t.spot n).toNat (s n)

theorem Settled.of_bytes (h : t.Settled s w n) (hty : (s n).ty = t.elem) (hsize : w.memory.size ≤ w'.memory.size)
    (hbytes : ∀ a, t.At n a → w'.memory.byte? a = w.memory.byte? a) : t.Settled s w' n :=
  Memory.Holds.of_bytes h hsize fun b hge hlt => hbytes b ⟨hge, hty ▸ hlt⟩

/-- **What writing to positions does.** -/
theorem writes (hcount : t.count < 2 ^ 32) (hty : ∀ n, (s n).ty = t.elem) (hns : ∀ n ∈ ns, n < t.count)
    (h : t.write s ns w = .ok () w') :
    w'.env = w.env ∧ w'.memory.size = w.memory.size ∧ (∀ a, ¬t.Has a → w'.memory.byte? a = w.memory.byte? a) ∧
      ∀ n < t.count, n ∈ ns ∨ t.Settled s w n → t.Settled s w' n := by
  induction ns generalizing w with
  | nil =>
    obtain ⟨_, rfl⟩ := pure_eq_ok.mp h
    exact ⟨rfl, rfl, fun _ _ => rfl, fun n _ hn => hn.resolve_left not_mem_nil⟩
  | cons n ns ih =>
    obtain ⟨_, u, hfirst, h⟩ := bind_eq_ok.mp h
    obtain ⟨s', heq, hcovers, rfl⟩ := write_eq_ok.mp hfirst
    cases heq
    have hn := hns n (.head _)
    obtain ⟨henv, hsize, hbytes, hsettled⟩ := ih (fun p hp => hns p (.tail _ hp)) h
    have hother : ∀ a, ¬t.At n a → (w.memory.put (t.spot n).toNat (s n)).byte? a = w.memory.byte? a := by
      intro a ha
      refine Memory.byte?_put_of_not_covered fun hat => ha ?_
      rwa [hty n] at hat
    refine ⟨henv, hsize.trans (Memory.size_put ..), fun a ha => ?_, fun p hp hcase => hsettled p hp ?_⟩
    · exact (hbytes a ha).trans (hother a fun hat => ha ⟨n, hn, hat⟩)
    · -- the position is written now, later, or was settled and is another one
      by_cases hpn : p = n
      · subst hpn
        exact .inr (Memory.holds_put hcovers)
      · refine hcase.imp (fun hmem => (mem_cons.mp hmem).resolve_left hpn) fun hold => ?_
        refine hold.of_bytes (hty p) (Nat.le_of_eq (Memory.size_put ..).symm) fun a ha => hother a fun hat => ?_
        exact hpn (At.unique hcount hp hn ha hat)

/-- Positions that are allocated can be written to. -/
theorem exists_write (hty : ∀ n, (s n).ty = t.elem) (h : ∀ n ∈ ns, w.memory.covers (t.spot n).toNat t.elem.size = true) :
    ∃ w', t.write s ns w = .ok () w' := by
  induction ns generalizing w with
  | nil => exact ⟨w, rfl⟩
  | cons n ns ih =>
    obtain ⟨w', hw'⟩ := ih (w := { w with memory := w.memory.put (t.spot n).toNat (s n) }) fun p hp =>
      Memory.covers_congr (Nat.le_of_eq (Memory.size_put ..).symm) (h p (.tail _ hp))
    refine ⟨w', bind_eq_ok.mpr ⟨(), _, write_eq_ok.mpr ⟨s n, rfl, ?_, rfl⟩, hw'⟩⟩
    rw [hty n]
    exact h n (.head _)

/-- **Writing all that a world holds turns a world that differs in the stretch into that one.** -/
theorem write_all {v u : World σ} (hcount : t.count < 2 ^ 32) (hty : ∀ n, (s n).ty = t.elem)
    (hsettled : ∀ n < t.count, t.Settled s v n) (h : SameBut t.Has v u) :
    t.write s (range t.count) u = .ok () v := by
  have hcovers : ∀ n ∈ range t.count, u.memory.covers (t.spot n).toNat t.elem.size = true := fun n hn => by
    have := (hsettled n (mem_range.mp hn)).1
    rw [hty n] at this
    exact Memory.covers_congr (Nat.le_of_eq h.1.1) this
  obtain ⟨u', hu'⟩ := exists_write hty hcovers
  obtain ⟨henv, _, hbytes, hwritten⟩ := writes hcount hty (fun n hn => mem_range.mp hn) hu'
  have hmemory : u'.memory = v.memory := by
    refine Memory.ext_byte? fun a => ?_
    by_cases ha : t.Has a
    · obtain ⟨n, hn, hge, hlt⟩ := ha
      obtain ⟨i, rfl⟩ := Nat.exists_eq_add_of_le hge
      have hi : i < (s n).ty.size := by rw [hty n]; omega
      rw [(hwritten n hn (.inl (mem_range.mpr hn))).2 i hi, (hsettled n hn).2 i hi]
    · rw [hbytes a ha, h.1.2 a ha]
  obtain ⟨memory, env⟩ := u'
  obtain ⟨memory', env'⟩ := v
  obtain rfl : memory = memory' := hmemory
  obtain rfl : env = env' := henv.trans h.2
  exact hu'

end Stretch

end Spmd
