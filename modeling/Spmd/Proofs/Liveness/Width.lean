import Mathlib.Algebra.Order.Floor.Div
import Mathlib.Order.Lattice.Nat
import Spmd.Proofs.Liveness.Paths

/-!
# Advice on the width of lane groups

The widest group that the registers have room for is a power of two that the target allows and that needs no more
registers than there are (`Target.IsWidest`). The search goes up the powers of two as far as they fit, and two things
stand in its way. It cannot double the last power of two of a 32-bit word, and the number of registers that a group
needs is cut off at the greatest 32-bit word, so that a target with that many registers has room for everything.

* **`Target.widestFit_iff`**: the search finds the widest group exactly if neither happens.
* **`Kernel.widthAdvice_of_verify`**: what that means for the advice on a verified kernel.
-/

namespace Spmd

open Success List

namespace Target

variable {t : Target} {bits n c w w' : Nat}

/-- The registers that a group of `w` lanes needs, however many they are. -/
def need (t : Target) (bits w : Nat) : Nat := (bits * w) ⌈/⌉ max 1 t.nativeBits

/-- The widest power of two that is allowed and needs no more registers than there are. -/
def IsWidest (t : Target) (bits w : Nat) : Prop :=
  IsGreatest {w | (∃ n, w = 2 ^ n) ∧ w ≤ max 1 t.maxFixedWidth ∧ (w = 1 ∨ t.need bits w ≤ t.registers)} w

theorem exists_isWidest (t : Target) (bits : Nat) : ∃ w, t.IsWidest bits w := by
  have hbound : BddAbove {w | (∃ n, w = 2 ^ n) ∧ w ≤ max 1 t.maxFixedWidth ∧ (w = 1 ∨ t.need bits w ≤ t.registers)} :=
    ⟨_, fun _ h => h.2.1⟩
  exact ⟨_, Nat.sSup_mem ⟨1, ⟨0, rfl⟩, Nat.le_max_left .., .inl rfl⟩ hbound, fun _ h => le_csSup hbound h⟩

theorem pressure_eq (t : Target) (bits w : Nat) : t.pressure bits w = min (t.need bits w) 0xffffffff := by
  rw [pressure, need, Nat.ceilDiv_eq_add_pred_div]

/-- With words of 32 bits for the bits, the lanes and the width of a register, 64 bits hold the product. -/
theorem product_lt (hbits : bits < 0x100000000) (hw : w < 0x100000000) (hnative : t.nativeBits < 0x100000000) :
    bits * w + max 1 t.nativeBits - 1 < 0x10000000000000000 := by
  have := Nat.mul_le_mul (Nat.le_pred_of_lt hbits) (Nat.le_pred_of_lt hw)
  simp only [Nat.pred_eq_sub_one] at this
  omega

theorem need_le (h : w ≤ w') : t.need bits w ≤ t.need bits w' := by
  rw [need, need, Nat.ceilDiv_eq_add_pred_div, Nat.ceilDiv_eq_add_pred_div]
  exact Nat.div_le_div_right (Nat.sub_le_sub_right (Nat.add_le_add_right (Nat.mul_le_mul_left _ h) _) _)

theorem fits_iff : t.fits bits w = true ↔ w ≤ t.maxFixedWidth ∧ min (t.need bits w) 0xffffffff ≤ t.registers := by
  rw [fits, Bool.and_eq_true, decide_eq_true_iff, decide_eq_true_iff, pressure_eq]

theorem fits_of_le (h : w ≤ w') (hfits : t.fits bits w' = true) : t.fits bits w = true := by
  have := @need_le t bits w w' h
  rw [fits_iff] at hfits ⊢
  omega

theorem takeWhile_range (p : Nat → Bool) (n : Nat) : ∃ c ≤ n, (range n).takeWhile p = range c ∧
    (∀ m < c, p m = true) ∧ (c < n → p c = false) := by
  induction n with
  | zero => exact ⟨0, Nat.le_refl _, rfl, by simp, by simp⟩
  | succ n ih =>
    obtain ⟨c, hc, htake, hall, hstop⟩ := ih
    rw [range_succ, takeWhile_append, htake, length_range, length_range]
    by_cases heq : c = n
    · subst heq
      rw [if_pos rfl]
      cases hp : p c with
      | false => exact ⟨c, Nat.le_succ c, by simp [hp], hall, fun _ => hp⟩
      | true =>
        refine ⟨c + 1, Nat.le_refl _, by simp [hp, range_succ], fun m hm => ?_, by simp⟩
        rcases Nat.lt_succ_iff_lt_or_eq.mp hm with hm | rfl
        · exact hall m hm
        · exact hp
    · rw [if_neg heq]
      exact ⟨c, by omega, rfl, hall, fun _ => hstop (by omega)⟩

/-- The search stops at the first power of two that does not fit. -/
theorem widestFit_eq (t : Target) (bits : Nat) : ∃ c ≤ 31, (∀ n < c, t.fits bits (2 ^ (n + 1)) = true) ∧
    (c < 31 → t.fits bits (2 ^ (c + 1)) = false) ∧
    t.widestFit bits = if c < 31 then .ok (2 ^ c) else .error .overflow := by
  obtain ⟨c, hc, htake, hall, hstop⟩ := takeWhile_range (t.fits bits ∘ fun n => 2 ^ (n + 1)) 31
  refine ⟨c, hc, hall, hstop, ?_⟩
  have hpow : (fun n => 1 <<< (n + 1)) = fun n => 2 ^ (n + 1) := funext fun n => Nat.one_shiftLeft _
  rw [widestFit, hpow, takeWhile_map, htake, length_map, length_range]
  refine if_congr Iff.rfl (congrArg Except.ok ?_) rfl
  cases c with
  | zero => rfl
  | succ c => rw [range_succ, map_append, map_singleton, getLast?_concat, Option.getD_some]

/-- **The search finds the widest group** exactly if the last power of two does not fit, and the cut-off hides no group
that needs too much. -/
theorem widestFit_iff (hregisters : t.registers ≤ 0xffffffff) (hw : t.IsWidest bits w) :
    t.widestFit bits = .ok w ↔ t.fits bits (2 ^ 31) = false ∧ (t.registers < 0xffffffff ∨
      ∀ n, 1 ≤ n → 2 ^ n ≤ t.maxFixedWidth → t.need bits (2 ^ n) ≤ 0xffffffff) := by
  obtain ⟨c, hc, hall, hstop, heq⟩ := widestFit_eq t bits
  rw [heq]
  by_cases hlt : c < 31
  · have hno := hstop hlt
    have hlast : t.fits bits (2 ^ 31) = false := by
      by_contra hfits
      rw [Bool.not_eq_false] at hfits
      exact absurd (fits_of_le (Nat.pow_le_pow_right (by decide) hlt) hfits) (by simp [hno])
    rw [if_pos hlt, hlast, Except.ok.injEq, eq_self, true_and]
    -- no wider power of two is in question
    have hwider : ∀ n, c < n → 2 ^ n ≤ t.maxFixedWidth → t.registers < min (t.need bits (2 ^ n)) 0xffffffff := by
      intro n hn hle
      by_contra hfits
      exact absurd (fits_of_le (Nat.pow_le_pow_right (by decide) hn) (fits_iff.mpr ⟨hle, Nat.not_lt.mp hfits⟩)) (by simp [hno])
    constructor
    · rintro rfl
      refine (Nat.lt_or_ge t.registers 0xffffffff).imp_right fun hmost n hn hle => ?_
      have hnc : n ≤ c := Nat.not_lt.mp fun hlt => by have := hwider n hlt hle; omega
      have hmono := @need_le t bits _ _ (Nat.pow_le_pow_right (by decide : 0 < 2) hnc)
      rcases hw.1.2.2 with hone | hneed
      · have := Nat.pow_eq_one.mp hone
        omega
      · omega
    · intro hcut
      suffices h : t.IsWidest bits (2 ^ c) from h.unique hw
      refine ⟨⟨⟨c, rfl⟩, ?_⟩, ?_⟩
      · cases c with
        | zero => exact ⟨Nat.le_max_left .., .inl rfl⟩
        | succ c =>
          obtain ⟨hle, hfits⟩ := fits_iff.mp (hall c (Nat.lt_succ_self c))
          refine ⟨by omega, .inr ?_⟩
          rcases hcut with hcut | hcut
          · omega
          · have := hcut (c + 1) (by omega) hle
            omega
      · rintro _ ⟨⟨n, rfl⟩, hle, hneed⟩
        refine Nat.pow_le_pow_right (by decide) (Nat.not_lt.mp fun hn => ?_)
        have htwo : 2 ^ 1 ≤ 2 ^ n := Nat.pow_le_pow_right (by decide) (by omega)
        have := hwider n hn (by omega)
        omega
  · obtain rfl : c = 31 := by omega
    rw [if_neg hlt, hall 30 (by decide)]
    simp

theorem widestFit_eq_overflow : t.widestFit bits = .error .overflow ↔ t.fits bits (2 ^ 31) = true := by
  obtain ⟨c, hc, hall, hstop, heq⟩ := widestFit_eq t bits
  rw [heq]
  by_cases hlt : c < 31
  · rw [if_pos hlt]
    refine ⟨fun h => absurd h (by simp), fun hfits => ?_⟩
    exact absurd (fits_of_le (Nat.pow_le_pow_right (by decide) hlt) hfits) (by simp [hstop hlt])
  · obtain rfl : c = 31 := by omega
    rw [if_neg hlt]
    exact iff_of_true rfl (hall 30 (by decide))

end Target

namespace Kernel

variable {k : Kernel} {d : Divergence} {φ : Flow} {entry b : BlockId} {is : List InstId} {s : IndexSet}

/-- The bits that one lane of a value has. -/
def laneBits (k : Kernel) (v : ValueId) : Nat := (((k.value? v).bind (·.ty.element?)).map fun e => e.size * 8).getD 0

/-- The varying values that are live in the block in front of its last instructions `is` have `n` bits per lane. -/
def VaryingBits (k : Kernel) (d : Divergence) (φ : Flow) (b : BlockId) (is : List InstId) (n : Nat) : Prop :=
  ∃ vs : List ValueId, vs.Nodup ∧ (∀ v, v ∈ vs ↔ k.Tracked v ∧ k.LiveAt φ b is v ∧ d.isVarying k v = .ok true) ∧
    n = total (vs.map k.laneBits)

theorem varyingBits_eq_ok (d : Divergence) (hs : k.Shows φ b s is) :
    ∃ n, k.varyingBits d s = .ok n ∧ k.VaryingBits d φ b is n := by
  classical
  have hbits : ∀ n ∈ s.toList, (do
      if ← d.isVarying k ⟨n⟩ then return ((← k.valueTy ⟨n⟩).element?.map fun e => e.size * 8).getD 0
      else return 0 : Checked Nat) = .ok (if d.isVarying k ⟨n⟩ = .ok true then k.laneBits ⟨n⟩ else 0) := by
    intro n hn
    obtain ⟨⟨dv, hdv, _⟩, _⟩ := (hs ⟨n⟩).mp (IndexSet.mem_toList.mp hn)
    have hvalue : k.value ⟨n⟩ = .ok dv := some?_eq_ok.mpr hdv
    obtain ⟨varies, hvaries⟩ : ∃ varies, d.isVarying k ⟨n⟩ = .ok varies := by
      rw [Divergence.isVarying, hvalue, ok_bind]
      split <;> exact ⟨_, rfl⟩
    rw [hvaries, ok_bind]
    cases varies with
    | false => rfl
    | true => rw [if_pos rfl, if_pos rfl, valueTy, hvalue, laneBits, hdv]; rfl
  have htotal : ∀ ns : List Nat, total (ns.map fun n => if d.isVarying k ⟨n⟩ = .ok true then k.laneBits ⟨n⟩ else 0) =
      total (((ns.map Id.mk).filter fun v => d.isVarying k v = .ok true).map k.laneBits) := by
    intro ns
    induction ns with
    | nil => rfl
    | cons n ns ih => by_cases hn : d.isVarying k ⟨n⟩ = .ok true <;> simp [hn, ih]
  refine ⟨_, by rw [varyingBits, mapM_of_ok hbits]; rfl, _,
    (s.nodup_toList.map fun _ _ => congrArg Id.index).filter _, fun v => ?_, htotal _⟩
  rw [mem_filter, decide_eq_true_iff, ← and_assoc, ← hs v, mem_map, ← IndexSet.mem_toList]
  refine and_congr_left' ⟨?_, fun hv => ⟨v.index, hv, rfl⟩⟩
  rintro ⟨n, hn, rfl⟩
  exact hn

theorem VaryingBits.unique {n n' : Nat} (h : k.VaryingBits d φ b is n) (h' : k.VaryingBits d φ b is n') : n = n' := by
  obtain ⟨vs, hnodup, hmem, rfl⟩ := h
  obtain ⟨vs', hnodup', hmem', rfl⟩ := h'
  have hperm : vs.Perm vs' := (perm_ext_iff_of_nodup hnodup hnodup').mpr fun v => (hmem v).trans (hmem' v).symm
  exact (hperm.map _).foldr_eq 0

/-- **Advice on a verified kernel** is about the most bits per lane of varying values that are live at once. It names the
widest group that the registers have room for, unless the last power of two of a 32-bit word seems to fit (it then
overflows) or a target with the most registers is offered a group that needs more. Products are taken to fit into 64
bits, which they do up to 2^32 bits per lane (`Target.product_lt`). -/
theorem widthAdvice_of_verify (hv : k.verify = .ok ()) (hentry : k.entry? = some entry) (d : Divergence) (t : Target)
    (hregisters : t.registers ≤ 0xffffffff) (g : LaneGroup) :
    ∃ peak bits w, IsGreatest {n | ∃ b is, (k.flow entry).Reached b ∧ is <:+ k.instsOf b ∧
        k.VaryingBits d (k.flow entry) b is n} bits ∧ t.IsWidest bits w ∧
      (k.widthAdvice d t g = .error .overflow ↔ 2 ^ 31 ≤ t.maxFixedWidth ∧ t.pressure bits (2 ^ 31) ≤ t.registers) ∧
      (k.widthAdvice d t g = .ok ⟨peak, t.pressure bits g.lanes, w⟩ ↔
        (t.maxFixedWidth < 2 ^ 31 ∨ t.registers < t.pressure bits (2 ^ 31)) ∧ (t.registers < 0xffffffff ∨
          ∀ n, 1 ≤ n → 2 ^ n ≤ t.maxFixedWidth → t.need bits (2 ^ n) ≤ 0xffffffff)) := by
  obtain ⟨_, _, graph, hg, _⟩ := verify_eq_ok.mp hv
  have horder : ∀ {b}, b ∈ graph.order ↔ (k.flow entry).Reached b := mem_order_iff_reached hg hentry
  obtain ⟨l, hl, hblocks, hlive⟩ := exists_liveness hv hg hentry
  obtain ⟨points, hpoints, hsome, hall⟩ := points_eq_ok (φ := k.flow entry) hv hg hblocks fun b hb v => by
    rw [(hlive b hb v).2, liveAt_nil]
  have hbits : ∀ s, ∃ n, s ∈ points → k.varyingBits d s = .ok n ∧
      ∃ b ∈ graph.order, ∃ is, is <:+ k.instsOf b ∧ k.VaryingBits d (k.flow entry) b is n := fun s => by
    by_cases hs : s ∈ points
    · obtain ⟨b, hb, is, his, hshows⟩ := hsome s hs
      obtain ⟨n, hn, hvarying⟩ := varyingBits_eq_ok d hshows
      exact ⟨n, fun _ => ⟨hn, b, hb, is, his, hvarying⟩⟩
    · exact ⟨0, fun h => absurd h hs⟩
  choose bitsOf hbits using hbits
  obtain ⟨first, hfirst, _⟩ := hall entry (horder.mpr .refl) [] nil_suffix
  have hmost := isGreatest_foldl_max (mem_map_of_mem (f := bitsOf) hfirst)
  have hadvice : k.widthAdvice d t g = do
      let width ← t.widestFit ((points.map bitsOf).foldl max 0)
      return ⟨Liveness.peak points, t.pressure ((points.map bitsOf).foldl max 0) g.lanes, width⟩ := by
    rw [widthAdvice, hl, ok_bind, hpoints, ok_bind, mapM_of_ok fun s hs => (hbits s hs).1,
      ok_bind]
  generalize (points.map bitsOf).foldl max 0 = bits at hmost hadvice
  have hfits : t.fits bits (2 ^ 31) = true ↔ 2 ^ 31 ≤ t.maxFixedWidth ∧ t.pressure bits (2 ^ 31) ≤ t.registers := by
    rw [Target.fits_iff, Target.pressure_eq]
  obtain ⟨w, hw⟩ := t.exists_isWidest bits
  refine ⟨Liveness.peak points, bits, w, ⟨?_, ?_⟩, hw, ?_, ?_⟩
  · obtain ⟨s, hs, heq⟩ := mem_map.mp hmost.1
    obtain ⟨_, b, hb, is, his, hvarying⟩ := hbits s hs
    exact ⟨b, is, horder.mp hb, his, heq ▸ hvarying⟩
  · rintro n ⟨b, is, hb, his, hvarying⟩
    obtain ⟨s, hs, hshows⟩ := hall b (horder.mpr hb) is his
    obtain ⟨n', hn', hvarying'⟩ := varyingBits_eq_ok d hshows
    obtain rfl : bitsOf s = n' := Except.ok.inj ((hbits s hs).1.symm.trans hn')
    exact hvarying.unique hvarying' ▸ hmost.2 (mem_map_of_mem hs)
  · rw [hadvice, ← hfits, ← Target.widestFit_eq_overflow]
    cases t.widestFit bits <;> simp [bind, Except.bind, pure, Except.pure]
  · have hno : t.fits bits (2 ^ 31) = false ↔ t.maxFixedWidth < 2 ^ 31 ∨ t.registers < t.pressure bits (2 ^ 31) := by
      rw [← Bool.not_eq_true, hfits, not_and_or, Nat.not_le, Nat.not_le]
    rw [hadvice, ← hno, ← Target.widestFit_iff hregisters hw, bind_eq_ok]
    simp [pure_eq_ok]

def fourRegisters : Target := { Target.generic256 with registers := 4 }

/-- A countdown that varies has a number of 32 bits and a truth value of 8 live at once. Four registers of 256 bits
hold 16 lanes of them, and 256 lanes need as many registers as a lane has bits. -/
theorem widest_countDown : fourRegisters.IsWidest 40 16 ∧
    countDown.widthAdvice ⟨.ofList [1, 2, 3], ∅, []⟩ fourRegisters ⟨256, false⟩ = .ok ⟨3, 40, 16⟩ := by
  have hvalue : countDown.widthAdvice ⟨.ofList [1, 2, 3], ∅, []⟩ fourRegisters ⟨256, false⟩ = .ok ⟨3, 40, 16⟩ := by
    decide +kernel
  obtain ⟨peak, bits, w, _, hw, _, hadvice⟩ := @widthAdvice_of_verify countDown 0 (by decide +kernel) (by decide)
    ⟨.ofList [1, 2, 3], ∅, []⟩ fourRegisters (by decide) ⟨256, false⟩
  have hfound := hadvice.mpr ⟨.inl (by decide), .inl (by decide)⟩
  obtain ⟨-, hpressure, rfl⟩ := WidthAdvice.mk.inj (Except.ok.inj (hvalue.symm.trans hfound))
  have hbits : 40 = min ((bits * 256 + 256 - 1) / 256) 0xffffffff := hpressure
  obtain rfl : bits = 40 := by omega
  exact ⟨hw, hvalue⟩

/-- A kernel that does nothing. -/
def retOnly : Kernel where
  name := "ret_only"
  ret := .void
  insts := ⟨#[⟨.ret none, none, 0, false⟩]⟩
  blocks := ⟨#[⟨"e", [0]⟩]⟩
  layout := [0]

/-- It needs no registers, so that the widest group of 32 bits would do. The search overflows. -/
theorem overflow_retOnly : retOnly.verify = .ok () ∧
    Target.IsWidest { Target.generic256 with maxFixedWidth := 0xffffffff } 0 (2 ^ 31) ∧
    retOnly.widthAdvice ⟨∅, ∅, []⟩ { Target.generic256 with maxFixedWidth := 0xffffffff } ⟨8, false⟩ = .error .overflow := by
  refine ⟨by decide +kernel, ⟨⟨⟨31, rfl⟩, by decide, .inr (by decide)⟩, ?_⟩, by decide +kernel⟩
  rintro _ ⟨⟨n, rfl⟩, hle, _⟩
  refine Nat.pow_le_pow_right (by decide) (Nat.not_lt.mp fun hn => ?_)
  exact absurd ((Nat.pow_le_pow_right (by decide) hn).trans hle) (by decide)

end Kernel

end Spmd
