import Spmd.Fault

/-!
# Index sets

A set of small indices, packed into words of 64 bits. Inserting adds words up to that of the index, uniting
adds words up to the other set's, and nothing gives words back. Equality of two sets compares all words, so
two sets with the same members are equal only if they have as many words; `contains` is the view that
forgets it.
-/

namespace Spmd

/-- Bit `b` of word `n` tells whether `64 * n + b` is a member. -/
structure IndexSet where
  words : Array UInt64
deriving DecidableEq

namespace IndexSet

/-- The empty set with no room. -/
def empty : IndexSet := ⟨#[]⟩

instance : EmptyCollection IndexSet := ⟨empty⟩
instance : Inhabited IndexSet := ⟨empty⟩

/-- The empty set with room for the indices below `n`. -/
def withCapacity (n : Nat) : IndexSet := ⟨Array.replicate ((n + 63) / 64) 0⟩

/-- How many indices there is room for. -/
def capacity (s : IndexSet) : Nat := 64 * s.words.size

/-- The word with one bit set. -/
def mask (bit : Nat) : UInt64 := 1 <<< UInt64.ofNat bit

def hasBit (word : UInt64) (bit : Nat) : Bool := word &&& mask bit != 0

def contains (s : IndexSet) (i : Nat) : Bool := s.words[i / 64]?.any (hasBit · (i % 64))

/-- The same members in at least `n` words. -/
def grow (s : IndexSet) (n : Nat) : IndexSet := ⟨s.words ++ Array.replicate (n - s.words.size) 0⟩

/-- Inserts, and says whether the index is new. -/
def insertNew (s : IndexSet) (i : Nat) : Bool × IndexSet :=
  let words := (s.grow (i / 64 + 1)).words
  let word := words.getD (i / 64) 0
  (!hasBit word (i % 64), ⟨words.setIfInBounds (i / 64) (word ||| mask (i % 64))⟩)

def insert (s : IndexSet) (i : Nat) : IndexSet :=
  let (_, t) := s.insertNew i
  t

/-- Erases, and says whether the index was there. -/
def eraseFound (s : IndexSet) (i : Nat) : Bool × IndexSet :=
  match s.words[i / 64]? with
  | none => (false, s)
  | some word => (hasBit word (i % 64), ⟨s.words.setIfInBounds (i / 64) (word &&& ~~~mask (i % 64))⟩)

def erase (s : IndexSet) (i : Nat) : IndexSet :=
  let (_, t) := s.eraseFound i
  t

/-- Adds the bits of a word to the word in its place, and notes whether that changed it. -/
def uniteWord (r : Bool × Array UInt64) (x : UInt64 × Nat) : Bool × Array UInt64 :=
  let old := r.2.getD x.2 0
  let merged := old ||| x.1
  (r.1 || merged != old, r.2.setIfInBounds x.2 merged)

/-- Unites word by word, and says whether a word has changed. -/
def unionNew (s t : IndexSet) : Bool × IndexSet :=
  let r := t.words.toList.zipIdx.foldl uniteWord (false, (s.grow t.words.size).words)
  (r.1, ⟨r.2⟩)

def union (s t : IndexSet) : IndexSet := (s.unionNew t).2

/-- The members that are not in `t`. -/
def diff (s t : IndexSet) : IndexSet := ⟨s.words.mapIdx fun n w => t.words[n]?.elim w (w &&& ~~~·)⟩

def isEmpty (s : IndexSet) : Bool := s.words.all (· == 0)

/-- How many members there are: the bits that are set, word by word. -/
def count (s : IndexSet) : Nat := total (s.words.toList.map (·.toBitVec.cpop.toNat))

/-- The indices of the bits that are set in a word, given the word's place. -/
def bitsOf (x : UInt64 × Nat) : List Nat :=
  (List.range 64).filterMap fun b => if hasBit x.1 b then some (64 * x.2 + b) else none

/-- The members in ascending order. -/
def toList (s : IndexSet) : List Nat := s.words.toList.zipIdx.flatMap bitsOf

/-- Inserts all of a list. -/
def insertAll (s : IndexSet) (is : List Nat) : IndexSet := is.foldl insert s

def ofList (is : List Nat) : IndexSet := empty.insertAll is

/-! ## Bits of words -/

variable {s t : IndexSet} {i j b : Nat}

theorem getLsbD_mask (hb : b < 64) : (mask b).toBitVec.getLsbD j = decide (b = j) := by
  have hshift : (mask b).toBitVec = 1#64 <<< b := by
    have hbit : (UInt64.ofNat b).toBitVec.toNat % 64 = b := by
      rw [UInt64.toBitVec_ofNat', BitVec.toNat_ofNat]
      omega
    rw [mask, UInt64.toBitVec_shiftLeft, BitVec.shiftLeft_eq', BitVec.toNat_umod]
    exact congrArg (1#64 <<< ·) hbit
  rw [hshift, BitVec.getLsbD_shiftLeft, BitVec.getLsbD_one]
  by_cases h : b = j
  · subst h
    simp [hb]
  · by_cases hlt : j < b
    · simp [hlt, h]
    · have : j - b ≠ 0 := by omega
      simp [h, this]

theorem hasBit_eq (w : UInt64) (hb : b < 64) : hasBit w b = w.toBitVec.getLsbD b := by
  have hzero : w &&& mask b = 0 ↔ w.toBitVec.getLsbD b = false := by
    rw [← UInt64.toBitVec_inj, UInt64.toBitVec_and]
    constructor
    · intro h
      have := congrArg (·.getLsbD b) h
      simpa [getLsbD_mask hb] using this
    · intro h
      refine BitVec.eq_of_getLsbD_eq fun j _ => ?_
      rw [BitVec.getLsbD_and, getLsbD_mask hb]
      by_cases hj : b = j
      · subst hj
        simp [h]
      · simp [hj]
  rw [hasBit, Bool.eq_iff_iff, bne_iff_ne, Ne, hzero, Bool.not_eq_false]

/-- The word at a place; past the end there are no bits. -/
theorem contains_eq (s : IndexSet) (i : Nat) :
    s.contains i = (s.words.getD (i / 64) 0).toBitVec.getLsbD (i % 64) := by
  rw [contains, Array.getD_eq_getD_getElem?]
  cases s.words[i / 64]? with
  | none => simp
  | some w => exact hasBit_eq w (Nat.mod_lt i (by decide))

theorem getD_grow (s : IndexSet) (n m : Nat) : (s.grow n).words.getD m 0 = s.words.getD m 0 := by
  simp only [grow, Array.getD_eq_getD_getElem?, Array.getElem?_append, Array.getElem?_replicate]
  split
  · rfl
  · rename_i h
    rw [Array.getElem?_eq_none (Nat.le_of_not_lt h)]
    split <;> rfl

theorem size_grow (s : IndexSet) (n : Nat) : (s.grow n).words.size = max s.words.size n := by
  rw [grow, Array.size_append, Array.size_replicate]
  omega

/-- A word is written in its place. -/
theorem getD_set {words : Array UInt64} {n : Nat} (hn : n < words.size) (w : UInt64) (m : Nat) :
    (words.setIfInBounds n w).getD m 0 = if n = m then w else words.getD m 0 := by
  rw [Array.getD_eq_getD_getElem?, Array.getElem?_setIfInBounds, if_pos hn]
  split
  · rfl
  · rw [Array.getD_eq_getD_getElem?]

theorem set_getD (words : Array UInt64) (n : Nat) : words.setIfInBounds n (words.getD n 0) = words := by
  by_cases hn : n < words.size
  · simp [Array.setIfInBounds, hn]
  · simp [Array.setIfInBounds, hn]

/-- Two indices have the same word and the same bit only if they are the same. -/
theorem eq_iff_word_bit : i = j ↔ i / 64 = j / 64 ∧ i % 64 = j % 64 := by omega

/-! ## Members after each operation -/

@[simp] theorem contains_empty (i : Nat) : contains ∅ i = false := by
  simp [contains, EmptyCollection.emptyCollection, empty]

theorem getD_withCapacity (n m : Nat) : (withCapacity n).words.getD m 0 = 0 := by
  rw [withCapacity, Array.getD_eq_getD_getElem?, Array.getElem?_replicate]
  split <;> rfl

@[simp] theorem contains_withCapacity (n i : Nat) : (withCapacity n).contains i = false := by
  rw [contains_eq, getD_withCapacity, UInt64.toBitVec_zero, BitVec.getLsbD_zero]

theorem contains_insert (s : IndexSet) (i j : Nat) : (s.insert i).contains j = (s.contains j || i == j) := by
  have hroom : i / 64 < (s.grow (i / 64 + 1)).words.size := by
    rw [size_grow]
    omega
  rw [insert, insertNew, contains_eq, contains_eq, getD_set hroom, getD_grow]
  split
  · rename_i hword
    rw [UInt64.toBitVec_or, BitVec.getLsbD_or, getLsbD_mask (Nat.mod_lt i (by decide)), hword]
    congr 1
    rw [Bool.eq_iff_iff, decide_eq_true_iff, beq_iff_eq, eq_iff_word_bit]
    omega
  · rename_i hword
    have : (i == j) = false := beq_eq_false_iff_ne.mpr fun h => hword (h ▸ rfl)
    rw [getD_grow, this, Bool.or_false]

theorem insertNew_fst (s : IndexSet) (i : Nat) : (s.insertNew i).1 = !s.contains i := by
  rw [insertNew, contains_eq, getD_grow, hasBit_eq _ (Nat.mod_lt i (by decide))]

theorem contains_erase (s : IndexSet) (i j : Nat) : (s.erase i).contains j = (s.contains j && !(i == j)) := by
  rw [erase, eraseFound]
  cases hword : s.words[i / 64]? with
  | none =>
    -- no index of a word that is not there is a member
    by_cases h : i = j
    · subst h
      simp [contains, hword]
    · simp [h]
  | some w =>
    obtain ⟨hlt, hw⟩ := Array.getElem?_eq_some_iff.mp hword
    have hget : s.words.getD (i / 64) 0 = w := by rw [Array.getD_eq_getD_getElem?, hword, Option.getD_some]
    rw [contains_eq, contains_eq, getD_set hlt]
    split
    · rename_i heq
      have hbit : j % 64 < 64 := Nat.mod_lt j (by decide)
      rw [← heq, hget, UInt64.toBitVec_and, UInt64.toBitVec_not, BitVec.getLsbD_and, BitVec.getLsbD_not,
        getLsbD_mask (Nat.mod_lt i (by decide)), decide_eq_true hbit, Bool.true_and]
      congr 2
      rw [Bool.eq_iff_iff, decide_eq_true_iff, beq_iff_eq, eq_iff_word_bit]
      omega
    · rename_i heq
      have : (i == j) = false := beq_eq_false_iff_ne.mpr fun h => heq (h ▸ rfl)
      rw [this, Bool.not_false, Bool.and_true]

theorem eraseFound_fst (s : IndexSet) (i : Nat) : (s.eraseFound i).1 = s.contains i := by
  rw [eraseFound, contains]
  cases s.words[i / 64]? with
  | none => rfl
  | some w => rfl

theorem size_erase (s : IndexSet) (i : Nat) : (s.erase i).words.size = s.words.size := by
  rw [erase, eraseFound]
  cases s.words[i / 64]? with
  | none => rfl
  | some w => exact Array.size_setIfInBounds

/-- Uniting with words from place `n` on: every word gets the bits of the one for its place, and a change is noted
exactly if there is one. -/
theorem foldl_uniteWord (ws : List UInt64) (n : Nat) (r : Bool × Array UInt64) (hroom : n + ws.length ≤ r.2.size) :
    ((ws.zipIdx n).foldl uniteWord r).2.size = r.2.size ∧
      (∀ m, ((ws.zipIdx n).foldl uniteWord r).2.getD m 0 =
        r.2.getD m 0 ||| if n ≤ m then ws.getD (m - n) 0 else 0) ∧
      (((ws.zipIdx n).foldl uniteWord r).1 = true ↔ r.1 = true ∨ ((ws.zipIdx n).foldl uniteWord r).2 ≠ r.2) := by
  induction ws generalizing n r with
  | nil => simp
  | cons w ws ih =>
    rw [List.length_cons] at hroom
    have hn : n < r.2.size := by omega
    have hsize : (uniteWord r (w, n)).2.size = r.2.size := Array.size_setIfInBounds
    have hword : ∀ m, (uniteWord r (w, n)).2.getD m 0 = if n = m then r.2.getD n 0 ||| w else r.2.getD m 0 :=
      getD_set hn _
    obtain ⟨ihsize, ihwords, ihchanged⟩ := ih (n + 1) (uniteWord r (w, n)) (by omega)
    rw [List.zipIdx_cons, List.foldl_cons]
    refine ⟨ihsize.trans hsize, fun m => ?_, ?_⟩
    · rw [ihwords, hword]
      rcases Nat.lt_trichotomy m n with hlt | rfl | hgt
      · rw [if_neg (by omega), if_neg (by omega), if_neg (by omega)]
      · simp only [if_true, Nat.le_refl, Nat.not_succ_le_self, if_false, UInt64.or_zero, Nat.sub_self]
        rfl
      · rw [if_neg (by omega), if_pos (by omega), if_pos (by omega), show m - n = m - (n + 1) + 1 by omega]
        rfl
    · have hnoted : (uniteWord r (w, n)).1 = true ↔ r.1 = true ∨ r.2.getD n 0 ||| w ≠ r.2.getD n 0 := by
        rw [uniteWord, Bool.or_eq_true, bne_iff_ne]
      rw [ihchanged, hnoted]
      by_cases hsame : r.2.getD n 0 ||| w = r.2.getD n 0
      · have hkept : (uniteWord r (w, n)).2 = r.2 := by
          simp only [uniteWord, hsame, set_getD]
        simp only [hsame, hkept, ne_eq, not_true, or_false]
      · -- later words do not touch this one
        have hlast : ((ws.zipIdx (n + 1)).foldl uniteWord (uniteWord r (w, n))).2.getD n 0 = r.2.getD n 0 ||| w := by
          rw [ihwords, hword, if_pos rfl, if_neg (by omega), UInt64.or_zero]
        have hne : ((ws.zipIdx (n + 1)).foldl uniteWord (uniteWord r (w, n))).2 ≠ r.2 := fun h =>
          hsame (hlast.symm.trans (by rw [h]))
        simp only [hsame, hne, ne_eq, not_false_eq_true, or_true, true_or]

theorem contains_union (s t : IndexSet) (j : Nat) :
    (s.union t).contains j = (s.contains j || t.contains j) := by
  have hroom : 0 + t.words.toList.length ≤ (s.grow t.words.size).words.size := by
    rw [size_grow, Array.length_toList]
    omega
  obtain ⟨-, hwords, -⟩ := foldl_uniteWord t.words.toList 0 (false, (s.grow t.words.size).words) hroom
  have hword := hwords (j / 64)
  rw [if_pos (Nat.zero_le _), Nat.sub_zero, getD_grow] at hword
  rw [contains_eq, contains_eq, contains_eq, union, unionNew, hword, UInt64.toBitVec_or, BitVec.getLsbD_or]
  congr 2
  simp [List.getD_eq_getElem?_getD, Array.getD_eq_getD_getElem?]

theorem size_union (s t : IndexSet) : (s.union t).words.size = max s.words.size t.words.size := by
  rw [union, unionNew, (foldl_uniteWord _ 0 (false, (s.grow t.words.size).words) ?_).1, size_grow]
  rw [size_grow, Array.length_toList]
  omega

theorem contains_diff (s t : IndexSet) (j : Nat) :
    (s.diff t).contains j = (s.contains j && !t.contains j) := by
  have hbit : decide (j % 64 < 64) = true := decide_eq_true (Nat.mod_lt j (by decide))
  rw [contains_eq, contains_eq, contains_eq, diff]
  simp only [Array.getD_eq_getD_getElem?, Array.getElem?_mapIdx]
  cases s.words[j / 64]? with
  | none => simp
  | some w =>
    cases t.words[j / 64]? with
    | none => simp
    | some w' => simp [hbit]

/-- Sets with as many words and the same members are the same. -/
theorem eq_of_contains (hsize : s.words.size = t.words.size) (h : ∀ i, s.contains i = t.contains i) :
    s = t := by
  obtain ⟨words⟩ := s
  obtain ⟨words'⟩ := t
  congr 1
  refine Array.ext hsize fun n hn hn' => ?_
  rw [← UInt64.toBitVec_inj]
  refine BitVec.eq_of_getLsbD_eq fun b hb => ?_
  have hsame := h (64 * n + b)
  have hdiv : (64 * n + b) / 64 = n := by omega
  have hmod : (64 * n + b) % 64 = b := by omega
  rw [contains_eq, contains_eq, hdiv, hmod] at hsame
  simpa [hn, hn'] using hsame

/-! ## Members in order -/

theorem bitsOf_eq (w : UInt64) (n : Nat) :
    bitsOf (w, n) = ((List.range 64).filter (hasBit w)).map (64 * n + ·) := by
  rw [bitsOf]
  generalize List.range 64 = bits
  induction bits with
  | nil => rfl
  | cons b bits ih => by_cases hb : hasBit w b <;> simp [hb, ih]

/-- The bits of a run of words from place `n` on, in order, are the indices there that are members. -/
theorem flatMap_bitsOf (ws : List UInt64) (n : Nat) :
    (ws.zipIdx n).flatMap bitsOf =
      (List.range' (64 * n) (64 * ws.length)).filter fun i => hasBit (ws.getD (i / 64 - n) 0) (i % 64) := by
  induction ws generalizing n with
  | nil => rfl
  | cons w ws ih =>
    have hsplit : List.range' (64 * n) (64 * (ws.length + 1)) =
        List.range' (64 * n) 64 ++ List.range' (64 * (n + 1)) (64 * ws.length) := by
      rw [Nat.mul_succ, Nat.add_comm, ← List.range'_append, Nat.one_mul, Nat.mul_succ]
    rw [List.zipIdx_cons, List.flatMap_cons, List.length_cons, hsplit, List.filter_append, ih]
    congr 1
    · rw [bitsOf_eq, List.range'_eq_map_range, List.filter_map]
      refine congrArg (List.map _) (List.filter_congr fun b hb => ?_)
      have hb := List.mem_range.mp hb
      have hdiv : (64 * n + b) / 64 - n = 0 := by omega
      have hmod : (64 * n + b) % 64 = b := by omega
      rw [Function.comp_apply, hdiv, hmod]
      rfl
    · refine List.filter_congr fun i hi => ?_
      have hi := (List.mem_range'_1.mp hi).1
      rw [show i / 64 - n = i / 64 - (n + 1) + 1 by omega]
      rfl

theorem toList_eq (s : IndexSet) : s.toList = (List.range s.capacity).filter s.contains := by
  rw [toList, flatMap_bitsOf, List.range_eq_range', Array.length_toList]
  refine List.filter_congr fun i _ => ?_
  rw [contains_eq, ← hasBit_eq _ (Nat.mod_lt i (by decide))]
  simp [List.getD_eq_getElem?_getD, Array.getD_eq_getD_getElem?]

theorem toNat_cpop (w : UInt64) : w.toBitVec.cpop.toNat = ((List.range 64).filter (hasBit w)).length := by
  have hbits : ∀ k ≤ 64, w.toBitVec.cpopNatRec k 0 = ((List.range k).filter (hasBit w)).length := by
    intro k hk
    induction k with
    | zero => rfl
    | succ k ih =>
      rw [BitVec.cpopNatRec_succ, BitVec.cpopNatRec_add, ih (by omega), List.range_succ,
        List.filter_append, List.length_append, ← hasBit_eq w (by omega)]
      cases hb : hasBit w k <;> simp [hb]
  rw [BitVec.toNat_cpop, hbits 64 (Nat.le_refl _)]

/-- As many are counted as are listed. -/
theorem count_eq (s : IndexSet) : s.count = s.toList.length := by
  have hwords : ∀ (ws : List UInt64) (n : Nat),
      total (ws.map (·.toBitVec.cpop.toNat)) = ((ws.zipIdx n).flatMap bitsOf).length := by
    intro ws
    induction ws with
    | nil => exact fun _ => rfl
    | cons w ws ih =>
      intro n
      rw [List.map_cons, total_cons, ih (n + 1), toNat_cpop, List.zipIdx_cons, List.flatMap_cons,
        List.length_append, bitsOf_eq, List.length_map]
  exact hwords _ 0

/-- A member has a bit. -/
theorem lt_of_contains (h : s.contains i = true) : i < s.capacity := by
  rcases Nat.lt_or_ge (i / 64) s.words.size with hlt | hge
  · rw [capacity]
    omega
  · simp [contains, Array.getElem?_eq_none hge] at h

@[simp] theorem mem_toList : i ∈ s.toList ↔ s.contains i = true := by
  rw [toList_eq, List.mem_filter, List.mem_range]
  exact ⟨fun h => h.2, fun h => ⟨lt_of_contains h, h⟩⟩

theorem pairwise_toList (s : IndexSet) : s.toList.Pairwise (· < ·) := by
  rw [toList_eq]
  exact List.pairwise_lt_range.filter _

theorem toList_erase (s : IndexSet) (i : Nat) : (s.erase i).toList = s.toList.filter fun j => !(i == j) := by
  rw [toList_eq, toList_eq, capacity, size_erase, List.filter_filter]
  refine List.filter_congr fun j _ => ?_
  rw [contains_erase, Bool.and_comm]

/-- Erasing a member leaves fewer. -/
theorem count_erase_lt (h : s.contains i = true) : (s.erase i).count < s.count := by
  rw [count_eq, count_eq, toList_erase]
  exact List.length_filter_lt_length_iff_exists.mpr ⟨i, mem_toList.mpr h, by simp⟩

/-- Erasing a member takes its part out of a sum over all members. -/
theorem total_erase_le {f : Nat → Nat} (h : s.contains i = true) :
    total ((s.erase i).toList.map f) + f i ≤ total (s.toList.map f) := by
  have hfilter : ∀ l : List Nat, total ((l.filter fun j => !(i == j)).map f) ≤ total (l.map f) ∧
      (i ∈ l → total ((l.filter fun j => !(i == j)).map f) + f i ≤ total (l.map f)) := by
    intro l
    induction l with
    | nil => simp
    | cons j l ih =>
      obtain ⟨hle, hmem⟩ := ih
      by_cases hij : i = j
      · subst hij
        simp only [List.filter_cons, beq_self_eq_true, Bool.not_true, Bool.false_eq_true, if_false,
          List.map_cons, total_cons]
        omega
      · have hne : (!(i == j)) = true := by simp [hij]
        simp only [List.filter_cons, hne, if_true, List.map_cons, total_cons, List.mem_cons, hij, false_or]
        refine ⟨by omega, fun hi => ?_⟩
        have := hmem hi
        omega
  rw [toList_erase]
  exact (hfilter s.toList).2 (mem_toList.mpr h)

end IndexSet

end Spmd
