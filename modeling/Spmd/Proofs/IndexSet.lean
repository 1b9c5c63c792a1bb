import Mathlib.Data.Finset.Card
import Mathlib.Data.List.Sort
import Spmd.IndexSet

/-!
# Index sets as finite sets

An index set stands for the finite set of its members (`IndexSet.members`), however many words it has.
Several sets are worked on by a sequence of calls. One call does to the words what the operation on
finite sets does to the members, and tells whether they changed (`Call.members_perform`,
`Call.perform_fst`), so a sequence of calls cannot be told from the same sequence on finite sets
(**`IndexSet.run_eq_runSets`**). Sets with as many words and the same members are the same.
-/

namespace Spmd

namespace IndexSet

variable {s t : IndexSet} {i : Nat}

def members (s : IndexSet) : Finset Nat := s.toList.toFinset

@[simp] theorem mem_members : i ∈ s.members ↔ s.contains i = true := by
  rw [members, List.mem_toFinset, mem_toList]

theorem members_withCapacity (n : Nat) : (withCapacity n).members = ∅ := by
  ext j
  simp

theorem members_insert (s : IndexSet) (i : Nat) : (s.insert i).members = Insert.insert i s.members := by
  ext j
  rw [mem_members, contains_insert, Bool.or_eq_true, beq_iff_eq, Finset.mem_insert, mem_members, or_comm, eq_comm]

theorem members_erase (s : IndexSet) (i : Nat) : (s.erase i).members = s.members.erase i := by
  ext j
  rw [mem_members, contains_erase, Bool.and_eq_true, Bool.not_eq_true', beq_eq_false_iff_ne, Finset.mem_erase,
    mem_members, and_comm, ne_comm]

theorem members_union (s t : IndexSet) : (s.union t).members = s.members ∪ t.members := by
  ext j
  simp [contains_union]

theorem members_diff (s t : IndexSet) : (s.diff t).members = s.members \ t.members := by
  ext j
  simp [contains_diff]

theorem members_eq_iff : s.members = t.members ↔ ∀ i, s.contains i = t.contains i := by
  rw [Finset.ext_iff]
  refine forall_congr' fun i => ?_
  rw [mem_members, mem_members]
  exact Bool.eq_iff_iff.symm

/-- All words are zero in the empty set only. -/
theorem isEmpty_iff : s.isEmpty = true ↔ s.members = ∅ := by
  have hsize : (withCapacity s.capacity).words.size = s.words.size := by
    rw [withCapacity, Array.size_replicate, capacity]
    omega
  have hzero : s.isEmpty = true ↔ s = withCapacity s.capacity := by
    rw [isEmpty, Array.all_eq_true]
    constructor
    · intro h
      refine congrArg mk (Array.ext hsize.symm fun n hn _ => ?_)
      rw [beq_iff_eq.mp (h n hn), Array.getElem_replicate]
    · intro h n hn
      have hword := (congrArg (·.words.getD n 0) h).trans (getD_withCapacity _ n)
      simpa [hn] using hword
  rw [hzero]
  constructor
  · intro h
    exact (congrArg members h).trans (members_withCapacity _)
  · intro h
    exact eq_of_contains hsize.symm (members_eq_iff.mp (h.trans (members_withCapacity _).symm))

/-- A word changes only if there is a new member. -/
theorem unionNew_fst (s t : IndexSet) :
    (s.unionNew t).1 = true ↔ (s.union t).members ≠ s.members := by
  have hroom : 0 + t.words.toList.length ≤ (s.grow t.words.size).words.size := by
    rw [size_grow, Array.length_toList]
    omega
  have hchanged := (foldl_uniteWord t.words.toList 0 (false, (s.grow t.words.size).words) hroom).2.2
  have hgrown : (s.grow t.words.size).members = s.members := members_eq_iff.mpr fun i => by
    rw [contains_eq, contains_eq, getD_grow]
  rw [unionNew, hchanged, ← hgrown]
  refine (or_iff_right Bool.false_ne_true).trans (not_congr ⟨fun h => ?_, fun h => ?_⟩)
  · exact congrArg (members ∘ mk) h
  · exact congrArg words (eq_of_contains (by rw [size_union, size_grow]) (members_eq_iff.mp h))

theorem card_members (s : IndexSet) : s.members.card = s.count := by
  rw [count_eq]
  exact List.toFinset_card_of_nodup (s.pairwise_toList.imp Nat.ne_of_lt)

/-! ## Calls -/

/-- What can be asked of a set; `t` is the number of another set. -/
inductive Call where
  | insert (i : Nat)
  | erase (i : Nat)
  | union (t : Nat)
  | diff (t : Nat)

namespace Call

variable {σ : Nat → IndexSet}

/-- Carries out a call on a set, with what it answers. -/
def perform (σ : Nat → IndexSet) (s : IndexSet) : Call → Option Bool × IndexSet
  | insert i => (s.insertNew i).map some id
  | erase i => (s.eraseFound i).map some id
  | union t => (s.unionNew (σ t)).map some id
  | diff t => (none, s.diff (σ t))

/-- The same on finite sets. -/
def on (σ : Nat → Finset Nat) (s : Finset Nat) : Call → Finset Nat
  | insert i => Insert.insert i s
  | erase i => s.erase i
  | union t => s ∪ σ t
  | diff t => s \ σ t

/-- Every call but `diff` answers whether the set has changed. -/
def answer (σ : Nat → Finset Nat) (s : Finset Nat) : Call → Option Bool
  | diff _ => none
  | c => some (decide (c.on σ s ≠ s))

theorem members_perform (σ : Nat → IndexSet) (s : IndexSet) (c : Call) :
    (c.perform σ s).2.members = c.on (fun r => (σ r).members) s.members := by
  cases c with
  | insert i => exact members_insert s i
  | erase i => exact members_erase s i
  | union t => exact members_union s (σ t)
  | diff t => exact members_diff s (σ t)

theorem perform_fst (σ : Nat → IndexSet) (s : IndexSet) (c : Call) :
    (c.perform σ s).1 = c.answer (fun r => (σ r).members) s.members := by
  cases c with
  | insert i =>
    rw [perform, Prod.map_fst, insertNew_fst]
    simp [answer, on]
  | erase i =>
    rw [perform, Prod.map_fst, eraseFound_fst]
    simp [answer, on]
  | union t =>
    have hflag : (s.unionNew (σ t)).1 = decide (s.members ∪ (σ t).members ≠ s.members) := by
      rw [Bool.eq_iff_iff, unionNew_fst, members_union, decide_eq_true_iff]
    rw [perform, Prod.map_fst, hflag]
    rfl
  | diff t => rfl

end Call

/-- Carries out calls one after another, each on the set of its number. -/
def run (σ : Nat → IndexSet) : List (Nat × Call) → List (Option Bool) × (Nat → IndexSet)
  | [] => ([], σ)
  | (r, c) :: calls =>
    let (answer, s) := c.perform σ (σ r)
    let (answers, σ) := run (Function.update σ r s) calls
    (answer :: answers, σ)

/-- The same on finite sets. -/
def runSets (σ : Nat → Finset Nat) : List (Nat × Call) → List (Option Bool) × (Nat → Finset Nat)
  | [] => ([], σ)
  | (r, c) :: calls =>
    let (answers, σ') := runSets (Function.update σ r (c.on σ (σ r))) calls
    (c.answer σ (σ r) :: answers, σ')

/-- **Calls on index sets do what they do on finite sets.** -/
theorem run_eq_runSets (calls : List (Nat × Call)) (σ : Nat → IndexSet) :
    ((run σ calls).1, fun r => ((run σ calls).2 r).members) = runSets (fun r => (σ r).members) calls := by
  induction calls generalizing σ with
  | nil => rfl
  | cons call calls ih =>
    obtain ⟨r, c⟩ := call
    have hstep : (fun r' => (Function.update σ r (c.perform σ (σ r)).2 r').members) =
        Function.update (fun r => (σ r).members) r (c.on (fun r => (σ r).members) (σ r).members) := by
      rw [← Call.members_perform]
      exact Function.comp_update members σ r _
    have hrest := ih (Function.update σ r (c.perform σ (σ r)).2)
    rw [hstep] at hrest
    simp only [run, runSets, ← hrest, Call.perform_fst]

/-- **Index sets are finite sets.** From empty sets of any capacities, any sequence of calls on any indices gives the
answers that it gives on finite sets, which say whether the set has changed, and leaves their members. What is listed
are the members in ascending order, as many as are counted, and a set is empty if it has none. Equal sets have equal
members; sets with equal members and as many words are equal. -/
theorem index_sets_refine (capacity : Nat → Nat) (calls : List (Nat × Call)) :
    ∃ answers σ sets, run (fun r => withCapacity (capacity r)) calls = (answers, σ) ∧
      runSets (fun _ => ∅) calls = (answers, sets) ∧
      (∀ r i, (σ r).contains i = true ↔ i ∈ sets r) ∧
      (∀ r, ((σ r).isEmpty = true ↔ sets r = ∅) ∧ (σ r).count = (sets r).card ∧ (σ r).toList.length = (σ r).count ∧
        (σ r).toList.Pairwise (· < ·) ∧ (σ r).toList.toFinset = sets r) ∧
      ∀ r t, (σ r = σ t → sets r = sets t) ∧ ((σ r).words.size = (σ t).words.size → sets r = sets t → σ r = σ t) := by
  have hsets := run_eq_runSets calls fun r => withCapacity (capacity r)
  simp only [members_withCapacity] at hsets
  exact ⟨_, _, _, rfl, hsets.symm, fun r i => mem_members.symm,
    fun r => ⟨isEmpty_iff, (card_members _).symm, (count_eq _).symm, pairwise_toList _, rfl⟩,
    fun r t => ⟨congrArg members, fun hsize h => eq_of_contains hsize (members_eq_iff.mp h)⟩⟩

end IndexSet

end Spmd
