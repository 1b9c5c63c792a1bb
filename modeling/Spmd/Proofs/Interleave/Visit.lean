import Spmd.Proofs.Interleave.Regular

/-!
# Passing the members of a group

A group takes up a part of its block, from its first member to its last (`InterleaveGroup.span`). A run that passes this
part and bears out what merging relies on shows what the members have in common:

* **`exists_visit`** — the frame at the last member tells where the stretch of the group lies and what is stored there
  (`Laid`, `Delivers`), and all bytes of the stretch belong to one object.
* **`RegularAt.clear`** — what stands between the members and lets them pass does not touch the stretch.
-/

namespace Spmd

open Success List Kernel InterleaveGroup
open Option (any_eq_true map_eq_some_iff mem_unique some)

variable {b : BlockId} {k : Kernel} {root : MemRoot} {classify : Classifier} {i : InstId} {ptr v : ValueId}
  {isStore : Bool} {post pre rest : List InstId} {φ : Flow} {f f0 f1 : Frame} {t : Stretch}

/-! ## The part of a block that a group takes up -/

namespace InterleaveGroup.Covers

variable {g : InterleaveGroup} (hg : g.Covers k b)

include hg

/-- A group lies between the phis and the terminator of its block. -/
theorem exists_body (hv : k.verify = .ok ()) (hb : b ∈ k.layout) {body : List InstId} {last : InstId}
    (hbody : (k.instsOf b).filter (fun i => !k.isPhi i) = body ++ [last]) :
    ∃ pre post, body = pre ++ (g.span k b ++ post) ∧
      ∃ phis, k.instsOf b = phis ++ (pre ++ (g.span k b ++ (post ++ [last]))) := by
  obtain ⟨body', last', heq, hfilter, hphis, _, _, hterm⟩ := todo_of_verify hv hb
  obtain ⟨rfl, hlast⟩ := append_inj' (hbody.symm.trans hfilter) rfl
  obtain rfl := (cons.inj hlast).1
  obtain ⟨pre, post, hsplit, ⟨rest, hrest⟩, ⟨front, hfront⟩, _⟩ := hg.split
  have hfirst := (first_spec hg.ne_nil).1
  have hlast := (last_spec hg.ne_nil).1
  -- the first member is no phi, so all phis stand in front of it
  obtain ⟨pre', rfl, hbehind⟩ : ∃ pre', pre = k.leadingPhis b ++ pre' ∧ body ++ [last] = pre' ++ (g.span k b ++ post) := by
    rcases append_eq_append_iff.mp (heq.symm.trans hsplit) with ⟨pre', hpre, hbody⟩ | ⟨phis, hleading, hspan⟩
    · exact ⟨pre', hpre, hbody⟩
    · cases phis with
      | nil => exact ⟨[], by rw [hleading]; simp, by rw [hspan]; rfl⟩
      | cons i phis =>
        rw [hrest] at hspan
        obtain ⟨rfl, _⟩ := cons.inj hspan
        have hphi := hphis g.first.1.inst (by rw [hleading]; simp)
        obtain ⟨instr, hinstr, hyes⟩ := (any_eq_true _ _).mp hphi
        cases (hg.plain hfirst hinstr).1.symm.trans hyes
  -- the last member is no terminator, so the terminator stands behind it
  rcases eq_nil_or_concat' post with rfl | ⟨post', t, rfl⟩
  · rw [hfront, append_nil, ← append_assoc] at hbehind
    obtain ⟨_, heq'⟩ := append_inj' hbehind rfl
    rw [(cons.inj heq').1] at hterm
    obtain ⟨instr, hinstr, hyes⟩ := (any_eq_true _ _).mp hterm
    cases (hg.plain hlast hinstr).2.symm.trans hyes
  · rw [← append_assoc, ← append_assoc] at hbehind
    obtain ⟨hbody', heq'⟩ := append_inj' hbehind rfl
    obtain rfl := (cons.inj heq').1
    refine ⟨pre', post', by rw [hbody', append_assoc], k.leadingPhis b, ?_⟩
    rw [hsplit]
    simp

/-- Members of one offset are one. -/
theorem eq_of_offset_eq {m n : StridedAccess × Nat} (hm : m ∈ g.members) (hn : n ∈ g.members) (h : m.2 = n.2) : m = n := by
  refine inj_on_of_nodup_map (f := (·.2)) ?_ hm hn h
  rw [hg.offsets]
  exact nodup_range

/-- Every position of the stretch is a place of a member. -/
theorem exists_place {n : Nat} (hn : n < g.size) :
    ∃ m ∈ g.members, ∃ l < g.kind.lanes, n = l * g.kind.stride.toNat + m.2 := by
  have htwo := hg.kind.two_le
  obtain ⟨m, hget, hm⟩ := hg.getElem?_offset (Nat.mod_lt n (show 0 < g.kind.stride.toNat by omega))
  refine ⟨m, mem_of_getElem? hget, n / g.kind.stride.toNat, Nat.div_lt_of_lt_mul hn, ?_⟩
  rw [hm, Nat.div_add_mod']

/-- All members lead into the object that the first one leads into. -/
theorem memoryRoot_eq (hs : k.Sound φ) (hreach : ∀ b ∈ k.layout, φ.Reached b) (hb : b ∈ k.layout)
    (hroot : k.memoryRoot g.first.1.ptr = .ok root) {m : StridedAccess × Nat} (hm : m ∈ g.members) :
    k.memoryRoot m.1.ptr = .ok root := by
  obtain ⟨least, hleast⟩ := hg.spaced
  have hkind := hg.kind.typed_ptr hs hb hg.anchor
  have hsame : ∀ m ∈ g.members, k.memoryRoot m.1.ptr = k.memoryRoot g.kind.ptr := fun m hm =>
    hs.memoryRoot_eq_of_distance? hreach hkind ((hg.strided hm).typed_ptr hs hb (hg.mem_instsOf hm)) (hleast m hm)
  rw [hsame m hm, ← hsame _ (first_spec hg.ne_nil).1, hroot]

end InterleaveGroup.Covers

/-- The pointer behind an access to elements that lie in a row. -/
def Instr.rowStart? : Instr → Option ValueId
  | .load ptr .. | .store ptr .. | .strideLoad ptr .. | .strideStore ptr .. => some ptr
  | _ => none

namespace Kernel

variable {instr : Instr} {r : MemRoot}

theorem accessRoot?_of_rowStart? (hinstr : k.instr? i = some instr) (hptr : instr.rowStart? = some ptr)
    (hr : k.memoryRoot ptr = .ok r) : k.accessRoot? i = .ok (some r) := by
  obtain ⟨e, he, rfl⟩ := map_eq_some_iff.mp hinstr
  have hinst : k.inst i = .ok e := some?_eq_ok.mpr he
  rw [accessRoot?, hinst, ok_bind]
  revert hptr
  cases e.instr with
  | load p | store p | strideLoad p | strideStore p =>
    intro hptr
    cases hptr
    dsimp only
    rw [hr]
    rfl
  | _ => exact fun hptr => absurd hptr (by simp [Instr.rowStart?])

theorem accessRoot?_of_strided {a : StridedAccess} (h : k.Strided a) (hr : k.memoryRoot a.ptr = .ok r) :
    k.accessRoot? a.inst = .ok (some r) := by
  cases h with
  | load _ _ _ _ hinstr | store _ _ _ _ _ hinstr => exact accessRoot?_of_rowStart? hinstr rfl hr

theorem exists_root_of_isAccess (hinstr : k.instr? i = some instr) (h : instr.isAccess = true) {o : Option MemRoot}
    (ho : k.accessRoot? i = .ok o) : ∃ r, o = some r := by
  obtain ⟨e, he, rfl⟩ := map_eq_some_iff.mp hinstr
  have hinst : k.inst i = .ok e := some?_eq_ok.mpr he
  rw [accessRoot?, hinst, ok_bind] at ho
  revert h ho
  cases e.instr with
  | load ptr | store ptr | strideLoad ptr | strideStore ptr =>
    intro ho _
    obtain ⟨r, _, hr⟩ := bind_eq_ok.mp ho
    exact ⟨r, (pure_eq_ok.mp hr).symm⟩
  | gather | scatter => exact fun ho _ => ⟨.unknown, (pure_eq_ok.mp ho).symm⟩
  | _ => exact fun _ h => absurd h Bool.false_ne_true

/-- What lets a group pass: calls that could be left out, and accesses to other objects. -/
theorem letsPass_eq_true (h : k.letsPass classify isStore root i = .ok true) (hinstr : k.instr? i = some instr) :
    (∀ callee args mask, instr = .call callee args mask →
      ∃ kind, k.callKind? classify i = .ok (some kind) ∧ kind.isRemovable = true) ∧
    (instr.isAccess = true → instr.mayWrite = true ∨ isStore = true →
      ∃ r, k.accessRoot? i = .ok (some r) ∧ k.rootsMayAlias r root = false) := by
  have hroot := fun o => exists_root_of_isAccess (o := o) hinstr
  obtain ⟨e, he, rfl⟩ := map_eq_some_iff.mp hinstr
  have hinst : k.inst i = .ok e := some?_eq_ok.mpr he
  rw [letsPass, hinst, ok_bind] at h
  have hplain : e.instr.isAccess = true → e.instr.mayWrite = true ∨ isStore = true →
      (if e.instr.mayWrite || isStore && e.instr.mayRead then
        (do return !k.rootsMayAlias ((← k.accessRoot? i).getD .unknown) root : Checked Bool) else return true) = .ok true →
      ∃ r, k.accessRoot? i = .ok (some r) ∧ k.rootsMayAlias r root = false := by
    intro haccess hcase h
    have hcond : (e.instr.mayWrite || isStore && e.instr.mayRead) = true := by
      have hmay : e.instr.mayWrite = true ∨ e.instr.mayRead = true := by
        revert haccess
        cases e.instr with
        | load | strideLoad | gather => exact fun _ => .inr rfl
        | store | strideStore | scatter => exact fun _ => .inl rfl
        | _ => exact fun h => absurd h Bool.false_ne_true
      rcases hmay with hmay | hmay
      · rw [hmay]
        rfl
      · rcases hcase with hcase | hcase
        · rw [hcase]
          rfl
        · rw [hcase, hmay]
          simp
    rw [if_pos hcond] at h
    obtain ⟨o, ho, h⟩ := bind_eq_ok.mp h
    obtain ⟨r, rfl⟩ := hroot o haccess ho
    exact ⟨r, ho, by simpa using pure_eq_ok.mp h⟩
  revert h hplain
  cases e.instr with
  | call callee args mask =>
    intro h _
    obtain ⟨o, ho, h⟩ := bind_eq_ok.mp h
    obtain ⟨kind, rfl, hkind⟩ := (any_eq_true _ _).mp (pure_eq_ok.mp h)
    exact ⟨fun _ _ _ _ => ⟨kind, ho, hkind⟩, fun haccess => absurd haccess Bool.false_ne_true⟩
  | _ => exact fun h hplain => ⟨fun _ _ _ heq => absurd heq (by simp), fun haccess hcase => hplain haccess hcase h⟩

end Kernel

/-- What an instruction reads is defined neither by itself nor behind it. -/
theorem Kernel.Sound.result?_ne {j : InstId} (hs : k.Sound φ) (hreach : φ.Reached b)
    (hsplit : k.instsOf b = pre ++ i :: post) {instr : Instr} (hinstr : k.instr? i = some instr)
    (hphi : instr.isPhi = false) (hv : v ∈ instr.operands) (hj : j ∈ i :: post) : k.result? j ≠ some v := by
  intro hresult
  obtain ⟨d, hd, hready⟩ := hs.ordered b hreach pre i post hsplit instr hinstr hphi v hv
  obtain ⟨d', hd', hkind⟩ := map_eq_some_iff.mp (hs.coherent.defines j v hresult)
  obtain rfl := mem_unique hd hd'
  have hjb : j ∈ k.instsOf b := hsplit ▸ mem_append_right _ hj
  obtain ⟨e, he, _, ⟨_, hpre⟩ | ⟨hne, _⟩⟩ := hready j hkind
  · have hnodup := hs.coherent.nodup b
    rw [hsplit, nodup_append] at hnodup
    exact hnodup.2.2 j hpre j hj rfl
  · obtain ⟨e', he', _, hblock⟩ := hs.linked b (hs.reach b hreach) j hjb
    obtain rfl := mem_unique he he'
    exact hne hblock

namespace Machine

variable {σ : Type} {m : Machine} {env : Environment σ} {prev : Option BlockId} {P : Moment σ → Prop}

/-- What is carried out next reads in this frame what it reads in another. -/
def ReadsAs (m : Machine) (f : Frame) (c : Moment σ) : Prop :=
  ∀ i instr, c.inst? = some i → m.kernel.instr? i = some instr → instr.isPhi = false →
    ∀ v ∈ instr.operands, m.read f v = m.read c.state.frame v

/-- What the instructions of a list read, they also read at the last of them. -/
theorem Passes.reads_last (hs : m.kernel.Sound φ) (hreach : φ.Reached b) {front : List InstId} {l : InstId}
    (hsplit : m.kernel.instsOf b = pre ++ (front ++ [l] ++ post)) {g : Frame} {w u : World σ}
    (h : m.Passes env P b prev rest (front ++ [l]) f w g u) :
    ∃ f' w', m.Passes env (fun c => P c ∧ m.ReadsAs f' c) b prev ([l] ++ rest) front f w f' w' ∧
      m.Passes env (fun c => P c ∧ m.ReadsAs f' c) b prev rest [l] f' w' g u := by
  obtain ⟨f', w', hfront, hlast⟩ := h.split
  refine ⟨f', w', hfront.cut.mono ?_, ?_⟩
  · rintro c ⟨hP, p, q, rfl, htodo, _, hfuture⟩
    refine ⟨hP, fun i instr hi hinstr hphi v hv => hfuture.read_eq fun j hj => ?_⟩
    cases q with
    | nil => exact absurd hj not_mem_nil
    | cons i' q =>
      obtain rfl : i' = i := by
        rw [Moment.inst?, htodo] at hi
        exact some.inj hi
      have hsplit' : m.kernel.instsOf b = (pre ++ p) ++ i' :: (q ++ [l] ++ post) := by
        rw [hsplit]
        simp
      refine hs.result?_ne hreach hsplit' hinstr hphi hv ?_
      rcases mem_cons.mp hj with rfl | hj
      · exact .head _
      · exact .tail _ (mem_append_left _ (mem_append_left _ hj))
  · cases hlast with
    | cons hinstr hterm hmoment heval hrest =>
      exact .cons hinstr hterm ⟨hmoment, fun _ _ _ _ _ _ _ => rfl⟩ heval (by cases hrest; exact .nil)

theorem Passes.at_mem {is : List InstId} {g : Frame} {w u : World σ} (h : m.Passes env P b prev rest is f w g u)
    (hi : i ∈ is) : ∃ f1 w1 todo instr x w2, m.kernel.instr? i = some instr ∧
      P ⟨⟨b, prev, f1, i :: todo⟩, w1⟩ ∧ m.eval env f1 i instr w1 = .ok x w2 := by
  obtain ⟨p, q, rfl⟩ := append_of_mem hi
  obtain ⟨f1, w1, instr, x, w2, _, hinstr, hP, heval, _⟩ := h.at_cons
  exact ⟨f1, w1, _, instr, x, w2, hinstr, hP, heval⟩

/-! ## Where the stretch of a group lies -/

theorem exists_read_ptr (f : Frame) (h : m.kernel.Typed v .ptr) : ∃ x, m.read f v = .ok x := by
  obtain ⟨d, hd, hty, _⟩ := h
  rw [read_eq f hd, hty]
  cases d.kind with
  | param _ | const _ | undef => exact ⟨_, rfl⟩
  | inst _ =>
    dsimp only
    split
    · exact ⟨_, rfl⟩
    · exact ⟨_, rfl⟩

theorem OfType.exists_ptr {x : Val} (h : m.OfType v x) (hv : m.kernel.Typed v .ptr) : ∃ p, x = .scalar (.ptr p) := by
  obtain ⟨d, hd, hconf⟩ := h
  obtain ⟨d', hd', hty, _⟩ := hv
  obtain rfl := mem_unique hd hd'
  rw [hty] at hconf
  cases x with
  | vector _ => exact absurd hconf (by simp [Conforms, Val.scalarTy?])
  | scalar s =>
    cases s with
    | ptr p => exact ⟨p, rfl⟩
    | _ => exact absurd hconf (by simp [Conforms, Val.scalarTy?, Scalar.ty])

/-- The lanes of a vector of known length. -/
theorem OfType.exists_lanes {x : Val} {elem : ScalarTy} {lanes : Nat} (h : m.OfType v x)
    (hv : m.kernel.valueTy v = .ok (.fixedVector elem lanes)) :
    ∃ s : Nat → Scalar, (∀ l, (s l).ty = elem) ∧ x = .vector ((range lanes).map fun l => .scalar (s l)) := by
  obtain ⟨d, hd, hconf⟩ := h
  obtain ⟨d', hd', hty⟩ := bind_eq_ok.mp hv
  obtain rfl := mem_unique hd (some?_eq_ok.mp hd')
  rw [pure_eq_ok.mp hty] at hconf
  obtain ⟨ys, rfl, hlanes, hys⟩ := hconf
  obtain rfl : lanes = ys.length := Except.ok.inj hlanes
  have hlane : ∀ l : Nat, ∃ s : Scalar, s.ty = elem ∧ ∀ y : Val, ys[l]? = some y → y = .scalar s := by
    intro l
    cases hl : ys[l]? with
    | none => exact ⟨.ofBits elem 0, Scalar.ty_ofBits elem 0, fun y hy => by cases hy⟩
    | some y =>
      have hy := hys y (mem_of_getElem? hl)
      cases y with
      | vector _ => exact absurd hy (by simp [Val.scalarTy?])
      | scalar s => exact ⟨s, some.inj hy, fun y hy => (some.inj hy).symm⟩
  choose s hty hs using hlane
  refine ⟨s, hty, congrArg Val.vector (ext_getElem? fun l => ?_)⟩
  by_cases hl : l < ys.length
  · rw [getElem?_map, getElem?_range hl, getElem?_eq_getElem hl]
    exact congrArg some (hs l _ (getElem?_eq_getElem hl))
  · rw [getElem?_eq_none (Nat.not_lt.mp hl), getElem?_eq_none (by simpa using hl)]

/-- In this frame the pointers of a group lead into a stretch, each to its own place. -/
structure Laid (m : Machine) (g : InterleaveGroup) (f : Frame) (t : Stretch) : Prop where
  elem : t.elem = g.kind.elem
  count : t.count = g.size
  pointers : ∀ n ∈ g.members, m.read f n.1.ptr = .ok (.scalar (.ptr (t.spot n.2)))

variable {touched : MemRoot → Nat → Prop} {ms : List Merge} {g : InterleaveGroup} {w : World σ}

theorem exists_laid (hs : m.kernel.Sound φ) (hb : b ∈ m.kernel.layout) (hg : g.Covers m.kernel b)
    (hspaced : m.Spaced f ⟨m.kernel, b, g⟩)
    (hread : ∀ n ∈ g.members, ∃ x, m.read f n.1.ptr = .ok x ∧ m.OfType n.1.ptr x) : ∃ t, m.Laid g f t := by
  obtain ⟨least, hleast⟩ := hg.spaced
  obtain ⟨x, hx⟩ := exists_read_ptr f (hg.kind.typed_ptr hs hb hg.anchor)
  refine ⟨⟨x.toUInt64 + UInt64.ofInt (least * g.kind.elem.size), g.kind.elem, g.size⟩, rfl, rfl, fun n hn => ?_⟩
  obtain ⟨y, hy, htyped⟩ := hread n hn
  obtain ⟨p, rfl⟩ := htyped.exists_ptr ((hg.strided hn).typed_ptr hs hb (hg.mem_instsOf hn))
  have hdistance : p = x.toUInt64 + UInt64.ofInt ((least + n.2) * g.kind.elem.size) :=
    hspaced n hn _ (hleast n hn) x _ hx hy
  rw [hy, hdistance]
  simp only [Stretch.spot, stepped]
  rw [Int.add_mul, UInt64.ofInt_add, UInt64.ofInt_mul (n.2 : Int), ofInt_natCast, ofInt_natCast, UInt64.add_assoc]

/-- In this frame the members of a group store, together, what `s` gives for the positions of the stretch. -/
structure Delivers (m : Machine) (g : InterleaveGroup) (f : Frame) (elem : ScalarTy) (s : Nat → Scalar) : Prop where
  ty : ∀ n, (s n).ty = elem
  values : ∀ n ∈ g.members, ∀ v, m.kernel.storedValue? n.1 = some v →
    m.read f v = .ok (.vector ((range g.kind.lanes).map fun l => .scalar (s (l * g.kind.stride.toNat + n.2))))

theorem exists_delivers (hg : g.Covers m.kernel b) (hstore : g.kind.isStore = true)
    (hread : ∀ n ∈ g.members, ∀ v, m.kernel.storedValue? n.1 = some v → ∃ x, m.read f v = .ok x ∧ m.OfType v x) :
    ∃ s, m.Delivers g f g.kind.elem s := by
  have hmember : ∀ o, ∃ s : Nat → Scalar, (∀ l, (s l).ty = g.kind.elem) ∧ ∀ n ∈ g.members, n.2 = o →
      ∀ v, m.kernel.storedValue? n.1 = some v →
        m.read f v = .ok (.vector ((range g.kind.lanes).map fun l => .scalar (s l))) := by
    intro o
    by_cases ho : o < g.kind.stride.toNat
    · obtain ⟨n, hget, rfl⟩ := hg.getElem?_offset ho
      have hn := mem_of_getElem? hget
      obtain ⟨_, value, _, hinstr, hvty⟩ := hg.store hn hstore
      have hvalue : m.kernel.storedValue? n.1 = some value := by
        rw [storedValue?, hinstr]
      obtain ⟨x, hx, htyped⟩ := hread n hn value hvalue
      obtain ⟨s, hty, rfl⟩ := htyped.exists_lanes hvty
      refine ⟨s, hty, fun n' hn' heq v hv => ?_⟩
      obtain rfl := hg.eq_of_offset_eq hn' hn heq
      obtain rfl := mem_unique hv hvalue
      exact hx
    · refine ⟨fun _ => .ofBits g.kind.elem 0, fun _ => Scalar.ty_ofBits _ _, fun n hn heq => ?_⟩
      exact absurd (heq ▸ hg.offset_lt hn) ho
  choose s hty hs using hmember
  refine ⟨fun n => s (n % g.kind.stride.toNat) (n / g.kind.stride.toNat), fun n => hty _ _, fun n hn v hv => ?_⟩
  have hlt := hg.offset_lt hn
  rw [hs n.2 n hn rfl v hv]
  refine congrArg (fun xs => Except.ok (Val.vector xs)) (map_congr_left fun l _ => ?_)
  have hmod : (l * g.kind.stride.toNat + n.2) % g.kind.stride.toNat = n.2 := by
    rw [Nat.add_comm, Nat.add_mul_mod_self_right, Nat.mod_eq_of_lt hlt]
  have hdiv : (l * g.kind.stride.toNat + n.2) / g.kind.stride.toNat = l := by
    rw [Nat.add_comm, Nat.add_mul_div_right _ _ (by omega), Nat.div_eq_of_lt hlt, Nat.zero_add]
  rw [hmod, hdiv]

namespace Laid

variable {f' : Frame} {n : StridedAccess × Nat} {s : Nat → Scalar} (h : m.Laid g f t)

include h

theorem ty_delivered (hs : m.Delivers g f g.kind.elem s) (n : Nat) : (s n).ty = t.elem := (hs.ty n).trans h.elem.symm

theorem lt_of_mem_picks (hg : g.Covers m.kernel b) (hn : n ∈ g.members) {p : Nat} (hp : p ∈ g.picks n.2) : p < t.count :=
  h.count ▸ InterleaveGroup.lt_of_mem_picks (hg.offset_lt hn) hp

/-- A member of a group of loads goes through its places of the stretch. -/
theorem access?_load (hg : g.Covers m.kernel b) (hload : g.kind.isStore = false) (hn : n ∈ g.members) {instr : Instr}
    (hinstr : m.kernel.instr? n.1.inst = some instr) (hread : ∀ v ∈ instr.operands, m.read f v = m.read f' v) :
    instr.isAccess = true ∧ instr.mayWrite = false ∧ m.kernel.resultTy n.1.inst = .fixedVector t.elem g.kind.lanes ∧
      m.access? f' n.1.inst instr = .ok (some (.load none fun l => t.spot (l * g.kind.stride.toNat + n.2))) := by
  obtain ⟨stride, hstride, hinstr', hty⟩ := hg.load hn hload
  obtain rfl := mem_unique hinstr hinstr'
  have htwo := hg.kind.two_le
  have hptr : m.read f' n.1.ptr = .ok (.scalar (.ptr (t.spot n.2))) :=
    (hread n.1.ptr (.head _)).symm.trans (h.pointers n hn)
  have helem : m.elementOf n.1.inst = t.elem := by
    rw [elementOf, hty, h.elem]
    rfl
  refine ⟨rfl, rfl, by rw [hty, h.elem], ?_⟩
  rw [access?, hptr, ok_bind, helem, hstride, ← t.stepped_spot (by omega) n.2]
  rfl

/-- A member of a group of stores goes through its places of the stretch. -/
theorem access?_store (hs : m.Delivers g f g.kind.elem s) (hg : g.Covers m.kernel b) (hstore : g.kind.isStore = true)
    (hn : n ∈ g.members) {instr : Instr} (hinstr : m.kernel.instr? n.1.inst = some instr)
    (hread : ∀ v ∈ instr.operands, m.read f v = m.read f' v) :
    instr.isAccess = true ∧ m.access? f' n.1.inst instr =
      .ok (some (.store none (fun l => t.spot (l * g.kind.stride.toNat + n.2))
        (.vector ((range g.kind.lanes).map fun l => .scalar (s (l * g.kind.stride.toNat + n.2)))))) := by
  obtain ⟨stride, value, hstride, hinstr', hty⟩ := hg.store hn hstore
  obtain rfl := mem_unique hinstr hinstr'
  have htwo := hg.kind.two_le
  have hptr : m.read f' n.1.ptr = .ok (.scalar (.ptr (t.spot n.2))) :=
    (hread n.1.ptr (.head _)).symm.trans (h.pointers n hn)
  have hvalue := hs.values n hn value (by rw [storedValue?, hinstr'])
  rw [hread value (.tail _ (.head _))] at hvalue
  have hsize : m.elementSize value = .ok t.elem.size := by
    rw [elementSize, hty, ok_bind, h.elem]
    rfl
  refine ⟨rfl, ?_⟩
  rw [access?, hptr, ok_bind, hvalue, ok_bind, readMask, hsize, hstride, ← t.stepped_spot (by omega) n.2]
  rfl

/-- A member touches all bytes of its places. -/
theorem exists_touches (hg : g.Covers m.kernel b)
    (hdelivers : g.kind.isStore = true → ∃ s, m.Delivers g f g.kind.elem s) (hn : n ∈ g.members) {instr : Instr}
    (hinstr : m.kernel.instr? n.1.inst = some instr) (hread : ∀ v ∈ instr.operands, m.read f v = m.read f' v) {l a : Nat}
    (hl : l < g.kind.lanes) (ha : t.At (l * g.kind.stride.toNat + n.2) a) :
    ∃ access, m.access? f' n.1.inst instr = .ok (some access) ∧ access.Touches m (m.kernel.resultTy n.1.inst) a := by
  obtain ⟨hge, hlt⟩ := ha
  cases hkind : g.kind.isStore with
  | false =>
    obtain ⟨_, _, hty, haccess⟩ := h.access?_load hg hkind hn hinstr hread
    refine ⟨_, haccess, ?_⟩
    rw [hty]
    exact ⟨g.kind.lanes, l, rfl, hl, rfl, hge, hlt⟩
  | true =>
    obtain ⟨s, hs⟩ := hdelivers hkind
    obtain ⟨_, haccess⟩ := h.access?_store hs hg hkind hn hinstr hread
    refine ⟨_, haccess, .scalar (s (l * g.kind.stride.toNat + n.2)), l, ?_, rfl, hge, ?_⟩
    · rw [Val.elements, mem_zipIdx_iff_getElem?, getElem?_map, getElem?_range hl]
      rfl
    · rw [Val.size, h.ty_delivered hs]
      exact hlt

end Laid

/-! ## What a pass through a group shows -/

/-- A member of a group at its moment. -/
theorem exists_member (hg : g.Covers m.kernel b) {w0 w1 : World σ}
    (h : m.Passes env (fun c => m.Regular env classify touched ms c ∧ m.ReadsAs f c) b prev rest (g.span m.kernel b) f0 w0 f1 w1)
    {n : StridedAccess × Nat} (hn : n ∈ g.members) :
    ∃ instr f' w x w', m.kernel.instr? n.1.inst = some instr ∧ m.RegularAt env classify touched ms n.1.inst instr f' w ∧
      (∀ v ∈ instr.operands, m.read f v = m.read f' v) ∧ m.eval env f' n.1.inst instr w = .ok x w' := by
  obtain ⟨_, _, _, _, _, hspan⟩ := hg.split
  obtain ⟨f', w, todo, instr, x, w', hinstr, ⟨hregular, hreads⟩, heval⟩ := h.at_mem (hspan n hn)
  exact ⟨instr, f', w, x, w', hinstr, hregular _ _ _ rfl hinstr, hreads _ _ rfl hinstr (hg.plain hn hinstr).1, heval⟩

theorem exists_read_stored {value : ValueId} {stride : Int64} {mask : Option ValueId} {x : Option Val} {w' : World σ}
    (h : m.eval env f i (.strideStore ptr value stride mask) w = .ok x w') : ∃ y, m.read f value = .ok y := by
  obtain ⟨_, _, _, h⟩ := Exec.bind_eq_ok.mp h
  obtain ⟨y, _, hy, _⟩ := Exec.bind_eq_ok.mp h
  exact ⟨y, (Exec.liftChecked_eq_ok.mp hy).1⟩

/-- **Passing a group shows where its stretch lies**, in the frame of its last member, and what it stores there. All of it
belongs to one object. -/
theorem exists_visit (hs : m.kernel.Sound φ) (hreach : ∀ b ∈ m.kernel.layout, φ.Reached b) (hb : b ∈ m.kernel.layout)
    (hg : g.Covers m.kernel b) (hroot : m.kernel.memoryRoot g.first.1.ptr = .ok root) {w0 w1 : World σ}
    (hmerge : ⟨m.kernel, b, g⟩ ∈ ms)
    (h : m.Passes env (m.Regular env classify touched ms) b prev rest (g.span m.kernel b) f0 w0 f1 w1) :
    ∃ front f w t, g.span m.kernel b = front ++ [g.last.1.inst] ∧ m.Laid g f t ∧
      (g.kind.isStore = true → ∃ s, m.Delivers g f g.kind.elem s) ∧ (∀ a, t.Has a → touched root a) ∧
      m.Passes env (fun c => m.Regular env classify touched ms c ∧ m.ReadsAs f c) b prev ([g.last.1.inst] ++ rest)
        front f0 w0 f w ∧
      m.Passes env (fun c => m.Regular env classify touched ms c ∧ m.ReadsAs f c) b prev rest [g.last.1.inst] f w f1 w1 := by
  obtain ⟨pre, post, hsplit, _, ⟨front, hfront⟩, _⟩ := hg.split
  rw [hfront] at h
  obtain ⟨f, w, hpast, hlast⟩ := h.reads_last hs (hreach b hb) (by rw [hsplit, hfront])
  have hpass := hpast.append hlast
  rw [← hfront] at hpass
  have hspaced : m.Spaced f ⟨m.kernel, b, g⟩ := by
    have hmem := (last_spec hg.ne_nil).1
    obtain ⟨instr, hinstr, hstrided⟩ := (any_eq_true _ _).mp (hg.strided hmem).isStrided
    cases hlast with
    | cons _ _ hmoment => exact (hmoment.1 _ _ _ rfl hinstr).spaced hstrided _ hmerge rfl
  -- what a member reads has the type it is declared with
  have htyped : ∀ n ∈ g.members, ∀ instr, m.kernel.instr? n.1.inst = some instr → ∀ v ∈ instr.operands, ∀ x,
      m.read f v = .ok x → m.OfType v x := by
    intro n hn instr hinstr v hv x hx
    obtain ⟨instr', f', w', _, _, hinstr', hregular, hreads, _⟩ := exists_member hg hpass hn
    obtain rfl := mem_unique hinstr hinstr'
    obtain ⟨_, hinstr'', hstrided⟩ := (any_eq_true _ _).mp (hg.strided hn).isStrided
    obtain rfl := mem_unique hinstr hinstr''
    exact hregular.typed hstrided v hv x ((hreads v hv).symm.trans hx)
  obtain ⟨t, hlaid⟩ := exists_laid hs hb hg hspaced fun n hn => by
    obtain ⟨x, hx⟩ := exists_read_ptr f ((hg.strided hn).typed_ptr hs hb (hg.mem_instsOf hn))
    obtain ⟨instr, hinstr, hptr, _⟩ := (hg.strided hn).exists_instr
    exact ⟨x, hx, htyped n hn instr hinstr _ hptr x hx⟩
  have hdelivers : g.kind.isStore = true → ∃ s, m.Delivers g f g.kind.elem s := by
    refine fun hstore => exists_delivers hg hstore fun n hn v hv => ?_
    obtain ⟨instr, f', w', _, _, hinstr, _, hreads, heval⟩ := exists_member hg hpass hn
    obtain ⟨stride, value, _, hinstr', _⟩ := hg.store hn hstore
    obtain rfl := mem_unique hinstr hinstr'
    obtain rfl : v = value := by
      rw [storedValue?, hinstr] at hv
      exact (some.inj hv).symm
    have hmem : v ∈ (Instr.strideStore n.1.ptr v stride none).operands := .tail _ (.head _)
    obtain ⟨y, hy⟩ := exists_read_stored heval
    rw [← hreads v hmem] at hy
    exact ⟨y, hy, htyped n hn _ hinstr v hmem y hy⟩
  refine ⟨front, f, w, t, hfront, hlaid, hdelivers, ?_, hpast, hlast⟩
  rintro a ⟨p, hp, ha⟩
  obtain ⟨n, hn, l, hl, rfl⟩ := hg.exists_place (hlaid.count ▸ hp)
  obtain ⟨instr, f', w', _, _, hinstr, hregular, hreads, _⟩ := exists_member hg hpass hn
  obtain ⟨access, haccess, htouches⟩ := hlaid.exists_touches hg hdelivers hn hinstr hreads hl ha
  refine hregular.touches root access ?_ haccess a htouches
  exact accessRoot?_of_strided (hg.strided hn) (hg.memoryRoot_eq hs hreach hb hroot hn)

/-- Objects are apart where they are taken to be. -/
def Apart (k : Kernel) (touched : MemRoot → Nat → Prop) : Prop :=
  ∀ r r', k.rootsMayAlias r r' = false → ∀ a, touched r a → ¬touched r' a

theorem isAccess_of_access? {instr : Instr} {access : Access} (h : m.access? f i instr = .ok (some access)) :
    instr.isAccess = true := by
  cases instr with
  | load | strideLoad | gather | store | strideStore | scatter => rfl
  | _ => cases pure_eq_ok.mp h

/-- **What lets a group pass does not touch its stretch.** -/
theorem RegularAt.clear {instr : Instr} (h : m.RegularAt env classify touched ms i instr f w)
    (hinstr : m.kernel.instr? i = some instr) (hpass : m.kernel.letsPass classify isStore root i = .ok true)
    (hapart : Apart m.kernel touched) (ht : ∀ a, t.Has a → touched root a) :
    (∀ callee args mask, instr = .call callee args mask → Exec.Detached (m.eval env f i instr) w) ∧
      (instr.mayWrite = true ∨ isStore = true → ∀ access, m.access? f i instr = .ok (some access) →
        ∀ a, access.Touches m (m.kernel.resultTy i) a → ¬t.Has a) := by
  obtain ⟨hcall, hother⟩ := letsPass_eq_true hpass hinstr
  refine ⟨fun callee args mask heq => ?_, fun hcase access haccess a htouches hhas => ?_⟩
  · obtain ⟨kind, hkind, hremovable⟩ := hcall callee args mask heq
    exact h.quiet kind hkind hremovable
  · obtain ⟨r, hr, halias⟩ := hother (isAccess_of_access? haccess) hcase
    exact hapart r root halias a (h.touches r access hr haccess a htouches) (ht a hhas)

end Machine

end Spmd
