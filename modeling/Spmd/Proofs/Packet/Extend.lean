import Spmd.Proofs.Packet.Grow

/-!
# What conversions leave alone

Asking for a value as a packet or in a lane adds instructions and values to the kernel and takes notes for later. It
never changes an instruction that is there, nor the order of a block, nor what was noted about replaced instructions
(`Widening.Extends`). Asking for a value in a lane makes no packets either (`Widening.Converts`). Each conversion is
taken apart once:

* **`Widen.copyLane_spec`** — copies for a lane, by induction on how far back they go;
* **`Widen.laneOf_spec`** — a value in a lane;
* **`Widen.packetOf_spec`** — a value as a packet, which has a lane for each lane of the group.

A phi whose inputs follow later is only made for a lane of a value that had no phi in that lane before. So the phis still
to be filled in, together with the lanes still open, never become more (`Widening.Extends.room`).
-/

namespace Spmd

open Success List Kernel Build
open Std (TreeMap)
open Option (some)

variable {v x : ValueId} {t : WidenTask} {lane n : Nat} {point : InsertPoint} {ty : Ty}
  {elem : ScalarTy} {s s' : Widening} {α β : Type} {action : Build α} {i : InstId}

/-! ## Notes -/

namespace Widening

/-- The lanes of planned values that nothing is noted for. -/
def openLanes (t : WidenTask) (s : Widening) : Nat :=
  (t.plan.plans.keys.flatMap fun v => (range (max t.group.lanes 1)).map (v, ·)).countP fun key =>
    !s.instances.contains key

/-- The instructions that conversions stand behind are there. -/
structure Tailed (s : Widening) : Prop where
  tails : ∀ i j : InstId, s.tails[i]? = some j → s.kernel.Has (.inst j)
  entryTail : ∀ j, s.entryTail = some j → s.kernel.Has (.inst j)

/-- A new phi for a lane of a value, to be filled in later. -/
structure FreshPhi (t : WidenTask) (k k' : Kernel) (p : PendingPhi) : Prop where
  fresh : k.inst? p.phi = none
  isPhi : k'.isPhi p.phi = true
  lane : ∃ v n, t.plan.get v = .perLane ∧ n < max t.group.lanes 1 ∧ p.form = .lane n ∧ k'.def? v = .ok (some p.source)

/-- A widening with more conversions. -/
structure Extends (t : WidenTask) (s s' : Widening) : Prop where
  kernel : s.kernel.Grows s'.kernel
  sources : s'.sources = s.sources
  replaced : s'.replaced = s.replaced
  packets : ∀ v p : ValueId, s.packets[v]? = some p → s'.packets[v]? = some p
  /-- A packet that is made on demand is a new value. -/
  newPackets : ∀ v p : ValueId, s'.packets[v]? = some p → s.packets[v]? = some p ∨
    s.kernel.value? p = none ∧ s'.kernel.Has (.value p)
  instances : ∀ key, s.instances.contains key = true → s'.instances.contains key = true
  newInstances : ∀ (v : ValueId) (lane : Nat) (x : ValueId), s'.instances[(v, lane)]? = some x →
    s.instances[(v, lane)]? = some x ∨ x = v ∨ s'.kernel.Has (.value x)
  pending : ∃ new, s'.pending = new ++ s.pending ∧ ∀ p ∈ new, FreshPhi t s.kernel s'.kernel p
  room : s'.pending.length + s'.openLanes t ≤ s.pending.length + s.openLanes t
  tailed : s.Tailed → s'.Tailed

variable {s'' : Widening} {k k' k'' : Kernel} {p : PendingPhi}

theorem FreshPhi.before (h : FreshPhi t k' k'' p) (hbefore : k.Grows k') : FreshPhi t k k'' p :=
  ⟨hbefore.inst?_eq_none h.fresh, h.isPhi, h.lane⟩

theorem FreshPhi.after (h : FreshPhi t k k' p) (hafter : k'.Grows k'') : FreshPhi t k k'' p := by
  obtain ⟨v, n, hplan, hn, hform, hdef⟩ := h.lane
  exact ⟨h.fresh, hafter.isPhi h.isPhi, v, n, hplan, hn, hform, hafter.def? hdef⟩

namespace Extends

theorem trans (h : s.Extends t s') (h' : s'.Extends t s'') : s.Extends t s'' where
  kernel := h.kernel.trans h'.kernel
  sources := h'.sources.trans h.sources
  replaced := h'.replaced.trans h.replaced
  packets v p hp := h'.packets v p (h.packets v p hp)
  newPackets v p hp := by
    rcases h'.newPackets v p hp with hp | ⟨hnew, hhas⟩
    · exact (h.newPackets v p hp).imp_right (And.imp_right h'.kernel.has_value)
    · exact .inr ⟨h.kernel.value?_eq_none hnew, hhas⟩
  instances key hkey := h'.instances key (h.instances key hkey)
  newInstances v lane x hx := by
    rcases h'.newInstances v lane x hx with hx | hx
    · exact (h.newInstances v lane x hx).imp_right (Or.imp_right h'.kernel.has_value)
    · exact .inr hx
  pending := by
    obtain ⟨new, heq, hnew⟩ := h.pending
    obtain ⟨new', heq', hnew'⟩ := h'.pending
    refine ⟨new' ++ new, by rw [heq', heq, append_assoc], fun p hp => ?_⟩
    rcases mem_append.mp hp with hp | hp
    · exact (hnew' p hp).before h.kernel
    · exact (hnew p hp).after h'.kernel
  room := h'.room.trans h.room
  tailed hs := h'.tailed (h.tailed hs)

/-- Nothing but the kernel and the notes on tails and counts changes. -/
theorem of_kernel (hkernel : s.kernel.Grows s'.kernel) (hsources : s'.sources = s.sources)
    (hreplaced : s'.replaced = s.replaced) (hpackets : s'.packets = s.packets) (hpending : s'.pending = s.pending)
    (hinstances : s'.instances = s.instances) (htailed : s.Tailed → s'.Tailed) : s.Extends t s' where
  kernel := hkernel
  sources := hsources
  replaced := hreplaced
  packets _ _ hp := hpackets ▸ hp
  newPackets _ _ hp := .inl (hpackets ▸ hp)
  instances _ hkey := hinstances ▸ hkey
  newInstances _ _ _ hx := .inl (hinstances ▸ hx)
  pending := ⟨[], by rw [hpending]; rfl, nofun⟩
  room := by rw [hpending, openLanes, openLanes, hinstances]
  tailed := htailed

theorem refl (s : Widening) : s.Extends t s := .of_kernel (.refl _) rfl rfl rfl rfl rfl id

theorem setKernel (hkernel : s.kernel.Grows k) : s.Extends t { s with kernel := k } :=
  .of_kernel hkernel rfl rfl rfl rfl rfl fun hs =>
    ⟨fun i j hj => hkernel.has (hs.tails i j hj), fun j hj => hkernel.has (hs.entryTail j hj)⟩

end Extends

/-- Noting a lane leaves no more lanes open, among any lanes. -/
theorem countP_insert_le (keys : List (ValueId × Nat)) (s : Widening) (key : ValueId × Nat) (x : ValueId) :
    (keys.countP fun other => !(s.instances.insert key x).contains other) ≤
      keys.countP fun other => !s.instances.contains other := by
  refine countP_mono_left fun other _ hother => ?_
  simp only [Bool.not_eq_true', TreeMap.contains_insert, Bool.or_eq_false_iff] at hother ⊢
  exact hother.2

theorem openLanes_insert_le (t : WidenTask) (s : Widening) (v : ValueId) (lane : Nat) (x : ValueId) :
    openLanes t { s with instances := s.instances.insert (v, lane) x } ≤ s.openLanes t :=
  countP_insert_le _ s (v, lane) x

/-- A lane of a planned value that is noted is no longer open. -/
theorem openLanes_insert_lt (hplan : t.plan.get v = .perLane) (hlane : lane < max t.group.lanes 1)
    (hnone : s.instances[(v, lane)]? = none) (x : ValueId) :
    openLanes t { s with instances := s.instances.insert (v, lane) x } < s.openLanes t := by
  have hkey : (v, lane) ∈ t.plan.plans.keys.flatMap fun v => (range (max t.group.lanes 1)).map (v, ·) := by
    refine mem_flatMap.mpr ⟨v, ?_, mem_map.mpr ⟨lane, mem_range.mpr hlane, rfl⟩⟩
    rw [TreeMap.mem_keys]
    by_contra hmem
    rw [LanePlan.get, TreeMap.getD_eq_fallback hmem] at hplan
    cases hplan
  have hopen : s.instances.contains (v, lane) = false := by
    rw [TreeMap.contains_eq_isSome_getElem?, hnone]
    rfl
  obtain ⟨front, back, hsplit⟩ := append_of_mem hkey
  have hfront := countP_insert_le front s (v, lane) x
  have hback := countP_insert_le back s (v, lane) x
  have hnoted : (s.instances.insert (v, lane) x).contains (v, lane) = true := TreeMap.contains_insert_self
  show countP (fun other => !(s.instances.insert (v, lane) x).contains other) _ < _
  rw [openLanes, hsplit, countP_append, countP_append, countP_cons_of_neg (by rw [hnoted]; simp),
    countP_cons_of_pos (by rw [hopen]; rfl)]
  omega

/-! ## Taking notes -/

/-- What is noted for a lane afterwards was noted before, or is what is noted now. -/
theorem getElem?_insert_instance {u x y : ValueId} (h : (s.instances.insert (v, lane) x)[(u, n)]? = some y) :
    s.instances[(u, n)]? = some y ∨ v = u ∧ x = y := by
  rw [TreeMap.getElem?_insert] at h
  split at h
  next heq =>
    refine .inr ⟨?_, some.inj h⟩
    exact Std.LawfulEqOrd.compare_eq_iff_eq.mp (Ordering.then_eq_eq.mp heq).1
  · exact .inl h

theorem Tailed.stopAt (hs : s.Tailed) (definition : Option InstId) (h : ∀ j, point = .after j → s.kernel.Has (.inst j)) :
    (s.stopAt definition point).Tailed := by
  cases point with
  | after last =>
    cases definition with
    | none => exact ⟨hs.tails, fun j hj => some.inj hj ▸ h last rfl⟩
    | some i =>
      refine ⟨fun i' j hj => ?_, hs.entryTail⟩
      rw [stopAt, TreeMap.getElem?_insert] at hj
      split at hj
      · exact some.inj hj ▸ h last rfl
      · exact hs.tails i' j hj
  | atEnd | beforeTerminator | afterPhis | before => cases definition <;> exact hs

namespace Extends

theorem stopAt (h : s.Extends t s') (definition : Option InstId)
    (hpoint : s.Tailed → ∀ j, point = .after j → s'.kernel.Has (.inst j)) :
    s.Extends t (s'.stopAt definition point) := by
  have htailed : s.Tailed → (s'.stopAt definition point).Tailed := fun hs =>
    (h.tailed hs).stopAt definition (hpoint hs)
  revert htailed
  cases point <;> cases definition <;>
    exact fun htailed => ⟨h.kernel, h.sources, h.replaced, h.packets, h.newPackets, h.instances, h.newInstances,
      h.pending, h.room, htailed⟩

theorem setInstance (t : WidenTask) (s : Widening) (lane : Nat) (hx : x = v ∨ s.kernel.Has (.value x)) :
    s.Extends t { s with instances := s.instances.insert (v, lane) x } where
  kernel := .refl _
  sources := rfl
  replaced := rfl
  packets _ _ hp := hp
  newPackets _ _ hp := .inl hp
  instances key hkey := by
    rw [TreeMap.contains_insert, hkey, Bool.or_true]
  newInstances u n y hy := by
    rcases getElem?_insert_instance hy with hy | ⟨rfl, rfl⟩
    · exact .inl hy
    · exact .inr hx
  pending := ⟨[], rfl, nofun⟩
  room := Nat.add_le_add_left (openLanes_insert_le t s v lane x) _
  tailed hs := ⟨hs.tails, hs.entryTail⟩

/-- A packet is noted for a value that had none. -/
theorem setPacket (h : s.Extends t s') {p : ValueId} (hnone : s.packets[v]? = none) (hpackets : s'.packets = s.packets)
    (hnew : s.kernel.value? p = none) (hhas : s'.kernel.Has (.value p)) :
    s.Extends t { s' with packets := s'.packets.insert v p } where
  kernel := h.kernel
  sources := h.sources
  replaced := h.replaced
  packets u q hq := by
    rw [TreeMap.getElem?_insert, if_neg, hpackets, hq]
    intro heq
    obtain rfl := Std.LawfulEqOrd.compare_eq_iff_eq.mp heq
    rw [hnone] at hq
    cases hq
  newPackets u q hq := by
    rw [TreeMap.getElem?_insert] at hq
    split at hq
    · exact .inr (some.inj hq ▸ ⟨hnew, hhas⟩)
    · exact .inl (hpackets ▸ hq)
  instances := h.instances
  newInstances := h.newInstances
  pending := h.pending
  room := h.room
  tailed hs := ⟨(h.tailed hs).tails, (h.tailed hs).entryTail⟩

/-- A new phi is noted for an open lane of a value, to be filled in later. -/
theorem lanePhi {phi source : InstId} (hkernel : s.kernel.Grows k) (hplan : t.plan.get v = .perLane)
    (hlane : lane < max t.group.lanes 1) (hnone : s.instances[(v, lane)]? = none) (hfresh : s.kernel.inst? phi = none)
    (hphi : k.isPhi phi = true) (hx : k.Has (.value x)) (hsource : k.def? v = .ok (some source)) :
    s.Extends t { s with
      kernel := k
      instances := s.instances.insert (v, lane) x
      pending := ⟨phi, source, .lane lane⟩ :: s.pending } where
  kernel := hkernel
  sources := rfl
  replaced := rfl
  packets _ _ hp := hp
  newPackets _ _ hp := .inl hp
  instances key hkey := by
    rw [TreeMap.contains_insert, hkey, Bool.or_true]
  newInstances u n y hy := by
    rcases getElem?_insert_instance hy with hy | ⟨-, rfl⟩
    · exact .inl hy
    · exact .inr (.inr hx)
  pending := ⟨[⟨phi, source, .lane lane⟩], rfl, fun p hp => by
    rw [mem_singleton.mp hp]
    exact ⟨hfresh, hphi, v, lane, hplan, hlane, rfl, hsource⟩⟩
  room := by
    have := openLanes_insert_lt hplan hlane hnone x
    simp only [length_cons, openLanes] at this ⊢
    omega
  tailed hs := ⟨fun i j hj => hkernel.has (hs.tails i j hj), fun j hj => hkernel.has (hs.entryTail j hj)⟩

end Extends

/-- A widening with more conversions to lanes. -/
structure Converts (t : WidenTask) (s s' : Widening) : Prop where
  kernel : s.kernel.Grows s'.kernel
  packets : s'.packets = s.packets
  more : s.kernel.Solid → s.Extends t s'

namespace Converts

variable {s1 : Widening}

theorem refl (s : Widening) : s.Converts t s := ⟨.refl _, rfl, fun _ => .refl s⟩

theorem trans (h : s.Converts t s') (h' : s'.Converts t s'') : s.Converts t s'' :=
  ⟨h.kernel.trans h'.kernel, h'.packets.trans h.packets, fun hs => (h.more hs).trans (h'.more (h.kernel.solid hs))⟩

theorem setKernel (hkernel : s.kernel.Grows k) : s.Converts t { s with kernel := k } :=
  ⟨hkernel, rfl, fun _ => .setKernel hkernel⟩

theorem setInstance (h : s.Converts t s1) (lane : Nat) {x : ValueId}
    (hx : s.kernel.Solid → x = v ∨ s1.kernel.Has (.value x)) :
    s.Converts t { s1 with instances := s1.instances.insert (v, lane) x } :=
  ⟨h.kernel, h.packets, fun hs => (h.more hs).trans (.setInstance t s1 lane (hx hs))⟩

theorem count (h : s.Converts t s1) (instanceCount : Nat) : s.Converts t { s1 with instanceCount } :=
  ⟨h.kernel, h.packets, fun hs => (h.more hs).trans
    (.of_kernel (.refl _) rfl rfl rfl rfl rfl fun ht => ⟨ht.tails, ht.entryTail⟩)⟩

end Converts

/-- A packet of the value is made: a new value, with a lane for each lane of the group. -/
structure Makes (t : WidenTask) (v : ValueId) (s : Widening) (p : ValueId) (s' : Widening) : Prop
    extends s.Converts t s' where
  typed : ∃ ty elem, s.kernel.valueTy v = .ok ty ∧ ty.element? = some elem ∧
    s'.kernel.valueTy p = .ok (.vector (Widen.shape t elem))
  fresh : s.kernel.Solid → s.kernel.value? p = none ∧ s'.kernel.Has (.value p)

instance (t : WidenTask) : Stateful.Onward (Converts t) := ⟨.refl, .trans⟩

instance (t : WidenTask) : Stateful.Onward fun (s s' : Widening) => s.kernel.Solid → s.Extends t s' :=
  ⟨fun s _ => .refl s, fun h h' hs => (h hs).trans (h' ((h hs).kernel.solid hs))⟩

end Widening

namespace Widen

variable {p : ValueId}

/-- An action that makes conversions and nothing else, on kernels without void values. -/
def Extends (t : WidenTask) (x : Widen α) : Prop := Moves (fun s s' => s.kernel.Solid → s.Extends t s') x

/-- An action that makes conversions to lanes and nothing else. -/
def Converts (t : WidenTask) (x : Widen α) : Prop := Moves (Widening.Converts t) x

theorem Extends.run {x : Widen α} {a : α} (hx : x.Extends t) (h : x s = .ok a s') (hs : s.kernel.Solid) : s.Extends t s' :=
  hx s a s' h hs

theorem Converts.extends {x : Widen α} (h : x.Converts t) : x.Extends t := fun s a s' hrun => (h s a s' hrun).more

end Widen

namespace Stateful.Moves

variable {R : Widening → Widening → Prop}

theorem unsupported (i : Option InstId) (o : Obstacle) : Moves R (Widen.unsupported i o : Widen α) :=
  fun _ _ _ h => absurd h Widen.unsupported_ne_ok

theorem lift [Onward R] (x : Checked α) : Moves R (liftM x : Widen α) := by
  intro s a s' h
  obtain ⟨-, rfl⟩ := Widen.lift_eq_ok.mp h
  exact Onward.refl s

end Stateful.Moves

namespace Widen

variable {p : ValueId}

/-! ## Conversions -/

theorem converts_kernel (t : WidenTask) : kernel.Converts t := by
  intro s k s' h
  obtain ⟨-, rfl⟩ := kernel_eq_ok.mp h
  exact .refl s

theorem converts_buildAt (t : WidenTask) (point : InsertPoint) (h : action.Grows) :
    (buildAt point action).Converts t := by
  intro s r s' hbuild
  obtain ⟨c, haction, -, rfl⟩ := buildAt_eq_ok.mp hbuild
  exact .setKernel (h.kernel _ _ c haction)

theorem extends_before (t : WidenTask) (i : InstId) (h : action.Grows) : (before i action).Extends t :=
  .bind (converts_buildAt t _ h).extends fun _ => .pure _

/-- A conversion stands behind something that is there. -/
theorem conversionPoint_after (hs : s.Tailed) {definition : Option InstId} {j : InstId}
    (h : conversionPoint t s definition = .ok (.after j)) : s.kernel.Has (.inst j) := by
  cases definition with
  | none =>
    simp only [conversionPoint] at h
    split at h
    next tail htail =>
      obtain rfl := InsertPoint.after.inj (Success.pure_eq_ok.mp h)
      exact hs.entryTail tail htail
    · cases Success.pure_eq_ok.mp h
  | some i =>
    simp only [conversionPoint] at h
    split at h
    next tail htail =>
      obtain rfl := InsertPoint.after.inj (Success.pure_eq_ok.mp h)
      exact hs.tails i tail htail
    · obtain ⟨d, hd, h⟩ := Success.bind_eq_ok.mp h
      split at h
      · cases Success.pure_eq_ok.mp h
      · obtain rfl := InsertPoint.after.inj (Success.pure_eq_ok.mp h)
        exact isSome_iff_exists.mpr ⟨d, some?_eq_ok.mp hd⟩

theorem converts_behind (t : WidenTask) (v : ValueId) (h : action.Grows) : (behind t v action).Converts t := by
  intro s a s' hrun
  obtain ⟨definition, point, c, -, hpoint, haction, rfl⟩ := behind_eq_ok.mp hrun
  have hgrows := h.kernel _ _ c haction
  obtain ⟨hkernel, hpackets⟩ := Widening.stopAt_kept { s with kernel := c.kernel } definition c.point
  refine ⟨hkernel ▸ hgrows, hpackets, fun _ => Widening.Extends.stopAt (.setKernel hgrows) definition fun hs j hj => ?_⟩
  rcases h.point _ _ c haction j hj with hstart | hmade
  · exact hgrows.has (conversionPoint_after hs (hpoint.trans (congrArg Except.ok hstart)))
  · exact hmade

/-! ### Lanes -/

/-- What an action gives is a new value. -/
def Fresh (x : Widen ValueId) : Prop :=
  ∀ s v s', s.kernel.Solid → x s = .ok v s' → s.kernel.value? v = none ∧ s'.kernel.Has (.value v)

theorem fresh_behind (t : WidenTask) (v : ValueId) {action : Build ValueId} (h : action.Fresh) :
    (behind t v action).Fresh := by
  intro s x s' hsolid hrun
  obtain ⟨point, c, haction, hkernel⟩ := exists_of_behind hrun
  exact hkernel ▸ h _ x c hsolid haction

theorem existingPacket_eq_ok (h : existingPacket v s = .ok p s') : s = s' ∧ s.packets[v]? = some p := by
  rw [existingPacket, get_bind] at h
  cases hknown : s.packets[v]? with
  | some q =>
    simp only [hknown] at h
    obtain ⟨rfl, rfl⟩ := pure_eq_ok.mp h
    exact ⟨rfl, rfl⟩
  | none =>
    simp only [hknown] at h
    obtain ⟨_, _, -, h⟩ := bind_eq_ok.mp h
    split at h <;> obtain ⟨_, _, -, h⟩ := bind_eq_ok.mp h <;> exact absurd h unsupported_ne_ok

/-- Adding something to a value with a constant. -/
theorem grows_const_emitValue (x : Constant) (instr : ValueId → Instr) (given : Ty) :
    (do emitValue (instr (← const (.scalar elem) x)) given : Build ValueId).Grows :=
  .bind (grows_const rfl _) fun _ => grows_emitValue _ _

theorem fresh_const_emitValue (x : Constant) {instr : ValueId → Instr} {given : Ty}
    (hgives : ∀ n, (instr n).givesValue given = true) :
    (do emitValue (instr (← const (.scalar elem) x)) given : Build ValueId).Fresh :=
  .bind (grows_const rfl _) fun n => fresh_emitValue (hgives n)

/-- **A value in a lane without copies** is remembered as such, unless it is the same in all lanes. If there is none, the
value is kept per lane, and nothing is noted for the lane. -/
theorem readyInstance?_spec {r : Option ValueId} (h : readyInstance? t v lane s = .ok r s') :
    s.Converts t s' ∧ (∀ x ∈ r, s'.instances[(v, lane)]? = some x ∨ t.plan.get v = .uniform ∧ x = v) ∧
      (r = none → s = s' ∧ t.plan.get v = .perLane ∧ lane ≠ 0 ∧ s.instances[(v, lane)]? = none) := by
  have hset : ∀ {x s1}, s.Converts t s1 → (s.kernel.Solid → x = v ∨ s1.kernel.Has (.value x)) →
      (do setInstance v lane x; return some x : Widen (Option ValueId)) s1 = .ok r s' →
      s.Converts t s' ∧ (∀ x ∈ r, s'.instances[(v, lane)]? = some x ∨ t.plan.get v = .uniform ∧ x = v) ∧
        (r = none → s = s' ∧ t.plan.get v = .perLane ∧ lane ≠ 0 ∧ s.instances[(v, lane)]? = none) := by
    intro x s1 hconv hx h
    rw [setInstance, modify_bind] at h
    obtain ⟨rfl, rfl⟩ := pure_eq_ok.mp h
    exact ⟨hconv.setInstance lane hx, fun y hy => .inl (hy ▸ TreeMap.getElem?_insert_self), nofun⟩
  rw [readyInstance?, get_bind] at h
  rcases Option.eq_none_or_eq_some s.instances[(v, lane)]? with hknown | ⟨y, hknown⟩ <;> simp only [hknown] at h
  · obtain ⟨plan, hplan⟩ : ∃ plan, t.plan.get v = plan := ⟨_, rfl⟩
    simp only [hplan] at h
    cases plan with
    | uniform =>
      obtain ⟨rfl, rfl⟩ := pure_eq_ok.mp h
      exact ⟨.refl s, fun x hx => .inr ⟨hplan, (some.inj hx).symm⟩, nofun⟩
    | laneId =>
      dsimp only at h
      split at h
      · exact hset (.refl s) (fun _ => .inl rfl) h
      · obtain ⟨x, s1, hx, h⟩ := bind_eq_ok.mp h
        obtain ⟨ty, -, hx⟩ := valueTy_bind_eq_ok.mp hx
        exact hset (converts_behind t v (grows_const_emitValue _ _ _) s x s1 hx)
          (fun hs => .inr (fresh_behind t v (fresh_const_emitValue _ fun _ => rfl) s x s1 hs hx).2) h
    | packet =>
      obtain ⟨p, _, hp, h⟩ := bind_eq_ok.mp h
      obtain ⟨rfl, -⟩ := existingPacket_eq_ok hp
      obtain ⟨x, s1, hx, h⟩ := bind_eq_ok.mp h
      exact hset (converts_behind t p (grows_const_emitValue _ _ _) s x s1 hx)
        (fun hs => .inr (fresh_behind t p (fresh_const_emitValue _ fun _ => rfl) s x s1 hs hx).2) h
    | perLane =>
      dsimp only at h
      split at h
      next hzero =>
        subst hzero
        exact hset (.refl s) (fun _ => .inl rfl) h
      next hlane =>
        obtain ⟨rfl, rfl⟩ := pure_eq_ok.mp h
        exact ⟨.refl s, nofun, fun _ => ⟨rfl, hplan, hlane, hknown⟩⟩
  · obtain ⟨rfl, rfl⟩ := pure_eq_ok.mp h
    exact ⟨.refl s, fun x hx => .inl (hknown.trans hx), nofun⟩

theorem converts_readyInstance? (t : WidenTask) (v : ValueId) (lane : Nat) : (readyInstance? t v lane).Converts t :=
  fun _ _ _ h => (readyInstance?_spec h).1

theorem fixedLanes_eq_ok {what : String} (h : fixedLanes t i what s = .ok n s') :
    s = s' ∧ n = t.group.lanes ∧ t.group.scalable = false := by
  rw [fixedLanes] at h
  split at h
  · exact absurd h unsupported_ne_ok
  next hfixed =>
    obtain ⟨rfl, rfl⟩ := pure_eq_ok.mp h
    exact ⟨rfl, rfl, by simpa using hfixed⟩

theorem checkCopies_eq_ok (h : checkCopies t i s = .ok n s') :
    s = s' ∧ n = t.group.lanes ∧ t.group.scalable = false := by
  obtain ⟨lanes, s1, hfixed, h⟩ := bind_eq_ok.mp h
  obtain ⟨rfl, rfl, hscalable⟩ := fixedLanes_eq_ok hfixed
  split at h
  · obtain ⟨_, _, hthrow, -⟩ := bind_eq_ok.mp h
    exact absurd hthrow unsupported_ne_ok
  · obtain ⟨rfl, rfl⟩ := pure_eq_ok.mp h
    exact ⟨rfl, rfl, hscalable⟩

/-- An instruction is taken as it was before it became lane 0. -/
theorem source_eq_ok {instr : Instr} (h : source i s = .ok instr s') :
    s = s' ∧ (s.sources[i]?).or (s.kernel.instr? i) = some instr := by
  rw [source, get_bind] at h
  cases hsource : s.sources[i]? with
  | some instr' =>
    simp only [hsource] at h
    obtain ⟨rfl, rfl⟩ := pure_eq_ok.mp h
    exact ⟨rfl, rfl⟩
  | none =>
    simp only [hsource] at h
    obtain ⟨d, hd, h⟩ := lift_bind_eq_ok.mp h
    obtain ⟨rfl, rfl⟩ := pure_eq_ok.mp h
    refine ⟨rfl, ?_⟩
    rw [Option.none_or, instr?, some?_eq_ok.mp hd]
    rfl

/-- A phi for an open lane, to be filled in later. -/
theorem lanePhi_spec (hplan : t.plan.get v = .perLane) (hlane : lane < max t.group.lanes 1)
    (hnone : s.instances[(v, lane)]? = none) (hdef : s.kernel.def? v = .ok (some i)) (hty : s.kernel.valueTy v = .ok ty)
    (h : lanePhi v i ty lane s = .ok x s') : s.Converts t s' ∧ s'.instances[(v, lane)]? = some x := by
  obtain ⟨r, s1, hbuild, h⟩ := bind_eq_ok.mp h
  obtain ⟨c, haction, -, rfl⟩ := buildAt_eq_ok.mp hbuild
  have hgrows := (grows_emitValue _ _).kernel _ _ c haction
  obtain ⟨_, _, hkernel, h⟩ := bind_eq_ok.mp h
  obtain ⟨rfl, rfl⟩ := kernel_eq_ok.mp hkernel
  obtain ⟨definition, hask, h⟩ := lift_bind_eq_ok.mp h
  rw [addPending, modify_bind, setInstance, modify_bind] at h
  obtain ⟨rfl, rfl⟩ := pure_eq_ok.mp h
  refine ⟨⟨hgrows, rfl, fun hsolid => ?_⟩, TreeMap.getElem?_insert_self⟩
  have hgives : (Instr.phi []).givesValue ty = true := (Bool.not_eq_true' _).mpr (hsolid.valueTy hty)
  have hmade := emitValue_madeBy hsolid hgives haction
  have hhas := hmade.has
  obtain ⟨-, phi, ty', b, hfresh, hvalue, hinst⟩ := hmade
  have hphi : c.kernel.def? r.1 = .ok (some phi) := Success.bind_eq_ok.mpr ⟨_, some?_eq_ok.mpr hvalue, rfl⟩
  obtain rfl := ok_unique hphi hask
  refine .lanePhi hgrows hplan hlane hnone hfresh ?_ hhas (hgrows.def? hdef)
  show c.kernel.isPhi phi = true
  rw [isPhi, instr?, hinst]
  rfl

theorem converts_laneOperands {f : ValueId → Widen ValueId} (hf : ∀ v, (f v).Converts t) (instr : Instr) :
    (laneOperands f instr).Converts t :=
  .mapM fun v _ => .bind (hf v) fun _ => .pure _

section

variable (hlane : lane < max t.group.lanes 1)
include hlane

/-- **Copies for a lane** are only added, by induction on how far back they go. -/
theorem copyLane_spec {depth : Nat} (hplan : t.plan.get v = .perLane)
    (h : copyLane t lane depth v s = .ok x s') : s.Converts t s' ∧ s'.instances[(v, lane)]? = some x := by
  induction depth generalizing v s x s' with
  | zero => exact absurd h throw_ne_ok
  | succ depth ih =>
    rw [copyLane] at h
    rw [get_bind] at h
    cases hknown : s.instances[(v, lane)]? with
    | some y =>
      simp only [hknown] at h
      obtain ⟨rfl, rfl⟩ := pure_eq_ok.mp h
      exact ⟨.refl s, hknown⟩
    | none =>
      simp only [hknown] at h
      rw [kernel_bind] at h
      obtain ⟨definition, hdef, h⟩ := lift_bind_eq_ok.mp h
      cases definition with
      | none => exact absurd h unsupported_ne_ok
      | some i =>
        obtain ⟨_, _, hcheck, h⟩ := bind_eq_ok.mp h
        obtain ⟨n, s1, hcheck, hunit⟩ := bind_eq_ok.mp hcheck
        obtain ⟨rfl, -⟩ := checkCopies_eq_ok hcheck
        obtain ⟨-, rfl⟩ := pure_eq_ok.mp hunit
        obtain ⟨ty, hty, h⟩ := lift_bind_eq_ok.mp h
        obtain ⟨instr, _, hsource, h⟩ := bind_eq_ok.mp h
        obtain ⟨rfl, -⟩ := source_eq_ok hsource
        split at h
        · exact lanePhi_spec hplan hlane hknown hdef hty h
        rw [get_bind] at h
        obtain ⟨_, s1, hcopied, h⟩ := bind_eq_ok.mp h
        obtain ⟨operands, s2, hoperands, h⟩ := bind_eq_ok.mp h
        obtain ⟨y, s3, hy, h⟩ := bind_eq_ok.mp h
        have hcopied : s.Converts t s1 := by
          refine Stateful.Moves.forM (R := Widening.Converts t) (fun o ho => .map _ fun s x s' h => (ih ?_ h).1) s _ s1 hcopied
          have := (mem_filter.mp (mem_reverse.mp ho)).2
          exact of_decide_eq_true (Bool.and_eq_true_iff.mp this).1
        have hoperands : s1.Converts t s2 := by
          refine converts_laneOperands (fun o => .bind (converts_readyInstance? t o lane) fun r => ?_) instr s1 _ s2 hoperands
          split
          · exact .pure _
          · exact .bind (converts_kernel t) fun _ => .bind (.lift _) fun _ => .unsupported _ _
        have hready := hcopied.trans hoperands
        have hnew : s.kernel.Solid → y = v ∨ s3.kernel.Has (.value y) := fun hs =>
          .inr (fresh_behind t v (fresh_insertValue (hs.valueTy hty)) s2 y s3 (hready.kernel.solid hs) hy).2
        have hall := (hready.trans (converts_behind t v (grows_insertValue _ _) s2 y s3 hy)).setInstance lane hnew
        rw [setInstance, modify_bind] at h
        split at h
        · rw [modify_bind] at h
          obtain ⟨rfl, rfl⟩ := pure_eq_ok.mp h
          exact ⟨hall.count _, TreeMap.getElem?_insert_self⟩
        · obtain ⟨rfl, rfl⟩ := pure_eq_ok.mp h
          exact ⟨hall, TreeMap.getElem?_insert_self⟩

/-- **A value in a lane** is remembered as such, unless it is the same in all lanes. -/
theorem laneOf_spec (h : laneOf t v lane s = .ok x s') :
    s.Converts t s' ∧ (s'.instances[(v, lane)]? = some x ∨ t.plan.get v = .uniform ∧ x = v) := by
  obtain ⟨r, s1, hready, h⟩ := bind_eq_ok.mp h
  obtain ⟨hconv, hsome, hnone⟩ := readyInstance?_spec hready
  cases r with
  | some y =>
    obtain ⟨rfl, rfl⟩ := pure_eq_ok.mp h
    exact ⟨hconv, hsome y rfl⟩
  | none =>
    dsimp only at h
    rw [kernel_bind] at h
    obtain ⟨hconv', hnoted⟩ := copyLane_spec hlane (hnone rfl).2.1 h
    exact ⟨hconv.trans hconv', .inl hnoted⟩

theorem extends_laneOf (v : ValueId) : (laneOf t v lane).Extends t :=
  fun _ _ _ h => (laneOf_spec hlane h).1.more

end

theorem extends_laneOperands {f : ValueId → Widen ValueId} (hf : ∀ v, (f v).Extends t) (instr : Instr) :
    (laneOperands f instr).Extends t :=
  .mapM fun v _ => .bind (hf v) fun _ => .pure _

/-! ### Packets -/

theorem withLanes_shape (h : ty.element? = some elem) : ty.withLanes (shape t elem) = .vector (shape t elem) := by
  cases ty with
  | void => exact absurd h (by simp [Ty.element?])
  | scalar e => obtain rfl := some.inj h; rfl
  | vector v => obtain rfl := some.inj h; rfl

/-- The parts of a packet are put together behind the value, in an undefined vector. -/
theorem assemble_spec (hty : ty.isVoid = false) (h : assemble t v ty s = .ok p s') :
    s.Converts t s' ∧ s'.kernel.valueTy p = .ok ty ∧
      (s.kernel.Solid → s.kernel.value? p = none ∧ s'.kernel.Has (.value p)) := by
  rw [assemble, kernel_bind] at h
  obtain ⟨definition, -, h⟩ := lift_bind_eq_ok.mp h
  obtain ⟨lanes, s1, hlanes, h⟩ := bind_eq_ok.mp h
  obtain ⟨rfl, rfl, -⟩ := fixedLanes_eq_ok hlanes
  obtain ⟨parts, s1, hparts, h⟩ := bind_eq_ok.mp h
  have hconv : s.Converts t s1 := Stateful.Moves.mapM (R := Widening.Converts t) (fun lane hlane _ _ _ h => (laneOf_spec
    (Nat.lt_of_lt_of_le (mem_range.mp hlane) (Nat.le_max_left _ _)) h).1) s parts s1 hparts
  rw [kernel_bind] at h
  obtain ⟨_, _, hset, h⟩ := bind_eq_ok.mp h
  cases hset
  have hundef : s1.kernel.Grows (s1.kernel.addUndef ty).1 := .addValue s1.kernel (fun _ => by simp) hty
  have hvalue : (s1.kernel.addUndef ty).1.value? (s1.kernel.addUndef ty).2 = some ⟨.undef, ty⟩ :=
    (value?_addValue s1.kernel .undef ty _).trans (if_pos rfl)
  have hput : ∀ (acc : ValueId) (a : ValueId × Nat), (do
      insertElement acc a.1 (← constInt .i32 (Int64.ofNat a.2)) : Build ValueId).Grows :=
    fun _ _ => grows_const_emitValue _ _ _
  refine ⟨(hconv.trans (.setKernel hundef)).trans (converts_behind t v (.foldlM hput _ _) _ p s' h), ?_⟩
  obtain ⟨point, c, haction, hkernel⟩ := exists_of_behind h
  rw [hkernel]
  refine ⟨valueTy_foldlM (fun acc a c v c' hacc hv => ?_) ?_ haction, fun hsolid => ?_⟩
  · obtain ⟨n, c1, hn, hv⟩ := stateBind_eq_ok.mp hv
    refine valueTy_emitValue ?_ hty hv
    exact tyOf_of_valueTy (((grows_const rfl _).kernel _ _ _ hn).valueTy hacc)
  · exact Success.bind_eq_ok.mpr ⟨_, some?_eq_ok.mpr hvalue, rfl⟩
  · have hbefore := hconv.kernel.value?_eq_none (v := p)
    rcases Fresh.foldlM hput (fun acc a => fresh_const_emitValue _ fun _ => rfl)
      ((hconv.kernel.trans hundef).solid hsolid) haction with ⟨rfl, rfl⟩ | ⟨hnew, hhas⟩
    · exact ⟨hbefore (value?_nextId _), isSome_iff_exists.mpr ⟨_, hvalue⟩⟩
    · exact ⟨hbefore (hundef.value?_eq_none hnew), hhas⟩

/-- **A packet of a value** was there, or is made and noted. -/
theorem packetOf_spec (h : packetOf t v s = .ok p s') :
    s.packets[v]? = some p ∧ s' = s ∨ s.packets[v]? = none ∧ ∃ s1,
      s' = { s1 with packets := s1.packets.insert v p } ∧ s.Makes t v p s1 := by
  rw [packetOf] at h
  rw [get_bind] at h
  cases hknown : s.packets[v]? with
  | some q =>
    simp only [hknown] at h
    obtain ⟨rfl, rfl⟩ := pure_eq_ok.mp h
    exact .inl ⟨rfl, rfl⟩
  | none =>
    simp only [hknown] at h
    obtain ⟨ty, hty, h⟩ := valueTy_bind_eq_ok.mp h
    cases helem : ty.element? with
    | none =>
      simp only [helem] at h
      obtain ⟨_, _, -, h⟩ := bind_eq_ok.mp h
      obtain ⟨_, _, -, h⟩ := bind_eq_ok.mp h
      exact absurd h unsupported_ne_ok
    | some elem =>
      have hshape := withLanes_shape (t := t) helem
      simp only [helem, hshape] at h
      refine .inr ⟨rfl, ?_⟩
      have hset : ∀ {x : Widen ValueId}, (∀ q s1, x s = .ok q s1 → s.Makes t v q s1) →
          (do let p ← x; setPacket v p; return p : Widen ValueId) s = .ok p s' →
          ∃ s1, s' = { s1 with packets := s1.packets.insert v p } ∧ s.Makes t v p s1 := by
        intro x hx h
        obtain ⟨q, s1, hq, h⟩ := bind_eq_ok.mp h
        rw [setPacket, modify_bind] at h
        obtain ⟨rfl, rfl⟩ := pure_eq_ok.mp h
        exact ⟨s1, rfl, hx q s1 hq⟩
      have hbehind : ∀ {action : Build ValueId}, action.Grows → action.Fresh → (∀ c q c', c.kernel.valueTy v = .ok ty →
          action c = .ok (q, c') → c'.kernel.valueTy q = .ok (.vector (shape t elem))) →
          ∀ q s1, behind t v action s = .ok q s1 → s.Makes t v q s1 := by
        intro action hgrows hfresh htyped q s1 hq
        obtain ⟨point, c, haction, hkernel⟩ := exists_of_behind hq
        exact ⟨converts_behind t v hgrows s q s1 hq, ⟨ty, elem, hty, helem, hkernel ▸ htyped _ q c hty haction⟩,
          fun hs => fresh_behind t v hfresh s q s1 hs hq⟩
      cases hplan : t.plan.get v with
      | uniform =>
        simp only [hplan] at h
        refine hset (hbehind (grows_emitValue _ _) (fresh_emitValue rfl) fun c q c' hty h => ?_) h
        exact valueTy_emitValue (hshape ▸ resultTy_splat _ hty) rfl h
      | laneId =>
        simp only [hplan] at h
        refine hset (hbehind (.bind (grows_emitValue _ _) fun _ => .bind (grows_emitValue _ _) fun _ =>
          grows_emitValue _ _) (.bind (grows_emitValue _ _) fun _ => .bind (grows_emitValue _ _) fun _ =>
          fresh_emitValue rfl) fun c q c' hty h => ?_) h
        obtain ⟨base, c1, hbase, h⟩ := stateBind_eq_ok.mp h
        obtain ⟨steps, c2, hsteps, h⟩ := stateBind_eq_ok.mp h
        have hbaseTy := valueTy_emitValue (hshape ▸ resultTy_splat _ hty) rfl hbase
        refine valueTy_emitValue ?_ rfl h
        exact tyOf_of_valueTy (((grows_emitValue _ _).kernel _ _ _ hsteps).valueTy hbaseTy)
      | packet =>
        simp only [hplan] at h
        refine hset (fun q s1 hq => ?_) h
        cases hknown.symm.trans (existingPacket_eq_ok hq).2
      | perLane =>
        simp only [hplan] at h
        refine hset (fun q s1 hq => ?_) h
        obtain ⟨hconv, hvector, hnew⟩ := assemble_spec rfl hq
        exact ⟨hconv, ⟨ty, elem, hty, helem, hvector⟩, hnew⟩

/-- What is given as the packet of a value is noted for it. -/
theorem packets_of_packetOf (h : packetOf t v s = .ok p s') : s'.packets[v]? = some p := by
  rcases packetOf_spec h with ⟨hp, rfl⟩ | ⟨-, s1, rfl, -⟩
  · exact hp
  · exact TreeMap.getElem?_insert_self

theorem packetOf_of_packet (h : s.packets[v]? = some p) : packetOf t v s = .ok p s := by
  rw [packetOf]
  refine bind_eq_ok.mpr ⟨s, s, rfl, ?_⟩
  simp only [h]
  rfl

theorem extends_packetOf (t : WidenTask) (v : ValueId) : (packetOf t v).Extends t := by
  intro s p s' h hsolid
  rcases packetOf_spec h with ⟨-, rfl⟩ | ⟨hnone, s1, rfl, hmakes⟩
  · exact .refl _
  · obtain ⟨hnew, hhas⟩ := hmakes.fresh hsolid
    exact (hmakes.more hsolid).setPacket hnone hmakes.packets hnew hhas

theorem exists_isUniform (hv : s.kernel.Has (.value v)) : ∃ uniform, isUniform t v s = .ok uniform s := by
  obtain ⟨d, hd⟩ := isSome_iff_exists.mp hv
  have hvalue : s.kernel.value v = .ok d := some?_eq_ok.mpr hd
  have hask : ∃ varying, t.divergence.isVarying s.kernel v = .ok varying := by
    rw [Divergence.isVarying, hvalue, ok_bind]
    cases d.kind <;> exact ⟨_, rfl⟩
  obtain ⟨varying, hvarying⟩ := hask
  exact ⟨!varying, bind_eq_ok.mpr ⟨s.kernel, s, rfl, bind_eq_ok.mpr ⟨varying, s, lift_eq_ok.mpr ⟨hvarying, rfl⟩, rfl⟩⟩⟩

theorem extends_packetUnlessUniform (t : WidenTask) (v : ValueId) : (packetUnlessUniform t v).Extends t := by
  refine .bind (.bind (converts_kernel t).extends fun _ => .bind (.lift _) fun _ => .pure _) fun uniform => ?_
  split
  · exact .pure _
  · exact extends_packetOf t v

theorem extends_maskOf (t : WidenTask) (mask : Option ValueId) : (maskOf t mask).Extends t := by
  cases mask with
  | none => exact .pure _
  | some m => exact .map _ (extends_packetUnlessUniform t m)

end Widen

/-! ## Lanes of packets -/

/-- A kernel that is being widened has more instructions and values, and maybe more packets. -/
structure Widening.Grows (s s' : Widening) : Prop where
  kernel : s.kernel.Grows s'.kernel
  packets : ∀ (v p : ValueId), s.packets[v]? = some p → s'.packets[v]? = some p

theorem Widening.Grows.trans {s s1 s' : Widening} (h : s.Grows s1) (h' : s1.Grows s') : s.Grows s' :=
  ⟨h.kernel.trans h'.kernel, fun v p hp => h'.packets v p (h.packets v p hp)⟩

theorem Widening.Grows.of_packets {s s' : Widening} (h : s.kernel.Grows s'.kernel) (hpackets : s'.packets = s.packets) :
    s.Grows s' :=
  ⟨h, fun _ _ hp => hpackets ▸ hp⟩

theorem Widening.Converts.grows {s s' : Widening} (h : s.Converts t s') : s.Grows s' :=
  .of_packets h.kernel h.packets

/-- Every packet has as many lanes as the group, with the elements of its value. -/
def Widening.Sized (t : WidenTask) (s : Widening) : Prop :=
  ∀ v p : ValueId, s.packets[v]? = some p → ∃ ty elem, s.kernel.valueTy v = .ok ty ∧ ty.element? = some elem ∧
    s.kernel.valueTy p = .ok (.vector (Widen.shape t elem))

namespace Widen

variable {p : ValueId}

theorem sized_of_grows (hs : s.Sized t) (hkernel : s.kernel.Grows s'.kernel) (hpackets : s'.packets = s.packets) :
    s'.Sized t := by
  intro v p hp
  obtain ⟨ty, elem, hty, helem, hvector⟩ := hs v p (hpackets ▸ hp)
  exact ⟨ty, elem, hkernel.valueTy hty, helem, hkernel.valueTy hvector⟩

/-- **The packet of a value** is remembered, and has a lane for each lane of the group. -/
theorem packetOf_eq_ok (hs : s.Sized t) (h : packetOf t v s = .ok p s') :
    s.Grows s' ∧ s'.Sized t ∧ s'.packets[v]? = some p := by
  have hp := packets_of_packetOf h
  rcases packetOf_spec h with ⟨-, rfl⟩ | ⟨hnone, s1, rfl, hmakes⟩
  · exact ⟨.of_packets (.refl _) rfl, hs, hp⟩
  have hgrows := hmakes.kernel
  have hlook : ∀ u : ValueId, (s1.packets.insert v p)[u]? = if v = u then some p else s.packets[u]? := fun u => by
    simp only [TreeMap.getElem?_insert, Std.LawfulEqOrd.compare_eq_iff_eq, hmakes.packets]
  refine ⟨⟨hgrows, fun u q hq => (hlook u).trans ?_⟩, fun u q hq => ?_, hp⟩
  · rw [if_neg, hq]
    rintro rfl
    rw [hnone] at hq
    cases hq
  · rw [hlook u] at hq
    split at hq
    next heq =>
      cases hq
      obtain ⟨ty, elem, hty, htyped⟩ := hmakes.typed
      exact ⟨ty, elem, heq ▸ hgrows.valueTy hty, htyped⟩
    · exact sized_of_grows hs hgrows hmakes.packets u q (hmakes.packets ▸ hq)

end Widen

end Spmd
