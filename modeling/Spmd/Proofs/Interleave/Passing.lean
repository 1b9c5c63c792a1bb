import Spmd.Proofs.Interleave.Visit

/-!
# Passing a group that was merged

The part of a block that a group takes up is passed from the same frame and world in the kernel before a merge and in the
one after it.

* **`passes_loads`** — the stretch is loaded where the first member was. Until the last member nothing changes its bytes,
  so the shuffles give what the members would have loaded.
* **`passes_stores`** — the worlds differ in the stretch until the last member (`SameBut`), where a store of the whole
  stretch makes up for the stores that are gone.
-/

namespace Spmd.Machine

open Success List Kernel Exec InterleaveGroup

variable {rest is starts : List InstId} {t : Stretch} {root : MemRoot} {f0 f1 : Frame} {wide : InstId}
  {n : StridedAccess × Nat} {instr : Instr} {s : Nat → Scalar}

variable {σ : Type} {m m' : Machine} {env : Environment σ} {classify : Classifier} {touched : MemRoot → Nat → Prop}
  {ms : List Merge} {φ : Flow} {b : BlockId} {prev : Option BlockId} {i : InstId} {g : InterleaveGroup}
  {ρ : ValueId → ValueId} {τ : InstId → List InstId} {f f' : Frame} {w : World σ}

/-! ## What was computed is read -/

theorem RegularAt.tail {merge : Merge} (h : m.RegularAt env classify touched (merge :: ms) i instr f w) :
    m.RegularAt env classify touched ms i instr f w :=
  ⟨h.touches, h.quiet, h.typed, fun hstrided merge hmerge => h.spaced hstrided merge (.tail _ hmerge),
    fun hstrided merge hmerge => h.allocated hstrided merge (.tail _ hmerge)⟩

theorem read_of_results (hk : m.kernel.Coherent) {v : ValueId} (hresult : m.kernel.result? i = some v) {x : Val}
    (h : f.results[v]? = some x) : m.read f v = .ok x := by
  obtain ⟨d, hd, hkind⟩ := map_eq_some_iff.mp (hk.defines i v hresult)
  rw [read_eq f hd, hkind]
  rw [h]

namespace HandsOn

variable (h : HandsOn m m' φ ρ τ ms)

include h

/-- An instruction that stayed is carried out in a world that may differ. -/
theorem passes_one (hb : b ∈ m.kernel.layout) (hi : i ∈ m.kernel.instsOf b) (hτ : τ i = [i])
    (hinstr : m.kernel.instr? i = some instr) (hterm : instr.isTerminator = false) (hf : f.Agree m.kernel ρ f')
    (hregular : m.RegularAt env classify touched ms i instr f w) {x : Option Val} {v : World σ}
    (heval : m.eval env f i instr w = .ok x v) {w' v' : World σ} (henv : w'.env = w.env)
    (hsize : w'.memory.size = w.memory.size) (heval' : m.eval env f i instr w' = .ok x v') (rest : List InstId) :
    m'.Passes env (m'.Regular env classify touched ms) b prev rest (τ i) f' w' (f'.record (m.kernel.result? i) x) v' ∧
      (f.record (m.kernel.result? i) x).Agree m.kernel ρ (f'.record (m.kernel.result? i) x) := by
  have hkept := mem_of_eq_singleton hτ
  obtain ⟨hinstr', hsame⟩ : m'.kernel.instr? i = some (instr.mapOperands ρ) ∧
      m'.eval env f' i (instr.mapOperands ρ) = m.eval env f i instr :=
    h.recast.eval_eq h.scale h.sound.coherent h.verified hf hb hi hkept hinstr
  have hresult : m'.kernel.result? i = m.kernel.result? i := (h.recast.kept b hb i hi hkept).2.1
  have hagree := h.recast.agree_record h.sound.coherent hf hb hi hkept x
  rw [hresult] at hagree
  refine ⟨?_, hagree⟩
  rw [hτ, ← hresult]
  refine .single hinstr' ?_ ?_ (hsame ▸ heval')
  · rw [← hterm]
    cases instr <;> rfl
  · exact (h.kept hregular hb hi hkept hinstr hf heval henv hsize).regular hinstr'

/-- Instructions that stayed are passed as before. -/
theorem passes_same (hb : b ∈ m.kernel.layout) (hsame : ∀ i ∈ is, i ∈ m.kernel.instsOf b ∧ τ i = [i]) {g : Frame}
    {u : World σ} (hpass : m.Passes env (m.Regular env classify touched ms) b prev rest is f w g u)
    (hf : f.Agree m.kernel ρ f') (rest' : List InstId) :
    ∃ g', m'.Passes env (m'.Regular env classify touched ms) b prev rest' (is.flatMap τ) f' w g' u ∧ g.Agree m.kernel ρ g' := by
  obtain ⟨g', u', hpass', hg, rfl⟩ := hpass.follow m' (m'.Regular env classify touched ms) τ
    (fun f w f' w' => f.Agree m.kernel ρ f' ∧ w' = w) rest' ⟨hf, rfl⟩ (by
      rintro i hi f w f' w' instr x v todo todo' hregular hinstr hterm ⟨hf, rfl⟩ heval
      obtain ⟨hib, hτ⟩ := hsame i hi
      obtain ⟨hone, hagree⟩ := h.passes_one hb hib hτ hinstr hterm hf (hregular i todo instr rfl hinstr) heval rfl rfl heval todo'
      exact ⟨_, v, hone, hagree, rfl⟩)
  exact ⟨g', hpass', hg⟩

/-- The start of the stretch is computed. -/
theorem passes_starts {start : ValueId} (hbegins : m'.kernel.Begins t.elem n.1.ptr n.2 starts start)
    (hptr : m.kernel.Typed n.1.ptr .ptr) (hread : m.read f n.1.ptr = .ok (.scalar (.ptr (t.spot n.2))))
    (hf : f.Agree m.kernel ρ f') (hfresh : starts ≠ [] → ∀ u, (m.kernel.value? u).isSome = true → ρ u ≠ start)
    (rest : List InstId) :
    ∃ g', m'.Passes env (m'.Regular env classify touched ms) b prev rest starts f' w g' w ∧ f.Agree m.kernel ρ g' ∧
      m'.read g' start = .ok (.scalar (.ptr t.start)) := by
  have hread' : m'.read f' n.1.ptr = .ok (.scalar (.ptr (t.spot n.2))) := (h.read_ptr hf hptr).trans hread
  cases hbegins with
  | here hoffset =>
    refine ⟨f', .nil, hf, ?_⟩
    rw [hread', hoffset]
    simp [Stretch.spot, stepped]
  | moved s index start hinstr hresult hindex =>
    have hconst : m'.read f' index = .ok (.scalar (.i64 (Int64.ofInt (-n.2)))) := by
      rw [read_eq f' hindex]
      rfl
    have heval : m'.eval env f' s (.elementPtr n.1.ptr index t.elem) w = .ok (some (.scalar (.ptr t.start))) w := by
      refine bind_eq_ok.mpr ⟨_, w, liftChecked_eq_ok.mpr ⟨hread', rfl⟩, ?_⟩
      refine bind_eq_ok.mpr ⟨_, w, liftChecked_eq_ok.mpr ⟨hconst, rfl⟩, ?_⟩
      refine some_map_liftExcept_eq_ok.mpr ⟨?_, rfl⟩
      rw [← t.start_eq n.2]
      rfl
    have hagree : f.Agree m.kernel ρ (f'.record (m'.kernel.result? s) (some (.scalar (.ptr t.start)))) := by
      rw [hresult]
      exact hf.define_new _ (hfresh (by simp))
    refine ⟨_, .single hinstr rfl (RegularAt.of_computes hinstr rfl |>.regular hinstr) heval, hagree, ?_⟩
    refine read_of_results h.sound'.coherent hresult ?_
    rw [hresult, f'.getElem?_record_self]

end HandsOn

/-! ## Loads -/

/-- A group that can be merged, and what its stretch has to be apart from. -/
structure Mergeable (m : Machine) (classify : Classifier) (touched : MemRoot → Nat → Prop) (b : BlockId) (g : InterleaveGroup)
    (root : MemRoot) : Prop where
  listed : b ∈ m.kernel.layout
  covers : g.Covers m.kernel b
  object : m.kernel.memoryRoot g.first.1.ptr = .ok root
  lets : ∀ i ∈ g.span m.kernel b, g.holds i = false → m.kernel.letsPass classify g.kind.isStore root i = .ok true
  apart : Apart m.kernel touched

namespace Mergeable

variable (hm : m.Mergeable classify touched b g root)

include hm

/-- A load of a group gives what stands in its places. -/
theorem eval_load (hload : g.kind.isStore = false) (hlaid : m.Laid g f t) (hn : n ∈ g.members)
    (hinstr : m.kernel.instr? n.1.inst = some instr) (hread : ∀ v ∈ instr.operands, m.read f v = m.read f' v)
    {x : Option Val} {w' : World σ} (h : m.eval env f' n.1.inst instr w = .ok x w') :
    w' = w ∧ x = some (.vector ((g.picks n.2).map (t.element w))) ∧
      ∀ l < g.kind.lanes, w.memory.covers (t.spot (l * g.kind.stride.toNat + n.2)).toNat t.elem.size = true := by
  obtain ⟨haccess, _, hty, hsome⟩ := hlaid.access?_load hm.covers hload hn hinstr hread
  rw [eval_of_access? haccess hsome, hty] at h
  obtain ⟨y, hy, rfl⟩ := map_eq_ok.mp h
  obtain ⟨rfl, hcovers, rfl⟩ := load_eq_ok_iff.mp hy
  refine ⟨rfl, ?_, hcovers⟩
  rw [picks, map_map]
  rfl

/-- Between the first load of a group and the last, the bytes of the stretch are kept, and memory does not grow unless
something is allocated. -/
theorem keeps_stretch (hload : g.kind.isStore = false) (hlaid : m.Laid g f t) (ht : ∀ a, t.Has a → touched root a)
    (his : ∀ i ∈ is, i ∈ g.span m.kernel b) {w1 : World σ}
    (h : m.Passes env (fun c => m.Regular env classify touched ms c ∧ m.ReadsAs f c) b prev rest is f0 w f1 w1) :
    Memory.Kept t.Has w.memory w1.memory ∧ (¬Merge.Grows ⟨m.kernel, b, g⟩ → w1.memory.size = w.memory.size) := by
  refine h.invariant (I := fun _ u => Memory.Kept t.Has w.memory u.memory ∧
    (¬Merge.Grows ⟨m.kernel, b, g⟩ → u.memory.size = w.memory.size)) ⟨.refl _ _, fun _ => rfl⟩ ?_
  intro i hi f' u instr x v todo hsame hinstr hmoment heval
  obtain ⟨hregular, hreads⟩ := hmoment
  have hregular := hregular i todo instr rfl hinstr
  have hspan := his i hi
  have hkeeps : (instr.mayWrite = true → ∀ access, m.access? f' i instr = .ok (some access) →
      ∀ a, access.Touches m (m.kernel.resultTy i) a → ¬t.Has a) ∧
      ∀ callee args mask, instr = .call callee args mask → Detached (m.eval env f' i instr) u := by
    cases hholds : g.holds i with
    | true =>
      obtain ⟨n, hn, rfl⟩ := holds_iff.mp hholds
      have hphi := (hm.covers.plain hn hinstr).1
      obtain ⟨haccess, hwrite, _⟩ := hlaid.access?_load hm.covers hload hn hinstr (hreads _ _ rfl hinstr hphi)
      refine ⟨fun hyes => absurd (hwrite.symm.trans hyes) (by decide), ?_⟩
      rintro callee args mask rfl
      exact absurd haccess Bool.false_ne_true
    | false =>
      obtain ⟨hcall, hclear⟩ := hregular.clear hinstr (hm.lets i hspan hholds) hm.apart ht
      exact ⟨fun hwrite => hclear (.inl hwrite), hcall⟩
  obtain ⟨hkept, hsize⟩ := eval_keeps hkeeps.1 hkeeps.2 heval
  refine ⟨hsame.1.trans hkept, fun hstays => (hsize fun elem count heq => ?_).trans (hsame.2 hstays)⟩
  exact hstays ⟨hload, i, hspan, elem, count, heq ▸ hinstr⟩

end Mergeable

namespace HandsOn

variable (h : HandsOn m m' φ ρ τ ms) {start stretch : ValueId}

include h

/-- The start of the stretch leads into the object of the group. -/
theorem memoryRoot_start (hm : m.Mergeable classify touched b g root) (hn : n ∈ g.members)
    (hbegins : m'.kernel.Begins g.kind.elem n.1.ptr n.2 starts start) (hstarts : ∀ s ∈ starts, s ∈ τ n.1.inst) :
    m'.kernel.memoryRoot start = .ok root := by
  have hg := hm.covers
  have hmem := hg.mem_instsOf hn
  have hlayout := h.recast.layout
  refine hbegins.memoryRoot_eq h.sound' (fun c hc => h.reach c (hlayout ▸ hc)) (hlayout ▸ hm.listed)
    (fun s hs => h.recast.mem_instsOf hm.listed hmem (hstarts s hs)) ?_
  rw [h.memoryRoot_eq ((hg.strided hn).typed_ptr h.sound hm.listed hmem)]
  exact hg.memoryRoot_eq h.sound h.reach hm.listed hm.object hn

/-- A load of the whole stretch gives all that stands there. -/
theorem passes_wideLoad (hm : m.Mergeable classify touched b g root)
    (hwide : WideLoad m.kernel m'.kernel g ρ τ starts start wide stretch)
    (hlaid : m.Laid g f t) (ht : ∀ a, t.Has a → touched root a)
    (hcovers : ∀ n < t.count, w.memory.covers (t.spot n).toNat t.elem.size = true)
    (hread : m.read f' g.first.1.ptr = m.read f g.first.1.ptr) {f'' : Frame} (hf : f'.Agree m.kernel ρ f'')
    (rest : List InstId) :
    ∃ g', m'.Passes env (m'.Regular env classify touched ms) b prev rest (starts ++ [wide]) f'' w g' w ∧
      f'.Agree m.kernel ρ g' ∧ g'.results[stretch]? = some (.vector ((range t.count).map (t.element w))) := by
  have hg := hm.covers
  have hfirst := (first_spec hg.ne_nil).1
  have hptr := (hg.strided hfirst).typed_ptr h.sound hm.listed (hg.mem_instsOf hfirst)
  have hbegins := hwide.begins
  have hty := hwide.ty
  have hinstr := hwide.instr
  rw [← hlaid.elem, ← hlaid.count] at hty
  obtain ⟨g1, hstarts, hg1, hstart⟩ : ∃ g', m'.Passes env (m'.Regular env classify touched ms) b prev ([wide] ++ rest) starts
      f'' w g' w ∧ f'.Agree m.kernel ρ g' ∧ m'.read g' start = .ok (.scalar (.ptr t.start)) :=
    h.passes_starts (hlaid.elem ▸ hbegins) hptr (hread.trans (hlaid.pointers _ hfirst)) hf
      (fun hne u hu => (hwide.fresh u hu).2 hne) ([wide] ++ rest)
  have haccess : m'.access? g1 wide (.load start none t.elem.size) = .ok (some (.load none t.spot)) := by
    have helem : m'.elementOf wide = t.elem := by
      rw [elementOf, hty]
      rfl
    rw [access?, hstart, ok_bind, helem]
    rfl
  have heval : m'.eval env g1 wide (.load start none t.elem.size) w =
      .ok (some (.vector ((range t.count).map (t.element w)))) w := by
    rw [eval_of_access? rfl haccess, hty]
    exact map_eq_ok.mpr ⟨_, load_eq_ok_iff.mpr ⟨rfl, hcovers, rfl⟩, rfl⟩
  have hroot : m'.kernel.accessRoot? wide = .ok (some root) := by
    refine accessRoot?_of_rowStart? hinstr rfl (h.memoryRoot_start hm hfirst hbegins fun s hs => ?_)
    obtain ⟨part, _, hτ, _⟩ := hwide.member _ hfirst
    rw [hτ, if_pos rfl]
    exact mem_append_left _ hs
  refine ⟨_, hstarts.append (.single hinstr rfl (RegularAt.regular ?_ hinstr) heval), ?_, ?_⟩
  · refine .of_plain hinstr (.inl rfl) rfl fun r access hr hsome a ha => ?_
    cases ok_unique hr hroot
    cases ok_unique hsome haccess
    rw [hty] at ha
    obtain ⟨lanes, lane, hlanes, hlt, _, hge, hlt'⟩ := ha
    cases hlanes
    exact ht a ⟨lane, hlt, hge, hlt'⟩
  · rw [hwide.result]
    exact hg1.define_new _ fun u hu => (hwide.fresh u hu).1
  · rw [hwide.result, g1.getElem?_record_self]

/-- A shuffle of the stretch gives what a member gave. -/
theorem passes_part (hg : g.Covers m.kernel b) (hwide : WideLoad m.kernel m'.kernel g ρ τ starts start wide stretch)
    (hlaid : m.Laid g f0 t) (hn : n ∈ g.members) {part : InstId} {old : ValueId}
    (hold : m.kernel.result? n.1.inst = some old) (hresult : m'.kernel.result? part = some (ρ old))
    (hinstr : m'.kernel.instr? part = some (.shuffle [stretch] (g.picks n.2))) (hf : f.Agree m.kernel ρ f')
    (hstretch : f'.results[stretch]? = some (.vector ((range t.count).map (t.element w)))) (u : World σ)
    (rest : List InstId) :
    ∃ g', m'.Passes env (m'.Regular env classify touched ms) b prev rest [part] f' u g' u ∧
      (f.record (m.kernel.result? n.1.inst) (some (.vector ((g.picks n.2).map (t.element w))))).Agree m.kernel ρ g' ∧
      g'.results[stretch]? = some (.vector ((range t.count).map (t.element w))) := by
  obtain ⟨d, hd, _⟩ := map_eq_some_iff.mp (h.sound.coherent.defines _ _ hold)
  have hsome : (m.kernel.value? old).isSome = true := by
    rw [hd]
    rfl
  have hread : [stretch].mapM (m'.read f') = .ok [.vector ((range t.count).map (t.element w))] := by
    have := read_of_results h.sound'.coherent hwide.result hstretch
    rw [mapM_cons, this]
    rfl
  have heval : m'.eval env f' part (.shuffle [stretch] (g.picks n.2)) u =
      .ok (some (.vector ((g.picks n.2).map (t.element w)))) u := by
    refine eval_shuffle _ hread fun p hp => ?_
    rw [flatMap_singleton, sourceLanes, getElem?_map, getElem?_range (hlaid.lt_of_mem_picks hg hn hp)]
    rfl
  refine ⟨_, .single hinstr rfl (RegularAt.of_computes hinstr rfl |>.regular hinstr) heval, ?_, ?_⟩
  · rw [hold, hresult]
    exact hf.define _ fun v hv hρ => h.recast.injective v old hv hsome hρ
  · rw [hresult, Frame.getElem?_record fun heq => (hwide.fresh old hsome).1 (Option.some.inj heq), hstretch]

/-- **A group of loads that was merged is passed with the same outcome.** -/
theorem passes_loads (hm : m.Mergeable classify touched b g root) (hload : g.kind.isStore = false)
    (hwide : WideLoad m.kernel m'.kernel g ρ τ starts start wide stretch) {w1 : World σ}
    (hpass : m.Passes env (m.Regular env classify touched (⟨m.kernel, b, g⟩ :: ms)) b prev rest (g.span m.kernel b) f w f1 w1)
    (hf : f.Agree m.kernel ρ f') (rest' : List InstId) :
    ∃ f1', m'.Passes env (m'.Regular env classify touched ms) b prev rest' ((g.span m.kernel b).flatMap τ) f' w f1' w1 ∧
      f1.Agree m.kernel ρ f1' := by
  have hg := hm.covers
  obtain ⟨front, fl, _, t, hfront, hlaid, _, ht, hpast, hlast⟩ :=
    exists_visit h.sound h.reach hm.listed hg hm.object (.head _) hpass
  have hvisit := hpast.append hlast
  rw [← hfront] at hvisit
  -- the stretch is at all moments as it was before the first member
  replace hvisit := hvisit.cut.mono (Q := fun c => (m.Regular env classify touched (⟨m.kernel, b, g⟩ :: ms) c ∧
      m.ReadsAs fl c) ∧ Memory.Kept t.Has w.memory c.world.memory ∧
        (¬Merge.Grows ⟨m.kernel, b, g⟩ → c.world.memory.size = w.memory.size)) (by
    rintro c ⟨hc, p, q, hsplit, _, hpast, _⟩
    refine ⟨hc, hm.keeps_stretch hload hlaid ht (fun i hi => ?_) hpast⟩
    rw [hsplit]
    exact mem_append_left _ hi)
  have hcovers : ∀ p < t.count, w.memory.covers (t.spot p).toNat t.elem.size = true := by
    intro p hp
    by_cases hgrows : Merge.Grows ⟨m.kernel, b, g⟩
    · obtain ⟨_, _, _, ⟨others, hspan⟩, _, _⟩ := hg.split
      have hfirst := (first_spec hg.ne_nil).1
      rw [hspan] at hvisit
      cases hvisit with
      | @cons _ _ instr _ _ _ _ _ _ hinstr _ hmoment =>
        obtain ⟨instr', hinstr', hstrided⟩ := (Option.any_eq_true _ _).mp (hg.strided hfirst).isStrided
        obtain rfl := mem_unique hinstr hinstr'
        obtain ⟨_, hinstr', hop, _⟩ := (hg.strided hfirst).exists_instr
        obtain rfl := mem_unique hinstr hinstr'
        have hread := hmoment.1.2 _ _ rfl hinstr (hg.plain hfirst hinstr).1 _ hop
        have := (hmoment.1.1 _ _ _ rfl hinstr).allocated hstrided _ (.head _) rfl hgrows _
          (hread.symm.trans (hlaid.pointers _ hfirst)) p (hp.trans_eq hlaid.count)
        rw [← hlaid.elem] at this
        rwa [← t.spot_eq p g.first.2]
    · obtain ⟨n, hn, l, hl, rfl⟩ := hg.exists_place (hlaid.count ▸ hp)
      obtain ⟨_, _, _, _, _, hspan⟩ := hg.split
      obtain ⟨f0, u, todo, instr, x, v, hinstr, ⟨⟨_, hreads⟩, _, hsize⟩, heval⟩ := hvisit.at_mem (hspan n hn)
      obtain ⟨_, _, hall⟩ := hm.eval_load hload hlaid hn hinstr (hreads _ _ rfl hinstr (hg.plain hn hinstr).1) heval
      exact Memory.covers_congr (Nat.le_of_eq (hsize hgrows)) (hall l hl)
  have hmember : ∀ n ∈ g.members, ∀ f0 u todo instr x v,
      (m.Regular env classify touched (⟨m.kernel, b, g⟩ :: ms) ⟨⟨b, prev, f0, n.1.inst :: todo⟩, u⟩ ∧
        m.ReadsAs fl ⟨⟨b, prev, f0, n.1.inst :: todo⟩, u⟩) ∧ Memory.Kept t.Has w.memory u.memory ∧
        (¬Merge.Grows ⟨m.kernel, b, g⟩ → u.memory.size = w.memory.size) → m.kernel.instr? n.1.inst = some instr →
      m.eval env f0 n.1.inst instr u = .ok x v → v = u ∧ x = some (.vector ((g.picks n.2).map (t.element w))) := by
    rintro n hn f0 u todo instr x v ⟨⟨_, hreads⟩, hkept, _⟩ hinstr heval
    obtain ⟨rfl, rfl, _⟩ := hm.eval_load hload hlaid hn hinstr (hreads _ _ rfl hinstr (hg.plain hn hinstr).1) heval
    refine ⟨rfl, congrArg (fun xs => some (Val.vector xs)) (map_congr_left fun p hp => ?_)⟩
    have hlt := hlaid.lt_of_mem_picks hg hn hp
    exact Stretch.element_eq hkept hlt (hcovers p hlt)
  obtain ⟨_, _, _, ⟨others, hspan⟩, _, _⟩ := hg.split
  have hfirst := (first_spec hg.ne_nil).1
  have hnodup := (h.sound.coherent.nodup b).sublist (g.span_sublist m.kernel b)
  rw [hspan] at hnodup
  have hmem : ∀ i ∈ others, i ∈ m.kernel.instsOf b := fun i hi =>
    (g.span_sublist m.kernel b).subset (by rw [hspan]; exact .tail _ hi)
  rw [hspan] at hvisit ⊢
  cases hvisit with
  | @cons _ _ instr x _ _ _ v _ hinstr hterm hmoment heval hothers =>
    -- the first member: the stretch is loaded and the member picked from it
    obtain ⟨rfl, rfl⟩ := hmember _ hfirst f w _ instr x v hmoment hinstr heval
    have hptr : m.read f g.first.1.ptr = m.read fl g.first.1.ptr := by
      obtain ⟨instr', hinstr', hop, _⟩ := (hg.strided hfirst).exists_instr
      exact (hmoment.1.2 _ _ rfl hinstr' (hg.plain hfirst hinstr').1 _ hop).symm
    obtain ⟨part, old, hτ, hold, hresult, hpart⟩ := hwide.member _ hfirst
    rw [if_pos rfl] at hτ
    obtain ⟨g1, hpass1, hagree1, hstretch1⟩ :=
      h.passes_wideLoad hm hwide hlaid ht hcovers hptr hf ([part] ++ (others.flatMap τ ++ rest'))
    obtain ⟨g2, hpass2, hagree2, hstretch2⟩ :=
      h.passes_part hg hwide hlaid hfirst hold hresult hpart hagree1 hstretch1 v (others.flatMap τ ++ rest')
    -- the others: members are picked from the stretch, which nothing redefines
    obtain ⟨g3, u3, hpass3, hagree3, rfl, _⟩ := hothers.follow m' (m'.Regular env classify touched ms) τ
      (fun f u f' u' => f.Agree m.kernel ρ f' ∧ u' = u ∧
        f'.results[stretch]? = some (.vector ((range t.count).map (t.element v)))) rest'
      ⟨hagree2, rfl, hstretch2⟩ (by
        rintro i hi f0 u f0' u' instr x w2 todo todo' hmoment hinstr hterm ⟨hagree, rfl, hstretch⟩ heval
        cases hholds : g.holds i with
        | true =>
          obtain ⟨n, hn, rfl⟩ := holds_iff.mp hholds
          obtain ⟨rfl, rfl⟩ := hmember n hn f0 u' todo instr x w2 hmoment hinstr heval
          obtain ⟨part, old, hτ, hold, hresult, hpart⟩ := hwide.member n hn
          have hne : n.1.inst ≠ g.first.1.inst := fun heq => (nodup_cons.mp hnodup).1 (heq ▸ hi)
          rw [if_neg hne] at hτ
          obtain ⟨g', hpass', hagree', hstretch'⟩ :=
            h.passes_part hg hwide hlaid hn hold hresult hpart hagree hstretch w2 todo'
          exact ⟨g', w2, hτ ▸ hpass', hagree', rfl, hstretch'⟩
        | false =>
          have hregular := (hmoment.1.1 i todo instr rfl hinstr).tail
          obtain ⟨hpass', hagree'⟩ := h.passes_one hm.listed (hmem i hi) (hwide.other i hholds) hinstr hterm hagree hregular
            heval rfl rfl heval todo'
          refine ⟨_, w2, hpass', hagree', rfl, ?_⟩
          rw [Frame.getElem?_record ?_, hstretch]
          intro hresult
          obtain ⟨d, hd, _⟩ := map_eq_some_iff.mp (h.sound.coherent.defines _ _ hresult)
          have hkept := mem_of_eq_singleton (hwide.other i hholds)
          exact (hwide.fresh stretch (by rw [hd]; rfl)).1 ((h.recast.kept b hm.listed i (hmem i hi) hkept).2.2 _ hresult))
    refine ⟨g3, ?_, hagree3⟩
    rw [flatMap_cons, hτ, show starts ++ [wide, part] = starts ++ [wide] ++ [part] by simp]
    exact (hpass1.append hpass2).append hpass3

end HandsOn

/-! ## Stores -/

namespace Mergeable

variable (hm : m.Mergeable classify touched b g root) {x : Option Val} {w' : World σ} {p : Nat}

include hm

/-- A store of a group writes to its places. -/
theorem eval_store (hstore : g.kind.isStore = true) (hlaid : m.Laid g f t) (hs : m.Delivers g f g.kind.elem s)
    (hn : n ∈ g.members) (hinstr : m.kernel.instr? n.1.inst = some instr)
    (hread : ∀ v ∈ instr.operands, m.read f v = m.read f' v) (h : m.eval env f' n.1.inst instr w = .ok x w') :
    x = none ∧ t.write s (g.picks n.2) w = .ok () w' := by
  obtain ⟨haccess, hsome⟩ := hlaid.access?_store hs hm.covers hstore hn hinstr hread
  rw [eval_of_access? haccess hsome] at h
  obtain ⟨_, hwrite, rfl⟩ := bind_pure_eq_ok.mp h
  refine ⟨rfl, ?_⟩
  rw [store_vector none _ _ fun l => s (l * g.kind.stride.toNat + n.2)] at hwrite
  rw [Stretch.write, picks, forM_eq_forM, forM_map]
  exact hwrite

section

variable (hstore : g.kind.isStore = true) (hlaid : m.Laid g f t) (hs : m.Delivers g f g.kind.elem s)
  (ht : ∀ a, t.Has a → touched root a) (hcount : t.count < 2 ^ 32)
include hstore hlaid hs ht hcount

/-- Between the first store of a group and the last, what is in place stays in place. -/
theorem settled_step (hi : i ∈ g.span m.kernel b) {todo : List InstId}
    (hmoment : m.Regular env classify touched ms ⟨⟨b, prev, f', i :: todo⟩, w⟩ ∧ m.ReadsAs f ⟨⟨b, prev, f', i :: todo⟩,
      w⟩) (hinstr : m.kernel.instr? i = some instr) (heval : m.eval env f' i instr w = .ok x w') (hp : p < t.count)
    (h : t.Settled s w p) : t.Settled s w' p := by
  have hty := hlaid.ty_delivered hs
  obtain ⟨hregular, hreads⟩ := hmoment
  cases hholds : g.holds i with
  | true =>
    obtain ⟨n, hn, rfl⟩ := holds_iff.mp hholds
    obtain ⟨_, hwrite⟩ := hm.eval_store hstore hlaid hs hn hinstr (hreads _ _ rfl hinstr (hm.covers.plain hn hinstr).1) heval
    exact (Stretch.writes hcount hty (fun _ => hlaid.lt_of_mem_picks hm.covers hn) hwrite).2.2.2 p hp (.inr h)
  | false =>
    obtain ⟨hcall, hclear⟩ := (hregular i todo instr rfl hinstr).clear hinstr (hm.lets i hi hholds) hm.apart ht
    obtain ⟨hkept, _⟩ := eval_keeps (fun hwrite => hclear (.inl hwrite)) hcall heval
    refine h.of_bytes (hty p) hkept.size fun a ha => hkept.bytes a ⟨p, hp, ha⟩ ?_
    have hcovers := h.1
    rw [hty p] at hcovers
    simp only [Memory.covers, Bool.and_eq_true, decide_eq_true_eq] at hcovers
    have := ha.2
    show a < w.memory.size
    omega

/-- Behind the last store of a group everything is in place. -/
theorem settled {w1 : World σ}
    (h : m.Passes env (fun c => m.Regular env classify touched ms c ∧ m.ReadsAs f c) b prev rest (g.span m.kernel b) f0 w f1 w1)
    (hp : p < t.count) : t.Settled s w1 p := by
  have hg := hm.covers
  obtain ⟨n, hn, l, hl, rfl⟩ := hg.exists_place (hlaid.count ▸ hp)
  obtain ⟨_, _, _, _, _, hspan⟩ := hg.split
  obtain ⟨p1, p2, hcut⟩ := append_of_mem (hspan n hn)
  rw [hcut] at h
  obtain ⟨f', u, instr, x, v, _, hinstr, hmoment, heval, hfuture⟩ := h.at_cons
  obtain ⟨_, hwrite⟩ := hm.eval_store hstore hlaid hs hn hinstr (hmoment.2 _ _ rfl hinstr (hg.plain hn hinstr).1) heval
  have hplace : l * g.kind.stride.toNat + n.2 ∈ g.picks n.2 := mem_map.mpr ⟨l, mem_range.mpr hl, rfl⟩
  have hnow := (Stretch.writes hcount (hlaid.ty_delivered hs) (fun _ => hlaid.lt_of_mem_picks hg hn) hwrite).2.2.2 _ hp
    (.inl hplace)
  refine hfuture.invariant (I := fun _ u => t.Settled s u (l * g.kind.stride.toNat + n.2)) hnow ?_
  intro i hi f' u instr x v todo hsettled hinstr hmoment heval
  refine hm.settled_step hstore hlaid hs ht hcount ?_ hmoment hinstr heval hp hsettled
  rw [hcut]
  exact mem_append_right _ (.tail _ hi)

end

end Mergeable

/-- Lists of one length behind one another. -/
theorem getElem?_flatMap_range {α : Type} (F : Nat → Nat → α) {count lanes o l : Nat} (ho : o < count) (hl : l < lanes) :
    ((range count).flatMap fun o => (range lanes).map (F o))[o * lanes + l]? = some (F o l) := by
  induction count with
  | zero => exact absurd ho (Nat.not_lt_zero _)
  | succ count ih =>
    have hlength : ((range count).flatMap fun o => (range lanes).map (F o)).length = count * lanes := by
      simp [length_flatMap]
    rw [range_succ, flatMap_append, flatMap_singleton]
    rcases Nat.lt_succ_iff_lt_or_eq.mp ho with ho | rfl
    · have hlt : o * lanes + l < count * lanes := by
        have : (o + 1) * lanes ≤ count * lanes := Nat.mul_le_mul_right _ ho
        rw [Nat.succ_mul] at this
        omega
      rw [getElem?_append_left (by rw [hlength]; exact hlt), ih ho]
    · rw [getElem?_append_right (by rw [hlength]; omega), hlength, Nat.add_sub_cancel_left, getElem?_map,
        getElem?_range hl]
      rfl

namespace HandsOn

variable (h : HandsOn m m' φ id τ ms) {start mixed : ValueId} {mix : InstId}

include h

/-- The values of all members are mixed in the order of the stretch. -/
theorem eval_mix (env : Environment σ) (mix : InstId) (hg : g.Covers m.kernel b) (hstore : g.kind.isStore = true)
    (hs : m.Delivers g f g.kind.elem s)
    (hf : f.Agree m.kernel id f') (hb : b ∈ m.kernel.layout) (u : World σ) :
    m'.eval env f' mix (.shuffle (g.members.filterMap fun n => m.kernel.storedValue? n.1) g.mix) u =
      .ok (some (.vector ((range g.size).map fun n => .scalar (s n)))) u := by
  have hread : ∀ ns : List (StridedAccess × Nat), (∀ n ∈ ns, n ∈ g.members) →
      (ns.filterMap fun n => m.kernel.storedValue? n.1).mapM (m'.read f') = .ok (ns.map fun n =>
        .vector ((range g.kind.lanes).map fun l => .scalar (s (l * g.kind.stride.toNat + n.2)))) := by
    intro ns hns
    induction ns with
    | nil => rfl
    | cons n ns ih =>
      have hn := hns n (.head _)
      obtain ⟨stride, value, _, hinstr, _⟩ := hg.store hn hstore
      have hvalue : m.kernel.storedValue? n.1 = some value := by
        rw [storedValue?, hinstr]
      have hsame : m'.read f' value = m.read f value :=
        h.recast.read_operand_eq h.scale h.verified hf hb (hg.mem_instsOf hn) hinstr value
          (.tail _ (.head _))
      rw [filterMap_cons, hvalue]
      rw [mapM_cons, hsame, hs.values n hn value hvalue, ih fun k hk => hns k (.tail _ hk)]
      rfl
  have hlanes : (g.members.map fun n => Val.vector ((range g.kind.lanes).map fun l =>
        .scalar (s (l * g.kind.stride.toNat + n.2)))).flatMap sourceLanes =
      (range g.kind.stride.toNat).flatMap fun o => (range g.kind.lanes).map fun l =>
        Val.scalar (s (l * g.kind.stride.toNat + o)) := by
    rw [← hg.offsets, flatMap_map, flatMap_map]
    rfl
  have hmix : m'.eval env f' mix (.shuffle (g.members.filterMap fun n => m.kernel.storedValue? n.1) g.mix) u =
      .ok (some (.vector (g.mix.map fun p => .scalar (s (p % g.kind.lanes * g.kind.stride.toNat + p / g.kind.lanes))))) u :=
    eval_shuffle _ (hread g.members fun _ => id) (by
      intro p hp
      have hlt := lt_of_mem_mix hp
      have hpos : 0 < g.kind.lanes := by
        by_contra hzero
        rw [size, show g.kind.lanes = 0 by omega] at hlt
        exact Nat.not_lt_zero _ hlt
      have hdiv : p / g.kind.lanes < g.kind.stride.toNat := Nat.div_lt_of_lt_mul (by rwa [Nat.mul_comm])
      rw [hlanes]
      have := getElem?_flatMap_range (fun o l => Val.scalar (s (l * g.kind.stride.toNat + o))) hdiv (Nat.mod_lt p hpos)
      rwa [Nat.div_add_mod'] at this)
  rw [hmix, InterleaveGroup.mix, map_map]
  refine congrArg (fun xs => EStateM.Result.ok (some (Val.vector xs)) u) (map_congr_left fun n hn => ?_)
  have hn := mem_range.mp hn
  have hlane : n / g.kind.stride.toNat < g.kind.lanes := Nat.div_lt_of_lt_mul hn
  show Val.scalar (s ((n % g.kind.stride.toNat * g.kind.lanes + n / g.kind.stride.toNat) % g.kind.lanes * g.kind.stride.toNat +
    (n % g.kind.stride.toNat * g.kind.lanes + n / g.kind.stride.toNat) / g.kind.lanes)) = .scalar (s n)
  rw [Nat.add_comm (n % g.kind.stride.toNat * g.kind.lanes), Nat.add_mul_mod_self_right, Nat.mod_eq_of_lt hlane,
    Nat.add_mul_div_right _ _ (Nat.zero_lt_of_lt hlane), Nat.div_eq_of_lt hlane, Nat.zero_add, Nat.div_add_mod']

section

variable (hm : m.Mergeable classify touched b g root) (hstore : g.kind.isStore = true)
  (hwide : WideStore m.kernel m'.kernel g τ starts start mix mixed wide)
include hm hstore hwide

/-- A store of the whole stretch puts everything in place at once. -/
theorem passes_wideStore (hlaid : m.Laid g f t) (hs : m.Delivers g f g.kind.elem s) (ht : ∀ a, t.Has a → touched root a)
    (hcount : t.count < 2 ^ 32) {w' : World σ} (hsettled : ∀ p < t.count, t.Settled s w p) (hsame : SameBut t.Has w w')
    (hf : f.Agree m.kernel id f') (rest : List InstId) :
    ∃ g', m'.Passes env (m'.Regular env classify touched ms) b prev rest (starts ++ [mix, wide]) f' w' g' w ∧
      f.Agree m.kernel id g' := by
  have hg := hm.covers
  have hlast := (last_spec hg.ne_nil).1
  have hptr := (hg.strided hlast).typed_ptr h.sound hm.listed (hg.mem_instsOf hlast)
  have hty := hlaid.ty_delivered hs
  have hbegins := hwide.begins
  have hinstr := hwide.instr
  have hnew : ∀ v, m.kernel.value? v = none → ∀ u, (m.kernel.value? u).isSome = true → id u ≠ v := by
    rintro v hv u hu rfl
    rw [id_eq] at hv
    rw [hv] at hu
    cases hu
  obtain ⟨g1, hstarts, hg1, hstart⟩ : ∃ g', m'.Passes env (m'.Regular env classify touched ms) b prev ([mix, wide] ++ rest) starts
      f' w' g' w' ∧ f.Agree m.kernel id g' ∧ m'.read g' start = .ok (.scalar (.ptr t.start)) :=
    h.passes_starts (hlaid.elem ▸ hbegins) hptr (hlaid.pointers _ hlast) hf
      (fun hne => hnew _ (hwide.fresh.2 hne)) ([mix, wide] ++ rest)
  have hmix := h.eval_mix env mix hg hstore hs hg1 hm.listed w'
  rw [← hlaid.count] at hmix
  -- the start of the stretch is another value
  have hne : mixed ≠ start := by
    rintro rfl
    cases hbegins with
    | here =>
      obtain ⟨d, hd, _⟩ := hptr
      cases hwide.fresh.1.symm.trans hd
    | moved s index _ hinstr' hresult =>
      obtain rfl := h.sound'.coherent.result_inj hresult hwide.mixResult
      cases hinstr'.symm.trans hwide.mixInstr
  generalize hmixed : Val.vector ((range t.count).map fun n => .scalar (s n)) = x at hmix
  have hread : m'.read (g1.record (m'.kernel.result? mix) (some x)) mixed = .ok x := by
    refine read_of_results h.sound'.coherent hwide.mixResult ?_
    rw [hwide.mixResult, g1.getElem?_record_self]
  have hstart' : m'.read (g1.record (m'.kernel.result? mix) (some x)) start = .ok (.scalar (.ptr t.start)) := by
    rw [read_record ?_, hstart]
    rw [hwide.mixResult]
    exact fun heq => hne (Option.some.inj heq)
  have haccess : m'.access? (g1.record (m'.kernel.result? mix) (some x)) wide (.store start mixed none t.elem.size) =
      .ok (some (.store none t.spot x)) := by
    have hsize : m'.elementSize mixed = .ok t.elem.size := by
      obtain ⟨d, hd, _⟩ := map_eq_some_iff.mp (h.sound'.coherent.defines _ _ hwide.mixResult)
      have hdty : d.ty = .fixedVector g.kind.elem g.size := by
        rw [← hwide.mixTy, resultTy_of_result? hwide.mixResult hd]
      have hvalue : m'.kernel.value mixed = .ok d := some?_eq_ok.mpr hd
      rw [elementSize, valueTy, hvalue, hlaid.elem]
      show Except.ok ((d.ty.element?.map ScalarTy.size).getD 1) = _
      rw [hdty]
      rfl
    rw [access?, hstart', ok_bind, hread, ok_bind, readMask, hsize]
    rfl
  have heval : m'.eval env (g1.record (m'.kernel.result? mix) (some x)) wide (.store start mixed none t.elem.size) w' =
      .ok none w := by
    rw [eval_of_access? rfl haccess, ← hmixed]
    refine bind_eq_ok.mpr ⟨(), w, ?_, rfl⟩
    rw [store_vector]
    exact Stretch.write_all hcount hty hsettled hsame
  have hroot : m'.kernel.accessRoot? wide = .ok (some root) := by
    refine accessRoot?_of_rowStart? hinstr rfl (h.memoryRoot_start hm hlast hbegins fun s hs => ?_)
    rw [hwide.last]
    exact mem_append_left _ hs
  refine ⟨_, hstarts.append (.cons hwide.mixInstr rfl (RegularAt.of_computes hwide.mixInstr rfl |>.regular hwide.mixInstr)
    hmix (.single hinstr rfl (RegularAt.regular ?_ hinstr) heval)), ?_⟩
  · refine .of_plain hinstr (.inl rfl) rfl fun r access hr hsome a ha => ?_
    cases ok_unique hr hroot
    cases ok_unique hsome haccess
    obtain ⟨y, lane, hy, _, hge, hlt⟩ := ha
    rw [← hmixed, Val.elements, mem_zipIdx_iff_getElem?, getElem?_map] at hy
    obtain ⟨n, hn, rfl⟩ := map_eq_some_iff.mp hy
    have hlane := (List.getElem?_eq_some_iff.mp hn).1
    rw [length_range] at hlane
    rw [Val.size, hty] at hlt
    exact ht a ⟨lane, hlane, hge, hlt⟩
  · rw [hwide.silent, hwide.mixResult]
    exact hg1.define_new _ (hnew _ hwide.fresh.1)

/-- **A group of stores that was merged is passed with the same outcome.** -/
theorem passes_stores (hcount : g.size < 2 ^ 32)
    (hsilent : ∀ n ∈ g.members, m.kernel.result? n.1.inst = none) {w1 : World σ}
    (hpass : m.Passes env (m.Regular env classify touched (⟨m.kernel, b, g⟩ :: ms)) b prev rest (g.span m.kernel b) f w f1 w1)
    (hf : f.Agree m.kernel id f') (rest' : List InstId) :
    ∃ f1', m'.Passes env (m'.Regular env classify touched ms) b prev rest' ((g.span m.kernel b).flatMap τ) f' w f1' w1 ∧
      f1.Agree m.kernel id f1' := by
  have hg := hm.covers
  obtain ⟨front, fl, wl, t, hfront, hlaid, hdelivers, ht, hpast, hlast⟩ :=
    exists_visit h.sound h.reach hm.listed hg hm.object (.head _) hpass
  obtain ⟨s, hs⟩ := hdelivers hstore
  rw [← hlaid.count] at hcount
  have hsettled : ∀ p < t.count, t.Settled s w1 p := fun p hp => by
    have hvisit := hpast.append hlast
    rw [← hfront] at hvisit
    exact hm.settled hstore hlaid hs ht hcount hvisit hp
  -- a store of the group changes the stretch only
  have hchange : ∀ n ∈ g.members, ∀ f0 u todo instr x v,
      (m.Regular env classify touched (⟨m.kernel, b, g⟩ :: ms) ⟨⟨b, prev, f0, n.1.inst :: todo⟩, u⟩ ∧
        m.ReadsAs fl ⟨⟨b, prev, f0, n.1.inst :: todo⟩, u⟩) → m.kernel.instr? n.1.inst = some instr →
      m.eval env f0 n.1.inst instr u = .ok x v → ∀ u', SameBut t.Has u u' → SameBut t.Has v u' := by
    rintro n hn f0 u todo instr x v ⟨_, hreads⟩ hinstr heval u' hsame
    obtain ⟨_, hwrite⟩ := hm.eval_store hstore hlaid hs hn hinstr (hreads _ _ rfl hinstr (hg.plain hn hinstr).1) heval
    obtain ⟨henv, hsize, hbytes, _⟩ :=
      Stretch.writes hcount (hlaid.ty_delivered hs) (fun _ => hlaid.lt_of_mem_picks hg hn) hwrite
    exact ⟨⟨hsize.trans hsame.1.1, fun a ha => (hbytes a ha).trans (hsame.1.2 a ha)⟩, hsame.2.trans henv.symm⟩
  have hlastMem := (last_spec hg.ne_nil).1
  have hnodup := (h.sound.coherent.nodup b).sublist (g.span_sublist m.kernel b)
  rw [hfront] at hnodup
  have hspan : ∀ i ∈ front, i ∈ g.span m.kernel b := fun i hi => hfront ▸ mem_append_left _ hi
  -- up to the last member the stretch may differ
  obtain ⟨g1, u1, hpass1, hagree1, hsame1⟩ := hpast.follow m' (m'.Regular env classify touched ms) τ
    (fun f u f' u' => f.Agree m.kernel id f' ∧ SameBut t.Has u u') (τ g.last.1.inst ++ rest')
    ⟨hf, ⟨rfl, fun _ _ => rfl⟩, rfl⟩ (by
      rintro i hi f0 u f0' u' instr x v todo todo' hmoment hinstr hterm ⟨hagree, hsame⟩ heval
      cases hholds : g.holds i with
      | true =>
        obtain ⟨n, hn, rfl⟩ := holds_iff.mp hholds
        have hne : n.1.inst ≠ g.last.1.inst := fun heq =>
          (nodup_append.mp hnodup).2.2 _ hi _ (.head _) heq
        rw [hwide.member n hn hne, hsilent n hn]
        exact ⟨f0', u', .nil, hagree, hchange n hn f0 u todo instr x v hmoment hinstr heval u' hsame⟩
      | false =>
        have hregular := (hmoment.1 i todo instr rfl hinstr).tail
        obtain ⟨hcall, hclear⟩ := hregular.clear hinstr (hm.lets i (hspan i hi) hholds) hm.apart ht
        obtain ⟨v', heval', hsame'⟩ := eval_follows hsame (hclear (.inr hstore)) hcall heval
        obtain ⟨hpass', hagree'⟩ := h.passes_one hm.listed ((g.span_sublist _ b).subset (hspan i hi))
          (hwide.other i hholds) hinstr hterm hagree hregular heval hsame.2 hsame.1.1.symm heval' todo'
        exact ⟨_, v', hpass', hagree', hsame'⟩)
  -- the store of the whole stretch makes up for it
  cases hlast with
  | @cons _ _ instr x _ _ _ v _ hinstr hterm hmoment heval hnil =>
    cases hnil
    have hsame2 := hchange _ hlastMem fl wl _ instr x w1 hmoment hinstr heval u1 hsame1
    obtain ⟨g2, hpass2, hagree2⟩ := h.passes_wideStore hm hstore hwide hlaid hs ht hcount hsettled hsame2 hagree1 rest'
    refine ⟨g2, ?_, ?_⟩
    · rw [hfront, flatMap_append, flatMap_singleton]
      rw [← hwide.last] at hpass2
      exact hpass1.append hpass2
    · rw [hsilent _ hlastMem]
      exact hagree2

end

end HandsOn

end Spmd.Machine
