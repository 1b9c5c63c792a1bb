import Mathlib
import Spmd.Proofs.Interleave.Passing
import Spmd.Proofs.Kernel.Listing

/-!
# Merging keeps what a kernel does

* **`run_of_widened`** — a run of the kernel before a merge becomes one of the kernel after it: outside the group nothing
  changes, and the part that the group takes up is passed with the same outcome.
* **`Combines.run_eq`** — so for any number of merges, as what they rely on is handed on from one kernel to the next.
* **`Kernel.run_combineInterleaved`** — what is asked of a run is said about the kernel that is given. It bears out what
  merges take for granted (`BearsOut`), and where loads move up past an allocation there is memory for all of them before
  it (`Roomy`).
-/

namespace Spmd

open Success List Kernel InterleaveGroup Machine

open Exec

variable {touched : MemRoot → Nat → Prop} {φ : Flow} {k' k : Kernel} {σ : Type} {w' w : World σ} {env : Environment σ}
  {m : Machine} {r : Option Val} {classify : Classifier} {ms : List Merge} {args : List Val} {limit vscale : Nat}

/-! ## One merge -/

namespace Machine

variable {m' : Machine} {b : BlockId} {g : InterleaveGroup} {ρ : ValueId → ValueId} {τ : InstId → List InstId}
  {root : MemRoot} {starts : List InstId} {start : ValueId} {wide : InstId}

/-- Runs have the same outcome if the part of a block that a group takes up is passed with the same outcome. -/
theorem HandsOn.run_of_span (h : HandsOn m m' φ ρ τ ms) (hm : m.Mergeable classify touched b g root)
    (hother : ∀ i, g.holds i = false → τ i = [i])
    (hspan : ∀ prev rest f w f1 w1 f', m.Passes env (m.Regular env classify touched (⟨m.kernel, b, g⟩ ::
      ms)) b prev rest (g.span m.kernel b) f w f1 w1 → f.Agree m.kernel ρ f' → ∀ rest', ∃ f1',
      m'.Passes env (m'.Regular env classify touched ms) b prev rest' ((g.span m.kernel b).flatMap τ) f' w f1' w1 ∧
      f1.Agree m.kernel ρ f1') (hrun : m.run env args limit w = .ok r w')
    (hregular : ∀ c ∈ m.moments env args limit w, m.Regular env classify touched (⟨m.kernel, b, g⟩ :: ms) c) :
    ∃ limit', m'.run env args limit' w = .ok r w' ∧ ∀ c ∈ m'.moments env args limit' w, m'.Regular env classify touched ms c := by
  have hg := hm.covers
  have hk := h.sound.coherent
  have htail : ∀ c : Moment σ, m.Regular env classify touched (⟨m.kernel, b, g⟩ :: ms) c → m.Regular env classify touched ms c :=
    fun c hc i rest instr htodo hinstr => (hc i rest instr htodo hinstr).tail
  have hnot : ∀ i, (∀ n ∈ g.members, n.1.inst ≠ i) → τ i = [i] := by
    intro i hi
    refine hother i (Bool.eq_false_iff.mpr fun hholds => ?_)
    obtain ⟨n, hn, heq⟩ := holds_iff.mp hholds
    exact hi n hn heq
  refine h.recast.run_of_passes h.scale hk h.verified ?_ ?_ hrun hregular
  · intro c hc body last hfilter prev f f' w f1 w1 hf hpass
    by_cases hcb : c = b
    · subst hcb
      obtain ⟨pre, post, rfl, phis, hinsts⟩ := hg.exists_body h.verified hc hfilter
      have hnodup := hk.nodup c
      rw [hinsts, nodup_append] at hnodup
      obtain ⟨_, hnodup, _⟩ := hnodup
      obtain ⟨_, hnodup', hpre⟩ := nodup_append.mp hnodup
      obtain ⟨_, _, hpost⟩ := nodup_append.mp hnodup'
      obtain ⟨_, _, _, _, _, hmembers⟩ := hg.split
      have hpreSame : ∀ i ∈ pre, i ∈ m.kernel.instsOf c ∧ τ i = [i] := by
        intro i hi
        refine ⟨by rw [hinsts]; simp [hi], hnot i fun n hn heq => ?_⟩
        exact hpre i hi i (mem_append_left _ (heq ▸ hmembers n hn)) rfl
      have hpostSame : ∀ i ∈ post, i ∈ m.kernel.instsOf c ∧ τ i = [i] := by
        intro i hi
        refine ⟨by rw [hinsts]; simp [hi], hnot i fun n hn heq => ?_⟩
        exact hpost i (heq ▸ hmembers n hn) i (mem_append_left _ hi) rfl
      obtain ⟨f2, w2, hpass1, hpass2⟩ := hpass.split
      obtain ⟨f3, w3, hpass2, hpass3⟩ := hpass2.split
      obtain ⟨f2', hpass1', hf2⟩ := h.passes_same hc hpreSame (hpass1.mono htail) hf
        (((g.span m.kernel c).flatMap τ ++ post.flatMap τ) ++ [last])
      obtain ⟨f3', hpass2', hf3⟩ := hspan prev _ f2 w2 f3 w3 f2' hpass2 hf2 (post.flatMap τ ++ [last])
      obtain ⟨f1', hpass3', hf1⟩ := h.passes_same hc hpostSame (hpass3.mono htail) hf3 [last]
      refine ⟨f1', ?_, hf1⟩
      rw [flatMap_append, flatMap_append]
      exact hpass1'.append (hpass2'.append hpass3')
    · -- no other block has members
      refine h.passes_same hc (fun i hi => ?_) (hpass.mono htail) hf [last]
      have hic : i ∈ m.kernel.instsOf c := by
        have : i ∈ body ++ [last] := mem_append_left _ hi
        rw [← hfilter] at this
        exact (mem_filter.mp this).1
      exact ⟨hic, hnot i fun n hn heq => hcb (hk.once c b i hic (heq ▸ hg.mem_instsOf hn))⟩
  · intro c hc prev f f' last w _ hmem hkept hterm _ i rest instr htodo hinstr
    cases htodo
    refine .of_computes hinstr ?_
    rw [(h.recast.kept c hc _ hmem hkept).1] at hinstr
    obtain ⟨instr0, hinstr0, rfl⟩ := map_eq_some_iff.mp hinstr
    rw [hinstr0] at hterm
    cases instr0 with
    | br | condBr | switch | ret | unreachable => rfl
    | _ => exact absurd hterm Bool.false_ne_true

/-- Groups whose pointers are there are handed on by a merge of loads, -/
theorem HandsOn.of_loads (vscale : Nat) {stretch : ValueId} (h : WideLoad k k' g ρ τ starts start wide stretch)
    (hs : k.Sound φ) (hs' : k'.Sound φ) (hv : k.verify = .ok ()) (hreach : ∀ b ∈ k.layout, φ.Reached b)
    (hb : b ∈ k.layout) (hg : g.Covers k b) (hload : g.kind.isStore = false)
    (hpointers : ∀ merge ∈ ms, ∀ a ∈ merge.accesses, k.Typed a.ptr .ptr) :
    HandsOn ⟨k, vscale⟩ ⟨k', vscale⟩ φ ρ τ ms where
  recast := h.recast
  scale := rfl
  sound := hs
  sound' := hs'
  verified := hv
  reach := hreach
  named := (h.merged hs hb hg hload).named
  pointers := hpointers
  dark v d i hd hkind hgone := by
    cases hholds : g.holds i with
    | false =>
      rw [h.other i hholds] at hgone
      exact absurd (.head _) hgone
    | true =>
      obtain ⟨n, hn, rfl⟩ := holds_iff.mp hholds
      obtain ⟨_, _, hinstr, _⟩ := hg.load hn hload
      obtain ⟨part, old, _, hold, hresult, hpart⟩ := h.member n hn
      have howned : k.result? n.1.inst = some v := hs.coherent.owned _ _ (map_eq_some_iff.mpr ⟨d, hd, hkind⟩)
      obtain rfl := mem_unique howned hold
      obtain ⟨d', hd', hkind'⟩ := map_eq_some_iff.mp (hs'.coherent.defines _ _ hresult)
      refine ⟨fun instr hinstr' => ?_, d', part, _, hd', hkind', hpart, rfl⟩
      obtain rfl := mem_unique hinstr hinstr'
      rfl

/-- and by a merge of stores. -/
theorem HandsOn.of_stores (vscale : Nat) {mixed : ValueId} {mix : InstId}
    (h : WideStore k k' g τ starts start mix mixed wide) (hs : k.Sound φ) (hs' : k'.Sound φ) (hv : k.verify = .ok ())
    (hreach : ∀ b ∈ k.layout, φ.Reached b) (hsilent : ∀ n ∈ g.members, k.result? n.1.inst = none)
    (hpointers : ∀ merge ∈ ms, ∀ a ∈ merge.accesses, k.Typed a.ptr .ptr) :
    HandsOn ⟨k, vscale⟩ ⟨k', vscale⟩ φ id τ ms where
  recast := h.recast
  scale := rfl
  sound := hs
  sound' := hs'
  verified := hv
  reach := hreach
  named := h.merged.named
  pointers := hpointers
  dark v d i hd hkind hgone := by
    cases hholds : g.holds i with
    | false =>
      rw [h.other i hholds] at hgone
      exact absurd (.head _) hgone
    | true =>
      obtain ⟨n, hn, rfl⟩ := holds_iff.mp hholds
      have howned : k.result? n.1.inst = some v := hs.coherent.owned _ _ (map_eq_some_iff.mpr ⟨d, hd, hkind⟩)
      cases (hsilent n hn).symm.trans howned

/-- **One merge keeps the outcome of runs**, and what the merges to come rely on. -/
theorem run_of_widened (h : k.Widened k' g) (hs : k.Sound φ) (hs' : k'.Sound φ) (hv : k.verify = .ok ())
    (hreach : ∀ b ∈ k.layout, φ.Reached b) (hsilent : k.SilentStores)
    (hcount : g.kind.stride.toNat * g.kind.lanes < 2 ^ 32) (hm : Mergeable ⟨k, vscale⟩ classify touched b g root)
    (hpointers : ∀ merge ∈ ms, ∀ a ∈ merge.accesses, k.Typed a.ptr .ptr)
    (hrun : run ⟨k, vscale⟩ env args limit w = .ok r w')
    (hregular : ∀ c ∈ moments ⟨k, vscale⟩ env args limit w, Regular ⟨k, vscale⟩ env classify touched (⟨k, b, g⟩ :: ms) c) :
    ∃ limit', run ⟨k', vscale⟩ env args limit' w = .ok r w' ∧
      ∀ c ∈ moments ⟨k', vscale⟩ env args limit' w, Regular ⟨k', vscale⟩ env classify touched ms c := by
  cases h with
  | loads hload ρ τ starts start wide stretch h =>
    have hon := HandsOn.of_loads vscale h hs hs' hv hreach hm.listed hm.covers hload hpointers
    exact hon.run_of_span hm h.other (fun _ _ _ _ _ _ _ hpass hf rest' => hon.passes_loads hm hload h hpass hf rest')
      hrun hregular
  | stores hstore τ starts start mix mixed wide h =>
    have hquiet : ∀ n ∈ g.members, k.result? n.1.inst = none := by
      intro n hn
      obtain ⟨_, _, _, hinstr, _⟩ := hm.covers.store hn hstore
      exact hsilent b hm.listed _ (hm.covers.mem_instsOf hn) _ _ _ _ hinstr
    have hon := HandsOn.of_stores vscale h hs hs' hv hreach hquiet hpointers
    exact hon.run_of_span hm h.other
      (fun _ _ _ _ _ _ _ hpass hf rest' => hon.passes_stores hm hstore h hcount hquiet hpass hf rest') hrun hregular

end Machine

/-! ## All merges -/

namespace Combines

variable {entry : BlockId}

/-- The accesses of all groups have been there from the start. -/
theorem strided (h : Combines classify k ms k') (hs : k.Sound φ) (hreach : ∀ b ∈ k.layout, φ.Reached b)
    (hsilent : k.SilentStores) {merge : Merge} (hmerge : merge ∈ ms) :
    merge.block ∈ k.layout ∧ ∀ a ∈ merge.accesses, a.inst ∈ k.instsOf merge.block ∧ k.Strided a := by
  induction h with
  | done => exact absurd hmerge not_mem_nil
  | @next k k1 k' b g ms hb hfind hok _ ih =>
    obtain ⟨hg, _⟩ := findGroup?_eq_ok hfind
    rcases mem_cons.mp hmerge with rfl | hmerge
    · refine ⟨hb, fun a ha => ?_⟩
      rcases mem_cons.mp ha with rfl | ha
      · exact ⟨hg.anchor, hg.kind⟩
      · have hmember : ∀ n ∈ g.members, n.1.inst ∈ k.instsOf b ∧ k.Strided n.1 := fun n hn => ⟨hg.mem_instsOf hn, hg.strided hn⟩
        rcases mem_cons.mp ha with rfl | ha
        · exact hmember _ (first_spec hg.ne_nil).1
        · obtain ⟨n, hn, rfl⟩ := mem_map.mp ha
          exact hmember n hn
    · rcases exists_merge hs hreach hsilent hb hg with ⟨hfail, _⟩ | ⟨k2, hok', hs1, hwide, _⟩
      · cases hok.symm.trans hfail
      · obtain rfl := ok_unique hok hok'
        obtain ⟨ρ, τ, hm⟩ := hwide.merged hs hb hg
        have hlayout := hm.recast.layout
        obtain ⟨hblock, hall⟩ := ih hs1 (fun c hc => hreach c (hlayout ▸ hc)) (hm.silentStores hsilent) hmerge
        rw [hlayout] at hblock
        refine ⟨hblock, fun a ha => ?_⟩
        obtain ⟨hi, _, hstrided⟩ := hm.strided hs hblock (hall a ha).1 (hall a ha).2
        exact ⟨hi, hstrided⟩

/-- **Merges keep the outcome of runs.** -/
theorem run_eq (h : Combines classify k ms k') (hentry : k.entry? = some entry) (hs : k.Sound (k.flow entry))
    (hv : k.verify = .ok ()) (hreach : ∀ b ∈ k.layout, (k.flow entry).Reached b) (hsilent : k.SilentStores)
    (hapart : Apart k touched) (hrun : run ⟨k, vscale⟩ env args limit w = .ok r w')
    (hregular : ∀ c ∈ moments ⟨k, vscale⟩ env args limit w, Regular ⟨k, vscale⟩ env classify touched ms c) :
    ∃ limit', run ⟨k', vscale⟩ env args limit' w = .ok r w' := by
  induction h generalizing limit with
  | done => exact ⟨limit, hrun⟩
  | @next k k1 k' b g ms hb hfind hok hrest ih =>
    obtain ⟨hg, hcan⟩ := findGroup?_eq_ok hfind
    obtain ⟨root, hroot, hlets⟩ := canMerge_eq_ok hcan
    have hpointers : ∀ merge ∈ ms, ∀ a ∈ merge.accesses, k.Typed a.ptr .ptr := by
      intro merge hmerge a ha
      obtain ⟨hblock, haccess⟩ :=
        (next hb hfind hok hrest).strided hs hreach hsilent (.tail _ hmerge)
      exact (haccess a ha).2.typed_ptr hs hblock (haccess a ha).1
    rcases exists_merge hs hreach hsilent hb hg with ⟨hfail, _⟩ | ⟨k2, hok', hs1, hwide, hcount⟩
    · cases hok.symm.trans hfail
    · obtain rfl := ok_unique hok hok'
      obtain ⟨ρ, τ, hm⟩ := hwide.merged hs hb hg
      have hr := hm.recast
      obtain ⟨limit1, hrun1, hregular1⟩ := run_of_widened hwide hs hs1 hv hreach hsilent hcount
        ⟨hb, hg, hroot, hlets, hapart⟩ hpointers hrun hregular
      have hflow := hr.flow_eq hv entry
      have hentry1 : k1.entry? = some entry := by
        unfold entry? at hentry ⊢
        rw [hr.layout, hentry]
      have hapart1 : Apart k1 touched := by
        intro r r' hdiffer
        refine hapart r r' ?_
        rw [← hdiffer]
        unfold rootsMayAlias isNoalias
        rw [hr.params]
      refine ih hentry1 (hflow ▸ hs1) (hr.verified hv hentry hs1) (fun c hc => ?_) (hm.silentStores hsilent) hapart1 hrun1
        hregular1
      rw [hflow]
      exact hreach c (hr.layout ▸ hc)

end Combines

/-! ## What is asked of a run -/

namespace Machine

variable {moments : List (Moment σ)}

/-- A run bears out what merges took for granted. -/
structure BearsOut (m : Machine) (env : Environment σ) (classify : Classifier) (ms : List Merge) (moments : List (Moment σ)) :
    Prop where
  /-- Calls that could be left out leave memory alone. -/
  quiet : ∀ c ∈ moments, ∀ i callee args mask kind, c.inst? = some i → m.kernel.instr? i = some (.call callee args mask) →
    m.kernel.callKind? classify i = .ok (some kind) → kind.isRemovable = true → env.Ignores callee
  typed : ∀ c ∈ moments, ∀ v x, m.Reads c.state v → m.read c.state.frame v = .ok x → m.OfType v x
  spaced : ∀ c ∈ moments, ∀ merge ∈ ms, c.inst? = some merge.group.last.1.inst → m.Spaced c.state.frame merge
  apart : ObjectsApart m moments

/-- Where loads move up past an allocation, there is memory for all of them before it. -/
def Roomy (m : Machine) (ms : List Merge) (moments : List (Moment σ)) : Prop :=
  ∀ c ∈ moments, ∀ merge ∈ ms, c.inst? = some merge.group.first.1.inst → merge.Grows →
    m.Allocated c.state.frame c.world.memory merge.group

/-- The bytes that are touched in an object. -/
def TouchedIn (m : Machine) (moments : List (Moment σ)) (r : MemRoot) (a : Nat) : Prop :=
  ∃ c ∈ moments, ∃ i, c.inst? = some i ∧ m.kernel.accessRoot? i = .ok (some r) ∧ c.Touches m a

theorem apart_touchedIn (h : ObjectsApart m moments) : Apart m.kernel (m.TouchedIn moments) := by
  rintro r r' hdiffer a ⟨c, hc, i, hi, hr, ha⟩ ⟨c', hc', j, hj, hr', ha'⟩
  exact h c hc c' hc' i j r r' hi hj hr hr' hdiffer a ⟨ha, ha'⟩

theorem BearsOut.regular (h : m.BearsOut env classify ms moments) (hroomy : m.Roomy ms moments) {c : Moment σ}
    (hc : c ∈ moments) : m.Regular env classify (m.TouchedIn moments) ms c := by
  intro i rest instr htodo hinstr
  have hi : c.inst? = some i := by rw [Moment.inst?, htodo, head?_cons]
  refine ⟨fun r access hroot haccess a ha => ?_, fun kind hkind hremovable => ?_, fun _ v hv x hx => ?_,
    fun _ merge hmerge hlast => ?_, fun _ merge hmerge hfirst hgrows => ?_⟩
  · exact ⟨c, hc, i, hi, hroot, i, instr, access, hi, hinstr, haccess, ha⟩
  · by_cases hcall : ∃ callee args mask, instr = .call callee args mask
    · obtain ⟨callee, args, mask, rfl⟩ := hcall
      exact eval_call_detached (h.quiet c hc i callee args mask kind hi hinstr hkind hremovable) _ _ _ _ _
    · refine by cases hkind.symm.trans (callKind?_of_not_call hinstr ?_ classify)
      exact fun callee args mask heq => hcall ⟨callee, args, mask, heq⟩
  · exact h.typed c hc v x (.operand htodo hinstr hv) hx
  · exact h.spaced c hc merge hmerge (hlast ▸ hi)
  · exact hroomy c hc merge hmerge (hfirst ▸ hi) hgrows

/-- If there is only one object, all else can be found out by looking at the moments. -/
theorem BearsOut.of_checks (hquiet : ∀ i callee args mask, m.kernel.instr? i = some (.call callee args mask) → env.Ignores callee)
    (htyped : ∀ c ∈ moments, ∀ v ∈ m.kernel.values.ids, ∀ x ∈ (m.read c.state.frame v).toOption, m.OfType v x)
    (hspaced : ∀ c ∈ moments, ∀ merge ∈ ms, c.inst? = some merge.group.last.1.inst → m.Spaced c.state.frame merge)
    (halias : ∀ i ∈ m.kernel.insts.ids, ∀ j ∈ m.kernel.insts.ids, ∀ o ∈ (m.kernel.accessRoot? i).toOption, ∀ r ∈ o,
      ∀ o' ∈ (m.kernel.accessRoot? j).toOption, ∀ r' ∈ o', m.kernel.rootsMayAlias r r' = true) :
    m.BearsOut env classify ms moments where
  quiet := fun c _ i callee args mask _ _ hinstr _ _ => hquiet i callee args mask hinstr
  typed := by
    intro c hc v x _ hx
    refine htyped c hc v ?_ x (mem_toOption_iff.mpr hx)
    obtain ⟨d, hd, _⟩ := bind_eq_ok.mp hx
    exact mem_ids_of_value? (some?_eq_ok.mp hd)
  spaced := hspaced
  apart := by
    intro c hc c' hc' i j r r' hi hj hr hr' hdiffer
    have hmem : ∀ {i r}, m.kernel.accessRoot? i = .ok (some r) → i ∈ m.kernel.insts.ids := by
      intro i r h
      obtain ⟨e, he, _⟩ := bind_eq_ok.mp h
      exact mem_ids_of_inst? (by rw [some?_eq_ok.mp he]; rfl)
    have hmay := halias i (hmem hr) j (hmem hr') _ (mem_toOption_iff.mpr hr) r rfl _
      (mem_toOption_iff.mpr hr') r' rfl
    cases hmay.symm.trans hdiffer

end Machine

/-- **Merging interleaved accesses keeps what a kernel does.** It ends, unless a number about an access does not fit. The
kernel that it makes is verified again. In the environments and worlds in which a run bears out what the merges took for
granted, the kernel that was made returns the same, leaves the same world behind and needs only some limit for it. -/
theorem Kernel.run_combineInterleaved {k : Kernel} (classify : Classifier) (hk : k.Coherent) (hv : k.verify = .ok ())
    (hreach : ∀ entry, k.entry? = some entry → ∀ b ∈ k.layout, (k.flow entry).Reached b) (hsilent : k.SilentStores) :
    k.combineInterleaved classify = .error .overflow ∧ k.Strained ∨
      ∃ k' ms, k.combineInterleaved classify = .ok (k', ms.length) ∧ Combines classify k ms k' ∧ k'.verify = .ok () ∧
        ∀ (σ : Type) (env : Environment σ) (vscale : Nat) (args : List Val) (limit : Nat) (w w' : World σ) (r : Option Val),
          run ⟨k, vscale⟩ env args limit w = .ok r w' →
          BearsOut ⟨k, vscale⟩ env classify ms (moments ⟨k, vscale⟩ env args limit w) →
          Roomy ⟨k, vscale⟩ ms (moments ⟨k, vscale⟩ env args limit w) →
          ∃ enough, ∀ limit' ≥ enough, run ⟨k', vscale⟩ env args limit' w = .ok r w' := by
  obtain ⟨entry, hentry⟩ : ∃ entry, k.entry? = some entry := by
    obtain ⟨hlayout, _⟩ := verify_eq_ok.mp hv
    exact ⟨_, head?_eq_some_head hlayout⟩
  have hs := sound_of_verify hentry hk hv
  have hreach := hreach entry hentry
  rcases combineInterleaved_spec classify hs hreach hsilent with hfail | ⟨k', ms, hok, hms⟩
  · exact .inl hfail
  · obtain ⟨hs', _, _, ρ, τ, hr⟩ := hms.kept hs hreach hsilent
    refine .inr ⟨k', ms, hok, hms, hr.verified hv hentry hs', ?_⟩
    intro σ env vscale args limit w w' r hrun hbears hroomy
    obtain ⟨enough, hrun'⟩ := hms.run_eq hentry hs hv hreach hsilent (apart_touchedIn hbears.apart) hrun
      fun c hc => hbears.regular hroomy hc
    exact ⟨enough, fun limit' hle => run_mono hrun' hle⟩

/-- Adds up neighbours, and between their loads makes a call and allocates something. -/
def pairSum : Kernel := .ofListing "pair_sum" (.fixedVector .i32 2) [("p", .ptr)]
  [(.int 1, .scalar .i64)]
  [("entry", [(.strideLoad 0 2 none, .fixedVector .i32 2), (.call "ask" [] none, .scalar .i64),
      (.alloca .i32 1, .ptr), (.elementPtr 0 1 .i32, .ptr),
      (.strideLoad 5 2 none, .fixedVector .i32 2), (.binary .add 2 6, .fixedVector .i32 2),
      (.ret (some 7), .void)])]

/-- The same with one load. -/
def pairSumMerged : Kernel where
  name := "pair_sum"
  ret := .fixedVector .i32 2
  params := [⟨"p", .ptr, {}, 0⟩]
  values := ⟨pairSum.values.items ++ #[⟨.inst 7, .fixedVector .i32 4⟩, ⟨.inst 8, .fixedVector .i32 2⟩,
    ⟨.inst 9, .fixedVector .i32 2⟩]⟩
  insts := ⟨#[⟨.strideLoad 0 2 none, some 2, 0, true⟩, ⟨.call "ask" [] none, some 3, 0, false⟩,
    ⟨.alloca .i32 1, some 4, 0, false⟩, ⟨.elementPtr 0 1 .i32, some 5, 0, false⟩,
    ⟨.strideLoad 5 2 none, some 6, 0, true⟩, ⟨.binary .add 9 10, some 7, 0, false⟩,
    ⟨.ret (some 7), none, 0, false⟩, ⟨.load 0 none 4, some 8, 0, false⟩,
    ⟨.shuffle [8] [0, 2], some 9, 0, false⟩, ⟨.shuffle [8] [1, 3], some 10, 0, false⟩]⟩
  blocks := ⟨#[⟨"entry", [7, 8, 1, 2, 3, 9, 5, 6]⟩]⟩
  layout := [0]

/-- The loads of neighbours. -/
def pairLoads : InterleaveGroup :=
  ⟨⟨0, 0, 0, .i32, 2, 2, false⟩, [(⟨0, 0, 0, .i32, 2, 2, false⟩, 0), (⟨4, 4, 5, .i32, 2, 2, false⟩, 1)]⟩

/-- Takes all calls for pure ones. -/
def pureCalls : Classifier := fun _ => .pure

/-- A world in which these words are all that is allocated, and no call has been made. -/
def wordsWorld (xs : List Nat) : World (Unit × List (String × List Val)) :=
  ⟨⟨Array.replicate Memory.base 0 ++ (xs.flatMap fun x => bytesOfNat x 4).toArray⟩, (), []⟩

theorem ignores_threeEnv (callee : String) : threeEnv.Ignores callee := fun _ => detached_iff.mpr ⟨.pure _, .pure _⟩

theorem reached_pairSum (entry : BlockId) (hentry : pairSum.entry? = some entry) :
    ∀ b ∈ pairSum.layout, (pairSum.flow entry).Reached b := by
  intro b hb
  obtain rfl := mem_singleton.mp hb
  cases hentry
  exact .refl

theorem silentStores_pairSum : pairSum.SilentStores := by
  have hsilent : ∀ b ∈ pairSum.layout, ∀ i ∈ pairSum.instsOf b, (pairSum.instr? i).any Instr.isSilent = true →
      pairSum.result? i = none := by
    decide
  intro b hb i hi ptr value stride mask hinstr
  exact hsilent b hb i hi (by rw [hinstr]; rfl)

theorem combineInterleaved_pairSum : pairSum.combineInterleaved pureCalls = .ok (pairSumMerged, 1) := by cbv

theorem findGroup?_pairSum : pairSum.findGroup? pureCalls 0 = .ok (some pairLoads) := by cbv

theorem bearsOut_pairSum {moments : List (Moment (Unit × List (String × List Val)))}
    (htyped : ∀ c ∈ moments, ∀ v ∈ pairSum.values.ids, ∀ x ∈ (read ⟨pairSum, 1⟩ c.state.frame v).toOption,
      OfType ⟨pairSum, 1⟩ v x)
    (hspaced : ∀ c ∈ moments, c.inst? = some 4 → Spaced ⟨pairSum, 1⟩ c.state.frame ⟨pairSum, ⟨0⟩, pairLoads⟩) :
    BearsOut ⟨pairSum, 1⟩ threeEnv.recorded pureCalls [⟨pairSum, ⟨0⟩, pairLoads⟩] moments := by
  refine .of_checks (fun _ callee _ _ _ => (ignores_threeEnv callee).recorded) htyped ?_ (by decide +kernel)
  intro c hc merge hmerge
  obtain rfl := mem_singleton.mp hmerge
  exact hspaced c hc

/-- With four words there is room for everything: the sums stay the same, and so does the call. -/
theorem run_pairSum : ∃ k', pairSum.combineInterleaved pureCalls = .ok (k', 1) ∧ k'.verify = .ok () ∧
    ∃ enough, ∀ limit ≥ enough, run ⟨k', 1⟩ threeEnv.recorded [.scalar (.ptr 64)] limit (wordsWorld [1, 2, 3, 4]) =
      .ok (some (.vector [.scalar (.i32 3), .scalar (.i32 7)]))
        { wordsWorld [1, 2, 3, 4, 0] with env := ((), [("ask", [])]) } := by
  rcases run_combineInterleaved (k := pairSum) pureCalls (by decide +kernel) (by decide +kernel) reached_pairSum
    silentStores_pairSum with ⟨hfail, _⟩ | ⟨k', ms, hok, hms, hverify, hrun⟩
  · cases combineInterleaved_pairSum.symm.trans hfail
  · obtain ⟨_, hlength⟩ := Prod.mk.inj (Except.ok.inj (combineInterleaved_pairSum.symm.trans hok))
    obtain rfl : ms = [⟨pairSum, ⟨0⟩, pairLoads⟩] := by
      cases hms with
      | done => cases hlength
      | next hb hfind _ _ =>
        obtain rfl := mem_singleton.mp hb
        cases findGroup?_pairSum.symm.trans hfind
        rw [length_eq_zero_iff.mp (Nat.succ.inj hlength).symm]
    refine ⟨k', hok, hverify, hrun _ _ 1 _ 100 _ _ _ rfl (bearsOut_pairSum (by decide +kernel) (by decide +kernel)) ?_⟩
    intro c hc merge hmerge hfirst _
    obtain rfl := mem_singleton.mp hmerge
    revert c
    decide +kernel

/-- With three words the last lane of the second load comes from what was allocated before it. All that the merge takes for
granted is borne out, and yet the merged kernel fails. -/
theorem outOfBounds_pairSum : pairSum.Coherent ∧ pairSum.verify = .ok () ∧
    (∀ entry, pairSum.entry? = some entry → ∀ b ∈ pairSum.layout, (pairSum.flow entry).Reached b) ∧ pairSum.SilentStores ∧
    pairSum.combineInterleaved pureCalls = .ok (pairSumMerged, 1) ∧
    Combines pureCalls pairSum [⟨pairSum, ⟨0⟩, pairLoads⟩] pairSumMerged ∧
    run ⟨pairSum, 1⟩ threeEnv.recorded [.scalar (.ptr 64)] 100 (wordsWorld [1, 2, 3]) =
      .ok (some (.vector [.scalar (.i32 3), .scalar (.i32 3)]))
        { wordsWorld [1, 2, 3, 0, 0] with env := ((), [("ask", [])]) } ∧
    BearsOut ⟨pairSum, 1⟩ threeEnv.recorded pureCalls [⟨pairSum, ⟨0⟩, pairLoads⟩]
      (moments ⟨pairSum, 1⟩ threeEnv.recorded [.scalar (.ptr 64)] 100 (wordsWorld [1, 2, 3])) ∧
    ∀ limit, run ⟨pairSumMerged, 1⟩ threeEnv.recorded [.scalar (.ptr 64)] (limit + 1) (wordsWorld [1, 2, 3]) =
      .error (.outOfBounds 76 4) (wordsWorld [1, 2, 3]) :=
  ⟨by decide +kernel, by decide +kernel, reached_pairSum, silentStores_pairSum, combineInterleaved_pairSum,
    .next (by decide) findGroup?_pairSum (by decide +kernel) (.done _), rfl,
    bearsOut_pairSum (by decide +kernel) (by decide +kernel), fun _ => rfl⟩

end Spmd
