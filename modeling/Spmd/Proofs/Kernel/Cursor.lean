import Spmd.Kernel.Cursor
import Spmd.Proofs.Kernel.Coherent
import Spmd.Proofs.Place

/-!
# Where building puts instructions

A cursor stands between the instructions in front of it and those behind it (`Cursor.At`). What is built goes
there, and the cursor stays behind it (**`At.insert`**).
-/

namespace Spmd

open Success List Kernel

variable {j i : InstId} {c' c : Cursor} {instr : Instr} {pre post : List InstId} {b : BlockId} {ty : Ty}

namespace Cursor

/-- What the point of a cursor means, given what stands in front of it and behind it. -/
def PointsAt (k : Kernel) (b : BlockId) (pre post : List InstId) : InsertPoint → Prop
  | .atEnd c => c = b ∧ post = []
  | .beforeTerminator c => c = b ∧ ∃ t, post = [t] ∧ (k.instr? t).any Instr.isTerminator = true
  | .afterPhis c => c = b ∧ (∀ i ∈ pre, k.isPhi i = true) ∧ ∀ i ∈ post.head?, k.isPhi i = false
  | .before i => (k.inst? i).map (·.block) = some b ∧ post.head? = some i
  | .after i => (k.inst? i).map (·.block) = some b ∧ pre.getLast? = some i

/-- The cursor stands in a block, behind `pre` and in front of `post`. -/
structure At (c : Cursor) (b : BlockId) (pre post : List InstId) : Prop where
  block : (c.kernel.block? b).isSome = true
  insts : c.kernel.instsOf b = pre ++ post
  point : PointsAt c.kernel b pre post c.point

theorem At.place (h : c.At b pre post) (hnodup : (c.kernel.instsOf b).Nodup) : c.place = .ok (b, pre.length) := by
  obtain ⟨blk, hblk⟩ := isSome_iff_exists.mp h.block
  have hinsts : blk.insts = pre ++ post := (instsOf_eq hblk).symm.trans h.insts
  have hblock : c.kernel.block b = .ok blk := some?_eq_ok.mpr hblk
  have hposition : ∀ {i d p q}, c.kernel.inst? i = some d → d.block = b → pre ++ post = p ++ i :: q →
      c.kernel.position? i = .ok (some p.length) := by
    rintro i d p q hd rfl heq
    have hnot : i ∉ p := by
      rw [h.insts, heq, nodup_append] at hnodup
      exact fun hmem => hnodup.2.2 i hmem i (.head _) rfl
    refine bind_eq_ok.mpr ⟨d, some?_eq_ok.mpr hd, bind_eq_ok.mpr ⟨blk, hblock, ?_⟩⟩
    rw [hinsts, heq, Place.idxOf?_eq hnot]
    rfl
  have hpoint := h.point
  rw [Cursor.place]
  revert hpoint
  cases c.point with
  | atEnd c' =>
    rintro ⟨rfl, rfl⟩
    refine bind_eq_ok.mpr ⟨blk, hblock, ?_⟩
    rw [hinsts]
    simp [pure, Except.pure]
  | beforeTerminator c' =>
    rintro ⟨rfl, t, rfl, ht⟩
    refine bind_eq_ok.mpr ⟨blk, hblock, ?_⟩
    have hterm : c.kernel.terminator? c' = some t := by
      rw [terminator?, h.insts, getLast?_concat]
      exact Option.filter_eq_some_iff.mpr ⟨rfl, ht⟩
    rw [hterm, hinsts]
    simp [pure, Except.pure]
  | afterPhis c' =>
    rintro ⟨rfl, hphis, hnot⟩
    refine bind_eq_ok.mpr ⟨pre.length, ?_, rfl⟩
    rw [firstNonPhi]
    refine bind_eq_ok.mpr ⟨blk, hblock, ?_⟩
    have htake : blk.insts.takeWhile c.kernel.isPhi = pre := by
      rw [hinsts, takeWhile_append_of_pos hphis]
      cases post with
      | nil => simp
      | cons x post => simp [hnot x rfl]
    rw [htake]
    rfl
  | before i =>
    rintro ⟨hi, hhead⟩
    obtain ⟨d, hd, rfl⟩ := map_eq_some_iff.mp hi
    obtain ⟨post, rfl⟩ : ∃ post', post = i :: post' := by
      cases post with
      | nil => cases hhead
      | cons x post => exact ⟨post, by rw [Option.some.inj hhead]⟩
    exact bind_eq_ok.mpr ⟨some pre.length, hposition hd rfl rfl, bind_eq_ok.mpr ⟨d, some?_eq_ok.mpr hd, rfl⟩⟩
  | after i =>
    rintro ⟨hi, hlast⟩
    obtain ⟨d, hd, rfl⟩ := map_eq_some_iff.mp hi
    obtain ⟨pre, rfl⟩ : ∃ pre', pre = pre' ++ [i] := by
      exact ⟨pre.dropLast, (dropLast_append_getLast? i hlast).symm⟩
    refine bind_eq_ok.mpr ⟨some pre.length, hposition hd rfl (append_assoc ..), ?_⟩
    refine bind_eq_ok.mpr ⟨d, some?_eq_ok.mpr hd, bind_eq_ok.mpr ⟨blk, hblock, ?_⟩⟩
    simp [pure, Except.pure]

end Cursor

namespace Build

theorem insert_eq_ok (h : insert instr ty c = .ok (j, c')) :
    ∃ b index, c.place = .ok (b, index) ∧ c.kernel.insertInst b index instr ty = .ok (c'.kernel, j) ∧
      c'.point = c.point.advance j := by
  obtain ⟨_, _, hget, h1⟩ := stateBind_eq_ok.mp h
  obtain ⟨rfl, rfl⟩ := stateGet_eq_ok.mp hget
  obtain ⟨⟨b, index⟩, _, hlift, h2⟩ := stateBind_eq_ok.mp h1
  obtain ⟨hplace, rfl⟩ := stateLift_eq_ok.mp hlift
  obtain ⟨⟨kernel, id⟩, _, hlift, h3⟩ := stateBind_eq_ok.mp h2
  obtain ⟨hinsert, rfl⟩ := stateLift_eq_ok.mp hlift
  obtain ⟨_, _, hset, h4⟩ := stateBind_eq_ok.mp h3
  obtain rfl := stateSet_eq_ok.mp hset
  obtain ⟨rfl, rfl⟩ := statePure_eq_ok.mp h4
  exact ⟨b, index, hplace, hinsert, rfl⟩

theorem insert_of_place {index : Nat} {k' : Kernel} (hplace : c.place = .ok (b, index))
    (hinsert : c.kernel.insertInst b index instr ty = .ok (k', j)) :
    insert instr ty c = .ok (j, ⟨k', c.point.advance j⟩) := by
  refine stateBind_eq_ok.mpr ⟨c, c, rfl, stateBind_eq_ok.mpr ⟨(b, index), c, ?_, ?_⟩⟩
  · exact stateLift_eq_ok.mpr ⟨hplace, rfl⟩
  · exact stateBind_eq_ok.mpr ⟨(k', j), c, stateLift_eq_ok.mpr ⟨hinsert, rfl⟩, rfl⟩

end Build

/-- **An instruction goes where the cursor stands**, and the cursor stays behind it. -/
theorem Cursor.At.insert_of_nodup (hat : c.At b pre post) (hnodup : (c.kernel.instsOf b).Nodup)
    (hmade : ∀ i ∈ c.kernel.instsOf b, (c.kernel.inst? i).isSome = true) (h : Build.insert instr ty c = .ok (j, c')) :
    Inserted c.kernel b pre post instr ty c'.kernel j ∧ c'.At b (pre ++ [j]) post := by
  obtain ⟨b', index, hplace, hinsert, hpoint⟩ := Build.insert_eq_ok h
  obtain ⟨rfl, rfl⟩ := Prod.mk.inj (ok_unique hplace (hat.place hnodup))
  obtain ⟨pre', post', hlen, hins⟩ := insertInst_eq_ok hinsert
  obtain ⟨rfl, rfl⟩ := append_inj (hins.before.symm.trans hat.insts) hlen
  refine ⟨hins, block?_isSome_of_size hins.blocks_size hat.block, ?_, ?_⟩
  · rw [hins.after]
    simp
  · rw [hpoint]
    have hp := hat.point
    have hnew : (c'.kernel.inst? j).map (·.block) = some b' := by rw [hins.inst_new]; rfl
    revert hp
    cases c.point with
    | atEnd c'' => exact id
    | beforeTerminator c'' =>
      rintro ⟨rfl, t, rfl, ht⟩
      refine ⟨rfl, t, rfl, ?_⟩
      obtain ⟨d, hd⟩ := isSome_iff_exists.mp (hmade t (by simp [hat.insts]))
      rw [instr?, (hins.inst?_of_some hd).1, ← hd]
      exact ht
    | afterPhis _ | after _ => exact fun _ => ⟨hnew, getLast?_concat⟩
    | before i =>
      rintro ⟨hi, hhead⟩
      obtain ⟨d, hd, hblock⟩ := map_eq_some_iff.mp hi
      refine ⟨?_, hhead⟩
      rw [(hins.inst?_of_some hd).1, Option.map_some, hblock]

theorem Cursor.At.insert (hat : c.At b pre post) (hk : c.kernel.Coherent) (h : Build.insert instr ty c = .ok (j, c')) :
    Inserted c.kernel b pre post instr ty c'.kernel j ∧ c'.At b (pre ++ [j]) post :=
  hat.insert_of_nodup (hk.nodup b) (hk.made b) h

namespace Build

variable {given : Ty} {x : ValueId}

theorem tyOf_eq_ok (h : tyOf x c = .ok (ty, c')) : ∃ d, c.kernel.value? x = some d ∧ d.ty = ty ∧ c' = c := by
  obtain ⟨_, _, hget, h1⟩ := stateBind_eq_ok.mp h
  obtain ⟨rfl, rfl⟩ := stateGet_eq_ok.mp hget
  obtain ⟨hty, rfl⟩ := stateLift_eq_ok.mp h1
  obtain ⟨d, hd, hty⟩ := bind_eq_ok.mp hty
  exact ⟨d, some?_eq_ok.mp hd, pure_eq_ok.mp hty, rfl⟩

/-- There is always a place for an instruction where the cursor stands. -/
theorem exists_insert (hat : c.At b pre post) (hk : c.kernel.Coherent) (instr : Instr) (ty : Ty) :
    ∃ j c', insert instr ty c = .ok (j, c') ∧ Inserted c.kernel b pre post instr ty c'.kernel j ∧
      c'.At b (pre ++ [j]) post := by
  have hplace := hat.place (hk.nodup b)
  have hindex : pre.length ≤ (c.kernel.instsOf b).length := by
    rw [hat.insts, length_append]
    omega
  obtain ⟨k', j, hinsert⟩ := exists_insertInst hat.block hindex instr ty
  have h := insert_of_place hplace hinsert
  exact ⟨j, _, h, hat.insert hk h⟩

/-- An instruction with a result can be built for its value. -/
theorem exists_emitValue (hat : c.At b pre post) (hk : c.kernel.Coherent) (hty : resultTy given instr c = .ok (ty, c))
    (hvoid : ty.isVoid = false) :
    ∃ j c', emitValue instr given c = .ok (c.kernel.values.nextId, c') ∧
      Inserted c.kernel b pre post instr ty c'.kernel j ∧ c'.At b (pre ++ [j]) post := by
  obtain ⟨j, c', hinsert, hins, hat'⟩ := exists_insert hat hk instr ty
  refine ⟨j, c', ?_, hins, hat'⟩
  refine stateBind_eq_ok.mpr ⟨ty, c, hty, stateBind_eq_ok.mpr ⟨j, c', hinsert, ?_⟩⟩
  refine stateBind_eq_ok.mpr ⟨c', c', rfl, statePure_eq_ok.mpr ⟨?_, rfl⟩⟩
  rw [result?, hins.inst_new, hvoid]
  rfl

theorem tyOf_of_value? {d : ValueDef} (h : c.kernel.value? x = some d) : tyOf x c = .ok (d.ty, c) := by
  refine stateBind_eq_ok.mpr ⟨c, c, rfl, stateLift_eq_ok.mpr ⟨?_, rfl⟩⟩
  exact bind_eq_ok.mpr ⟨d, some?_eq_ok.mpr h, rfl⟩

end Build

end Spmd
