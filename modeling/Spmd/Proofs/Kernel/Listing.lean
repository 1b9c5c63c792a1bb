import Spmd.Kernel.Basic

/-!
# Kernels from listings

A listing gives the parameters, the constants and, block by block, the instructions of a kernel with the types of
their results. Values are numbered in that order, and so are instructions and blocks.
-/

namespace Spmd

namespace Listing

/-- Instructions with the positions of their blocks. Those with a result get the values from `v` on. -/
def place (v : Nat) : List ((Instr × Ty) × Nat) → List InstDef
  | [] => []
  | ((instr, .void), b) :: rest => ⟨instr, none, ⟨b⟩, false⟩ :: place v rest
  | ((instr, _), b) :: rest => ⟨instr, some ⟨v⟩, ⟨b⟩, false⟩ :: place (v + 1) rest

/-- Blocks whose instructions are numbered from `i` on. -/
def number (i : Nat) : List (String × List (Instr × Ty)) → List Block
  | [] => []
  | (name, insts) :: rest => ⟨name, (List.range' i insts.length).map Id.mk⟩ :: number (i + insts.length) rest

end Listing

/-- The kernel of a listing. An instruction of type void has no result. -/
def Kernel.ofListing (name : String) (ret : Ty) (params : List (String × Ty)) (consts : List (Constant × Ty))
    (blocks : List (String × List (Instr × Ty))) : Kernel :=
  let given : List ValueDef :=
    params.zipIdx.map (fun ((_, ty), i) => ⟨.param i, ty⟩) ++ consts.map fun (c, ty) => ⟨.const c, ty⟩
  let made := (blocks.flatMap fun (_, insts) => insts).zipIdx.filter fun ((_, ty), _) => ty != .void
  let results : List ValueDef := made.map fun ((_, ty), i) => ⟨.inst ⟨i⟩, ty⟩
  { name
    ret
    params := params.zipIdx.map fun ((name, ty), i) => ⟨name, ty, {}, ⟨i⟩⟩
    values := ⟨(given ++ results).toArray⟩
    insts := ⟨(Listing.place given.length (blocks.zipIdx.flatMap fun ((_, insts), b) => insts.map (·, b))).toArray⟩
    blocks := ⟨(Listing.number 0 blocks).toArray⟩
    layout := (List.range blocks.length).map Id.mk }

namespace Kernel

variable {k : Kernel} {i : InstId} {v : ValueId}

theorem lt_size_of_value? {d : ValueDef} (h : k.value? v = some d) : v.index < k.values.size :=
  (Arena.isSome_get?_iff _ _).mp (Option.isSome_of_eq_some h)

theorem lt_size_of_instr? {instr : Instr} (h : k.instr? i = some instr) : i.index < k.insts.size := by
  obtain ⟨d, hd, -⟩ := Option.map_eq_some_iff.mp h
  exact (Arena.isSome_get?_iff _ _).mp (Option.isSome_of_eq_some hd)

theorem lt_size_of_result? (h : k.result? i = some v) : i.index < k.insts.size := by
  obtain ⟨d, hd, -⟩ := Option.bind_eq_some_iff.mp h
  exact (Arena.isSome_get?_iff _ _).mp (Option.isSome_of_eq_some hd)

end Kernel

end Spmd
