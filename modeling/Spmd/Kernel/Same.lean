import Spmd.Kernel.Basic

/-!
# Comparing kernels

Two kernels are the same if they agree in everything, with float constants compared as numbers: both zeros
are equal, and a float that is not a number is not even equal to itself.
-/

namespace Spmd

def Constant.sameAs : Constant → Constant → Bool
  | .float x, .float y => Float.ofBits x == Float.ofBits y
  | c, d => c = d

def ValueDef.sameAs (a b : ValueDef) : Bool :=
  a.ty = b.ty && match a.kind, b.kind with
    | .const c, .const d => c.sameAs d
    | x, y => x = y

def Kernel.sameAs (a b : Kernel) : Bool :=
  a.values.size = b.values.size
    && (a.values.items.toList.zip b.values.items.toList).all (fun (x, y) => x.sameAs y)
    && { a with values := {} } = { b with values := {} }

end Spmd
