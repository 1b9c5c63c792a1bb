import Spmd.Decimal.Style
import Spmd.Kernel.Basic

/-!
# Text of kernels

The printed form of a kernel:

    fn @saxpy(ptr noalias %0, f32 %1) -> void {
    bb0 entry:
      %3 = call @get_global_id(i32 0)
      %4 = elementptr f32, ptr %0, i64 %3
      ret
    }

An operand is printed with its type. A constant is printed in place; a float constant has the fewest digits
that read back in the width of its type.
-/

namespace Spmd

/-- The text of a constant whose elements have the given type. -/
def Constant.text (elem : Option ScalarTy) : Constant → String
  | bool b => toString b
  | int i => toString i
  | float bits =>
    if elem = some .f32 then Decimal.kernelStyle.write .single (Float.ofBits bits).toFloat32.toBits.toNat
    else Decimal.kernelStyle.write .double bits.toNat

def Param.text (p : Param) : String :=
  p.ty.text ++ (if p.attrs.noalias then " noalias" else "") ++ (if p.attrs.readonly then " readonly" else "")
    ++ " %" ++ p.value.text

def LaneGroup.text (g : LaneGroup) : String := (if g.scalable then "vscale x " else "") ++ toString g.lanes

namespace Kernel

def operandText (k : Kernel) (v : ValueId) : Checked String := do
  let d ← k.value v
  let shown := match d.kind with
    | .const c => c.text d.ty.element?
    | .undef => "undef"
    | .param _ | .inst _ => "%" ++ v.text
  return d.ty.text ++ " " ++ shown

/-- Operands with commas between them. -/
def operandsText (k : Kernel) (vs : List ValueId) : Checked String :=
  return ", ".intercalate (← vs.mapM k.operandText)

def maskText (k : Kernel) : Option ValueId → Checked String
  | some m => return ", mask " ++ (← k.operandText m)
  | none => return ""

def blockText (b : BlockId) : String := "bb" ++ b.text

/-- What an instruction does, without the value it defines. -/
def instrText (k : Kernel) (resultTy : Ty) (instr : Instr) : Checked String := do
  let name := instr.mnemonic
  match instr with
  | .binary _ lhs rhs => return name ++ " " ++ (← k.operandsText [lhs, rhs])
  | .unary _ x => return name ++ " " ++ (← k.operandText x)
  | .compare op lhs rhs => return name ++ " " ++ op.text ++ " " ++ (← k.operandsText [lhs, rhs])
  | .cast _ x => return name ++ " " ++ (← k.operandText x) ++ " to " ++ resultTy.text
  | .select c t e => return name ++ " " ++ (← k.operandsText [c, t, e])
  | .elementPtr base index elem => return name ++ " " ++ elem.text ++ ", " ++ (← k.operandsText [base, index])
  | .alloca elem count => return name ++ " " ++ toString count ++ " x " ++ elem.text
  | .load ptr mask align =>
    return name ++ " " ++ (← k.operandText ptr) ++ (← k.maskText mask) ++ ", align " ++ toString align
  | .store ptr value mask align =>
    return name ++ " " ++ (← k.operandsText [value, ptr]) ++ (← k.maskText mask) ++ ", align " ++ toString align
  | .strideLoad ptr stride mask =>
    return name ++ " " ++ (← k.operandText ptr) ++ ", stride " ++ toString stride ++ (← k.maskText mask)
  | .strideStore ptr value stride mask =>
    return name ++ " " ++ (← k.operandsText [value, ptr]) ++ ", stride " ++ toString stride ++ (← k.maskText mask)
  | .gather ptrs mask => return name ++ " " ++ (← k.operandText ptrs) ++ (← k.maskText mask)
  | .scatter ptrs value mask => return name ++ " " ++ (← k.operandsText [value, ptrs]) ++ (← k.maskText mask)
  | .call callee args mask =>
    return name ++ " @" ++ callee ++ "(" ++ (← k.operandsText args) ++ ")" ++ (← k.maskText mask)
  | .phi incoming =>
    let inputs ← incoming.mapM fun (b, v) => return "[" ++ (← k.operandText v) ++ ", " ++ blockText b ++ "]"
    return name ++ " " ++ ", ".intercalate inputs
  | .splat x => return name ++ " " ++ (← k.operandText x)
  | .stepVector | .unreachable | .ret none => return name
  | .extract vector index => return name ++ " " ++ (← k.operandsText [vector, index])
  | .insert vector value index => return name ++ " " ++ (← k.operandsText [vector, value, index])
  | .shuffle sources lanes =>
    return name ++ " " ++ (← k.operandsText sources) ++ ", <" ++ ", ".intercalate (lanes.map toString) ++ ">"
  | .reduce kind vector => return name ++ "." ++ kind.text ++ " " ++ (← k.operandText vector)
  | .br target => return name ++ " " ++ blockText target
  | .condBr cond t e => return name ++ " " ++ (← k.operandText cond) ++ ", " ++ blockText t ++ ", " ++ blockText e
  | .switch value cases default =>
    let listed := cases.map fun (c, b) => toString c ++ " -> " ++ blockText b
    return name ++ " " ++ (← k.operandText value) ++ ", default " ++ blockText default
      ++ " [" ++ ", ".intercalate listed ++ "]"
  | .ret (some v) => return name ++ " " ++ (← k.operandText v)

def instText (k : Kernel) (i : InstId) : Checked String := do
  let d ← k.inst i
  let body ← k.instrText (k.resultTy i) d.instr
  return match d.result with
    | some r => "%" ++ r.text ++ " = " ++ body
    | none => body

def blockBody (k : Kernel) (b : BlockId) : Checked String := do
  let lines ← (k.instsOf b).mapM fun i => return "  " ++ (← k.instText i) ++ "\n"
  return blockText b ++ " " ++ ((k.block? b).map (·.name)).getD "" ++ ":\n" ++ String.join lines

/-- The printed form of a kernel. -/
def text (k : Kernel) : Checked String := do
  let head := "fn @" ++ k.name ++ "(" ++ ", ".intercalate (k.params.map Param.text) ++ ") -> " ++ k.ret.text
    ++ (k.laneGroup.map fun g => " [lanes " ++ g.text ++ "]").getD ""
  let blocks ← k.layout.mapM k.blockBody
  return head ++ " \x7b\n" ++ String.join blocks ++ "\x7d\n"

end Kernel

end Spmd
