import Codegen.Func

/-!
# The text of a function

A function is written in a form close to LLVM's. Results are named after their value number and
arguments after their position, so that the text depends on the numbers alone.

## Main definitions

* `Func.valueText`, `Func.instrText`, `Func.text`: the text of a value, of an instruction and of a
  whole function.
-/

namespace Codegen.Func

variable (f : Func) (types : TypeTable)

/-- The text of a value without its type. -/
def valueText (v : ValueId) : Except Fault String := do
  match ← f.value v with
  | .absent => return "invalid"
  | .result _ => return s!"%v{v}"
  | .arg n _ => return s!"%a{n}"
  | .const c t =>
    if types.isInt t 1 then return if c = 0 then "false" else "true"
    return toString c.toInt

/-- The text of a value after its type. -/
def operandText (v : ValueId) : Except Fault String := do
  let t ← types.text (← f.valueType v)
  return t ++ " " ++ (← f.valueText types v)

/-- The text of a branch target. -/
def labelText (b : BlockId) : Except Fault String := do
  return "label %" ++ (← f.blockName b)

/-- The text of one incoming value of a phi. -/
def incomingText (inc : ValueId × BlockId) : Except Fault String := do
  let v ← f.valueText types inc.1
  return "[ " ++ v ++ ", %" ++ (← f.blockName inc.2) ++ " ]"

/-- The text of an operation. -/
def operationText : Operation → Except Fault String
  | .alloca _ elem count align => do
    let size := if count = 1 then "" else s!", i64 {count}"
    let align := if align = 0 then "" else s!", align {align}"
    return "alloca " ++ (← types.text elem) ++ size ++ align
  | .phi t incoming => do
    let incs ← incoming.mapM (f.incomingText types)
    return "phi " ++ (← types.text t) ++ " " ++ ", ".intercalate incs
  | .load t addr => do
    return "load " ++ (← types.text t) ++ ", " ++ (← f.operandText types addr)
  | .store x addr => do
    return "store " ++ (← f.operandText types x) ++ ", " ++ (← f.operandText types addr)
  | .binary op _ x y => do
    return op.name ++ " " ++ (← f.operandText types x) ++ ", " ++ (← f.valueText types y)
  | .icmp p _ x y => do
    return "icmp " ++ p.name ++ " " ++ (← f.operandText types x) ++ ", " ++
      (← f.valueText types y)
  | .sext t x => do
    return "sext " ++ (← f.operandText types x) ++ " to " ++ (← types.text t)
  | .zext t x => do
    return "zext " ++ (← f.operandText types x) ++ " to " ++ (← types.text t)
  | .getElementPtr _ elem base indices => do
    let ops ← (base :: indices).mapM (f.operandText types)
    return "getelementptr " ++ (← types.text elem) ++ ", " ++ ", ".intercalate ops
  | .call t callee args => do
    let ops ← args.mapM (f.operandText types)
    return "call " ++ (← types.text t) ++ " @" ++ callee ++ "(" ++ ", ".intercalate ops ++ ")"
  | .br b => do
    return "br " ++ (← f.labelText b)
  | .condBr c b b' => do
    return "br " ++ (← f.operandText types c) ++ ", " ++ (← f.labelText b) ++ ", " ++
      (← f.labelText b')
  | .ret none => return "ret void"
  | .ret (some v) => do
    return "ret " ++ (← f.operandText types v)

/-- The text of an instruction, with the name of its result if it has one. -/
def instrText (i : InstrId) : Except Fault String := do
  let ins ← f.instr i
  match ins.op with
  | none => throw .textOfBlank
  | some op =>
    let text ← f.operationText types op
    if ins.hasResult then return (← f.valueText types ins.result) ++ " = " ++ text
    return text

/-- The lines of a block. -/
def blockText (b : BlockId × Block) : Except Fault String := do
  let preds ← b.2.preds.mapM f.blockName
  let preds := if preds.isEmpty then "" else
    " ; preds = " ++ ", ".intercalate (preds.map ("%" ++ ·))
  let lines ← b.2.instrs.mapM fun i => do
    return "  " ++ (← f.instrText types i) ++ "\n"
  return b.2.label b.1 ++ ":" ++ preds ++ "\n" ++ String.join lines

/-- The text of a function. -/
def text : Except Fault String := do
  let sig ← types.signature f.sig
  let params ← f.params.mapM (f.operandText types)
  let params := if sig.variadic then params ++ ["..."] else params
  let head := (← types.text sig.result) ++ " @" ++ f.name ++ "(" ++ ", ".intercalate params ++ ")"
  if f.isDeclaration then return "declare " ++ head ++ "\n"
  let blocks ← f.layout.mapM (f.blockText types)
  return "define " ++ head ++ " \x7b\n" ++ "\n".intercalate blocks ++ "\x7d\n"

end Codegen.Func
