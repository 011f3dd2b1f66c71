import Codegen.Graph.Conversion
import Codegen.X86.Select

/-!
# Converting instructions to machine operations

The rules that turn one SSA instruction into nodes. They take the same shapes as the selection of
machine instructions. A node carries the operation alone: its operands are other nodes, and the
register of a result is chosen later. The comparison for a branch has to stand in the same block,
because the flags do not outlive the block.

## Main definitions

* `X86.converter`: the conversion of every instruction.
-/

namespace Codegen.X86

/-- The text of a graph names an operation by its name. -/
instance : MachineOp Opcode where
  name := Opcode.name
  blank := Opcode.numberedName 0

/-- A conversion to machine operations. -/
abbrev Convert := Conversion Opcode

variable (src : Source) (c : Context)

/-- The node for a value that is a register or a constant, and whether it is a constant. -/
def valueNode (i : InstrId) (v : ValueId) (leaf : Bool) : Convert (NodeRef × Bool) := do
  if (c.slot? v).isSome then
    throw (src.unsupported i (.stackAddress (← (src.valueText v : Except Stop String))))
  let d ← (c.definition v : Except Stop Definition)
  if d.isConst then
    let _ ← immOperand src c i v
  let n ← if leaf then some <$> Conversion.makeLeaf v else Conversion.makeOperand v
  return (n, d.isConst)

/-- The node for a value that is a register. -/
def regNode (i : InstrId) (v : ValueId) : Convert NodeRef := do
  let (n, isConst) ← valueNode src c i v false
  if isConst then
    throw (src.unsupported i (.constantRegister (← (src.valueText v : Except Stop String))))
  return n

/-- The node for the address of a slot. -/
def slotNode (i : InstrId) (addr : ValueId) : Convert NodeRef := do
  let _ ← slotOperand src c i addr
  Conversion.makeOperand addr

/-- The nodes for one incoming value of a phi. It is a leaf, because it is defined at the end of the
predecessor. -/
def incomingNodes (i : InstrId) (inc : ValueId × BlockId) : Convert (List NodeRef) := do
  let (n, _) ← valueNode src c i inc.1 true
  return [n, some (← Conversion.makeBlock inc.2)]

/-- A phi becomes the pseudo operation. -/
def convertPhi (i : InstrId) (t : TypeId) (incoming : List (ValueId × BlockId)) :
    Convert NodeId := do
  if RegClass.ofType src.types t ≠ .int then
    throw (src.unsupported i (.phiType (← (src.types.text t : Except Stop String))))
  let incs ← incomings src i incoming
  let args ← incs.mapM (incomingNodes src c i)
  Conversion.makeInst .phi args.flatten

/-- A load reads a slot. -/
def convertLoad (i : InstrId) (t : TypeId) (addr : ValueId) : Convert NodeId := do
  requireInt32 src i t
  Conversion.makeInst .movrm32 [← slotNode src c i addr]

/-- A store writes a slot. -/
def convertStore (i : InstrId) (v addr : ValueId) : Convert NodeId := do
  let t ← (src.func.valueType v : Except Stop TypeId)
  requireInt32 src i t
  let mem ← slotNode src c i addr
  let (n, isConst) ← valueNode src c i v false
  Conversion.makeInst (if isConst then .movmi32 else .movmr32) [mem, n]

/-- Sums and differences. -/
def convertBinary (i : InstrId) (op : BinaryOp) (t : TypeId) (x y : ValueId) :
    Convert NodeId := do
  match binaryOpcodes op with
  | none => throw (src.unsupported i (.operation op))
  | some (rr, ri) =>
    requireInt32 src i t
    let lhs ← regNode src c i x
    let (rhs, isConst) ← valueNode src c i y false
    Conversion.makeInst (if isConst then ri else rr) [lhs, rhs]

/-- A comparison sets the flags. -/
def convertIcmp (i : InstrId) (p : Predicate) (x y : ValueId) : Convert NodeId := do
  let cmp ← comparison src c i p x y
  let lhs ← regNode src c i cmp.x
  let (rhs, isConst) ← valueNode src c i cmp.y false
  Conversion.makeInst (if isConst then .cmpri32 else .cmprr32) [lhs, rhs]

/-- A jump. -/
def convertBr (target : BlockId) : Convert NodeId := do
  let n ← Conversion.makeBlock target
  Conversion.makeInst .jmp [some n]

/-- A conditional branch jumps if the flags say so, and jumps. -/
def convertCondBr (i : InstrId) (block : Option BlockId) (cond : ValueId)
    (thenBlock elseBlock : BlockId) : Convert Conversion.Result := do
  match ← (icmp? src c cond : Except Stop _) with
  | none => throw (src.unsupported i (.conditionNotIcmp (← (src.valueText cond : Except Stop _))))
  | some (j, p, x, y) =>
    if (← (src.func.instr j : Except Stop Codegen.Instr)).block ≠ block then
      throw (src.unsupported i (.conditionElsewhere (← (src.valueText cond : Except Stop _))))
    let cmp ← comparison src c j p x y
    let flags ← Conversion.makeOperand cond
    let thenNode ← Conversion.makeBlock thenBlock
    let jump ← Conversion.makeInst cmp.jump [flags, some thenNode]
    let elseNode ← Conversion.makeBlock elseBlock
    let otherwise ← Conversion.makeInst .jmp [some elseNode]
    return ⟨none, [some jump, some otherwise]⟩

/-- A return. -/
def convertRet (i : InstrId) : Option ValueId → Convert NodeId
  | none => throw (src.unsupported i .returnsNothing)
  | some v => do
    let t ← (src.func.valueType v : Except Stop TypeId)
    requireInt32 src i t
    let (n, _) ← valueNode src c i v false
    Conversion.makeInst .ret [n]

/-- The conversion of every instruction. -/
def converter : Converter Opcode := fun src c i => do
  let ins ← (src.func.instr i : Except Stop Codegen.Instr)
  match ins.op with
  | some (.alloca _ _ _ _) =>
    let _ ← c.slotFor src.func i
    return {}
  | some (.phi t incoming) => return .chained (← convertPhi src c i t incoming)
  | some (.load t addr) => return .chained (← convertLoad src c i t addr)
  | some (.store v addr) => return .chained (← convertStore src c i v addr)
  | some (.binary op t x y) => return .unchained (← convertBinary src c i op t x y)
  | some (.icmp p _ x y) => return .unchained (← convertIcmp src c i p x y)
  | some (.br target) => return .chained (← convertBr target)
  | some (.condBr cond t e) => convertCondBr src c i ins.block cond t e
  | some (.ret v) => return .chained (← convertRet src c i v)
  | _ => throw (src.unsupported i .noConversionRule)

end Codegen.X86
