import Codegen.X86.Operands

/-!
# Selecting machine instructions

The rules that turn one SSA instruction into machine instructions. A rule gives all instructions or
none, and reads nothing but the function and the context. Comparisons produce no code of their own:
the branch that uses one compares again.

## Main definitions

* `X86.select`: the instructions for an SSA instruction.
-/

namespace Codegen.X86

variable (src : Source)

/-- An operation that reads the context, and that can give a register another type. -/
abbrev Select := EStateM Stop Context

/-- The operands for one incoming value of a phi. -/
def incomingOperands (c : Context) (i : InstrId) (inc : ValueId × BlockId) :
    Except Stop (List Operand) := do
  let v ← valueOperand src c i inc.1
  return [v, .label (← c.label inc.2)]

/-- The operands for all incoming values of a phi, in the order of the predecessors. -/
def phiOperands (c : Context) (i : InstrId) (incoming : List (ValueId × BlockId)) :
    Except Stop (List Operand) := do
  let ops ← (← incomings src i incoming).mapM (incomingOperands src c i)
  return ops.flatten

/-- A phi becomes the pseudo instruction. -/
def selectPhi (i : InstrId) (t : TypeId) (incoming : List (ValueId × BlockId)) :
    Select (List Instr) := do
  if RegClass.ofType src.types t ≠ .int then
    throw (src.unsupported i (.phiType (← src.types.text t)))
  let out ← Context.outputReg src.func i t
  let ops ← phiOperands src (← get) i incoming
  return [← Instr.make .phi (.reg out :: ops)]

/-- A load reads a slot. -/
def selectLoad (i : InstrId) (t : TypeId) (addr : ValueId) : Select (List Instr) := do
  let c ← get
  requireInt32 src i t
  let s ← slotOperand src c i addr
  let out ← Context.outputReg src.func i t
  return [← Instr.make .movrm32 [.reg out, .slot s]]

/-- A store writes a slot. -/
def selectStore (c : Context) (i : InstrId) (v addr : ValueId) : Except Stop (List Instr) := do
  requireInt32 src i (← src.func.valueType v)
  let s ← slotOperand src c i addr
  match ← valueOperand src c i v with
  | .imm32 imm => return [← Instr.make .movmi32 [.slot s, .imm32 imm]]
  | op => return [← Instr.make .movmr32 [.slot s, op]]

/-- The machine operations for a sum or a difference with a register and with an immediate. -/
def binaryOpcodes : BinaryOp → Option (Opcode × Opcode)
  | .add => some (.addrr32, .addri32)
  | .sub => some (.subrr32, .subri32)
  | _ => none

/-- Sums and differences. The left operand is copied first, since the machine operation overwrites
it. -/
def selectBinary (i : InstrId) (op : BinaryOp) (t : TypeId) (x y : ValueId) :
    Select (List Instr) := do
  let c ← get
  match binaryOpcodes op with
  | none => throw (src.unsupported i (.operation op))
  | some (rr, ri) =>
    requireInt32 src i t
    let lhs ← regOperand src c i x
    let rhs ← valueOperand src c i y
    let out ← Context.outputReg src.func i t
    let copy ← Instr.make .movrr32 [.reg out, .reg lhs]
    match rhs with
    | .imm32 imm => return [copy, ← Instr.make ri [.reg out, .imm32 imm]]
    | rhs => return [copy, ← Instr.make rr [.reg out, rhs]]

/-- Whether an instruction branches on a value. -/
def branchesOn (v : ValueId) (ins : Codegen.Instr) : Bool :=
  match ins.op with
  | some (.condBr c _ _) => c == v
  | _ => false

/-- A comparison may be used by branches only. -/
def selectIcmp (c : Context) (i : InstrId) (result : ValueId) : Except Stop (List Instr) := do
  (← c.usersOf result).forM fun u => do
    let user ← src.func.instr u
    if !branchesOn result user then
      throw (src.unsupported i (.conditionUse user.opcodeText))
  return []

/-- The comparison that produces a value. -/
def icmp? (c : Context) (v : ValueId) :
    Except Fault (Option (InstrId × Predicate × ValueId × ValueId)) := do
  match (← c.definition v).instr with
  | none => return none
  | some j =>
    match (← src.func.instr j).op with
    | some (.icmp p _ x y) => return some (j, p, x, y)
    | _ => return none

/-- A conditional branch compares, jumps if the comparison holds, and jumps. -/
def selectCondBr (c : Context) (i : InstrId) (cond : ValueId) (thenBlock elseBlock : BlockId) :
    Except Stop (List Instr) := do
  match ← icmp? src c cond with
  | none => throw (src.unsupported i (.conditionNotIcmp (← src.valueText cond)))
  | some (j, p, x, y) =>
    let cmp ← comparison src c j p x y
    let lhs ← regOperand src c i cmp.x
    let rhs ← valueOperand src c i cmp.y
    let compare ← match rhs with
      | .imm32 imm => Instr.make .cmpri32 [.reg lhs, .imm32 imm]
      | rhs => Instr.make .cmprr32 [.reg lhs, rhs]
    let jump ← Instr.make cmp.jump [.label (← c.label thenBlock)]
    return [compare, jump, ← Instr.make .jmp [.label (← c.label elseBlock)]]

/-- A return moves the value to the register of results. -/
def selectRet (c : Context) (i : InstrId) : Option ValueId → Except Stop (List Instr)
  | none => .error (src.unsupported i .returnsNothing)
  | some v => do
    requireInt32 src i (← src.func.valueType v)
    let move ← match ← valueOperand src c i v with
      | .imm32 imm => Instr.make .movri32 [.reg eax, .imm32 imm]
      | op => Instr.make .movrr32 [.reg eax, op]
    return [move, ← Instr.make .ret []]

/-- A jump. -/
def selectBr (c : Context) (target : BlockId) : Except Stop (List Instr) := do
  return [← Instr.make .jmp [.label (← c.label target)]]

/-- The machine instructions for an SSA instruction. -/
def select (i : InstrId) : Select (List Instr) := do
  let c ← get
  let ins ← (src.func.instr i : Except Stop Codegen.Instr)
  match ins.op with
  | some (.alloca _ _ _ _) =>
    let _ ← c.slotFor src.func i
    return []
  | some (.phi t incoming) => selectPhi src i t incoming
  | some (.load t addr) => selectLoad src i t addr
  | some (.store v addr) => selectStore src c i v addr
  | some (.binary op t x y) => selectBinary src i op t x y
  | some (.icmp _ _ _ _) => selectIcmp src c i ins.result
  | some (.br target) => selectBr c target
  | some (.condBr cond t e) => selectCondBr src c i cond t e
  | some (.ret v) => selectRet src c i v
  | _ => throw (src.unsupported i .noLoweringRule)

end Codegen.X86
