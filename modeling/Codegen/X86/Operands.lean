import Codegen.Context
import Codegen.Source
import Codegen.X86.Cond

/-!
# Choosing operands

The questions that both ways of lowering ask about an SSA operand: whether it is a stack slot, a
register or a constant that fits an immediate, in which order the values of a phi come in, and which
form a comparison takes.

## Main definitions

* `X86.imm32?`: a constant as an immediate of 32 bits.
* `X86.regOperand`, `X86.valueOperand`, `X86.slotOperand`: operands.
* `X86.incomings`: the incoming values of a phi in the order of the predecessors.
* `X86.comparison`: a comparison with a constant on the right.
-/

namespace Codegen.X86

/-- A constant of a width as an immediate of 32 bits. Constants of at most 32 bits are cut to 32
bits; a wider one has to fit. -/
def imm32? (v : Int64) (bits : Int) : Option Int32 :=
  if bits ≤ 32 then some v.toInt32
  else if v.toInt < -2147483648 ∨ 2147483647 < v.toInt then none
  else some v.toInt32

variable (src : Source)

/-- Demands that a type is the integer type of 32 bits. -/
def requireInt32 (i : InstrId) (t : TypeId) : Except Stop Unit := do
  if !src.types.isInt t 32 then
    throw (src.unsupported i (.notInt32 (← src.types.text t)))

variable (c : Context)

/-- The slot that an address stands for. -/
def slotOperand (i : InstrId) (addr : ValueId) : Except Stop SlotId := do
  match c.slot? addr with
  | some s => return s
  | none => throw (src.unsupported i (.notSlot (← src.valueText addr)))

/-- The register that holds a value. -/
def regOperand (i : InstrId) (v : ValueId) : Except Stop Reg := do
  if (c.slot? v).isSome then throw (src.unsupported i (.stackAddress (← src.valueText v)))
  if (← c.definition v).isConst then
    throw (src.unsupported i (.constantRegister (← src.valueText v)))
  c.valueReg src.types v

/-- A constant as an immediate. -/
def immOperand (i : InstrId) (v : ValueId) : Except Stop Int32 := do
  let d ← c.definition v
  match imm32? d.payload (← src.types.intBits (← src.func.valueType v)) with
  | some imm => return imm
  | none => throw (src.unsupported i (.wideConstant (← src.valueText v)))

/-- A constant as an immediate, any other value in its register. -/
def valueOperand (i : InstrId) (v : ValueId) : Except Stop Operand := do
  if (← c.definition v).isConst then return .imm32 (← immOperand src c i v)
  return .reg (← regOperand src c i v)

/-- The value that comes in from a predecessor; there has to be exactly one. -/
def incomingFrom (i : InstrId) (incoming : List (ValueId × BlockId)) (p : BlockId) :
    Except Stop (ValueId × BlockId) := do
  match incoming.filter (·.2 == p) with
  | [inc] => return inc
  | incs => throw (src.unsupported i (.incomingFrom incs.length (← src.func.blockName p)))

/-- The incoming values of a phi in the order of the predecessors of its block. -/
def incomings (i : InstrId) (incoming : List (ValueId × BlockId)) :
    Except Stop (List (ValueId × BlockId)) := do
  let preds ← match (← src.func.instr i).block with
    | some b => do pure (← src.func.block b).preds
    | none => throw (.fault .outOfRange)
  if incoming.length ≠ preds.length then
    throw (src.unsupported i (.incomingCount incoming.length preds.length))
  preds.mapM (incomingFrom src i incoming)

/-- A comparison: a register on the left, and a register or a constant on the right. -/
structure Comparison where
  /-- The left operand. -/
  x : ValueId
  /-- The right operand. -/
  y : ValueId
  /-- The jump that happens if the comparison holds. -/
  jump : Opcode
deriving DecidableEq, Repr

/-- The form of a comparison in which a constant stands on the right. The predicate is looked at
before the operands. -/
def comparison (i : InstrId) (p : Predicate) (x y : ValueId) : Except Stop Comparison := do
  match (Cond.ofPredicate p).jump?, (Cond.ofPredicate p).swap.jump? with
  | some jump, some swapped =>
    requireInt32 src i (← src.func.valueType x)
    if (← c.definition x).isConst then
      if !(← c.definition y).isConst then return ⟨y, x, swapped⟩
    return ⟨x, y, jump⟩
  | _, _ => throw (src.unsupported i (.predicate p))

end Codegen.X86
