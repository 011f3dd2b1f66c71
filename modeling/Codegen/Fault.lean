/-!
# Faults

A fault is a broken precondition: a caller named a thing that does not exist, or asked a question
that the thing cannot answer. Faults are kept apart from the errors that a well-formed request can
meet (`Codegen.Error`), since an operation that stops with a fault gives no answer at all.

## Main definitions

* `Fault`: the preconditions that can be broken.
* `Fault.message`: the text of a fault; `none` for the faults that carry no text.
-/

namespace Codegen

/-- A broken precondition of an operation. -/
inductive Fault where
  /-- An index past the end of a table, or a thing that was never set up. -/
  | outOfRange
  /-- A number that stands for no condition code. -/
  | noSuchCondition
  /-- A part of a program that keeps the rules of its language and has no meaning. -/
  | illFormed
  /-- An integer type needs at least one bit. -/
  | integerWidth (bits : Int)
  /-- The type number is not in the table. -/
  | noSuchType (id : Nat)
  /-- A component was asked of a type that has no such component. -/
  | typeComponent (component kind : String)
  /-- The block number is not in the function. -/
  | noSuchBlock (id : Nat)
  /-- The instruction number is not in the function. -/
  | noSuchInstr (id : Nat)
  /-- The value number is not in the function. -/
  | noSuchValue (id : Nat)
  /-- The node number is not in the graph. -/
  | noSuchNode (id : Nat)
  /-- An instruction has to get its operation before it is inserted. -/
  | insertBlank
  /-- An instruction is inserted at most once. -/
  | insertTwice (id : Nat)
  /-- The operands of an instruction without an operation. -/
  | operandsOfBlank
  /-- The text of an instruction without an operation. -/
  | textOfBlank
  /-- All numbers of virtual registers are taken. -/
  | tooManyRegisters
  /-- Every incoming value of a phi comes from one block. -/
  | phiArity
  /-- A number that stands for no operation. -/
  | noSuchOpcode (n : Nat)
  /-- A number that stands for no binary operation. -/
  | noSuchBinaryOp (n : Nat)
  /-- A number that stands for no comparison predicate. -/
  | noSuchPredicate
  /-- A number that stands for no machine operation. -/
  | noSuchMachineOp (n : Nat)
  /-- A machine operation with the wrong number of operands. -/
  | operandCount (op : String) (expected actual : Nat)
  /-- A machine operation with an operand of a kind that it does not take. -/
  | operandKind (index : Nat) (op kind : String)
deriving DecidableEq, Repr

namespace Fault

/-- The name that a blank instruction has inside a text. -/
def blankOpcode : String := "%!s(PANIC=String method: unknown opcode 0)"

/-- The text of a fault. An index out of range, a condition code that does not exist and a part of a
program without a meaning have no text. -/
def message : Fault → Option String
  | outOfRange => none
  | noSuchCondition => none
  | illFormed => none
  | integerWidth bits => some s!"BUG: invalid integer width {bits}"
  | noSuchType id => some s!"BUG: invalid type id {id}"
  | typeComponent component kind => some s!"BUG: {component} on {kind}"
  | noSuchBlock id => some s!"BUG: invalid block id {id}"
  | noSuchInstr id => some s!"BUG: invalid instruction id {id}"
  | noSuchValue id => some s!"BUG: invalid value id {id}"
  | noSuchNode id => some s!"BUG: invalid node id {id}"
  | insertBlank => some "BUG: inserting an uninitialized instruction"
  | insertTwice id => some s!"BUG: instruction {id} is already inserted"
  | operandsOfBlank => some "BUG: invalid opcode 0"
  | textOfBlank => some ("TODO: format for " ++ blankOpcode)
  | tooManyRegisters => some "BUG: too many virtual registers"
  | phiArity => some "BUG: len(values) != len(preds)"
  | noSuchOpcode n => some s!"unknown opcode {n}"
  | noSuchBinaryOp n => some s!"unknown binary op {n}"
  | noSuchPredicate => some "invalid integer comparison condition"
  | noSuchMachineOp n => some s!"BUG: invalid opcode {n}"
  | operandCount op expected actual => some s!"BUG: {op} takes {expected} operands, got {actual}"
  | operandKind index op kind => some s!"BUG: operand {index} of {op} must not be {kind}"

end Fault

end Codegen
