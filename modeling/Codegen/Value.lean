import Codegen.TypeTable

/-!
# Values

The operands of instructions are values of one function, named by their position in the function's
value table. Value `0` is the absent value. Values are never changed or removed.

## Main definitions

* `ValueId`, `InstrId`, `BlockId`: numbers of the things that a function owns.
* `Value`: what a value number stands for.
-/

namespace Codegen

/-- The number of a value in its function. -/
abbrev ValueId := Nat

/-- The number of an instruction in its function. -/
abbrev InstrId := Nat

/-- The number of a block in its function. -/
abbrev BlockId := Nat

/-- The number of the absent value. -/
def ValueId.absent : ValueId := 0

/-- Where a value comes from. -/
inductive ValueKind where
  | invalid
  | instruction
  | constant
  | argument
deriving DecidableEq, Repr

namespace ValueKind

/-- The name of a kind. -/
def name : ValueKind → String
  | invalid => "invalid"
  | instruction => "instruction"
  | constant => "constant"
  | argument => "argument"

/-- The kind with a number, counted in the order of declaration; any other number is invalid. -/
def numbered : Nat → ValueKind
  | 1 => instruction
  | 2 => constant
  | 3 => argument
  | _ => invalid

end ValueKind

/-- What a value number stands for. The result of an instruction has the type of the instruction;
a constant and an argument bring their own. -/
inductive Value where
  | absent
  | result (instr : InstrId)
  | const (payload : Int64) (type : TypeId)
  | arg (index : Nat) (type : TypeId)
deriving DecidableEq, Repr

namespace Value

/-- Where the value comes from. -/
def kind : Value → ValueKind
  | absent => .invalid
  | result _ => .instruction
  | const _ _ => .constant
  | arg _ _ => .argument

/-- The instruction that produces the value. -/
def instr? : Value → Option InstrId
  | result i => some i
  | _ => none

/-- The payload of a constant; `0` for any other value. -/
def payload : Value → Int64
  | const c _ => c
  | _ => 0

/-- The position of an argument; `0` for any other value. -/
def argIndex : Value → Nat
  | arg n _ => n
  | _ => 0

/-- A short text that names the source of the value. -/
def text : Value → String
  | absent => "invalid"
  | result i => s!"instr{i}"
  | const c _ => toString c.toInt
  | arg n _ => s!"arg{n}"

end Value

end Codegen
