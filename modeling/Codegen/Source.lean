import Codegen.Error
import Codegen.Func.Text

/-!
# The function that is lowered

Lowering reads a function together with the types of its module.

## Main definitions

* `Source`: a function with its types.
* `Source.unsupported`: the report that an instruction cannot be lowered.
-/

namespace Codegen

/-- A function with the types of its module. -/
structure Source where
  /-- The types of the module. -/
  types : TypeTable
  /-- The function. -/
  func : Func
deriving DecidableEq, Repr

namespace Source

variable (src : Source)

/-- The name of the operation of an instruction inside a text. -/
def opcodeText (i : InstrId) : String :=
  match src.func.instrs[i]? with
  | some ins => ins.opcodeText
  | none => Fault.blankOpcode

/-- The report that an instruction cannot be lowered. -/
def unsupported (i : InstrId) (obstacle : Obstacle) : Stop :=
  .ofCause (.unsupported src.func.name i (src.opcodeText i) obstacle)

/-- The text of a value. -/
def valueText (v : ValueId) : Except Fault String := src.func.valueText src.types v

end Source

end Codegen
