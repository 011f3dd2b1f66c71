import Codegen.Context
import Codegen.Graph
import Codegen.Source

/-!
# Converting an instruction

A conversion says how the nodes for one instruction are made. It is a program that asks for nodes
one after the other, and that can go on in a way that depends on the nodes it got. What is done on
a request is up to whoever runs the program, so that statements about the graphs that are built
hold for every conversion.

## Main definitions

* `Conversion`: a program that asks for nodes.
* `Conversion.Result`: the node for the result of an instruction, and the nodes to be chained.
* `Converter`: a conversion for every instruction.
-/

namespace Codegen

/-- A program that asks for nodes and ends with an answer. -/
inductive Conversion (ω α : Type) where
  /-- The end. -/
  | done (a : α)
  /-- The end without an answer. -/
  | stop (e : Stop)
  /-- Asks for an operation on some producers. -/
  | inst (op : ω) (args : List NodeRef) (next : NodeId → Conversion ω α)
  /-- Asks for a constant. -/
  | imm (value : Int64) (bits : Int) (next : NodeId → Conversion ω α)
  /-- Asks for a register. -/
  | vreg (reg : Reg) (next : NodeId → Conversion ω α)
  /-- Asks for the address of a slot. -/
  | slot (slot : SlotId) (next : NodeId → Conversion ω α)
  /-- Asks for a block. -/
  | block (b : BlockId) (next : NodeId → Conversion ω α)
  /-- Asks for the producer of a value: its node if it is defined in the same block, else a leaf. -/
  | operand (v : ValueId) (next : NodeRef → Conversion ω α)
  /-- Asks for a leaf that stands for a value, whatever defines it. -/
  | leaf (v : ValueId) (next : NodeId → Conversion ω α)

namespace Conversion

variable {ω α β : Type}

/-- Goes on with the answer of a conversion. -/
def bind : Conversion ω α → (α → Conversion ω β) → Conversion ω β
  | done a, k => k a
  | stop e, _ => stop e
  | inst op args next, k => inst op args fun n => (next n).bind k
  | imm v bits next, k => imm v bits fun n => (next n).bind k
  | vreg r next, k => vreg r fun n => (next n).bind k
  | slot s next, k => slot s fun n => (next n).bind k
  | block b next, k => block b fun n => (next n).bind k
  | operand v next, k => operand v fun n => (next n).bind k
  | leaf v next, k => leaf v fun n => (next n).bind k

/-- Conversions are put together in sequence. -/
instance : Monad (Conversion ω) where
  pure := done
  bind := bind

/-- A conversion can stop without an answer. -/
instance : MonadExceptOf Stop (Conversion ω) where
  throw := stop
  tryCatch x _ := x

/-- A question that needs no node. -/
instance : MonadLift (Except Stop) (Conversion ω) where
  monadLift
    | .ok a => done a
    | .error e => stop e

/-! ### Requests -/

/-- An operation on some producers. -/
def makeInst (op : ω) (args : List NodeRef) : Conversion ω NodeId := inst op args done

/-- A constant. -/
def makeImm (value : Int64) (bits : Int) : Conversion ω NodeId := imm value bits done

/-- A register. -/
def makeVReg (r : Reg) : Conversion ω NodeId := vreg r done

/-- The address of a slot. -/
def makeSlot (s : SlotId) : Conversion ω NodeId := slot s done

/-- A block. -/
def makeBlock (b : BlockId) : Conversion ω NodeId := block b done

/-- The producer of a value. -/
def makeOperand (v : ValueId) : Conversion ω NodeRef := operand v done

/-- A leaf for a value. -/
def makeLeaf (v : ValueId) : Conversion ω NodeId := leaf v done

/-- What the conversion of an instruction ends with. -/
structure Result where
  /-- The node that produces the result of the instruction. -/
  value : NodeRef := none
  /-- The nodes that have to be executed in this order between the other instructions. -/
  chain : List NodeRef := []
deriving DecidableEq, Repr

/-- The result that is one node, which is chained too. -/
def Result.chained (n : NodeId) : Result := ⟨some n, [some n]⟩

/-- The result that is one node, which is not chained. -/
def Result.unchained (n : NodeId) : Result := ⟨some n, []⟩

end Conversion

/-- A conversion for every instruction of every function. -/
abbrev Converter (ω : Type) := Source → Context → InstrId → Conversion ω Conversion.Result

end Codegen
