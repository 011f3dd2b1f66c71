import Codegen.Value

/-!
# Instructions

An instruction gets its number and its result value when it is allocated, its operation later, and
its place in a block last. Until it gets an operation it is *blank*.

## Main definitions

* `Opcode`, `BinaryOp`, `Predicate`: the names of operations.
* `Operation`: an operation with its operands.
* `Instr`: an instruction of a function.
-/

namespace Codegen

/-! ### Names of operations -/

/-- The name of an operation. -/
inductive Opcode where
  | alloca
  | phi
  | load
  | store
  | intBinary
  | icmp
  | sext
  | zext
  | getElementPtr
  | call
  | br
  | condBr
  | ret
deriving DecidableEq, Repr

namespace Opcode

/-- The opcodes in the order of their numbers, which start at one. -/
def all : List Opcode :=
  [alloca, phi, load, store, intBinary, icmp, sext, zext, getElementPtr, call, br, condBr, ret]

/-- The text of an opcode. -/
def name : Opcode → String
  | alloca => "Alloca"
  | phi => "Phi"
  | load => "Load"
  | store => "Store"
  | intBinary => "IntBinary"
  | icmp => "Icmp"
  | sext => "Sext"
  | zext => "Zext"
  | getElementPtr => "GetElementPtr"
  | call => "Call"
  | br => "Br"
  | condBr => "CondBr"
  | ret => "Ret"

/-- The opcode with a number. -/
def numbered : Nat → Except Fault Opcode
  | 0 => .error (.noSuchOpcode 0)
  | n + 1 => match all[n]? with
    | some op => .ok op
    | none => .error (.noSuchOpcode (n + 1))

end Opcode

/-- An integer operation with two operands. -/
inductive BinaryOp where
  | add
  | sub
  | mul
  | sdiv
  | udiv
  | and
  | or
  | xor
  | shl
  | lshr
  | ashr
deriving DecidableEq, Repr

namespace BinaryOp

/-- The binary operations in the order of their numbers. -/
def all : List BinaryOp := [add, sub, mul, sdiv, udiv, and, or, xor, shl, lshr, ashr]

/-- The text of a binary operation. -/
def name : BinaryOp → String
  | add => "add"
  | sub => "sub"
  | mul => "mul"
  | sdiv => "sdiv"
  | udiv => "udiv"
  | and => "and"
  | or => "or"
  | xor => "xor"
  | shl => "shl"
  | lshr => "lshr"
  | ashr => "ashr"

/-- The binary operation with a text. -/
def named? (s : String) : Option BinaryOp := all.find? (·.name == s)

/-- The binary operation with a number. -/
def numbered (n : Nat) : Except Fault BinaryOp :=
  match all[n]? with
  | some op => .ok op
  | none => .error (.noSuchBinaryOp n)

end BinaryOp

/-- The predicate of an integer comparison. -/
inductive Predicate where
  | eq
  | ne
  | slt
  | sge
  | sgt
  | sle
  | ult
  | uge
  | ugt
  | ule
deriving DecidableEq, Repr

namespace Predicate

/-- The predicates in the order of their numbers. -/
def all : List Predicate := [eq, ne, slt, sge, sgt, sle, ult, uge, ugt, ule]

/-- The text of a predicate. -/
def name : Predicate → String
  | eq => "eq"
  | ne => "ne"
  | slt => "slt"
  | sge => "sge"
  | sgt => "sgt"
  | sle => "sle"
  | ult => "ult"
  | uge => "uge"
  | ugt => "ugt"
  | ule => "ule"

/-- The predicate with a text. -/
def named? (s : String) : Option Predicate := all.find? (·.name == s)

/-- The predicate with a number. -/
def numbered (n : Nat) : Except Fault Predicate :=
  match all[n]? with
  | some p => .ok p
  | none => .error .noSuchPredicate

/-- Whether the predicate reads its operands as signed integers. -/
def signed : Predicate → Bool
  | slt | sge | sgt | sle => true
  | _ => false

end Predicate

/-! ### Operations -/

/-- An operation with its operands. Operands are values and blocks of the function that the
instruction belongs to. -/
inductive Operation where
  /-- Reserves `count` elements on the stack. -/
  | alloca (type elem : TypeId) (count : UInt64) (align : UInt32)
  /-- The value that belongs to the block from which control came. -/
  | phi (type : TypeId) (incoming : List (ValueId × BlockId))
  /-- Reads a value from an address. -/
  | load (type : TypeId) (addr : ValueId)
  /-- Writes a value to an address. -/
  | store (value addr : ValueId)
  /-- Integer arithmetic. -/
  | binary (op : BinaryOp) (type : TypeId) (x y : ValueId)
  /-- Integer comparison. -/
  | icmp (predicate : Predicate) (type : TypeId) (x y : ValueId)
  /-- Sign extension. -/
  | sext (type : TypeId) (x : ValueId)
  /-- Zero extension. -/
  | zext (type : TypeId) (x : ValueId)
  /-- The address of an element below `base`. -/
  | getElementPtr (type elem : TypeId) (base : ValueId) (indices : List ValueId)
  /-- A call of a function by its name. -/
  | call (type : TypeId) (callee : String) (args : List ValueId)
  /-- A jump. -/
  | br (target : BlockId)
  /-- A jump to `thenBlock` if the condition holds, else to `elseBlock`. -/
  | condBr (cond : ValueId) (thenBlock elseBlock : BlockId)
  /-- The end of the function, perhaps with a value. -/
  | ret (value : Option ValueId)
deriving DecidableEq, Repr

namespace Operation

/-- A phi from a list of values and a list of blocks of the same length. -/
def ofPhi (type : TypeId) (values : List ValueId) (blocks : List BlockId) :
    Except Fault Operation :=
  if values.length = blocks.length then .ok (.phi type (values.zip blocks)) else .error .phiArity

/-- The name of the operation. -/
def opcode : Operation → Opcode
  | alloca _ _ _ _ => .alloca
  | phi _ _ => .phi
  | load _ _ => .load
  | store _ _ => .store
  | binary _ _ _ _ => .intBinary
  | icmp _ _ _ _ => .icmp
  | sext _ _ => .sext
  | zext _ _ => .zext
  | getElementPtr _ _ _ _ => .getElementPtr
  | call _ _ _ => .call
  | br _ => .br
  | condBr _ _ _ => .condBr
  | ret _ => .ret

/-- The type of the result. -/
def type : Operation → TypeId
  | alloca t _ _ _ => t
  | phi t _ => t
  | load t _ => t
  | store _ _ => TypeId.void
  | binary _ t _ _ => t
  | icmp _ t _ _ => t
  | sext t _ => t
  | zext t _ => t
  | getElementPtr t _ _ _ => t
  | call t _ _ => t
  | br _ => TypeId.void
  | condBr _ _ _ => TypeId.void
  | ret _ => TypeId.void

/-- The values that the operation reads, in order. -/
def args : Operation → List ValueId
  | alloca _ _ _ _ => []
  | phi _ incoming => incoming.map (·.1)
  | load _ x => [x]
  | store x y => [x, y]
  | binary _ _ x y => [x, y]
  | icmp _ _ x y => [x, y]
  | sext _ x => [x]
  | zext _ x => [x]
  | getElementPtr _ _ x xs => x :: xs
  | call _ _ xs => xs
  | br _ => []
  | condBr x _ _ => [x]
  | ret x => x.toList

/-- The blocks that the operation names: the targets of a branch, or the blocks from which the
values of a phi come. -/
def targets : Operation → List BlockId
  | phi _ incoming => incoming.map (·.2)
  | br b => [b]
  | condBr _ b c => [b, c]
  | _ => []

/-- The blocks to which control can go. -/
def successors : Operation → List BlockId
  | br b => [b]
  | condBr _ b c => [b, c]
  | _ => []

/-- Whether the operation ends a block. -/
def isTerminator : Operation → Bool
  | br _ | condBr _ _ _ | ret _ => true
  | _ => false

/-- Whether the operation keeps its order among operations with effects. A phi counts, since it is
pinned to the head of its block. -/
def hasEffects : Operation → Bool
  | phi _ _ | load _ _ | store _ _ | call _ _ _ | br _ | condBr _ _ _ | ret _ => true
  | _ => false

/-- Whether the operation is a phi. -/
def isPhi : Operation → Bool
  | phi _ _ => true
  | _ => false

end Operation

/-! ### Instructions -/

/-- An instruction of a function; its number is its position in the function's table. -/
structure Instr where
  /-- The value that stands for the result, whether there is one or not. -/
  result : ValueId
  /-- The operation; a blank instruction has none. -/
  op : Option Operation := none
  /-- The block that holds the instruction. -/
  block : Option BlockId := none
deriving DecidableEq, Repr

namespace Instr

/-- The type of the result; a blank instruction has the invalid type. -/
def type (i : Instr) : TypeId :=
  match i.op with
  | some op => op.type
  | none => TypeId.invalid

/-- Whether the instruction produces a value. -/
def hasResult (i : Instr) : Bool :=
  i.type != TypeId.void && i.type != TypeId.invalid

/-- The name of the operation. -/
def opcode (i : Instr) : Except Fault Opcode :=
  match i.op with
  | some op => .ok op.opcode
  | none => .error (.noSuchOpcode 0)

/-- The name of the operation as it stands inside a text, where a blank instruction is no fault. -/
def opcodeText (i : Instr) : String :=
  match i.op with
  | some op => op.opcode.name
  | none => Fault.blankOpcode

/-- The values that the instruction reads. -/
def args (i : Instr) : Except Fault (List ValueId) :=
  match i.op with
  | some op => .ok op.args
  | none => .error .operandsOfBlank

/-- The blocks that the instruction names. -/
def targets (i : Instr) : List BlockId :=
  match i.op with
  | some op => op.targets
  | none => []

/-- Whether the instruction ends a block. -/
def isTerminator (i : Instr) : Bool :=
  match i.op with
  | some op => op.isTerminator
  | none => false

/-- Whether the instruction keeps its order among instructions with effects. -/
def hasEffects (i : Instr) : Bool :=
  match i.op with
  | some op => op.hasEffects
  | none => false

/-- Whether the instruction is a phi. -/
def isPhi (i : Instr) : Bool :=
  match i.op with
  | some op => op.isPhi
  | none => false

end Instr

end Codegen
