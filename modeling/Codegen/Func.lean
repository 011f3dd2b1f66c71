import Codegen.Instr

/-!
# Functions

A function owns its values, instructions and blocks and names each by its position in a table.
Blocks are laid out in the order in which they were added, and the instructions of a block in the
order in which they were inserted. Inserting a branch records the edges of the control-flow graph;
they are not looked at again if the branch later gets another operation.

## Main definitions

* `Block`, `Func`: a block, a function.
* `Func.addBlock`, `Func.addInstr`, `Func.setOperation`, `Func.insert`: the steps that build a
  function.
* `Func.users`: the instructions that read each value.
-/

namespace Codegen

/-- A block of a function; its number is its position in the function's table. -/
structure Block where
  /-- The name given to the block, perhaps empty. -/
  name : String
  /-- The instructions in order. -/
  instrs : List InstrId := []
  /-- The blocks that branch here, each once, in the order in which the branches were inserted. -/
  preds : List BlockId := []
  /-- The blocks to which this one branches, each once, in the same order. -/
  succs : List BlockId := []
deriving DecidableEq, Repr

namespace Block

/-- The name of the block with a number: the name given to it, or one made from the number. -/
def label (b : Block) (id : BlockId) : String :=
  if b.name = "" then s!"blk{id}" else b.name

/-- The name of the block and its predecessors. -/
def text (b : Block) (id : BlockId) : String :=
  b.label id ++ " <-- [" ++ " ".intercalate (b.preds.map fun p => toString p) ++ "]"

end Block

/-- A function. Without blocks it is a declaration. -/
structure Func where
  /-- The position of the function in its module. -/
  index : Nat
  /-- The name, which need not be unique. -/
  name : String
  /-- The function type. -/
  sig : TypeId
  /-- The arguments in order. -/
  params : List ValueId := []
  /-- The values; the first one is absent. -/
  values : Array Value := #[.absent]
  /-- The instructions in the order in which they were allocated. -/
  instrs : Array Instr := #[]
  /-- The blocks in layout order. -/
  blocks : Array Block := #[]
deriving DecidableEq, Repr

namespace Func

/-! ### Looking up -/

/-- The block with a number. -/
def block (f : Func) (b : BlockId) : Except Fault Block :=
  match f.blocks[b]? with
  | some blk => .ok blk
  | none => .error (.noSuchBlock b)

/-- The instruction with a number. -/
def instr (f : Func) (i : InstrId) : Except Fault Instr :=
  match f.instrs[i]? with
  | some ins => .ok ins
  | none => .error (.noSuchInstr i)

/-- The value with a number. -/
def value (f : Func) (v : ValueId) : Except Fault Value :=
  match f.values[v]? with
  | some x => .ok x
  | none => .error (.noSuchValue v)

/-- The argument at a position. -/
def param (f : Func) (n : Nat) : Except Fault ValueId :=
  match f.params[n]? with
  | some v => .ok v
  | none => .error .outOfRange

/-- Whether the function has no body. -/
def isDeclaration (f : Func) : Bool := f.blocks.isEmpty

/-- The numbers of the blocks in layout order. -/
def blockIds (f : Func) : List BlockId := List.range f.blocks.size

/-- The blocks with their numbers, in layout order. -/
def layout (f : Func) : List (BlockId × Block) := f.blockIds.zip f.blocks.toList

/-- The name of a block. -/
def blockName (f : Func) (b : BlockId) : Except Fault String := do
  return (← f.block b).label b

/-- The type of a value. -/
def valueType (f : Func) (v : ValueId) : Except Fault TypeId := do
  match ← f.value v with
  | .absent => return TypeId.invalid
  | .result i => return (← f.instr i).type
  | .const _ t => return t
  | .arg _ t => return t

/-- The instruction that produces a value; `none` if no instruction does. -/
def definingInstr (f : Func) (v : ValueId) : Except Fault (Option InstrId) := do
  return (← f.value v).instr?

/-- The instructions of all blocks, in layout order. -/
def inserted (f : Func) : List InstrId := f.blocks.toList.flatMap (·.instrs)

/-- The element of a list that stands before `x`. -/
def before (x : Nat) : List Nat → Option Nat
  | a :: b :: rest => if b = x then some a else before x (b :: rest)
  | _ => none

/-- The element of a list that stands after `x`. -/
def after (x : Nat) : List Nat → Option Nat
  | a :: b :: rest => if a = x then some b else after x (b :: rest)
  | _ => none

/-- The instructions of the block that holds an instruction; none if it is not inserted. -/
def siblings (f : Func) (i : InstrId) : List InstrId :=
  match f.instrs[i]? with
  | none => []
  | some ins => match ins.block with
    | none => []
    | some b => match f.blocks[b]? with
      | none => []
      | some blk => blk.instrs

/-- The instruction before an instruction in its block. -/
def prevInstr (f : Func) (i : InstrId) : Option InstrId := before i (f.siblings i)

/-- The instruction after an instruction in its block. -/
def nextInstr (f : Func) (i : InstrId) : Option InstrId := after i (f.siblings i)

/-- The block laid out before a block. -/
def prevBlock (f : Func) (b : BlockId) : Option BlockId := before b f.blockIds

/-- The block laid out after a block. -/
def nextBlock (f : Func) (b : BlockId) : Option BlockId := after b f.blockIds

/-! ### Building -/

/-- Adds a block at the end of the layout. -/
def addBlock (f : Func) (name : String) : BlockId × Func :=
  (f.blocks.size, { f with blocks := f.blocks.push { name } })

/-- Adds a value. -/
def addValue (f : Func) (v : Value) : ValueId × Func :=
  (f.values.size, { f with values := f.values.push v })

/-- Adds a blank instruction together with the value of its result. -/
def addInstr (f : Func) : InstrId × Func :=
  (f.instrs.size,
    { f with
      instrs := f.instrs.push { result := f.values.size }
      values := f.values.push (.result f.instrs.size) })

/-- Changes one instruction; nothing happens if there is no such instruction. -/
def updateInstr (f : Func) (i : InstrId) (g : Instr → Instr) : Func :=
  match f.instrs[i]? with
  | some ins => { f with instrs := f.instrs.setIfInBounds i (g ins) }
  | none => f

/-- Changes one block; nothing happens if there is no such block. -/
def updateBlock (f : Func) (b : BlockId) (g : Block → Block) : Func :=
  match f.blocks[b]? with
  | some blk => { f with blocks := f.blocks.setIfInBounds b (g blk) }
  | none => f

/-- Gives an instruction its operation, in place of any that it had. -/
def setOperation (f : Func) (i : InstrId) (op : Operation) : Except Fault Func := do
  let _ ← f.instr i
  return f.updateInstr i ({ · with op := some op })

/-- Puts an instruction at the end of a block. -/
def attach (f : Func) (b : BlockId) (i : InstrId) : Func :=
  (f.updateInstr i ({ · with block := some b })).updateBlock b
    fun blk => { blk with instrs := blk.instrs ++ [i] }

/-- Adds an element at the end of a list that does not hold it yet. -/
def addOnce (x : Nat) (xs : List Nat) : List Nat :=
  if x ∈ xs then xs else xs ++ [x]

/-- Records that control can go from a block to another. The successor is recorded before the
target is looked up, so it stays even if there is no such block. -/
def link (b target : BlockId) : EStateM Fault Func Unit := do
  modify (·.updateBlock b fun blk => { blk with succs := addOnce target blk.succs })
  let f ← get
  if target < f.blocks.size then
    set (f.updateBlock target fun blk => { blk with preds := addOnce b blk.preds })
  else
    throw (.noSuchBlock target)

/-- Inserts an instruction at the end of a block and records the edges of a branch. The
instruction stays inserted if a target of the branch does not exist. -/
def insert (b : BlockId) (i : InstrId) : EStateM Fault Func Unit := do
  let f ← get
  match f.block b, f.instr i with
  | .error e, _ => throw e
  | _, .error e => throw e
  | .ok _, .ok ins =>
    match ins.op with
    | none => throw .insertBlank
    | some op =>
      if ins.block.isSome then throw (.insertTwice i)
      set (f.attach b i)
      op.successors.forM (link b)

/-! ### Uses -/

/-- Records that an instruction reads a value. -/
def recordUse (i : InstrId) (users : Array (List InstrId)) (v : ValueId) :
    Except Fault (Array (List InstrId)) :=
  match users[v]? with
  | some us => .ok (users.setIfInBounds v (us ++ [i]))
  | none => .error .outOfRange

/-- Records the values that an instruction reads. -/
def recordUses (f : Func) (users : Array (List InstrId)) (i : InstrId) :
    Except Fault (Array (List InstrId)) := do
  (← (← f.instr i).args).foldlM (recordUse i) users

/-- For each value the inserted instructions that read it, in layout order, once per operand. -/
def users (f : Func) : Except Fault (Array (List InstrId)) :=
  f.inserted.foldlM f.recordUses (Array.replicate f.values.size [])

end Func

end Codegen
