import Codegen.X86.Select

/-!
# Lowering a function

A compiler lowers one function after the other, block by block in layout order. It keeps its
context and its buffer of instructions between functions. The buffer is emptied after every
function, whether it was lowered or not.

## Main definitions

* `X86.Lowered`: a lowered function; `X86.Lowered.text` is its text.
* `X86.Compiler`: a compiler.
* `X86.Compiler.lowerInstr`, `X86.Compiler.lowerBlock`, `X86.Compiler.compile`: lowering.
* `X86.Compiler.trial`: lowering blocks in any order, going on after errors.
-/

namespace Codegen.X86

/-- The part of the instructions that was lowered from one block. -/
structure BlockRange where
  /-- The label of the block. -/
  label : Label
  /-- The name of the block. -/
  name : String
  /-- The position of the first instruction. -/
  start : Nat
  /-- The position after the last instruction. -/
  stop : Nat
deriving DecidableEq, Repr

/-- A lowered function. -/
structure Lowered where
  /-- The name of the function. -/
  name : String
  /-- The instructions in layout order. -/
  instrs : Array Instr
  /-- The blocks in layout order. -/
  blocks : List BlockRange
  /-- The virtual registers. -/
  regs : RegTable
  /-- The stack slots. -/
  slots : SlotTable
  /-- The label of each block. -/
  labels : Array Label
deriving DecidableEq, Repr

namespace Lowered

/-- The text of a block of a lowered function. -/
def blockText (f : Lowered) (b : BlockRange) : String :=
  let lines := (f.instrs.toList.drop b.start).take (b.stop - b.start)
  "\n" ++ Label.text b.label ++ " (SSA Block: " ++ b.name ++ "):\n" ++
    String.join (lines.map fun i => "\t" ++ i.text ++ "\n")

/-- The text of a lowered function. -/
def text (f : Lowered) : String := String.join (f.blocks.map f.blockText)

end Lowered

/-- A compiler, with what it keeps from one function to the next. -/
structure Compiler where
  /-- The context of the last function. -/
  context : Context := {}
  /-- The instructions of the function that is being lowered. -/
  emitted : Array Instr := #[]
  /-- The greatest number of instructions of a function; zero if there is none. -/
  limit : Nat := 0
deriving DecidableEq, Repr

namespace Compiler

/-- Empties the buffer of instructions. -/
def reset (s : Compiler) : Compiler := { s with emitted := #[] }

/-- Sets the compiler up for a function. -/
def start (src : Source) : EStateM Stop Compiler Unit := fun s =>
  match (Context.init src.func).run s.context with
  | .ok _ c => .ok () { s with context := c, emitted := #[] }
  | .error e c => .error (.fault e) { s with context := c }

/-- Lowers one instruction. If that fails, the buffer stays as it was. -/
def lowerInstr (src : Source) (i : InstrId) : EStateM Stop Compiler Unit := fun s =>
  match (select src i).run s.context with
  | .ok instrs c => .ok () { s with context := c, emitted := s.emitted ++ instrs }
  | .error e c => .error e { s with context := c }

/-- Stops if there are more instructions than allowed. -/
def checkLimit : EStateM Stop Compiler Unit := do
  let s ← get
  if 0 < s.limit ∧ s.limit < s.emitted.size then
    throw (.ofCause (.instructionLimit s.emitted.size s.limit))

/-- Lowers the instructions of a block, looking at the limit after each. -/
def lowerInstrs (src : Source) : List InstrId → EStateM Stop Compiler Unit
  | [] => return
  | i :: is => do
    lowerInstr src i
    checkLimit
    lowerInstrs src is

/-- Lowers a block. -/
def lowerBlock (src : Source) (b : BlockId × Block) : EStateM Stop Compiler BlockRange := do
  let start := (← get).emitted.size
  let name := b.2.label b.1
  atPlace (.block name) (lowerInstrs src b.2.instrs)
  let s ← get
  return ⟨← s.context.label b.1, name, start, s.emitted.size⟩

/-- Lowers all blocks of a function. -/
def lowerFunc (src : Source) : EStateM Stop Compiler Lowered := do
  start src
  let blocks ← src.func.layout.mapM (lowerBlock src)
  let s ← get
  return {
    name := src.func.name
    instrs := s.emitted
    blocks
    regs := s.context.regs
    slots := s.context.slots
    labels := s.context.labels }

/-- Lowers a function and empties the buffer. -/
def compile (src : Source) : EStateM Stop Compiler Lowered := fun s =>
  match (lowerFunc src).run s with
  | .ok f s => .ok f s.reset
  | .error e s => .error e s.reset

/-! ### Blocks in any order -/

/-- What lowering one instruction gave: an error, or the instructions that it added. -/
inductive Attempt where
  | added (instrs : List Instr)
  | failed (e : Error)
deriving DecidableEq, Repr

/-- Lowers an instruction and goes on after an error. -/
def attempt (src : Source) (i : InstrId) : EStateM Stop Compiler Attempt := fun s =>
  match (lowerInstr src i).run s with
  | .ok _ t => .ok (.added (t.emitted.toList.drop s.emitted.size)) t
  | .error (.error e) t => .ok (.failed e) t
  | .error (.fault f) t => .error (.fault f) t

/-- Lowers the block with a number and goes on after errors. -/
def attemptBlock (src : Source) (b : BlockId) : EStateM Stop Compiler (List Attempt) := do
  let blk ← (src.func.block b : Except Stop Block)
  blk.instrs.mapM (attempt src)

/-- Lowers blocks in a given order and goes on after errors. -/
def trial (src : Source) (blocks : List BlockId) :
    EStateM Stop Compiler (List (List Attempt)) := do
  start src
  blocks.mapM (attemptBlock src)

end Compiler

end Codegen.X86
