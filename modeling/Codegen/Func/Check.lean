import Codegen.Error
import Codegen.Func.Dominators
import Codegen.Func.Text

/-!
# Checking a function

A function is well formed if

* every block ends with a terminator and has none before,
* the phis of a block stand at its head and have one incoming value for each predecessor, which is
  available at the end of that predecessor,
* every operand in a reachable block is defined before its use: earlier in the same block, or in
  another block that dominates it.

A declaration is well formed.

## Main definitions

* `Func.checkBlocks`: the shape of the blocks.
* `Func.checkUses`: the operands.
* `Func.check`: both; the first flaw that is met is reported.
-/

namespace Codegen.Func

variable (f : Func) (types : TypeTable)

/-- Reports a flaw of a block or of an instruction in it. -/
def malformed {α : Type} (b : BlockId × Block) (i : Option InstrId) (flaw : Flaw) :
    Except Stop α :=
  .error (.ofCause (.malformed f.name (b.2.label b.1) i flaw))

/-! ### The shape of the blocks -/

/-- Checks the instructions of a block from some point on. The flag says whether all instructions
before were phis. -/
def checkShape (b : BlockId × Block) : Bool → List InstrId → Except Stop Unit
  | _, [] => return
  | phis, i :: rest => do
    let ins ← f.instr i
    if ins.isTerminator && !rest.isEmpty then f.malformed b i .earlyTerminator
    if ins.isPhi && !phis then f.malformed b i .latePhi
    if rest.isEmpty && !ins.isTerminator then f.malformed b i .noTerminator
    checkShape b (phis && ins.isPhi) rest

/-- Checks the shape of a block. -/
def checkBlock (b : BlockId × Block) : Except Stop Unit := do
  if b.2.instrs.isEmpty then f.malformed b none .emptyBlock
  f.checkShape b true b.2.instrs

/-- Checks the shape of all blocks. -/
def checkBlocks : Except Stop Unit := f.layout.forM f.checkBlock

/-! ### The operands -/

/-- Checks that a value is available at the end of a block. -/
def checkIncoming (d : Dominators) (b : BlockId × Block) (i : InstrId)
    (inc : ValueId × BlockId) : Except Stop Unit := do
  match ← f.definingInstr inc.1 with
  | none => return
  | some producer =>
    if d.reachable inc.2 then
      let available := match (← f.instr producer).block with
        | some c => d.dominates c inc.2
        | none => false
      if !available then
        f.malformed b i (.unavailable (← f.valueText types inc.1) (← f.blockName inc.2))

/-- Checks the incoming values of a phi one after the other; `seen` are the blocks of those
before. -/
def checkIncomings (d : Dominators) (b : BlockId × Block) (i : InstrId) :
    List BlockId → List (ValueId × BlockId) → Except Stop Unit
  | _, [] => return
  | seen, inc :: rest => do
    if inc.2 ∈ seen then f.malformed b i (.incomingTwice (← f.blockName inc.2))
    if inc.2 ∉ b.2.preds then f.malformed b i (.notPredecessor (← f.blockName inc.2))
    f.checkIncoming types d b i inc
    checkIncomings d b i (inc.2 :: seen) rest

/-- Checks a phi. -/
def checkPhi (d : Dominators) (b : BlockId × Block) (i : InstrId)
    (incoming : List (ValueId × BlockId)) : Except Stop Unit := do
  if incoming.length ≠ b.2.preds.length then
    f.malformed b i (.incomingCount incoming.length b.2.preds.length)
  f.checkIncomings types d b i [] incoming

/-- Checks that an operand is defined before its use. -/
def checkOperand (d : Dominators) (b : BlockId × Block) (i : InstrId) (v : ValueId) :
    Except Stop Unit := do
  match ← f.definingInstr v with
  | none => return
  | some producer =>
    match (← f.instr producer).block with
    | none => f.malformed b i (.notInserted (← f.valueText types v))
    | some c =>
      if c = b.1 then
        if b.2.instrs.idxOf i ≤ b.2.instrs.idxOf producer then
          f.malformed b i (.usedBeforeDefined (← f.valueText types v))
      else if !d.dominates c b.1 then
        f.malformed b i (.notDominated (← f.valueText types v))

/-- Checks the operands of an instruction. -/
def checkInstr (d : Dominators) (b : BlockId × Block) (i : InstrId) : Except Stop Unit := do
  let ins ← f.instr i
  match ins.op with
  | some (.phi _ incoming) => f.checkPhi types d b i incoming
  | _ => if d.reachable b.1 then (← ins.args).forM (f.checkOperand types d b i)

/-- Checks the operands of all instructions. -/
def checkUses : Except Stop Unit := do
  let d ← f.dominators
  f.layout.forM fun b => b.2.instrs.forM (f.checkInstr types d b)

/-- Checks a function: the shape of all blocks first, then all operands. -/
def check : Except Stop Unit := do
  if f.isDeclaration then return
  f.checkBlocks
  f.checkUses types

end Codegen.Func
