import Codegen.Graph.Conversion

/-!
# Conversion by recipes

A recipe lists the nodes for one instruction. Instructions without a recipe are converted by a
general rule, which makes one operation with the name of the instruction.

## Main definitions

* `Recipe`: the nodes for one instruction.
* `Recipe.converter`: the converter that follows recipes.
-/

namespace Codegen

/-- A node in a recipe: one of the graph, or one that the recipe has made. -/
inductive Recipe.Ref where
  | node (n : NodeRef)
  | made (k : Nat)
deriving DecidableEq, Repr

/-- A step of a recipe, which makes one node. -/
inductive Recipe.Step where
  | inst (name : String) (args : List Recipe.Ref)
  | imm (value : Int64) (bits : Int)
  | vreg (reg : Reg)
  | slot (slot : SlotId)
  | block (b : BlockId)
  | operand (v : ValueId)
  | leaf (v : ValueId)
deriving DecidableEq, Repr

/-- What to do with an instruction. -/
inductive Recipe where
  /-- The instruction cannot be converted. -/
  | fail (reason : String)
  /-- Makes nodes, some of which are the value and the chain. -/
  | steps (nodes : List Recipe.Step) (value : Recipe.Ref) (chain : List Recipe.Ref)
deriving DecidableEq, Repr

namespace Recipe

/-- A conversion to operations that are nothing but names. -/
abbrev Make := Conversion String

/-- The node that a reference stands for, given the nodes made so far. -/
def Ref.find (nodes : List NodeRef) : Ref → Except Stop NodeRef
  | .node n => .ok n
  | .made k =>
    match nodes[k]? with
    | some n => .ok n
    | none => .error (.fault .outOfRange)

/-- The nodes that references stand for. -/
def findAll (made : List NodeRef) (refs : List Ref) : Except Stop (List NodeRef) :=
  refs.mapM (Ref.find made)

/-- Makes the node of a step. -/
def Step.make (made : List NodeRef) : Step → Make NodeRef
  | inst name args => do return some (← Conversion.makeInst name (← findAll made args))
  | imm v bits => some <$> Conversion.makeImm v bits
  | vreg r => some <$> Conversion.makeVReg r
  | slot s => some <$> Conversion.makeSlot s
  | block b => some <$> Conversion.makeBlock b
  | operand v => Conversion.makeOperand v
  | leaf v => some <$> Conversion.makeLeaf v

/-- Makes the nodes of all steps. -/
def makeAll : List Step → List NodeRef → Make (List NodeRef)
  | [], made => return made
  | s :: ss, made => do makeAll ss (made ++ [← s.make made])

/-- Follows a recipe. -/
def follow (src : Source) (i : InstrId) : Recipe → Make Conversion.Result
  | fail reason => throw (src.unsupported i (.custom reason))
  | steps nodes value chain => do
    let made ← makeAll nodes []
    let value ← value.find made
    return ⟨value, ← findAll made chain⟩

/-- The node for an operand in the general rule: what comes into a phi is a leaf. -/
def defaultOperand (isPhi : Bool) (v : ValueId) : Make NodeRef :=
  if isPhi then some <$> Conversion.makeLeaf v else Conversion.makeOperand v

/-- The general rule: an operation on the operands and the targets. Reserving a piece of the stack
makes no node. -/
def default (src : Source) (i : InstrId) : Make Conversion.Result := do
  let ins ← (src.func.instr i : Except Stop Instr)
  match ins.op with
  | some (.alloca _ _ _ _) => return {}
  | some op =>
    let args ← op.args.mapM (defaultOperand op.isPhi)
    let targets ← op.targets.mapM Conversion.makeBlock
    let n ← Conversion.makeInst op.opcode.name (args ++ targets.map some)
    if op.hasEffects then return .chained n
    return .unchained n
  | none => throw (.fault (.noSuchOpcode 0))

/-- The converter that follows a recipe where there is one. -/
def converter (recipes : List (InstrId × Recipe)) : Converter String := fun src _ i =>
  match recipes.lookup i with
  | some recipe => recipe.follow src i
  | none => default src i

end Recipe

end Codegen
