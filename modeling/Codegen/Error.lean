import Codegen.Instr

/-!
# Errors

An error says why a well-formed request cannot be met. Its cause is a value of an inductive type;
the words stand in one place, in the `message` functions below. An error that passes through a
block or a function on its way out carries their names in front.

## Main definitions

* `Obstacle`: why an instruction cannot be lowered.
* `Flaw`: why a function is malformed.
* `GraphFlaw`: why a graph is malformed.
* `Construct`, `ImportProblem`: why a function cannot be imported.
* `Error`: a cause together with the places that it passed through.
* `Stop`: an error or a fault.
-/

namespace Codegen

/-- Why an instruction cannot be lowered. Values, types and blocks are given by their text. -/
inductive Obstacle where
  | noLoweringRule
  | noConversionRule
  | stackAddress (value : String)
  | constantRegister (value : String)
  | wideConstant (value : String)
  | notSlot (value : String)
  | notInt32 (type : String)
  | phiType (type : String)
  | incomingCount (values preds : Nat)
  | incomingFrom (count : Nat) (block : String)
  | operation (op : BinaryOp)
  | predicate (p : Predicate)
  | conditionUse (user : String)
  | conditionNotIcmp (value : String)
  | conditionElsewhere (value : String)
  | returnsNothing
  | custom (text : String)
deriving DecidableEq, Repr

/-- The words for an obstacle. -/
def Obstacle.message : Obstacle → String
  | noLoweringRule => "no lowering rule"
  | noConversionRule => "no conversion rule"
  | stackAddress v => s!"address of stack slot {v} as a register"
  | constantRegister v => s!"constant {v} where a register is required"
  | wideConstant v => s!"constant {v} does not fit in 32 bits"
  | notSlot v => s!"address {v} is not a stack slot"
  | notInt32 t => s!"type {t} is not i32"
  | phiType t => s!"phi of type {t}"
  | incomingCount values preds => s!"{values} incoming values for {preds} predecessors"
  | incomingFrom count block => s!"{count} incoming values from {block}"
  | operation op => "operation " ++ op.name
  | predicate p => "predicate " ++ p.name
  | conditionUse user => s!"result used as a value by {user}"
  | conditionNotIcmp v => s!"condition {v} is not an icmp"
  | conditionElsewhere v => s!"condition {v} is defined in another block"
  | returnsNothing => "ret without a value"
  | custom text => text

/-- Why a function is malformed. Values and blocks are given by their text. -/
inductive Flaw where
  | emptyBlock
  | earlyTerminator
  | latePhi
  | noTerminator
  | incomingCount (values preds : Nat)
  | incomingTwice (block : String)
  | notPredecessor (block : String)
  | unavailable (value block : String)
  | notInserted (value : String)
  | usedBeforeDefined (value : String)
  | notDominated (value : String)
deriving DecidableEq, Repr

/-- The words for a flaw. -/
def Flaw.message : Flaw → String
  | emptyBlock => "empty block"
  | earlyTerminator => "terminator in the middle of block"
  | latePhi => "phi after non-phi instruction"
  | noTerminator => "block does not end with a terminator"
  | incomingCount values preds => s!"phi has {values} incoming values for {preds} predecessors"
  | incomingTwice block => s!"more than one incoming value from {block}"
  | notPredecessor block => s!"{block} is not a predecessor"
  | unavailable v block => s!"incoming {v} is not available in {block}"
  | notInserted v => s!"operand {v} is not inserted"
  | usedBeforeDefined v => s!"operand {v} is used before defined"
  | notDominated v => s!"definition of {v} does not dominate the use"

/-- Why a graph is malformed. Nodes are given by their text. -/
inductive GraphFlaw where
  | unknownBlock (node : String) (block : Nat)
  | strayRoot (node block : String)
  | unknownArg (node arg : String)
  | foreignArg (node arg : String)
  | rootArg (node arg : String)
  | rootCount (block : String) (count : Nat)
  | unordered (instr : InstrId) (opcode : String)
  | unchained (instr : InstrId) (opcode : String)
  | needless (instr : InstrId)
  | chainUnknown (node : String)
  | chainForeign (node : String)
  | chainKind (node kind : String)
  | chainTwice (node : String)
  | chainOrder (node : String)
  | chainMissing (node : String)
deriving DecidableEq, Repr

/-- The words for a flaw of a graph. -/
def GraphFlaw.message : GraphFlaw → String
  | unknownBlock n b => s!"node {n}: unknown block {b}"
  | strayRoot n b => s!"node {n}: stray root of block {b}"
  | unknownArg n a => s!"node {n}: unknown arg {a}"
  | foreignArg n a => s!"node {n}: arg {a} belongs to another block"
  | rootArg n _ => s!"node {n}: root used as arg"
  | rootCount b count => s!"block {b}: {count} roots"
  | unordered i op => s!"instruction {i} ({op}) is not chained in program order"
  | unchained i op => s!"instruction {i} ({op}) chains no node"
  | needless i => s!"instruction {i} is chained without side effects"
  | chainUnknown n => s!"chain: unknown node {n}"
  | chainForeign n => s!"chain: node {n} belongs to another block"
  | chainKind n kind => s!"chain: node {n} is {kind}"
  | chainTwice n => s!"chain: node {n} visited twice"
  | chainOrder n => s!"chain: node {n} is out of program order"
  | chainMissing n => s!"chain: node {n} is missing"

/-- A construct of LLVM IR that has no counterpart here. Types, constants and kinds are given by
their text. -/
inductive Construct where
  | type (text : String)
  | constant (text : String)
  | instruction (kind : String)
  | predicate (number : Nat)
  | branchTarget (kind : String)
  | dynamicAlloca
  | indirectCall
deriving DecidableEq, Repr

/-- The words for a construct. -/
def Construct.message : Construct → String
  | type text => s!"type {text}"
  | constant text => s!"constant {text}"
  | instruction kind => s!"instruction *ir.{kind}"
  | predicate number => s!"icmp predicate IPred({number})"
  | branchTarget kind => s!"branch target *ir.{kind}"
  | dynamicAlloca => "alloca of dynamic size"
  | indirectCall => "indirect call"

/-- Why a function cannot be imported. -/
inductive ImportProblem where
  | unsupported (construct : Construct)
  | undefinedValue (name : String)
  | foreignBlock (block func : String)
  | noTerminator (block : String)
deriving DecidableEq, Repr

/-- The words for a problem of the import. -/
def ImportProblem.message : ImportProblem → String
  | unsupported construct => construct.message ++ ": unsupported LLVM IR construct"
  | undefinedValue name => s!"undefined value {name}"
  | foreignBlock block func => s!"block {block} is not in function {func}"
  | noTerminator block => s!"block {block} has no terminator"

/-- Why a request cannot be met. -/
inductive Cause where
  /-- An instruction cannot be lowered. -/
  | unsupported (func : String) (instr : InstrId) (opcode : String) (obstacle : Obstacle)
  /-- A function is malformed. -/
  | malformed (func block : String) (instr : Option InstrId) (flaw : Flaw)
  /-- A register was asked of something that has none. -/
  | noResult (subject : String)
  /-- A stack slot was asked of an instruction that reserves none. -/
  | notAlloca (instr : InstrId) (opcode : String)
  /-- The instruction is not part of the function. -/
  | notInserted (instr : InstrId) (func : String)
  /-- More machine instructions than allowed. -/
  | instructionLimit (count limit : Nat)
  /-- More nodes than allowed. -/
  | nodeLimit (count : Nat)
  /-- Operands that depend on each other in a circle. -/
  | cycle (subject : String)
  /-- An instruction with effects has to chain nodes, and any other must not. -/
  | chainCount (instr : InstrId) (opcode : String) (count : Nat)
  /-- Only instruction nodes of the same block are chained. -/
  | chainedKind (instr : InstrId) (kind node : String)
  /-- A node is chained at most once. -/
  | chainedTwice (instr : InstrId) (node : String)
  /-- A graph is malformed. -/
  | graph (flaw : GraphFlaw)
  /-- A function cannot be imported. -/
  | importing (problem : ImportProblem)
  /-- The work was cancelled. -/
  | canceled
deriving DecidableEq, Repr

/-- The words for a cause. -/
def Cause.message : Cause → String
  | unsupported func i op obstacle =>
    s!"unsupported {op} (instruction {i}) in {func}: " ++ obstacle.message
  | malformed func block none flaw => s!"verify {func}: block {block}: " ++ flaw.message
  | malformed func block (some i) flaw =>
    s!"verify {func}: block {block}: instruction {i}: " ++ flaw.message
  | noResult subject => s!"{subject}: value has no result register"
  | notAlloca i op => s!"instruction {i} is {op}, not Alloca"
  | notInserted i func => s!"instruction {i} is not inserted into {func}"
  | instructionLimit count limit => s!"{count} > {limit}: machine instruction limit exceeded"
  | nodeLimit count => s!"{count} nodes: node limit exceeded"
  | cycle subject => s!"{subject}: cyclic operand dependency"
  | chainCount i op count => s!"instruction {i} ({op}) chained {count} nodes"
  | chainedKind i kind n => s!"instruction {i} chained {kind} node {n}"
  | chainedTwice i n => s!"instruction {i} chained node {n} twice"
  | graph flaw => flaw.message
  | importing problem => problem.message
  | canceled => "context canceled"

/-- A place that an error passes through on its way out. -/
inductive Place where
  /-- A block that was being lowered or imported. -/
  | block (name : String)
  /-- A function that was being lowered. -/
  | lowered (name : String)
  /-- A function that was being imported. -/
  | imported (name : String)
deriving DecidableEq, Repr

/-- The words for a place. -/
def Place.message : Place → String
  | block name => s!"block {name}"
  | lowered name => s!"func {name}"
  | imported name => s!"function {name}"

/-- A cause together with the places that the error passed through, outermost first. -/
structure Error where
  /-- What went wrong. -/
  cause : Cause
  /-- Where, outermost first. -/
  places : List Place := []
deriving DecidableEq, Repr

namespace Error

/-- The whole text of an error. -/
def message (e : Error) : String :=
  String.join (e.places.map (·.message ++ ": ")) ++ e.cause.message

/-- The error after it has passed through one more place. -/
def within (place : Place) (e : Error) : Error := { e with places := place :: e.places }

end Error

/-- Why an operation gave no answer: an error of the request, or a fault of the caller. -/
inductive Stop where
  | error (e : Error)
  | fault (f : Fault)
deriving DecidableEq, Repr

namespace Stop

/-- The error with a cause, at no place yet. -/
def ofCause (c : Cause) : Stop := .error { cause := c }

/-- The error after it has passed through a place. A fault stays what it is. -/
def within (place : Place) : Stop → Stop
  | error e => error (e.within place)
  | fault f => fault f

end Stop

/-- Runs an operation at a place: its errors pass through the place. -/
def atPlace {σ α : Type} (place : Place) (x : EStateM Stop σ α) : EStateM Stop σ α := fun s =>
  match x s with
  | .ok a s => .ok a s
  | .error e s => .error (e.within place) s

/-- A fault inside an operation that can also meet errors. -/
instance : MonadLift (Except Fault) (Except Stop) where
  monadLift
    | .ok a => .ok a
    | .error f => .error (.fault f)

/-- A question inside an operation with a state; the state stays as it is. -/
instance {σ : Type} : MonadLift (Except Stop) (EStateM Stop σ) where
  monadLift
    | .ok a => fun s => .ok a s
    | .error e => fun s => .error e s

end Codegen
