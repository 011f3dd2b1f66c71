import Codegen.Graph.Conversion

/-!
# Building graphs

A builder makes the graph of one function after the other with a converter. In each block it
converts the instructions from the last to the first. An instruction is converted at most once: an
operand that is defined in the same block is converted when it is first asked for, and its node is
remembered. The nodes that an instruction chains are put in front of the chain so far.

## Main definitions

* `Memo`: what is known about the conversion of an instruction.
* `Builder`: a builder, with what it keeps from one function to the next.
* `Builder.convert`: the node for an instruction.
* `Builder.build`: the graph of a function.
-/

namespace Codegen

/-- What is known about the conversion of an instruction. -/
inductive Memo where
  /-- It was not asked for yet. -/
  | unseen
  /-- It has started and not ended. -/
  | inProgress
  /-- It has ended with a result. -/
  | converted (result : Conversion.Result)
deriving DecidableEq, Repr

/-- A builder, with what it keeps from one function to the next. -/
structure Builder (ω : Type) where
  /-- The context of the last function. -/
  context : Context := {}
  /-- For each instruction what is known about its conversion. -/
  memo : Array Memo := #[]
  /-- The graph that is being built. -/
  graph : Graph ω := {}
  /-- The block that is being built. -/
  current : BlockId := 0
  /-- The number of nodes at which no more are made; zero if there is none. -/
  limit : Nat := 0
deriving DecidableEq, Repr

namespace Builder

variable {ω : Type}

/-- An operation of a builder. What it did before it stopped stays done. -/
abbrev Build (ω : Type) := EStateM Stop (Builder ω)

/-! ### Making nodes -/

/-- Adds a node, whatever the limit is. -/
def push (n : Node ω) : Build ω NodeId := do
  let s ← get
  let (id, graph) := s.graph.addNode n
  set { s with graph }
  return id

/-- Stops if there are as many nodes as allowed. -/
def checkLimit : Build ω Unit := do
  let s ← get
  if 0 < s.limit ∧ s.limit ≤ s.graph.nodes.size then throw (.ofCause (.nodeLimit s.limit))

/-- Makes a node of the current block. -/
def make (payload : Payload ω) (args : List NodeRef) : Build ω NodeId := do
  checkLimit
  push (Node.make (← get).current payload args)

/-- Makes a leaf that refers to a block. -/
def makeBlock (b : BlockId) : Build ω NodeId := do
  checkLimit
  let s ← get
  let label ← (s.context.label b : Except Stop Label)
  push (Node.make s.current (.block label b) [])

/-- What the leaf of a value stands for: a slot for an address, a constant, or a register. -/
def leafPayload (src : Source) (c : Context) (v : ValueId) : Except Stop (Payload ω) := do
  match c.slot? v with
  | some s => return .slot s
  | none =>
    let d ← c.definition v
    if d.isConst then return .imm d.payload (← src.types.intBits (← src.func.valueType v))
    return .vreg (← c.valueReg src.types v)

/-- Makes a leaf for a value. -/
def makeLeaf (src : Source) (v : ValueId) : Build ω NodeId := do
  let payload ← leafPayload src (← get).context v
  make payload []

/-- The instruction of a block that has to be converted to produce a value: the one that defines
it, unless the value is the address of a slot or comes from elsewhere. -/
def producer? (src : Source) (c : Context) (b : BlockId) (v : ValueId) :
    Except Stop (Option InstrId) := do
  if (c.slot? v).isSome then return none
  match (← c.definition v).instr with
  | none => return none
  | some i =>
    if (← src.func.instr i).block = some b then return some i
    return none

/-- Runs a conversion. Instructions that it needs are converted by `visit`. -/
def runConversion {α : Type} (src : Source) (visit : InstrId → Build ω NodeRef) :
    Conversion ω α → Build ω α
  | .done a => return a
  | .stop e => throw e
  | .inst op args next => do runConversion src visit (next (← make (.inst op) args))
  | .imm v bits next => do runConversion src visit (next (← make (.imm v bits) []))
  | .vreg r next => do runConversion src visit (next (← make (.vreg r) []))
  | .slot s next => do runConversion src visit (next (← make (.slot s) []))
  | .block b next => do runConversion src visit (next (← makeBlock b))
  | .operand v next => do
    let s ← get
    match ← producer? src s.context s.current v with
    | some i => do runConversion src visit (next (← visit i))
    | none => do runConversion src visit (next (some (← makeLeaf src v)))
  | .leaf v next => do runConversion src visit (next (← makeLeaf src v))

/-! ### Converting instructions -/

/-- What is known about the conversion of an instruction. -/
def memoOf (i : InstrId) : Build ω Memo := do
  match (← get).memo[i]? with
  | some m => return m
  | none => throw (.fault .outOfRange)

/-- Remembers what is known about the conversion of an instruction. -/
def remember (i : InstrId) (m : Memo) : Build ω Unit :=
  modify fun s => { s with memo := s.memo.setIfInBounds i m }

/-- The error for an instruction that needs its own result. -/
def cyclic (src : Source) (i : InstrId) : Stop :=
  let op := src.opcodeText i
  .ofCause (.cycle s!"instruction {i} ({op})")

/-- The node that produces the result of an instruction. The first argument bounds the number of
conversions that are in progress at the same time. -/
def convert (conv : Converter ω) (src : Source) : Nat → InstrId → Build ω NodeRef
  | 0, i => throw (cyclic src i)
  | fuel + 1, i => do
    match ← memoOf i with
    | .converted r => return r.value
    | .inProgress => throw (cyclic src i)
    | .unseen =>
      remember i .inProgress
      let r ← runConversion src (convert conv src fuel) (conv src (← get).context i)
      remember i (.converted r)
      return r.value

/-! ### The chain -/

/-- Puts a node in front of the chain `head` of the current block. -/
def prepend (i : InstrId) (head : NodeRef) (r : NodeRef) : Build ω NodeRef := do
  let s ← get
  let node ← (s.graph.node r : Except Stop (Node ω))
  if node.kind ≠ .inst ∨ node.block ≠ s.current then
    throw (.ofCause (.chainedKind i node.kind.name r.text))
  if node.chain.isSome ∨ r = head then throw (.ofCause (.chainedTwice i r.text))
  set { s with graph := s.graph.updateNode r.number ({ · with chain := head }) }
  return r

/-- The nodes that an instruction chained when it was converted. -/
def chainOf (i : InstrId) : Build ω (List NodeRef) := do
  match ← memoOf i with
  | .converted r => return r.chain
  | _ => return []

/-- The chain of a block from some instruction on: its first node, and what the instructions put on
it. -/
structure Tail where
  /-- The first node. -/
  head : NodeRef := none
  /-- What the instructions put on the chain, in program order. -/
  effects : List Effect := []
deriving DecidableEq, Repr

/-- Converts an instruction and puts what it chains in front. Exactly the instructions with effects
have to chain something. -/
def buildInstr (conv : Converter ω) (src : Source) (tail : Tail) (i : InstrId) :
    Build ω Tail := do
  let _ ← convert conv src (src.func.instrs.size + 1) i
  let chain ← chainOf i
  let ins ← (src.func.instr i : Except Stop Instr)
  if ins.hasEffects ≠ !chain.isEmpty then
    throw (.ofCause (.chainCount i ins.opcodeText chain.length))
  let head ← chain.reverse.foldlM (prepend i) tail.head
  if chain.isEmpty then return { tail with head }
  return ⟨head, ⟨i, chain.map NodeRef.number⟩ :: tail.effects⟩

/-! ### Blocks and functions -/

/-- Builds a block. Its root does not count against the limit. -/
def buildBlock (conv : Converter ω) (src : Source) (b : BlockId) (blk : Block) :
    Build ω Unit := do
  modify ({ · with current := b })
  let root ← push (Node.root b)
  modify fun s => { s with graph := s.graph.updateBlock b ({ · with root := some root }) }
  let tail ← blk.instrs.reverse.foldlM (buildInstr conv src) {}
  modify fun s => { s with
    graph := (s.graph.updateNode root ({ · with chain := tail.head })).updateBlock b
      ({ · with effects := tail.effects }) }

/-- Builds the blocks one after the other. -/
def buildBlocks (conv : Converter ω) (src : Source) : List (BlockId × Block) → Build ω Unit
  | [] => return
  | (b, blk) :: rest => do
    atPlace (.block (blk.label b)) (buildBlock conv src b blk)
    buildBlocks conv src rest

/-- The graph without nodes of a function. Every edge between blocks has to lead to a block of the
function. -/
def emptyGraph (f : Func) (c : Context) : Except Fault (Graph ω) := do
  if f.layout.any fun b => (b.2.preds ++ b.2.succs).any (f.blocks.size ≤ ·) then
    throw .outOfRange
  let blocks := f.layout.map fun (b, blk) =>
    ({ name := blk.label b, preds := blk.preds, succs := blk.succs } : Graph.Block)
  return {
    name := f.name
    regs := c.regs
    slots := c.slots
    labels := c.labels
    blocks := blocks.toArray }

/-- Sets the builder up for a function. -/
def start (src : Source) : Build ω Unit := fun s =>
  match (Context.init src.func).run s.context with
  | .error e c => .error (.fault e) { s with context := c }
  | .ok _ c =>
    match emptyGraph src.func c with
    | .error e => .error (.fault e) { s with context := c }
    | .ok graph => .ok () { s with
        context := c
        graph
        memo := Array.replicate src.func.instrs.size .unseen }

/-- Builds the graph of a function inside the builder. -/
def buildGraph (conv : Converter ω) (src : Source) : Build ω (Graph ω) := do
  start src
  buildBlocks conv src src.func.layout
  return (← get).graph

/-- The graph of a function. The builder keeps its context and what it remembers, and no graph. -/
def build (conv : Converter ω) (src : Source) : Build ω (Graph ω) := fun s =>
  match (buildGraph conv src).run s with
  | .ok g s => .ok g { s with graph := {} }
  | .error e s => .error e { s with graph := {} }

end Builder

end Codegen
