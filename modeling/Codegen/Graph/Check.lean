import Codegen.Func
import Codegen.Graph

/-!
# Checking graphs

A graph is sound if every block has exactly one root, the chain of every block passes through
exactly the nodes that the instructions with effects chained, in program order, and the data edges
stay inside the block without a cycle. The check reports the first violation.

## Main definitions

* `Graph.check`: the check of a graph against the function that it was built from.
-/

namespace Codegen.Graph

variable {ω : Type} (g : Graph ω)

/-- The error for a flaw of a graph. -/
def flawed (flaw : GraphFlaw) : Stop := .ofCause (.graph flaw)

/-! ### Nodes -/

/-- An operand has to be a node of the same block, and no root. -/
def checkArg (id : NodeId) (b : BlockId) (arg : NodeRef) : Except Stop Unit :=
  match arg.bind (g.nodes[·]?) with
  | none => .error (flawed (.unknownArg (NodeRef.text (some id)) arg.text))
  | some a =>
    if a.block ≠ b then .error (flawed (.foreignArg (NodeRef.text (some id)) arg.text))
    else if a.kind = .root then .error (flawed (.rootArg (NodeRef.text (some id)) arg.text))
    else .ok ()

/-- A node has to belong to a block; a root has to be the root of that block. -/
def checkNode (n : NodeId × Node ω) : Except Stop Unit := do
  match g.blocks[n.2.block]? with
  | none => throw (flawed (.unknownBlock (NodeRef.text (some n.1)) n.2.block))
  | some blk =>
    if n.2.kind = .root ∧ blk.root ≠ some n.1 then
      throw (flawed (.strayRoot (NodeRef.text (some n.1)) blk.name))
    n.2.args.forM (g.checkArg n.1 n.2.block)

/-- The number of roots that belong to a block. -/
def rootCount (b : BlockId) : Nat :=
  g.nodes.toList.countP fun n => n.kind == .root && n.block == b

/-! ### Chains -/

/-- The instructions with effects have to be the ones that put nodes on the chain, in the same
order. -/
def checkEffects (f : Func) : List InstrId → List Effect → Except Stop Unit
  | [], [] => .ok ()
  | [], e :: _ => .error (flawed (.needless e.instr))
  | i :: is, effects => do
    let ins ← f.instr i
    if !ins.hasEffects then checkEffects f is effects
    else
      match effects with
      | [] => throw (flawed (.unordered i ins.opcodeText))
      | e :: effects =>
        if e.instr ≠ i then throw (flawed (.unordered i ins.opcodeText))
        if e.nodes.isEmpty then throw (flawed (.unchained i ins.opcodeText))
        checkEffects f is effects

/-- Follows the chain of a block from a reference on. The nodes that have to come are `want`, and
the ones before are `seen`. -/
def checkChainFrom (b : BlockId) (seen : List NodeId) : List NodeId → NodeRef → Except Stop Unit
  | [], none => .ok ()
  | w :: _, none => .error (flawed (.chainMissing (NodeRef.text (some w))))
  | want, some n =>
    match g.nodes[n]? with
    | none => .error (flawed (.chainUnknown (NodeRef.text (some n))))
    | some node =>
      if node.block ≠ b then .error (flawed (.chainForeign (NodeRef.text (some n))))
      else if node.kind ≠ .inst then
        .error (flawed (.chainKind (NodeRef.text (some n)) node.kind.name))
      else if n ∈ seen then .error (flawed (.chainTwice (NodeRef.text (some n))))
      else match want with
        | [] => .error (flawed (.chainOrder (NodeRef.text (some n))))
        | w :: ws =>
          if w ≠ n then .error (flawed (.chainOrder (NodeRef.text (some n))))
          else checkChainFrom b (n :: seen) ws node.chain

/-- Checks the chain of a block. -/
def checkChain (f : Func) (b : BlockId) (blk : Graph.Block) : Except Stop Unit := do
  checkEffects f (← f.block b).instrs blk.effects
  let root ← g.node blk.root
  g.checkChainFrom b [] (blk.effects.flatMap (·.nodes)) root.chain

/-- A block has to have one root and a sound chain. -/
def checkBlock (f : Func) (b : BlockId × Graph.Block) : Except Stop Unit := do
  if g.rootCount b.1 ≠ 1 then throw (flawed (.rootCount b.2.name (g.rootCount b.1)))
  match g.checkChain f b.1 b.2 with
  | .ok _ => return
  | .error e => throw (e.within (.block b.2.name))

/-! ### Cycles -/

/-- How far the search for cycles is with a node. -/
inductive Colour where
  | white
  | grey
  | black
deriving DecidableEq, Repr

/-- A search for cycles: the colour of each node, and the nodes on the way to the one that is
looked at, each with the operands that are left. -/
structure Search where
  /-- The colour of each node. -/
  colours : Array Colour
  /-- The way, last node first. -/
  stack : List (NodeId × List NodeRef)
deriving DecidableEq, Repr

namespace Search

/-- Starts to look at a node. -/
def enter (s : Search) (n : NodeId) : Search :=
  let args := match g.nodes[n]? with
    | some node => node.args
    | none => []
  ⟨s.colours.setIfInBounds n .grey, (n, args) :: s.stack⟩

/-- Looks at one more edge, or leaves the node that has none left. An operand on the way closes a
cycle. -/
def step (s : Search) : Except Stop Search :=
  match s.stack with
  | [] => .ok s
  | (n, []) :: rest => .ok ⟨s.colours.setIfInBounds n .black, rest⟩
  | (n, arg :: args) :: rest =>
    let s : Search := ⟨s.colours, (n, args) :: rest⟩
    match arg with
    | none => .error (.fault .outOfRange)
    | some a =>
      match s.colours[a]? with
      | none => .error (.fault .outOfRange)
      | some .grey => .error (.ofCause (.cycle ("node " ++ arg.text)))
      | some .white => .ok (s.enter g a)
      | some .black => .ok s

/-- Makes a number of steps. -/
def run : Nat → Search → Except Stop Search
  | 0, s => .ok s
  | fuel + 1, s => do run fuel (← s.step g)

end Search

/-- The number of steps that look at every edge and leave every node. -/
def searchSteps : Nat := g.nodes.size + (g.nodes.toList.flatMap (·.args)).length

/-- Searches everything below a node that was not looked at yet. -/
def searchFrom (colours : Array Colour) (n : NodeId) : Except Stop (Array Colour) :=
  if colours[n]? = some .white then do
    let s ← ((⟨colours, []⟩ : Search).enter g n).run g g.searchSteps
    return s.colours
  else .ok colours

/-- The data edges must not form a cycle. -/
def checkAcyclic : Except Stop Unit := do
  let _ ← (List.range g.nodes.size).foldlM g.searchFrom
    (Array.replicate g.nodes.size Colour.white)

/-- Checks a graph against the function that it was built from. -/
def check (f : Func) : Except Stop Unit := do
  g.numberedNodes.forM g.checkNode
  g.layout.forM (g.checkBlock f)
  g.checkAcyclic

end Codegen.Graph
