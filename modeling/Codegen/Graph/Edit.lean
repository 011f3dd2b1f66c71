import Codegen.Graph

/-!
# Editing graphs

Single changes of a graph. They keep no law of graphs: the check of a graph is tried on what they
leave.

## Main definitions

* `Graph.Edit`: a change.
* `Graph.edit`: the graph after a change.
-/

namespace Codegen.Graph

/-- A single change of a graph. -/
inductive Edit where
  /-- Sets the node that is executed after a node. -/
  | chain (n : NodeRef) (target : NodeRef)
  /-- Adds an operand to a node. -/
  | arg (n : NodeRef) (target : NodeRef)
  /-- Sets the block of a node. -/
  | block (n : NodeRef) (b : BlockId)
  /-- Sets the kind of a node, and nothing else of it. -/
  | kind (n : NodeRef) (kind : NodeKind)
  /-- Sets the root of a block. -/
  | root (b : BlockId) (n : NodeRef)
  /-- Removes what an instruction put on the chain of a block. -/
  | dropEffect (b : BlockId) (i : Nat)
  /-- Removes the nodes that an instruction put on the chain of a block, but not the instruction. -/
  | clearEffect (b : BlockId) (i : Nat)
deriving DecidableEq, Repr

variable {ω : Type} (g : Graph ω)

/-- Changes a node that has to exist. -/
def editNode (n : NodeRef) (change : Node ω → Node ω) : Except Fault (Graph ω) := do
  let _ ← g.node n
  return g.updateNode n.number change

/-- Changes a block that has to exist. -/
def editBlock (b : BlockId) (change : Graph.Block → Graph.Block) : Except Fault (Graph ω) := do
  let _ ← g.block b
  return g.updateBlock b change

/-- Changes the effects of a block, of which the given one has to exist. -/
def editEffects (b : BlockId) (i : Nat) (change : List Effect → List Effect) :
    Except Fault (Graph ω) := do
  if (← g.block b).effects.length ≤ i then throw .outOfRange
  return g.updateBlock b fun blk => { blk with effects := change blk.effects }

/-- The graph after a change. -/
def edit : Edit → Except Fault (Graph ω)
  | .chain n target => g.editNode n ({ · with chain := target })
  | .arg n target => g.editNode n fun node => { node with args := node.args ++ [target] }
  | .block n b => g.editNode n ({ · with block := b })
  | .kind n kind => g.editNode n ({ · with kind })
  | .root b n => g.editBlock b ({ · with root := n })
  | .dropEffect b i => g.editEffects b i (·.eraseIdx i)
  | .clearEffect b i => g.editEffects b i (·.modify i ({ · with nodes := [] }))

end Codegen.Graph
