import Codegen.Storage
import Codegen.Error
import Codegen.Func

/-!
# Graphs of machine operations

The graph of a function has a node for every machine operation and a leaf for every constant,
register, slot and block that an operation refers to. Data edges lead from an operation to the
producers of its operands. All data edges stay inside a block. A chain starts at the root of each
block and passes through the nodes with effects in program order.

## Main definitions

* `Node`: a node; its payload says what it stands for.
* `Graph`: the graph of a function, with the registers, slots and labels that its leaves name.
* `Graph.chainOrder`: the nodes on the chain of a block.
* `Graph.text`: the text of a graph.
-/

namespace Codegen

/-! ### Nodes -/

/-- The number of a node in its graph. -/
abbrev NodeId := Nat

/-- A node, or none. -/
abbrev NodeRef := Option NodeId

namespace NodeRef

/-- The number that stands for no node. -/
def blankNumber : Nat := 4294967295

/-- The text of a reference to a node. -/
def text : NodeRef → String
  | some n => s!"n{n}"
  | none => "-"

/-- The number of a reference to a node. -/
def number : NodeRef → Nat
  | some n => n
  | none => blankNumber

/-- The reference with a number. -/
def ofNumber (n : Nat) : NodeRef := if n = blankNumber then none else some n

end NodeRef

/-- The kinds of nodes. -/
inductive NodeKind where
  | invalid
  | root
  | inst
  | imm
  | vreg
  | slot
  | block
deriving DecidableEq, Repr

namespace NodeKind

/-- The name of a kind. -/
def name : NodeKind → String
  | invalid => "invalid"
  | root => "root"
  | inst => "inst"
  | imm => "imm"
  | vreg => "vreg"
  | slot => "slot"
  | block => "block"

/-- The kind with a number. -/
def numbered : Nat → NodeKind
  | 1 => root
  | 2 => inst
  | 3 => imm
  | 4 => vreg
  | 5 => slot
  | 6 => block
  | _ => invalid

end NodeKind

/-- What a node other than a root stands for. The operations of the machine are `ω`. -/
inductive Payload (ω : Type) where
  /-- An operation of the machine. -/
  | inst (op : ω)
  /-- A constant of some bits. -/
  | imm (value : Int64) (bits : Int)
  /-- A value that lives in a register. -/
  | vreg (reg : Reg)
  /-- The address of a stack slot. -/
  | slot (slot : SlotId)
  /-- A block, by its label. -/
  | block (label : Label) (target : BlockId)
deriving DecidableEq, Repr

/-- The kind of the nodes with a payload. -/
def Payload.kind {ω : Type} : Payload ω → NodeKind
  | inst _ => .inst
  | imm _ _ => .imm
  | vreg _ => .vreg
  | slot _ => .slot
  | block _ _ => .block

/-- The operations of a machine, as the text of a graph names them. -/
class MachineOp (ω : Type) where
  /-- The name of an operation. -/
  name : ω → String
  /-- The name in a node that has no operation. -/
  blank : String

/-- A graph can have operations that are nothing but names. -/
instance : MachineOp String where
  name op := op
  blank := ""

/-- A node of a graph. -/
structure Node (ω : Type) where
  /-- The kind. -/
  kind : NodeKind
  /-- The block that owns the node. -/
  block : BlockId
  /-- The node that is executed after this one. -/
  chain : NodeRef := none
  /-- The producers of the operands. -/
  args : List NodeRef := []
  /-- What the node stands for; a root stands for nothing. -/
  payload : Option (Payload ω) := none
deriving DecidableEq, Repr

namespace Node

variable {ω : Type}

/-- The root of a block. -/
def root (b : BlockId) : Node ω := { kind := .root, block := b }

/-- A node with a payload. -/
def make (b : BlockId) (payload : Payload ω) (args : List NodeRef) : Node ω :=
  { kind := payload.kind, block := b, args, payload := some payload }

/-- The name of the operation. -/
def opName [MachineOp ω] (n : Node ω) : String :=
  match n.payload with
  | some (.inst op) => MachineOp.name op
  | _ => MachineOp.blank ω

/-- The constant and its width; zeros if the node was not made as a constant. -/
def imm (n : Node ω) : Int64 × Int :=
  match n.payload with
  | some (.imm v bits) => (v, bits)
  | _ => (0, 0)

/-- The register; the first one if the node was not made for a register. -/
def vreg (n : Node ω) : Reg :=
  match n.payload with
  | some (.vreg r) => r
  | _ => Reg.virtual 0

/-- The slot; the first one if the node was not made for a slot. -/
def slot (n : Node ω) : SlotId :=
  match n.payload with
  | some (.slot s) => s
  | _ => 0

/-- The label and the block; zeros if the node was not made for a block. -/
def label (n : Node ω) : Label × BlockId :=
  match n.payload with
  | some (.block l b) => (l, b)
  | _ => (0, 0)

/-- The text of a node goes by its kind. -/
def text [MachineOp ω] (n : Node ω) : String :=
  match n.kind with
  | .root => "Root"
  | .inst => n.opName ++ " [" ++ String.intercalate " " (n.args.map NodeRef.text) ++ "]"
  | .imm => "i" ++ toString n.imm.2 ++ " " ++ toString n.imm.1.toInt
  | .vreg => n.vreg.text
  | .slot => SlotId.text n.slot
  | .block => Label.text n.label.1
  | .invalid => "invalid"

end Node

/-! ### Graphs -/

/-- The nodes that one instruction put on the chain. -/
structure Effect where
  /-- The instruction. -/
  instr : InstrId
  /-- The nodes in the order in which they are executed. -/
  nodes : List NodeId
deriving DecidableEq, Repr

/-- A block of a graph. It has the number of the block of the function that it is built from. -/
structure Graph.Block where
  /-- The name of the block. -/
  name : String
  /-- The node at which the chain starts. -/
  root : NodeRef := none
  /-- The blocks before, in the order that the function has them. -/
  preds : List BlockId
  /-- The blocks after, in the order that the function has them. -/
  succs : List BlockId
  /-- What the instructions put on the chain, in program order. -/
  effects : List Effect := []
deriving DecidableEq, Repr

/-- The graph of a function. -/
structure Graph (ω : Type) where
  /-- The name of the function. -/
  name : String := ""
  /-- The virtual registers. -/
  regs : RegTable := {}
  /-- The stack slots. -/
  slots : SlotTable := {}
  /-- The label of each block. -/
  labels : Array Label := #[]
  /-- The nodes by their number. -/
  nodes : Array (Node ω) := #[]
  /-- The blocks in layout order. -/
  blocks : Array Graph.Block := #[]
deriving DecidableEq, Repr

namespace Graph

variable {ω : Type} (g : Graph ω)

/-- The node that a reference stands for. -/
def node (r : NodeRef) : Except Fault (Node ω) :=
  match r.bind (g.nodes[·]?) with
  | some n => .ok n
  | none => .error (.noSuchNode r.number)

/-- The block with a number. -/
def block (b : BlockId) : Except Fault Graph.Block :=
  match g.blocks[b]? with
  | some blk => .ok blk
  | none => .error .outOfRange

/-- Adds a node. -/
def addNode (n : Node ω) : NodeId × Graph ω :=
  (g.nodes.size, { g with nodes := g.nodes.push n })

/-- Changes a node, if there is one with the number. -/
def updateNode (n : NodeId) (change : Node ω → Node ω) : Graph ω :=
  { g with nodes := g.nodes.modify n change }

/-- Changes a block, if there is one with the number. -/
def updateBlock (b : BlockId) (change : Graph.Block → Graph.Block) : Graph ω :=
  { g with blocks := g.blocks.modify b change }

/-- The blocks with their numbers, in layout order. -/
def layout : List (BlockId × Graph.Block) := (List.range g.blocks.size).zip g.blocks.toList

/-- The nodes with their numbers. -/
def numberedNodes : List (NodeId × Node ω) := (List.range g.nodes.size).zip g.nodes.toList

/-- Follows the chain from a reference through at most as many nodes as given. -/
def chainFrom : Nat → NodeRef → Except Fault (List NodeId)
  | _, none => .ok []
  | 0, some _ => .error .outOfRange
  | fuel + 1, some n => do
    let node ← g.node (some n)
    return n :: (← chainFrom fuel node.chain)

/-- The nodes on the chain of a block in the order in which they are executed, without the root. A
chain that ends has no node twice, so that it is no longer than the list of all nodes. -/
def chainOrder (b : BlockId) : Except Fault (List NodeId) := do
  let root ← g.node (← g.block b).root
  g.chainFrom g.nodes.size root.chain

/-! ### Text -/

/-- The text of a list of blocks. -/
def blockList (bs : List BlockId) : String :=
  "[" ++ String.intercalate " " (bs.map fun b => toString b) ++ "]"

/-- The lines for the nodes of a block. -/
def nodeLines [MachineOp ω] (b : BlockId) : String :=
  String.join ((g.numberedNodes.filter (·.2.block == b)).map fun n =>
    "\t" ++ NodeRef.text (some n.1) ++ " = " ++ n.2.text ++ "\n")

/-- The text of a block. -/
def blockText [MachineOp ω] (b : BlockId × Graph.Block) : Except Fault String := do
  let label ← match g.labels[b.1]? with
    | some l => pure l
    | none => throw .outOfRange
  let chain ← g.chainOrder b.1
  return "\n" ++ Label.text label ++ " (SSA Block: " ++ b.2.name ++ ") preds=" ++
    blockList b.2.preds ++ " succs=" ++ blockList b.2.succs ++ ":\n" ++ g.nodeLines b.1 ++
    "\tchain: " ++ String.intercalate " -> " ((b.2.root :: chain.map some).map NodeRef.text) ++ "\n"

/-- The text of a graph: block by block the nodes, then the chain. -/
def text [MachineOp ω] : Except Fault String := do
  return String.join (← g.layout.mapM g.blockText)

end Graph

end Codegen
