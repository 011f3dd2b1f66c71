import Codegen.Error
import Codegen.Func.Text
import Codegen.Storage

/-!
# The context of a lowering

Before a function is lowered, every value that lives in a register gets one, every reserved piece
of the stack gets a slot and every block gets a label. The context keeps these assignments, so that
lowering a block needs none of the others and never allocates.

A context is used for one function after the other. Setting it up for a function replaces every
table, but if the uses of the function cannot be collected, the tables of values, uses and labels
stay those of the function before.

## Main definitions

* `Definition`: where a value comes from and where it lives.
* `Context`: the assignments for one function.
* `Context.init`: sets a context up for a function.
* `Context.outputReg`, `Context.valueReg`, `Context.slotFor`, `Context.label`: the questions that a
  lowering asks.
-/

namespace Codegen

/-- Where a value comes from and where it lives. -/
structure Definition where
  /-- The inserted instruction that produces the value. -/
  instr : Option InstrId := none
  /-- The position of the argument that the value is. -/
  arg : Option Nat := none
  /-- The payload of a constant. -/
  payload : Int64
  /-- The register that holds the value; constants have none. -/
  reg : Reg := Reg.invalid
  /-- How often the value is read. -/
  refs : Nat
deriving DecidableEq, Repr

namespace Definition

/-- Whether the value is produced by an inserted instruction. -/
def isFromInstr (d : Definition) : Bool := d.instr.isSome

/-- Whether the value is an argument. -/
def isFromArg (d : Definition) : Bool := d.instr.isNone && d.arg.isSome

/-- Whether the value counts as a constant: nothing produces it and it is no argument. -/
def isConst (d : Definition) : Bool := d.instr.isNone && d.arg.isNone

end Definition

/-- The assignments for one function. -/
structure Context where
  /-- The function; `none` before the first one. -/
  func : Option Func := none
  /-- The virtual registers. -/
  regs : RegTable := {}
  /-- The stack slots. -/
  slots : SlotTable := {}
  /-- The slot whose address a value is. -/
  slotOf : Array (Option SlotId) := #[]
  /-- For each value the instructions that read it. -/
  users : Array (List InstrId) := #[]
  /-- The definition of each value. -/
  defs : Array Definition := #[]
  /-- The place in the module of the function whose values are defined. -/
  owner : Option Nat := none
  /-- The label of each block. -/
  labels : Array Label := #[]
deriving DecidableEq, Repr

namespace Context

/-! ### Setting up -/

/-- The definition of a value before registers are assigned. -/
def freshDef (value : Value) (users : List InstrId) : Definition :=
  { payload := value.payload, refs := users.length }

/-- Changes the definition of a value. -/
def updateDef (c : Context) (v : ValueId) (g : Definition → Definition) : Context :=
  match c.defs[v]? with
  | some d => { c with defs := c.defs.setIfInBounds v (g d) }
  | none => c

/-- Gives an argument its register. -/
def assignArg (f : Func) (c : Context) (arg : Nat × ValueId) : Except Fault Context := do
  let (r, regs) ← c.regs.add (← f.valueType arg.2)
  return { c with regs }.updateDef arg.2 ({ · with arg := some arg.1, reg := r })

/-- Gives the result of an instruction its register, if there is a result. -/
def assignResult (c : Context) (i : InstrId) (ins : Instr) : Except Fault Context := do
  let c := c.updateDef ins.result ({ · with instr := some i })
  if ins.hasResult then
    let (r, regs) ← c.regs.add ins.type
    return { c with regs }.updateDef ins.result ({ · with reg := r })
  return c

/-- Gives an instruction that reserves a piece of the stack its slot. -/
def assignSlot (c : Context) (ins : Instr) : Context :=
  match ins.op with
  | some (.alloca _ elem count _) =>
    let (s, slots) := c.slots.add elem count
    { c with slots, slotOf := c.slotOf.setIfInBounds ins.result (some s) }
  | _ => c

/-- Gives an instruction what it needs. -/
def assignInstr (f : Func) (c : Context) (i : InstrId) : Except Fault Context := do
  let ins ← f.instr i
  let c ← c.assignResult i ins
  return c.assignSlot ins

/-- Makes all assignments of a function whose uses are known. -/
def assign (f : Func) (users : Array (List InstrId)) (c : Context) : Except Fault Context := do
  let c := { c with
    users
    owner := some f.index
    defs := (List.zipWith freshDef f.values.toList users.toList).toArray
    slotOf := Array.replicate f.values.size none }
  let c ← ((List.range f.params.length).zip f.params).foldlM (assignArg f) c
  let c ← f.inserted.foldlM (assignInstr f) c
  return { c with labels := (f.blockIds.map (· + 1)).toArray }

/-- Sets the context up for a function. -/
def init (f : Func) : EStateM Fault Context Unit := do
  modify ({ · with func := some f, regs := {}, slots := {}, slotOf := #[] })
  match f.users with
  | .error e => throw e
  | .ok users =>
    let c ← get
    match assign f users c with
    | .error e => throw e
    | .ok c => set c

/-- The context of a function. -/
def ofFunc (f : Func) : Except Fault Context :=
  match (init f).run {} with
  | .ok _ c => .ok c
  | .error e _ => .error e

/-! ### Questions -/

/-- The definition of a value. -/
def definition (c : Context) (v : ValueId) : Except Fault Definition :=
  match c.defs[v]? with
  | some d => .ok d
  | none => .error .outOfRange

/-- The name of the function that the context is for. -/
def funcName (c : Context) : Except Fault String :=
  match c.func with
  | some f => .ok f.name
  | none => .error .outOfRange

/-- The text of a value of the function that the context is for. -/
def valueText (c : Context) (types : TypeTable) (v : ValueId) : Except Fault String :=
  match c.func with
  | some f => f.valueText types v
  | none => .error .outOfRange

/-- Adds a register for a value that no instruction of the function produces. -/
def newReg (c : Context) (t : TypeId) : Except Fault (Reg × Context) := do
  let _ ← c.funcName
  let (r, regs) ← c.regs.add t
  return (r, { c with regs })

/-- The type of a register. A context without a function knows physical registers only. -/
def regType (c : Context) (r : Reg) : Except Fault TypeId :=
  if c.func.isNone && !r.isReal then .error .outOfRange else .ok (c.regs.type r)

/-- Whether an instruction of a function is the one that the context has as the producer of a
value. -/
def isProducer (c : Context) (f : Func) (i : InstrId) (d : Definition) : Bool :=
  d.instr == some i && c.owner == some f.index

/-- The register that holds the result of an instruction of a function `f`, which need not be the
one that the context is for. -/
def resultReg (c : Context) (f : Func) (i : InstrId) : Except Stop Reg := do
  let ins ← f.instr i
  if !ins.hasResult then
    let op := ins.opcodeText
    throw (.ofCause (.noResult s!"instruction {i} ({op})"))
  let d ← c.definition ins.result
  if !c.isProducer f i d then throw (.ofCause (.notInserted i (← c.funcName)))
  return d.reg

/-- The register that holds the result of an instruction. It gets the type `t` if it had another
one. -/
def outputReg (f : Func) (i : InstrId) (t : TypeId) : EStateM Stop Context Reg := do
  let c ← get
  match c.resultReg f i with
  | .error e => throw e
  | .ok r =>
    if c.regs.type r = t then return r
    match c.regs.setType r t with
    | .error e => throw (.fault e)
    | .ok regs =>
      set { c with regs }
      return r

/-- The register that holds a value. -/
def valueReg (c : Context) (types : TypeTable) (v : ValueId) : Except Stop Reg := do
  let d ← c.definition v
  if d.reg.isValid then return d.reg
  throw (.ofCause (.noResult ("value " ++ (← c.valueText types v))))

/-- The slot whose address a value is. -/
def slot? (c : Context) (v : ValueId) : Option SlotId := c.slotOf[v]?.join

/-- The slot that an instruction of a function reserves. -/
def slotFor (c : Context) (f : Func) (i : InstrId) : Except Stop SlotId := do
  let ins ← f.instr i
  match ins.op with
  | some (.alloca _ _ _ _) =>
    match c.slot? ins.result with
    | some s => return s
    | none => throw (.ofCause (.notInserted i (← c.funcName)))
  | _ => throw (.ofCause (.notAlloca i ins.opcodeText))

/-- The label of a block. -/
def label (c : Context) (b : BlockId) : Except Fault Label :=
  match c.labels[b]? with
  | some l => .ok l
  | none => .error .outOfRange

/-- The instructions that read a value. -/
def usersOf (c : Context) (v : ValueId) : Except Fault (List InstrId) :=
  match c.users[v]? with
  | some us => .ok us
  | none => .error .outOfRange

/-- The context if it was set up for a function. -/
def ready (c : Context) : Except Fault Context :=
  if c.func.isNone then .error .outOfRange else .ok c

end Context

end Codegen
