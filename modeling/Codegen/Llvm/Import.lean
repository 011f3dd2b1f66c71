import Codegen.Llvm.Resolve.Func
import Codegen.Module
import Codegen.Error

/-!
# Importing LLVM IR

Every function of a module of LLVM IR becomes a function with the same blocks and the same
instructions. Blocks and instructions are added in a first pass, so that the second pass, which
gives the instructions their operations, can refer to values and blocks that come later. The first
construct without a counterpart ends the import.

## Main definitions

* `Llvm.importType`: the number of a type.
* `Llvm.Scope`: the values and blocks that names stand for.
* `Llvm.operation`: the operation of an instruction.
* `Llvm.importFunc`, `Llvm.importModule`: functions and modules.
-/

namespace Codegen.Llvm

/-- The error for a construct without a counterpart. -/
def unsupported (c : Construct) : Stop := .ofCause (.importing (.unsupported c))

/-! ### Types -/

/-- An operation that can add types to a table. -/
abbrev TypeImport := EStateM Stop TypeTable

/-- Puts the table with a new type in place. -/
def addType (add : TypeTable → TypeId × TypeTable) : TypeImport TypeId := do
  let (t, types) := add (← get)
  set types
  return t

/-- The number of an integer type. Widths are numbers of 64 bits with a sign. -/
def addInt (bits : Nat) : TypeImport TypeId := do
  let (t, types) ← (← get).int (Int64.ofNat bits).toInt
  set types
  return t

variable (defs : TypeDefs)

/-- The number of a type whose parts and names are followed at most as deep as given. -/
def importTypeWithin : Nat → TypeExpr → TypeImport TypeId
  | 0, t => throw (unsupported (.type (defs.text t)))
  | fuel + 1, t =>
    match defs.resolve t with
    | .void => return TypeId.void
    | .int bits => addInt bits
    | .pointer .missing _ => addType (·.pointer TypeId.invalid)
    | .pointer elem _ => do
      let e ← importTypeWithin fuel elem
      addType (·.pointer e)
    | .array length elem => do
      let e ← importTypeWithin fuel elem
      addType (·.array e (UInt64.ofNat length))
    | .function result params variadic => do
      let r ← importTypeWithin fuel result
      let ps ← params.mapM (importTypeWithin fuel)
      addType (·.function r ps variadic)
    | _ => throw (unsupported (.type (defs.text t)))

/-- The number of a type. -/
def importType (t : TypeExpr) : TypeImport TypeId := importTypeWithin defs (defs.depth t) t

/-! ### Values and blocks -/

/-- The values and blocks that names stand for. -/
structure Scope where
  /-- The values. -/
  values : List (Name × ValueId) := []
  /-- The blocks. -/
  blocks : List (Name × BlockId) := []
deriving Repr

/-- A function that is being imported, with the types of the module. -/
structure Importer where
  /-- The types. -/
  types : TypeTable
  /-- The function. -/
  func : Codegen.Func
deriving Repr

/-- An operation on a function that is being imported. -/
abbrev Import := EStateM Stop Importer

/-- Adds types. -/
def onTypes {α : Type} (x : TypeImport α) : Import α := fun s =>
  match x.run s.types with
  | .ok a types => .ok a { s with types }
  | .error e types => .error e { s with types }

/-- Changes the function. -/
def onFunc {α : Type} (x : EStateM Fault Codegen.Func α) : Import α := fun s =>
  match x.run s.func with
  | .ok a func => .ok a { s with func }
  | .error e func => .error (.fault e) { s with func }

/-- Adds a block. -/
def addBlock (name : String) : Import BlockId := do
  let s ← get
  let (b, func) := s.func.addBlock name
  set { s with func }
  return b

/-- Adds an instruction; its result is given too. -/
def addInstr : Import (InstrId × ValueId) := do
  let s ← get
  let (i, func) := s.func.addInstr
  set { s with func }
  return (i, (← (func.instr i : Except Stop Codegen.Instr)).result)

/-- Adds an integer constant. The low 64 bits of its value are kept. -/
def addConst (bits : Nat) (value : Int) : Import ValueId := do
  let t ← onTypes (addInt bits)
  let s ← get
  let (v, func) := s.func.addValue (.const (Int64.ofInt value) t)
  set { s with func }
  return v

variable (m : Module) (scope : Scope)

/-- The error for an operand that stands for no value. An operand without a text has no error
either, and stops the import by a fault. -/
def undefinedOperand (x : Operand) : Stop :=
  match x.ident m.types with
  | .ok s => .ofCause (.importing (.undefinedValue s))
  | .error _ => .fault .illFormed

/-- The value of an operand. Arguments with attributes, notes and pieces of assembly stand for
none. -/
def operandValue : Operand → Import ValueId
  | .var t n =>
    match scope.values.lookup n with
    | some v => return v
    | none => throw (undefinedOperand m (.var t n))
  | .const c =>
    match c.value?, m.types.resolve c.type with
    | some v, .int bits => addConst bits v
    | _, _ => throw (unsupported (.constant (m.constText c)))
  | x => throw (undefinedOperand m x)

/-- The block that a name stands for in a function. -/
def blockNamed (f : Func) (n : Name) : Import BlockId :=
  match scope.blocks.lookup n with
  | some b => return b
  | none => throw (.ofCause (.importing (.foreignBlock n.shown f.name.shown)))

/-- The number of elements of a piece of the stack. -/
def allocaCount : Option Operand → Import UInt64
  | none => return 1
  | some (.const c) =>
    match c.value? with
    | some v => return UInt64.ofNat (v.natAbs % 18446744073709551616)
    | none => throw (unsupported .dynamicAlloca)
  | some _ => throw (unsupported .dynamicAlloca)

/-- The function that a call names. -/
def calledFunc (callee : Operand) : Import Func :=
  match callee with
  | .const (.global _ n) =>
    match m.func? n with
    | some f => return f
    | none => throw (unsupported .indirectCall)
  | _ => throw (unsupported .indirectCall)

/-! ### Instructions -/

/-- The number of a type of the module. -/
def typeNumber (t : TypeExpr) : Import TypeId := onTypes (importType m.types t)

/-- The number of the type of the result of an operation, which has one. -/
def resultNumber (op : InstOp) : Import TypeId :=
  match m.resultType? op with
  | .ok (some t) => typeNumber m t
  | .error (.fault f) => throw (.fault f)
  | _ => throw (.fault .illFormed)

/-- The values that come into a phi, with their blocks. -/
def importIncoming (f : Func) (inc : Operand × Name) : Import (ValueId × BlockId) := do
  let v ← operandValue m scope inc.1
  return (v, ← blockNamed scope f inc.2)

/-- The operation of an instruction. -/
def operation (f : Func) (op : InstOp) : Import Operation := do
  match op with
  | .alloca elem count align _ =>
    let t ← resultNumber m op
    let e ← typeNumber m elem
    return .alloca t e (← allocaCount count) (UInt32.ofNat align)
  | .phi _ incoming =>
    let t ← resultNumber m op
    return .phi t (← incoming.mapM (importIncoming m scope f))
  | .load _ addr =>
    let t ← resultNumber m op
    return .load t (← operandValue m scope addr)
  | .store value addr =>
    let v ← operandValue m scope value
    return .store v (← operandValue m scope addr)
  | .binary b _ x y =>
    let t ← resultNumber m op
    let vx ← operandValue m scope x
    return .binary b t vx (← operandValue m scope y)
  | .icmp (.unknown n) _ _ _ => throw (unsupported (.predicate n))
  | .icmp (.known p) _ x y =>
    let t ← resultNumber m op
    let vx ← operandValue m scope x
    return .icmp p t vx (← operandValue m scope y)
  | .sext x _ =>
    let t ← resultNumber m op
    return .sext t (← operandValue m scope x)
  | .zext x _ =>
    let t ← resultNumber m op
    return .zext t (← operandValue m scope x)
  | .getElementPtr elem _ base indices =>
    let t ← resultNumber m op
    let e ← typeNumber m elem
    let b ← operandValue m scope base
    return .getElementPtr t e b (← indices.mapM (operandValue m scope))
  | .call _ callee args _ =>
    let g ← calledFunc m callee
    let t ← resultNumber m op
    return .call t g.name.shown (← args.mapM (operandValue m scope))
  | .pair kind _ _ _ => throw (unsupported (.instruction kind))
  | .other kind _ _ _ => throw (unsupported (.instruction kind))

/-- The block to which a jump leads. -/
def jumpTarget (f : Func) : Target → Import BlockId
  | .block n => blockNamed scope f n
  | .param => throw (unsupported (.branchTarget "Param"))

/-- The operation of a terminator. -/
def terminatorOperation (f : Func) : Terminator → Import Operation
  | .br target => do return .br (← jumpTarget scope f target)
  | .condBr cond t e => do
    let c ← operandValue m scope cond
    let thenBlock ← blockNamed scope f t
    return .condBr c thenBlock (← blockNamed scope f e)
  | .ret none => return .ret none
  | .ret (some v) => do return .ret (some (← operandValue m scope v))
  | .invoke kind _ _ _ _ _ => throw (unsupported (.instruction kind))
  | .other kind _ _ _ => throw (unsupported (.instruction kind))

/-! ### Functions -/

/-- An instruction that was added and has no operation yet. -/
structure Pending where
  /-- The instruction. -/
  instr : InstrId
  /-- Its block. -/
  block : BlockId
  /-- The name of its block. -/
  blockName : String
  /-- What it is imported from. -/
  source : InstOp ⊕ Terminator
deriving Repr

/-- Adds an instruction of a block, and its result to the scope. -/
def declareInst (b : BlockId) (name : String) (acc : Scope × List Pending) (inst : Inst) :
    Import (Scope × List Pending) := do
  let (i, v) ← addInstr
  let scope := match inst.result with
    | some n => { acc.1 with values := acc.1.values ++ [(n, v)] }
    | none => acc.1
  return (scope, acc.2 ++ [⟨i, b, name, .inl inst.op⟩])

/-- Adds a block with its instructions. A block without a terminator ends the import. -/
def declareBlock (acc : Scope × List Pending) (blk : Block) : Import (Scope × List Pending) := do
  let name := blk.name.shown
  let b ← addBlock name
  let acc := ({ acc.1 with blocks := acc.1.blocks ++ [(blk.name, b)] }, acc.2)
  let (scope, pending) ← blk.insts.foldlM (declareInst b name) acc
  match blk.term with
  | none => throw (.ofCause (.importing (.noTerminator name)))
  | some t =>
    let (i, _) ← addInstr
    return (scope, pending ++ [⟨i, b, name, .inr t⟩])

/-- Gives an instruction its operation, and puts it at the end of its block. -/
def complete (f : Func) (p : Pending) : Import Unit := do
  let op ← atPlace (.block p.blockName) (match p.source with
    | .inl op => operation m scope f op
    | .inr t => terminatorOperation m scope f t)
  let s ← get
  let func ← (s.func.setOperation p.instr op : Except Stop Codegen.Func)
  set { s with func }
  onFunc (Codegen.Func.insert p.block p.instr)

/-- Imports the body of a function, whose parameters are in the scope. -/
def importBody (f : Func) (params : List (Name × ValueId)) : Import Unit := do
  let (scope, pending) ← f.blocks.foldlM declareBlock ({ values := params }, [])
  pending.forM (complete m scope f)

/-- Adds a function to a module. -/
def importFunc (out : Codegen.Module) (f : Func) : Except Stop Codegen.Module :=
  match (importType m.types f.type).run out.types with
  | .error e _ => .error (e.within (.imported f.name.shown))
  | .ok sig types =>
    match ({ out with types } : Codegen.Module).addFunc f.name.shown sig with
    | .error e => .error (.fault e)
    | .ok (func, out) =>
      match (importBody m f ((f.params.map (·.name)).zip func.params)).run ⟨types, func⟩ with
      | .error e _ => .error (e.within (.imported f.name.shown))
      | .ok _ s => .ok ({ out with types := s.types }.setFunc s.func)

/-- Imports every function of a module. -/
def importModule (name : String) : Except Stop Codegen.Module :=
  m.funcs.foldlM (importFunc m) { name }

end Codegen.Llvm
