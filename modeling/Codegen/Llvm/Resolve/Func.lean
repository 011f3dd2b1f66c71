import Codegen.Llvm.Resolve.Const

/-!
# Functions of a module of LLVM IR

The parameters, the blocks and the results of a function share their names, each of which is given
once. Those without a name are numbered in the order of the text. A name can be used before the
place where it is given. To resolve a function is to number what has no name, to look up every name,
and to resolve the constants. The second one of two operands that share a type stands behind the
type that the first one really has.

## Main definitions

* `Llvm.Func.settle`: the function with numbers for what has no name.
* `Llvm.Locals`: the names of a function, with their types.
* `Llvm.Module.resolveFunc`: the function with its names looked up and its constants resolved.
-/

namespace Codegen.Llvm

/-! ### Types of results -/

namespace Module

variable (m : Module)

/-- The index that an operand is. -/
def indexOf : Operand → Read TypeDefs.Index
  | .const c => do TypeDefs.Index.ofConst (← m.resolveConst c)
  | x => .ok { lanes := m.types.lanes? x.type }

/-- The type of the result of an operation, if it has one. -/
def resultType? (op : InstOp) : Read (Option TypeExpr) := do
  match op with
  | .getElementPtr elem baseType _ indices =>
    m.types.checkType elem
    m.types.checkType baseType
    return some (← m.types.address elem baseType (← indices.mapM m.indexOf))
  | op =>
    match op.typeRule? with
    | none => return none
    | some rule => return some (← m.types.result rule)

/-- The type of the result of an operation, unless it is the type without values. -/
def valueType? (op : InstOp) : Read (Option TypeExpr) := do
  return (← m.resultType? op).filter (!m.types.isVoid ·)

/-- The result of a terminator and its type, unless it is the type without values. -/
def termResult? : Terminator → Read (Option (Name × TypeExpr))
  | .invoke _ name t _ _ _ => do
    let t ← m.types.result (.called t)
    return if m.types.isVoid t then none else some (name, t)
  | .other _ (some (name, rule)) _ _ => do return some (name, ← m.types.result rule)
  | _ => return none

end Module

/-! ### Numbers -/

/-- A reader of the parts of a function that has given away some numbers. -/
abbrev Numbering := StateT Nat Read

/-- A name that was given, or the next number. A number that was given has to be the next one,
except for zero, which counts as a name that was left out. -/
def settleName : Name → Numbering Name
  | .text bytes => return .text bytes
  | .number k => do
    let next ← get
    if k ≠ 0 ∧ k ≠ next then throw .malformed
    set (next + 1)
    return .number next

/-- An instruction with a name for its result, if it has one. -/
def settleInst (m : Module) (inst : Inst) : Numbering Inst := do
  match ← m.valueType? inst.op, inst.result with
  | some _, some name => return { inst with result := some (← settleName name).ofResult }
  | _, _ => return { inst with result := none }

/-- A terminator with a name for its result, if it has one. -/
def settleTerm (m : Module) (term : Terminator) : Numbering Terminator := do
  match ← m.termResult? term, term with
  | some (name, _), .invoke kind _ t callee args blocks =>
    return .invoke kind (← settleName name).ofResult t callee args blocks
  | some (name, _), .other kind (some (_, rule)) operands blocks =>
    return .other kind (some ((← settleName name).ofResult, rule)) operands blocks
  | _, term => return term

/-- A block with names for itself and for its results. -/
def settleBlock (m : Module) (b : Block) : Numbering Block := do
  let name ← settleName b.name
  let insts ← b.insts.mapM (settleInst m)
  return { b with name, insts, term := ← b.term.mapM (settleTerm m) }

/-- A parameter with a name. -/
def settleParam (p : Param) : Numbering Param := do return { p with name := ← settleName p.name }

/-- A function with numbers for what has no name. A function that is only declared stays as it
is. -/
def Func.settle (m : Module) (f : Func) : Read Func :=
  if f.blocks.isEmpty then .ok f
  else
    let body : Numbering Func := do
      let params ← f.params.mapM settleParam
      return { f with params, blocks := ← f.blocks.mapM (settleBlock m) }
    (·.1) <$> body.run 0

/-! ### Names -/

/-- The parameters, blocks and results of a function, with their types. -/
abbrev Locals := List (Name × TypeExpr)

namespace Module

variable (m : Module)

/-- The names that a block gives. -/
def blockLocals (b : Block) : Read Locals := do
  let results ← b.insts.mapM fun inst => do
    match inst.result with
    | none => return none
    | some n => return (← m.valueType? inst.op).map fun t => (n, t)
  let last ← b.term.mapM m.termResult?
  return (b.name, .label) :: results.filterMap id ++ (last.bind id).toList

/-- The names that a function gives. Each is given once. -/
def locals (f : Func) : Read Locals := do
  let inner ← f.blocks.mapM m.blockLocals
  let all := f.params.map (fun p => (p.name, p.type)) ++ inner.flatten
  demand (all.map (·.1)).Nodup
  return all

variable (scope : Locals)

/-! ### Operands -/

/-- An operand whose names are looked up, with the type that it really has. -/
def resolveOperand : Operand → Read (Operand × TypeExpr)
  | .var t n => do
    m.types.checkType t
    return (.var t n, ← orMalformed (scope.lookup n))
  | .const c => do
    let c ← m.resolveConst c
    return (.const c, c.type)
  | .assembly t s => do
    m.types.checkType t
    return (.assembly t s, t)
  | .attributed x => do
    let (x, t) ← resolveOperand x
    return (.attributed x, t)
  | .noted x => do
    let (x, t) ← resolveOperand x
    return (.noted (x.withType t), .metadata)
  | .note s => .ok (.note s, .metadata)

/-- An operand whose names are looked up. -/
def resolved (x : Operand) : Read Operand := (·.1) <$> m.resolveOperand scope x

/-- Operands whose names are looked up. -/
def resolvedAll (xs : List Operand) : Read (List Operand) := xs.mapM (m.resolved scope)

/-- Two operands whose names are looked up. The second one stands behind the type that the first one
really has. -/
def resolvedPair (x y : Operand) : Read (Operand × Operand) := do
  let (x, t) ← m.resolveOperand scope x
  return (x, ← m.resolved scope (y.withType t))

/-- The function and the arguments of a call whose names are looked up. The function stands behind
the type of addresses of functions that fits the call. -/
def resolvedCall (t : TypeExpr) (callee : Operand) (args : List Operand) :
    Read (Operand × List Operand) := do
  m.types.checkType t
  let args ← args.mapM (m.resolveOperand scope)
  let signature := match m.types.resolve t with
    | .function _ _ _ => t
    | _ => .function t (args.map (·.2)) false
  let callee ← m.resolved scope (callee.withType (.pointer signature 0))
  return (callee, args.map (·.1))

/-- Checks that a name is one of a block. -/
def checkTarget (n : Name) : Read Unit :=
  match scope.lookup n with
  | some (.special word) => demand (word == "label")
  | _ => .error .malformed

/-! ### Instructions -/

/-- An operation whose names are looked up. -/
def resolveOp (op : InstOp) : Read InstOp := do
  op.ownTypes.forM m.types.checkType
  match op with
  | .alloca elem count align space =>
    return .alloca elem (← count.mapM (m.resolved scope)) align space
  | .phi t incoming =>
    return .phi t (← incoming.mapM fun (x, b) => do
      checkTarget scope b
      return (← m.resolved scope x, b))
  | .load t addr => return .load t (← m.resolved scope addr)
  | .store v addr => return .store (← m.resolved scope v) (← m.resolved scope addr)
  | .binary op t x y =>
    let (x, y) ← m.resolvedPair scope x y
    return .binary op t x y
  | .icmp p t x y =>
    let (x, y) ← m.resolvedPair scope x y
    return .icmp p t x y
  | .sext x target => return .sext (← m.resolved scope x) target
  | .zext x target => return .zext (← m.resolved scope x) target
  | .getElementPtr elem baseType base indices =>
    return .getElementPtr elem baseType (← m.resolved scope base) (← m.resolvedAll scope indices)
  | .call t callee args mentioned =>
    let (callee, args) ← m.resolvedCall scope t callee args
    return .call t callee args (← m.resolvedAll scope mentioned)
  | .pair kind t x y =>
    let (x, y) ← m.resolvedPair scope x y
    return .pair kind t x y
  | .other kind t types operands => return .other kind t types (← m.resolvedAll scope operands)

/-- A terminator whose names are looked up. -/
def resolveTerm : Terminator → Read Terminator
  | .br (.block b) => do
    checkTarget scope b
    return .br (.block b)
  | .br .param => return .br .param
  | .condBr cond t e => do
    let cond ← m.resolved scope cond
    checkTarget scope t
    checkTarget scope e
    return .condBr cond t e
  | .ret value => do return .ret (← value.mapM (m.resolved scope))
  | .invoke kind result t callee args blocks => do
    let (callee, args) ← m.resolvedCall scope t callee args
    blocks.forM (checkTarget scope)
    return .invoke kind result t callee args blocks
  | .other kind result operands blocks => do
    let operands ← m.resolvedAll scope operands
    blocks.forM (checkTarget scope)
    return .other kind result operands blocks

/-- A block whose names are looked up. The names of an instruction that is not well formed are
looked up first, and those behind it are not. -/
def resolveBlock (b : Block) : Read Block := do
  let insts ← b.insts.zipIdx.mapM fun (inst, i) => do
    let op ← m.resolveOp scope inst.op
    if b.flaw = some i then illFormed
    return { inst with op }
  let term ← b.term.mapM (m.resolveTerm scope)
  if b.flaw.isSome then illFormed
  return { b with insts, term }

/-- A function whose names are looked up. A function that is only declared has none. -/
def resolveFunc (f : Func) : Read Func := do
  if f.blocks.isEmpty then return f
  let scope ← m.locals f
  let blocks ← f.blocks.mapM (m.resolveBlock scope)
  return { f with blocks, ordered := ← m.resolvedAll scope f.ordered }

end Module

end Codegen.Llvm
