import Codegen.Llvm.Resolve.Type

/-!
# Constants of a module of LLVM IR

A constant in a text stands behind a type. To resolve it is to look up the names in it, to check
that it fits the type, and to give it the type that its value has: a function has the type of its
address, and an operation has the type that its operands make, which has to be the type in front.

## Main definitions

* `Llvm.Module.exprType`: the type of an operation on constants.
* `Llvm.Module.resolveConst`: a constant with the type of its value.
-/

namespace Codegen.Llvm

/-- An integer from its bits, of which the highest one of a width is the sign. -/
def signedValue (bits : Nat) : Nat → Read Int
  | 0 => illFormed
  | width + 1 =>
    if bits.testBit width then .ok ((bits : Int) - Nat.pow 2 (width + 1)) else .ok bits

namespace Module

variable (m : Module)

/-- The type of an operation on constants with their own types. -/
def exprType (op : ConstOp) (args : List Const) : Read TypeExpr :=
  match op, args with
  | .negate, x :: _ => .ok x.type
  | .binary _ _, x :: _ => .ok x.type
  | .icmp _, x :: _ => orIllFormed (m.types.comparison? TypeDefs.isComparable x.type)
  | .fcmp _, x :: _ => orIllFormed (m.types.comparison? TypeDefs.isFloat x.type)
  | .select, _ :: x :: _ => .ok x.type
  | .convert _ target, _ => .ok target
  | .elementPtr _ elem, base :: indices => do
    m.types.address elem base.type (← indices.mapM TypeDefs.Index.ofConst)
  | .extractElement, x :: _ => orIllFormed (m.types.element? x.type)
  | .insertElement, x :: _ => orIllFormed ((m.types.element? x.type).map fun _ => x.type)
  | .shuffleVector, x :: _ :: mask :: _ => orIllFormed (m.types.shuffled? x.type mask.type)
  | .extractValue path, x :: _ => m.types.part x.type path
  | .insertValue _, x :: _ => .ok x.type
  | _, _ => illFormed

/-- The type of a constant that is a word; some words need types of a kind. -/
def checkWord (t : TypeExpr) (w : String) : Read Unit :=
  match w, m.types.resolve t with
  | "null", .pointer _ _ => .ok ()
  | "null", _ => .error .malformed
  | "none", .special word => demand (word == "token")
  | "none", _ => .error .malformed
  | _, _ => .ok ()

/-- Whether a shape of constants is one of a type. -/
def hasShape (shape : Shape) (t : TypeExpr) : Bool :=
  match shape, m.types.resolve t with
  | .array, .array _ _ => true
  | .vector, .vector _ _ _ => true
  | .struct, .struct _ _ => true
  | _, _ => false

/-- The type of constants put together, from the type in front of them. An array can be empty only
if its type has no elements. -/
def aggregateType (shape : Shape) (isEmpty : Bool) (t : TypeExpr) : Read TypeExpr :=
  match shape, m.types.resolve t with
  | .array, .array length elem =>
    if !isEmpty then .ok t else if length = 0 then .ok (.array 0 elem) else .error .malformed
  | _, _ => .ok t

/-- The type of bytes that are written as a text, from the type in front of them. -/
def charsType (count : Nat) (t : TypeExpr) : Read TypeExpr :=
  match m.types.resolve t with
  | .array length elem =>
    if length = count ∧ m.types.isInt elem 8 then .ok (.array count (.int 8))
    else .error .malformed
  | _ => .error .malformed

/-- Checks that a function has a block with a name. -/
def checkBlock (f b : Name) : Read Unit :=
  match m.func? f with
  | some f => demand (f.blocks.any (·.name == b))
  | none => .error .malformed

mutual

/-- A constant with the type of its value. -/
def resolveConst : Const → Read Const
  | .int t v =>
    match m.types.resolve t with
    | .int _ => do
      m.types.checkType t
      return .int t v
    | _ => .error .malformed
  | .signed t bits =>
    match m.types.resolve t with
    | .int width => do
      m.types.checkType t
      return .int t (← signedValue bits width)
    | _ => .error .malformed
  | .bool t b => do
    demand (m.types.isInt t 1)
    return .bool (.int 1) b
  | .float t literal =>
    match m.types.resolve t with
    | .float kind => do
      let _ ← readFloat kind literal
      return .float t literal
    | _ => .error .malformed
  | .word t w => do
    m.types.checkType t
    m.checkWord t w
    return .word t w
  | .global t n => do
    m.types.checkType t
    return .global (← orMalformed (m.globalType? n)) n
  | .chars t bytes => do
    m.types.checkType t
    return .chars (← m.charsType bytes.length t) bytes
  | .aggregate t shape elems => do
    m.types.checkType t
    demand (m.hasShape shape t)
    let own ← m.aggregateType shape elems.isEmpty t
    return .aggregate own shape (← resolveConsts elems)
  | .expr t op args => do
    m.types.checkType t
    (op.elem?.toList ++ op.target?.toList).forM m.types.checkType
    let args ← resolveConsts args
    let own ← m.exprType op args
    demand (t.isMissing || m.types.equal own t)
    return .expr own op args
  | .inRange c => do return .inRange (← resolveConst c)
  | .blockAddress t f b => do
    m.types.checkType t
    m.checkBlock f b
    return .blockAddress (.pointer (.int 8) 0) f b
  | .detour t w f => do
    m.types.checkType t
    let g ← orMalformed (m.func? f)
    return .detour (.pointer g.type g.addrSpace) w f

/-- Constants with the types of their values. -/
def resolveConsts : List Const → Read (List Const)
  | [] => .ok []
  | c :: cs => do
    let c ← resolveConst c
    return c :: (← resolveConsts cs)

end

end Module

end Codegen.Llvm
