import Codegen.Llvm.Const

/-!
# Modules of LLVM IR

A module has named types, global variables and functions. A function that is defined has blocks, and
a block has instructions and a terminator. Operands refer to parameters, to results of instructions
and to blocks by name. Instructions and terminators that have no counterpart here are kept by their
kind.

A module that was read from a text holds names and constants as the text gives them. Once it is
resolved, every name in it is the name of what it stands for, and every constant has the type of its
value: see `Codegen.Llvm.Resolve`.

## Main definitions

* `Llvm.Operand`: an operand.
* `Llvm.TypeRule`: how the type of a result is found.
* `Llvm.Inst`, `Llvm.Terminator`, `Llvm.Block`, `Llvm.Func`, `Llvm.Module`: the parts of a module.
-/

namespace Codegen.Llvm

/-! ### Operands -/

/-- An operand. -/
inductive Operand where
  /-- A parameter, the result of an instruction, or a block, with the type in front of it. -/
  | var (type : TypeExpr) (name : Name)
  | const (c : Const)
  /-- A piece of assembly, by its text. -/
  | assembly (type : TypeExpr) (text : String)
  /-- An argument with attributes. -/
  | attributed (x : Operand)
  /-- A note on a value. -/
  | noted (x : Operand)
  /-- A note, by its text. -/
  | note (text : String)
deriving Repr

namespace Operand

/-- The type in front of an operand. -/
def type : Operand → TypeExpr
  | var t _ => t
  | const c => c.type
  | assembly t _ => t
  | attributed x => x.type
  | noted _ => .metadata
  | note _ => .metadata

/-- The operand with another type in front of it. -/
def withType (t : TypeExpr) : Operand → Operand
  | var _ n => var t n
  | const c => const (c.withType t)
  | assembly _ s => assembly t s
  | attributed x => attributed (x.withType t)
  | noted x => noted x
  | note s => note s

variable (defs : TypeDefs)

/-- The text of an operand without its type. -/
def ident : Operand → Const.Text
  | var _ n => .ok n.written
  | const c => c.ident defs
  | assembly _ s => .ok s
  | attributed x => x.ident
  | noted x => do return defs.text x.type ++ " " ++ (← x.ident)
  | note s => .ok s

end Operand

/-! ### Types of results -/

/-- How the type of a result is found. -/
inductive TypeRule where
  | plain (t : TypeExpr)
  /-- The type of a comparison of values of a type. -/
  | compared (t : TypeExpr)
  /-- The type of a comparison of floating-point numbers of a type. -/
  | comparedFloat (t : TypeExpr)
  /-- The type of the elements of a vector. -/
  | element (t : TypeExpr)
  /-- A type that has to be a vector. -/
  | vector (t : TypeExpr)
  /-- A vector of elements of a vector, as many as a mask has. -/
  | shuffled (t mask : TypeExpr)
  /-- What a pointer of a type points to. -/
  | pointee (t : TypeExpr)
  /-- The type of a part of a type. -/
  | part (t : TypeExpr) (path : List Nat)
  /-- What a function of a type gives, or the type itself if it is not one of functions. -/
  | called (t : TypeExpr)
deriving Repr

/-! ### Instructions -/

/-- A predicate of a comparison. -/
inductive Condition where
  | known (p : Predicate)
  /-- A number that stands for no predicate. -/
  | unknown (n : Nat)
deriving DecidableEq, Repr

/-- The operation of an instruction. -/
inductive InstOp where
  | alloca (elem : TypeExpr) (count : Option Operand) (align : Nat) (addrSpace : Nat)
  | phi (type : TypeExpr) (incoming : List (Operand × Name))
  | load (type : TypeExpr) (addr : Operand)
  | store (value addr : Operand)
  /-- An operation on two operands, with the type in front of them. -/
  | binary (op : BinaryOp) (type : TypeExpr) (x y : Operand)
  /-- A comparison, with the type in front of the operands. -/
  | icmp (p : Condition) (type : TypeExpr) (x y : Operand)
  | sext (x : Operand) (target : TypeExpr)
  | zext (x : Operand) (target : TypeExpr)
  /-- The address of a part, with the type in front of the address that it starts from. -/
  | getElementPtr (elem baseType : TypeExpr) (base : Operand) (indices : List Operand)
  /-- A call, with the type in front of the function, and operands that are only mentioned. -/
  | call (type : TypeExpr) (callee : Operand) (args mentioned : List Operand)
  /-- An operation without a counterpart on two operands of one type, by its kind. -/
  | pair (kind : String) (type : TypeRule) (x y : Operand)
  /-- Another operation without a counterpart, by its kind. One without a result has no type. -/
  | other (kind : String) (type : Option TypeRule) (types : List TypeExpr) (operands : List Operand)
deriving Repr

namespace InstOp

/-- How the type of the result is found from types, if that is enough. An operation without a result
has none. -/
def typeRule? : InstOp → Option TypeRule
  | alloca elem _ _ space => some (.plain (.pointer elem space))
  | phi t _ => some (.plain t)
  | load t _ => some (.plain t)
  | store _ _ => none
  | binary _ t _ _ => some (.plain t)
  | icmp _ t _ _ => some (.compared t)
  | sext _ target => some (.plain target)
  | zext _ target => some (.plain target)
  | getElementPtr _ _ _ _ => none
  | call t _ _ _ => some (.called t)
  | pair _ t _ _ => some t
  | other _ t _ _ => t

/-- The types that are written in an operation besides those of its operands. -/
def ownTypes : InstOp → List TypeExpr
  | alloca elem _ _ _ => [elem]
  | phi t _ => [t]
  | load t _ => [t]
  | sext _ target => [target]
  | zext _ target => [target]
  | getElementPtr elem _ _ _ => [elem]
  | call t _ _ _ => [t]
  | other _ _ types _ => types
  | _ => []

end InstOp

/-- An instruction. -/
structure Inst where
  /-- The name of the result; an instruction without a result has none. -/
  result : Option Name
  /-- The operation. -/
  op : InstOp
deriving Repr

/-- Where a jump leads. -/
inductive Target where
  | block (name : Name)
  /-- A parameter, to which no jump can lead. -/
  | param
deriving DecidableEq, Repr

/-- The end of a block. -/
inductive Terminator where
  | br (target : Target)
  | condBr (cond : Operand) (thenBlock elseBlock : Name)
  | ret (value : Option Operand)
  /-- A call that ends a block, by its kind. -/
  | invoke (kind : String) (result : Name) (type : TypeExpr) (callee : Operand)
      (args : List Operand) (blocks : List Name)
  /-- Another terminator without a counterpart, by its kind. It can have a result. -/
  | other (kind : String) (result : Option (Name × TypeRule)) (operands : List Operand)
      (blocks : List Name)
deriving Repr

/-! ### Functions and modules -/

/-- A block. -/
structure Block where
  /-- The name. -/
  name : Name
  /-- The instructions. -/
  insts : List Inst
  /-- The terminator. A block that was read always has one. -/
  term : Option Terminator
  /-- The place of the first instruction that is not well formed, if a text has one. -/
  flaw : Option Nat := none
deriving Repr

/-- A parameter. -/
structure Param where
  /-- The type. -/
  type : TypeExpr
  /-- The name. -/
  name : Name
deriving Repr

/-- A function. -/
structure Func where
  /-- The name. -/
  name : Name
  /-- The type of the result. -/
  result : TypeExpr
  /-- The parameters. -/
  params : List Param
  /-- Whether there can be more arguments than parameters. -/
  variadic : Bool
  /-- The address space. -/
  addrSpace : Nat := 0
  /-- The blocks; none if the function is only declared. -/
  blocks : List Block
  /-- Operands whose uses are put in order. -/
  ordered : List Operand := []
deriving Repr

/-- The type of a function. -/
def Func.type (f : Func) : TypeExpr := .function f.result (f.params.map (·.type)) f.variadic

/-- A global variable, or another name for something global. -/
structure Global where
  /-- The name. -/
  name : Name
  /-- The type of the content. -/
  type : TypeExpr
  /-- The address space. -/
  addrSpace : Nat
  /-- The content at the start, or what the name stands for. -/
  init : Option Const
  /-- Whether it is another name. -/
  isAlias : Bool := false
deriving Repr

/-- A module. -/
structure Module where
  /-- The named types. -/
  types : TypeDefs := []
  /-- The global variables. -/
  globals : List Global := []
  /-- The functions in the order of the text. -/
  funcs : List Func := []
deriving Repr

namespace Module

variable (m : Module)

/-- The function with a name. -/
def func? (n : Name) : Option Func := m.funcs.find? (·.name == n)

/-- The type of the address of a function or of a global variable. -/
def globalType? (n : Name) : Option TypeExpr :=
  match m.func? n with
  | some f => some (.pointer f.type f.addrSpace)
  | none => (m.globals.find? (·.name == n)).map fun g => .pointer g.type g.addrSpace

/-- The text of a constant inside of another text. -/
def constText (c : Const) : String := Const.inside "v" (c.text m.types)

end Module

end Codegen.Llvm
