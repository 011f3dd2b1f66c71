import Codegen.Instr
import Codegen.Llvm.Float

/-!
# Constants of LLVM IR

A constant that was read from a text has the type in front of it that the text gives it. Once it is
resolved, it has the type of its value: see `Codegen.Llvm.Resolve.Const`.

## Main definitions

* `Llvm.ConstOp`: the operations on constants.
* `Llvm.Const`: a constant.
* `Llvm.Const.ident`, `Llvm.Const.text`: the text of a constant, without and with its type.
-/

namespace Codegen.Llvm

/-- How the elements of a constant are put together. -/
inductive Shape where
  | array
  | vector
  | struct
deriving DecidableEq, Repr

/-- An operation on constants. -/
inductive ConstOp where
  | negate
  | binary (word : String) (flags : List String)
  | icmp (p : Predicate)
  | fcmp (p : String)
  | select
  /-- A conversion to a type. -/
  | convert (word : String) (target : TypeExpr)
  | elementPtr (isInbounds : Bool) (elem : TypeExpr)
  | extractElement
  | insertElement
  | shuffleVector
  | extractValue (path : List Nat)
  | insertValue (path : List Nat)
deriving Repr

namespace ConstOp

/-- The words in front of the operands. -/
def words : ConstOp → List String
  | negate => ["fneg"]
  | binary word flags => word :: flags
  | icmp p => ["icmp", p.name]
  | fcmp p => ["fcmp", p]
  | select => ["select"]
  | convert word _ => [word]
  | elementPtr isInbounds _ => "getelementptr" :: if isInbounds then ["inbounds"] else []
  | extractElement => ["extractelement"]
  | insertElement => ["insertelement"]
  | shuffleVector => ["shufflevector"]
  | extractValue _ => ["extractvalue"]
  | insertValue _ => ["insertvalue"]

/-- The type that stands in front of the operands. -/
def elem? : ConstOp → Option TypeExpr
  | elementPtr _ elem => some elem
  | _ => none

/-- The numbers that select a part of an operand. -/
def path : ConstOp → List Nat
  | extractValue path => path
  | insertValue path => path
  | _ => []

/-- The type that stands behind the operands. -/
def target? : ConstOp → Option TypeExpr
  | convert _ target => some target
  | _ => none

end ConstOp

/-- A constant, with a type. -/
inductive Const where
  | int (type : TypeExpr) (value : Int)
  /-- An integer by its bits, of which the highest one of the type is the sign. -/
  | signed (type : TypeExpr) (bits : Nat)
  | bool (type : TypeExpr) (value : Bool)
  | float (type : TypeExpr) (literal : String)
  /-- A constant that is a word. -/
  | word (type : TypeExpr) (word : String)
  /-- A function or a global variable. -/
  | global (type : TypeExpr) (name : Name)
  /-- An array of bytes, written as a text. -/
  | chars (type : TypeExpr) (bytes : List UInt8)
  /-- Constants put together. -/
  | aggregate (type : TypeExpr) (shape : Shape) (elems : List Const)
  /-- An operation on constants. -/
  | expr (type : TypeExpr) (op : ConstOp) (args : List Const)
  /-- An index that the result of an operation does not leave. -/
  | inRange (c : Const)
  /-- The address of a block of a function. -/
  | blockAddress (type : TypeExpr) (func block : Name)
  /-- A function that is reached in another way, which a word tells. -/
  | detour (type : TypeExpr) (word : String) (func : Name)
deriving Repr

namespace Const

/-- The type of a constant. -/
def type : Const → TypeExpr
  | int t _ => t
  | signed t _ => t
  | bool t _ => t
  | float t _ => t
  | word t _ => t
  | global t _ => t
  | chars t _ => t
  | aggregate t _ _ => t
  | expr t _ _ => t
  | inRange c => c.type
  | blockAddress t _ _ => t
  | detour t _ _ => t

/-- The constant with another type in front of it. -/
def withType (t : TypeExpr) : Const → Const
  | int _ v => int t v
  | signed _ n => signed t n
  | bool _ b => bool t b
  | float _ s => float t s
  | word _ w => word t w
  | global _ n => global t n
  | chars _ bytes => chars t bytes
  | aggregate _ shape elems => aggregate t shape elems
  | expr _ op args => expr t op args
  | inRange c => inRange (c.withType t)
  | blockAddress _ f b => blockAddress t f b
  | detour _ w f => detour t w f

/-- The value of an integer constant. -/
def value? : Const → Option Int
  | int _ v => some v
  | bool _ b => some (if b then 1 else 0)
  | _ => none

/-! ### Text -/

/-- A text, or a message that tells why there is none. -/
abbrev Text := Except String String

/-- The text of something inside another text. A message takes the place of a text that is not
there. -/
def inside (verb : String) : Text → String
  | .ok s => s
  | .error message => "%!" ++ verb ++ "(PANIC=String method: " ++ message ++ ")"

/-- The text of a truth value, which is one bit. Only the low 64 bits of a number count. -/
def bitText (v : Int) : Text :=
  match (Int64.ofInt v).toInt with
  | 0 => .ok "false"
  | 1 => .ok "true"
  | n => .error s!"invalid integer value of boolean type; expected 0 or 1, got {n}"

/-- Texts put together. -/
def shapeText (isPacked : Bool) : Shape → List String → String
  | .array, elems => "[" ++ String.intercalate ", " elems ++ "]"
  | .vector, elems => "<" ++ String.intercalate ", " elems ++ ">"
  | .struct, elems => structText isPacked elems

variable (defs : TypeDefs)

/-- Whether a type stands for a packed struct. -/
def isPacked (t : TypeExpr) : Bool :=
  match defs.resolve t with
  | .struct isPacked _ => isPacked
  | _ => false

/-- The text of a floating-point constant of a type. -/
def floatIdent (t : TypeExpr) (literal : String) : Text :=
  match defs.resolve t with
  | .float kind => floatText kind literal
  | _ => .ok literal

/-- The text of an operation on constants, from the texts of its operands. -/
def exprText (op : ConstOp) (args : List String) : String :=
  let parts := op.elem?.toList.map defs.text ++ args ++ op.path.map toString
  let target := match op.target? with
    | some t => " to " ++ defs.text t
    | none => ""
  String.intercalate " " op.words ++ " (" ++ String.intercalate ", " parts ++ target ++ ")"

/-- What stands in front of the text of a constant. -/
def front : Const → String
  | inRange c => "inrange " ++ defs.text c.type ++ " "
  | c => defs.text c.type ++ " "

mutual

/-- The text of a constant without its type. -/
def ident : Const → Text
  | int t v => if defs.isInt t 1 then bitText v else .ok (intText v)
  | signed _ n => .ok (intText n)
  | bool _ b => .ok (if b then "true" else "false")
  | float t literal => floatIdent defs t literal
  | word _ w => .ok w
  | global _ n => .ok n.writtenGlobal
  | chars _ bytes => .ok ("c" ++ quoted bytes)
  | aggregate t shape elems => do return shapeText (isPacked defs t) shape (← texts elems)
  | expr _ op args => .ok (exprText defs op (insideTexts args))
  | inRange c => c.ident
  | blockAddress _ f b => .ok ("blockaddress(" ++ f.writtenGlobal ++ ", " ++ b.written ++ ")")
  | detour _ w f => .ok (w ++ " " ++ f.writtenGlobal)

/-- The texts of some constants, with their types in front. -/
def texts : List Const → Except String (List String)
  | [] => .ok []
  | c :: cs => do
    let s ← c.ident
    return (c.front defs ++ s) :: (← texts cs)

/-- The texts of some constants as operands. -/
def insideTexts : List Const → List String
  | [] => []
  | c :: cs => inside "s" ((c.front defs ++ ·) <$> c.ident) :: insideTexts cs

end

/-- The text of a constant, with its type in front. -/
def text (c : Const) : Text := (c.front defs ++ ·) <$> c.ident defs

end Const

end Codegen.Llvm
