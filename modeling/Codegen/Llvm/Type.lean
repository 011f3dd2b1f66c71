import Codegen.Llvm.Name

/-!
# Types of LLVM IR

A type can be given a name. A type is shown by its name if it has one. A name that is given to
another name stands for the outline of the type behind it: a type of the same kind that has none of
its parts.

## Main definitions

* `Llvm.FloatKind`: the types of floating-point numbers.
* `Llvm.TypeExpr`: a type.
* `Llvm.TypeDefs`: the names of types; `Llvm.TypeDefs.resolve` looks them up.
* `Llvm.TypeDefs.text`: the text of a type.
* `Llvm.TypeDefs.equal`: whether two types are the same.
-/

namespace Codegen.Llvm

/-- A type of floating-point numbers. -/
inductive FloatKind where
  | half
  | single
  | double
  | extended
  | quadruple
  | paired
deriving DecidableEq, Repr

namespace FloatKind

/-- The word for a type of floating-point numbers. -/
def word : FloatKind → String
  | half => "half"
  | single => "float"
  | double => "double"
  | extended => "x86_fp80"
  | quadruple => "fp128"
  | paired => "ppc_fp128"

/-- All types of floating-point numbers. -/
def all : List FloatKind := [half, single, double, extended, quadruple, paired]

/-- The type of floating-point numbers that a word stands for. -/
def named? (w : String) : Option FloatKind := all.find? (·.word == w)

/-- The number of significant bits. -/
def precision : FloatKind → Nat
  | half => 11
  | single => 24
  | double => 53
  | extended => 64
  | quadruple => 113
  | paired => 106

/-- Whether there are decimal literals of a type. -/
def hasDecimals : FloatKind → Bool
  | half => true
  | single => true
  | double => true
  | _ => false

end FloatKind

/-- A type. -/
inductive TypeExpr where
  /-- No type: a part that an outline lacks. -/
  | missing
  | void
  | int (bits : Nat)
  | float (kind : FloatKind)
  /-- Another type without parts, by its word. -/
  | special (word : String)
  | pointer (elem : TypeExpr) (addrSpace : Nat)
  | array (length : Nat) (elem : TypeExpr)
  | vector (scalable : Bool) (length : Nat) (elem : TypeExpr)
  | struct (isPacked : Bool) (fields : List TypeExpr)
  | function (result : TypeExpr) (params : List TypeExpr) (variadic : Bool)
  | named (name : Name)
deriving Repr

namespace TypeExpr

mutual

/-- The number of constructors of a type. -/
def size : TypeExpr → Nat
  | pointer elem _ => elem.size + 1
  | array _ elem => elem.size + 1
  | vector _ _ elem => elem.size + 1
  | struct _ fields => sizeAll fields + 1
  | function result params _ => result.size + sizeAll params + 1
  | _ => 1

/-- The number of constructors of some types. -/
def sizeAll : List TypeExpr → Nat
  | [] => 0
  | t :: ts => t.size + sizeAll ts

end

mutual

/-- The names that occur in a type. -/
def names : TypeExpr → List Name
  | pointer elem _ => elem.names
  | array _ elem => elem.names
  | vector _ _ elem => elem.names
  | struct _ fields => namesAll fields
  | function result params _ => result.names ++ namesAll params
  | named n => [n]
  | _ => []

/-- The names that occur in some types. -/
def namesAll : List TypeExpr → List Name
  | [] => []
  | t :: ts => t.names ++ namesAll ts

end

/-- The type of blocks. -/
def label : TypeExpr := special "label"

/-- The type of notes on a program. -/
def metadata : TypeExpr := special "metadata"

/-- The type of tokens. -/
def token : TypeExpr := special "token"

/-- A pointer to something unknown. -/
def unknownPointer : TypeExpr := pointer missing 0

/-- Whether there is no type. -/
def isMissing : TypeExpr → Bool
  | missing => true
  | _ => false

/-- Whether a type is written as the type without values. -/
def isVoid : TypeExpr → Bool
  | void => true
  | _ => false

/-- Whether a type is written as one that values can have. -/
def isFirstClass : TypeExpr → Bool
  | missing => false
  | void => false
  | function _ _ _ => false
  | _ => true

/-- Whether a type is written as one that values other than notes can have. -/
def isConcrete : TypeExpr → Bool
  | special w => w != "metadata"
  | t => t.isFirstClass

/-- A type of the same kind that has none of its parts. -/
def outline : TypeExpr → TypeExpr
  | int _ => int 0
  | float _ => float .half
  | pointer _ _ => pointer missing 0
  | array _ _ => array 0 missing
  | vector _ _ _ => vector false 0 missing
  | struct _ _ => struct false []
  | function _ _ _ => function missing [] false
  | t => t

end TypeExpr

/-- Texts in a struct. -/
def structText (isPacked : Bool) (fields : List String) : String :=
  let inner := if fields.isEmpty then "\x7b\x7d"
    else "\x7b " ++ String.intercalate ", " fields ++ " \x7d"
  if isPacked then "<" ++ inner ++ ">" else inner

/-- The names of types, each with its type; a name without a type is one of a struct of which
nothing is known. Of several entries with one name the first counts. -/
abbrev TypeDefs := List (Name × Option TypeExpr)

namespace TypeDefs

variable (defs : TypeDefs)

/-! ### Names -/

/-- The name that a name stands for when names of names are followed, at most as many as given. -/
def canonicalWithin : Nat → Name → Name
  | 0, n => n
  | fuel + 1, n =>
    match defs.lookup n with
    | some (some (.named m)) => canonicalWithin fuel m
    | _ => n

/-- The name that a name stands for when names of names are followed. -/
def canonical (n : Name) : Name := defs.canonicalWithin (defs.length + 1) n

/-- The type that a type stands for. A name of which nothing is known stands for a struct without
fields. -/
def resolve : TypeExpr → TypeExpr
  | .named n =>
    match defs.lookup n with
    | some (some (.named m)) =>
      match defs.lookup (defs.canonical m) with
      | some (some t) => t.outline
      | _ => .struct false []
    | some (some t) => t
    | _ => .struct false []
  | t => t

/-- No type is deeper than all types together, unless a name stands for a part of itself. -/
def depth (t : TypeExpr) : Nat := t.size + TypeExpr.sizeAll (defs.filterMap (·.2)) + 1

/-! ### Text -/

/-- An address space as it stands in the text of a pointer. -/
def addrSpaceText : Nat → String
  | 0 => ""
  | n => s!" addrspace({n})"

mutual

/-- The text of a type. -/
def text : TypeExpr → String
  | .missing => "<nil>"
  | .void => "void"
  | .int bits => s!"i{bits}"
  | .float kind => kind.word
  | .special word => word
  | .pointer elem space => text elem ++ addrSpaceText space ++ "*"
  | .array length elem => s!"[{length} x " ++ text elem ++ "]"
  | .vector scalable length elem =>
    (if scalable then "<vscale x " else "<") ++ s!"{length} x " ++ text elem ++ ">"
  | .struct isPacked fields => structText isPacked (texts fields)
  | .function result params variadic =>
    text result ++ " (" ++
      String.intercalate ", " (texts params ++ if variadic then ["..."] else []) ++ ")"
  | .named n => (defs.canonical n).writtenType

/-- The texts of some types. -/
def texts : List TypeExpr → List String
  | [] => []
  | t :: ts => text t :: texts ts

end

/-! ### Equality -/

/-- The name of a type that is a name. -/
def name? : TypeExpr → Option Name
  | .named n => some (defs.canonical n)
  | _ => none

/-- Whether two types are the same, with names followed at most as deep as given. Structs with a
name are told apart by it; any other type is known by its parts. -/
def equalWithin : Nat → TypeExpr → TypeExpr → Bool
  | 0, _, _ => false
  | fuel + 1, t, u =>
    let isNamed := (defs.name? t).isSome || (defs.name? u).isSome
    match defs.resolve t, defs.resolve u with
    | .void, .void => true
    | .int m, .int n => m == n
    | .float j, .float k => j == k
    | .special v, .special w => v == w
    | .pointer d m, .pointer e n => m == n && equalWithin fuel d e
    | .array m d, .array n e => m == n && equalWithin fuel d e
    | .vector r m d, .vector s n e => r == s && m == n && equalWithin fuel d e
    | .struct p ds, .struct q es =>
      if isNamed then defs.name? t == defs.name? u
      else p == q && ds.length == es.length && (ds.zip es).all fun x => equalWithin fuel x.1 x.2
    | .function d ds p, .function e es q =>
      p == q && equalWithin fuel d e && ds.length == es.length &&
        (ds.zip es).all fun x => equalWithin fuel x.1 x.2
    | _, _ => false

/-- Whether two types are the same. -/
def equal (t u : TypeExpr) : Bool := defs.equalWithin (defs.depth t + defs.depth u) t u

/-- Whether a type stands for an integer type of a width. -/
def isInt (t : TypeExpr) (bits : Nat) : Bool :=
  match defs.resolve t with
  | .int n => n == bits
  | _ => false

/-- Whether a type stands for the type without values. -/
def isVoid (t : TypeExpr) : Bool := (defs.resolve t).isVoid

end TypeDefs

end Codegen.Llvm
