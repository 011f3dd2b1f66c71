import Codegen.Fault

/-!
# Types

The types of a module are kept in one table and named by their position, so that two types are the
same exactly if their numbers are. A type mentions its components by number. Number `0` names no
type; number `1` is `void`, which every table holds from the start.

## Main definitions

* `Ty`: one type, with its components as numbers; `Ty.key`: the text by which it is found.
* `TypeTable`: the table; `TypeTable.intern` finds a type or adds it.
* `TypeTable.size`: bytes of storage, modulo `2 ^ 64`.
* `TypeTable.text`: the text of a type.
-/

namespace Codegen

/-- The number of a type in its table. -/
abbrev TypeId := Nat

namespace TypeId

/-- The number that names no type. -/
def invalid : TypeId := 0

/-- The number of `void` in every table. -/
def void : TypeId := 1

end TypeId

/-- The shape of a type. -/
inductive TypeKind where
  | invalid
  | void
  | int
  | pointer
  | array
  | function
deriving DecidableEq, Repr

namespace TypeKind

/-- The name of a kind. -/
def name : TypeKind → String
  | invalid => "invalid"
  | void => "void"
  | int => "int"
  | pointer => "pointer"
  | array => "array"
  | function => "function"

/-- The kind with a number, counted in the order of declaration; any other number is invalid. -/
def numbered : Nat → TypeKind
  | 1 => void
  | 2 => int
  | 3 => pointer
  | 4 => array
  | 5 => function
  | _ => invalid

end TypeKind

/-- A type whose components are numbers of the same table. A pointer to the invalid type is
opaque. -/
inductive Ty where
  | void
  | int (bits : Nat)
  | pointer (elem : TypeId)
  | array (length : UInt64) (elem : TypeId)
  | function (result : TypeId) (params : List TypeId) (variadic : Bool)
deriving DecidableEq, Repr

/-- The kind of a type. -/
def Ty.kind : Ty → TypeKind
  | .void => .void
  | .int _ => .int
  | .pointer _ => .pointer
  | .array _ _ => .array
  | .function _ _ _ => .function

/-- The text by which a type is found in its table. Its components stand in it as numbers. -/
def Ty.key : Ty → String
  | .void => "v"
  | .int bits => s!"i{bits}"
  | .pointer elem => s!"p{elem}"
  | .array length elem => s!"a{length},{elem}"
  | .function result params variadic =>
    s!"f{result}(" ++ String.join (params.map fun p => s!"{p},") ++
      (if variadic then "...)" else ")")

/-- The types of a module. The type numbered `n + 1` is the entry at `n`. -/
structure TypeTable where
  /-- The types in the order in which they were first asked for. -/
  entries : Array Ty := #[.void]
deriving DecidableEq, Repr

namespace TypeTable

/-- The number of bytes of a pointer. -/
def pointerSize : UInt64 := 8

/-! ### Looking up -/

/-- The type with a number, if there is one. -/
def get? (t : TypeTable) : TypeId → Option Ty
  | 0 => none
  | n + 1 => t.entries[n]?

/-- The type with a number. -/
def get (t : TypeTable) (id : TypeId) : Except Fault Ty :=
  match t.get? id with
  | some ty => .ok ty
  | none => .error (.noSuchType id)

/-- The kind of the type with a number; a number outside the table is of the invalid kind. -/
def kind (t : TypeTable) (id : TypeId) : TypeKind :=
  match t.get? id with
  | some ty => ty.kind
  | none => .invalid

/-- Whether a number names the integer type of a width. -/
def isInt (t : TypeTable) (id : TypeId) (bits : Int) : Bool :=
  match t.get? id with
  | some (.int b) => (b : Int) == bits
  | _ => false

/-- The width of an integer type. -/
def intBits (t : TypeTable) (id : TypeId) : Except Fault Nat := do
  match ← t.get id with
  | .int bits => return bits
  | ty => throw (.typeComponent "IntBits" ty.kind.name)

/-- The pointee of a pointer or the element of an array. -/
def elem (t : TypeTable) (id : TypeId) : Except Fault TypeId := do
  match ← t.get id with
  | .pointer e => return e
  | .array _ e => return e
  | ty => throw (.typeComponent "Elem" ty.kind.name)

/-- The length of an array. -/
def length (t : TypeTable) (id : TypeId) : Except Fault UInt64 := do
  match ← t.get id with
  | .array n _ => return n
  | ty => throw (.typeComponent "Len" ty.kind.name)

/-- A function type taken apart. -/
structure Signature where
  /-- The type of the result. -/
  result : TypeId
  /-- The types of the parameters in order. -/
  params : List TypeId
  /-- Whether more arguments may follow the parameters. -/
  variadic : Bool
deriving DecidableEq, Repr

/-- The components of a function type. -/
def signature (t : TypeTable) (id : TypeId) : Except Fault Signature := do
  match ← t.get id with
  | .function result params variadic => return ⟨result, params, variadic⟩
  | ty => throw (.typeComponent "Signature" ty.kind.name)

/-! ### Adding -/

/-- The number of a type, together with the table that holds it. A type whose key is already there
keeps its number, any other is added at the end. -/
def intern (t : TypeTable) (ty : Ty) : TypeId × TypeTable :=
  match t.entries.toList.findIdx? (·.key == ty.key) with
  | some i => (i + 1, t)
  | none => (t.entries.size + 1, ⟨t.entries.push ty⟩)

/-- The integer type of a width, which has to be positive. -/
def int (t : TypeTable) (bits : Int) : Except Fault (TypeId × TypeTable) :=
  if bits ≤ 0 then .error (.integerWidth bits) else .ok (t.intern (.int bits.toNat))

/-- The pointer type to `elem`. -/
def pointer (t : TypeTable) (elem : TypeId) : TypeId × TypeTable :=
  t.intern (.pointer elem)

/-- The array type of `length` elements of type `elem`. -/
def array (t : TypeTable) (elem : TypeId) (length : UInt64) : TypeId × TypeTable :=
  t.intern (.array length elem)

/-- The function type with a result, parameters and perhaps further arguments. -/
def function (t : TypeTable) (result : TypeId) (params : List TypeId) (variadic : Bool) :
    TypeId × TypeTable :=
  t.intern (.function result params variadic)

/-! ### Size and text

A type is unfolded at most once per entry of the table, which is enough for every type that does
not contain itself. -/

/-- The size of a type, unfolding it at most `depth` levels deep. -/
def sizeWithin (t : TypeTable) : Nat → TypeId → Except Fault UInt64
  | 0, _ => .error .outOfRange
  | depth + 1, id => do
    match ← t.get id with
    | .int bits => return UInt64.ofNat ((bits + 7) / 8)
    | .pointer _ => return pointerSize
    | .array n e => return (← sizeWithin t depth e) * n
    | .void => return 0
    | .function _ _ _ => return 0

/-- The number of bytes that a value of the type occupies, modulo `2 ^ 64`. `void` and function
types have no storage. -/
def size (t : TypeTable) (id : TypeId) : Except Fault UInt64 :=
  t.sizeWithin (t.entries.size + 1) id

/-- The text of a type, unfolding it at most `depth` levels deep. -/
def textWithin (t : TypeTable) : Nat → TypeId → Except Fault String
  | 0, _ => .error .outOfRange
  | depth + 1, id => do
    if id = TypeId.invalid then return "invalid"
    match ← t.get id with
    | .void => return "void"
    | .int bits => return s!"i{bits}"
    | .pointer e =>
      if e = TypeId.invalid then return "ptr"
      return (← textWithin t depth e) ++ "*"
    | .array n e => return s!"[{n} x " ++ (← textWithin t depth e) ++ "]"
    | .function result params variadic =>
      let params ← params.mapM (textWithin t depth)
      let result ← textWithin t depth result
      let params := if variadic then params ++ ["..."] else params
      return result ++ " (" ++ ", ".intercalate params ++ ")"

/-- The text of a type. The invalid type has a text of its own. -/
def text (t : TypeTable) (id : TypeId) : Except Fault String :=
  t.textWithin (t.entries.size + 2) id

end TypeTable

end Codegen
