import Codegen.Llvm.Module

/-!
# Types of a module of LLVM IR

Every name of a type that a module uses has to be defined. A name can be defined again only after a
definition that leaves the type unknown, and names of names must not go round in a circle.

## Main definitions

* `Llvm.TypeDefs.check`: whether the names of types are defined well.
* `Llvm.TypeDefs.checkType`: whether a type uses only names that are defined.
* `Llvm.TypeDefs.result`: the type of a result.
* `Llvm.TypeDefs.address`: the type of the address of a part.
-/

namespace Codegen.Llvm.TypeDefs

variable (defs : TypeDefs)

/-! ### Definitions -/

/-- Whether every type but the last one with a name is unknown. -/
def definesOnce : TypeDefs → Bool
  | [] => true
  | (n, _) :: earlier => earlier.all (fun d => d.1 != n || d.2.isNone) && definesOnce earlier

/-- Follows a name of names, at most as many as given. Names that go round in a circle break a rule,
and a name at the end that is not defined does not exist. -/
def follow : Nat → Name → Read Unit
  | 0, _ => .error .malformed
  | fuel + 1, n =>
    match defs.lookup n with
    | none => outOfRange
    | some (some (.named m)) => follow fuel m
    | some _ => .ok ()

/-- Checks that a type uses only names that are defined. -/
def checkType (t : TypeExpr) : Read Unit := demand (t.names.all (defs.map (·.1)).contains)

/-- Checks the definitions of types. -/
def check : Read Unit := do
  demand defs.definesOnce
  defs.forM fun d => defs.follow (defs.length + 1) d.1
  (defs.filterMap (·.2)).forM defs.checkType

/-! ### Types of results -/

/-- The type of a comparison of values of a type of some kind, or of a vector of them. -/
def comparison? (isKind : TypeExpr → Bool) (t : TypeExpr) : Option TypeExpr :=
  match defs.resolve t with
  | .vector _ length _ => some (.vector false length (.int 1))
  | t => if isKind t then some (.int 1) else none

/-- Whether a type is one of integers or of addresses. -/
def isComparable : TypeExpr → Bool
  | .int _ => true
  | .pointer _ _ => true
  | _ => false

/-- Whether a type is one of floating-point numbers. -/
def isFloat : TypeExpr → Bool
  | .float _ => true
  | _ => false

/-- The type of the elements of a vector. -/
def element? (t : TypeExpr) : Option TypeExpr :=
  match defs.resolve t with
  | .vector _ _ elem => some elem
  | _ => none

/-- A vector of elements of a vector, as many as a mask has. -/
def shuffled? (t mask : TypeExpr) : Option TypeExpr :=
  match defs.resolve t, defs.resolve mask with
  | .vector _ _ elem, .vector _ length _ => some (.vector false length elem)
  | _, _ => none

/-- The part of a type that numbers select. -/
def part : TypeExpr → List Nat → Read TypeExpr
  | t, [] => .ok t
  | t, i :: path =>
    match defs.resolve t with
    | .array _ elem => part elem path
    | .struct _ fields =>
      match fields[i]? with
      | some field => part field path
      | none => outOfRange
    | _ => illFormed

/-- What a pointer of a type points to. -/
def pointee? (t : TypeExpr) : Option TypeExpr :=
  match defs.resolve t with
  | .pointer elem _ => some elem
  | _ => none

/-- The type of a result. -/
def result : TypeRule → Read TypeExpr
  | .plain t => .ok t
  | .compared t => orIllFormed (defs.comparison? isComparable t)
  | .comparedFloat t => orIllFormed (defs.comparison? isFloat t)
  | .element t => orIllFormed (defs.element? t)
  | .vector t => orIllFormed ((defs.element? t).map fun _ => t)
  | .shuffled t mask => orIllFormed (defs.shuffled? t mask)
  | .pointee t => orIllFormed (defs.pointee? t)
  | .part t path => defs.part t path
  | .called t =>
    match defs.resolve t with
    | .function result _ _ => .ok result
    | _ => .ok t

/-! ### Addresses -/

/-- What is known of an index. -/
structure Index where
  /-- The value, if it is known. -/
  value : Option Int := none
  /-- The number of lanes, if the index is a vector. -/
  lanes : Option Nat := none
deriving DecidableEq, Repr

/-- The low 64 bits of an integer, as a number with a sign. -/
def Index.low (v : Int) : Int := (Int64.ofInt v).toInt

/-- The value of all elements of a vector after the first one, if they are equal to it. An element
is looked at only if those before it are equal to the first one; it has to be an integer then. -/
def Index.common (first : Int) : List Const → Read (Option Int)
  | [] => .ok (some first)
  | c :: cs =>
    match c.value? with
    | none => illFormed
    | some v => if low v = first then common first cs else .ok none

/-- The index that a constant is. -/
def Index.ofConst : Const → Read Index
  | .int _ v => .ok { value := some (low v) }
  | .bool _ b => .ok { value := some (if b then 1 else 0) }
  | .word _ "zeroinitializer" => .ok { value := some 0 }
  | .word _ "undef" => .ok {}
  | .word _ "poison" => .ok {}
  | .expr _ _ _ => .ok {}
  | .inRange c => ofConst c
  | .aggregate _ .vector (c :: cs) =>
    match c.value? with
    | none => illFormed
    | some v => do return { value := ← common (low v) cs, lanes := some (cs.length + 1) }
  | _ => illFormed

/-- The number of lanes of a type. -/
def lanes? (t : TypeExpr) : Option Nat :=
  match defs.resolve t with
  | .vector _ length _ => some length
  | _ => none

/-- The part of a type that an index selects. A field of a struct is selected by a known value. -/
def selected (t : TypeExpr) (index : Index) : Read TypeExpr :=
  match defs.resolve t with
  | .array _ elem => .ok elem
  | .vector _ _ elem => .ok elem
  | .struct _ fields =>
    match index.value with
    | none => illFormed
    | some (.ofNat i) =>
      match fields[i]? with
      | some field => .ok field
      | none => outOfRange
    | some (.negSucc _) => outOfRange
  | _ => illFormed

/-- The address space of a type of addresses. -/
def pointerSpace? (t : TypeExpr) : Option Nat :=
  match defs.resolve t with
  | .pointer _ space => some space
  | _ => none

/-- The address space of a type of addresses, or of vectors of them. -/
def addressSpace? (t : TypeExpr) : Option Nat :=
  match defs.resolve t with
  | .vector _ _ elem => defs.pointerSpace? elem
  | t => defs.pointerSpace? t

/-- The type of the address that indices select from an address of a type, in the same address
space. The first index does not select a part. -/
def address (elem baseType : TypeExpr) (indices : List Index) : Read TypeExpr := do
  let space ← orIllFormed (defs.addressSpace? baseType)
  let t ← (indices.drop 1).foldlM defs.selected elem
  match (defs.lanes? baseType).toList ++ indices.filterMap (·.lanes) with
  | [] => return .pointer t space
  | n :: ns => if ns.all (· == n) then return .vector false n (.pointer t space) else illFormed

end Codegen.Llvm.TypeDefs
