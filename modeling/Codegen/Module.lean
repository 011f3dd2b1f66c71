import Codegen.Func

/-!
# Modules

A module is a list of functions that share one table of types.

## Main definitions

* `Module`: a module.
* `Module.addFunc`: adds a function and makes its arguments.
* `Module.addConst`: adds an integer constant to a function.
-/

namespace Codegen

/-- Functions that share one table of types. -/
structure Module where
  /-- The name of the module. -/
  name : String
  /-- The types of all functions. -/
  types : TypeTable := {}
  /-- The functions in the order of their declaration. -/
  funcs : Array Func := #[]
deriving DecidableEq, Repr

namespace Module

/-- The function at a position. -/
def func (m : Module) (n : Nat) : Except Fault Func :=
  match m.funcs[n]? with
  | some f => .ok f
  | none => .error .outOfRange

/-- The first function with a name. -/
def find? (m : Module) (name : String) : Option Func :=
  m.funcs.toList.find? (·.name == name)

/-- Puts a function back in its place. -/
def setFunc (m : Module) (f : Func) : Module :=
  { m with funcs := m.funcs.setIfInBounds f.index f }

/-- Adds a function of a function type. Its arguments are its first values. -/
def addFunc (m : Module) (name : String) (sig : TypeId) : Except Fault (Func × Module) := do
  let s ← m.types.signature sig
  let args := (List.range s.params.length).zip s.params
  let f : Func :=
    { index := m.funcs.size
      name, sig
      params := args.map (·.1 + 1)
      values := (Value.absent :: args.map fun (n, t) => Value.arg n t).toArray }
  return (f, { m with funcs := m.funcs.push f })

/-- Adds an integer constant of a width to a function. -/
def addConst (m : Module) (f : Func) (bits : Int) (payload : Int64) :
    Except Fault (ValueId × Module) := do
  let (t, types) ← m.types.int bits
  let (v, f) := f.addValue (.const payload t)
  return (v, { m with types }.setFunc f)

end Module

end Codegen
