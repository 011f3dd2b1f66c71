import Codegen.Fault

/-!
# Settings

How a module is lowered.

## Main definitions

* `Config`: the settings.
-/

namespace Codegen

/-- The settings of a lowering. -/
structure Config where
  /-- The number of functions that are lowered at the same time. -/
  workers : Nat := 1
  /-- The greatest number of instructions, or of nodes, of a function; zero if there is none. -/
  limit : Nat := 0
  /-- Whether functions are checked before they are lowered. -/
  verify : Bool := false
deriving DecidableEq, Repr

namespace Config

/-- Sets the number of workers. There is at least one. -/
def withWorkers (c : Config) (n : Int) : Config := { c with workers := max 1 n.toNat }

/-- Sets the limit. A negative number is no limit. -/
def withLimit (c : Config) (n : Int) : Config := { c with limit := n.toNat }

/-- Sets whether functions are checked. -/
def withVerify (c : Config) (enabled : Bool) : Config := { c with verify := enabled }

end Config

end Codegen
