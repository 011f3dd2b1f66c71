import Codegen.Fault

/-!
# Problems of reading LLVM IR

## Main definitions

* `Llvm.ReadProblem`: why a text stands for no module.
* `Llvm.Read`: what is read, or a problem.
-/

namespace Codegen.Llvm

/-- Why a text stands for no module. -/
inductive ReadProblem where
  /-- The text breaks a rule of the language. -/
  | malformed
  /-- The text asks for a part that does not exist. -/
  | fault (f : Fault)
deriving DecidableEq, Repr

/-- What is read from a text, or a problem. -/
abbrev Read := Except ReadProblem

/-- What is there, or a text that breaks a rule. -/
def orMalformed {α : Type} : Option α → Read α
  | some a => .ok a
  | none => .error .malformed

/-- Stops unless a rule is kept. -/
def demand (isKept : Bool) : Read Unit := if isKept then .ok () else .error .malformed

/-- Stops at a part that is not well formed, though it keeps the rules of the language. -/
def illFormed {α : Type} : Read α := .error (.fault .illFormed)

/-- What is there, or a part that is not well formed. -/
def orIllFormed {α : Type} : Option α → Read α
  | some a => .ok a
  | none => illFormed

/-- Stops at a part that does not exist. -/
def outOfRange {α : Type} : Read α := .error (.fault .outOfRange)

end Codegen.Llvm
