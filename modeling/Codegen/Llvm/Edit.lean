import Codegen.Fault
import Codegen.Llvm.Module

/-!
# Changing modules of LLVM IR

Changes that no text of a module can stand for, or that leave it with names that stand for nothing.
They show what an importer does with a module that was not read from a text. A change of a part that
is not there is a fault.

## Main definitions

* `Llvm.Edit`: a change of a function.
* `Llvm.Module.edit`: the module after a change.
-/

namespace Codegen.Llvm

/-- A change of a function. Blocks, instructions and parameters are given by their places. -/
inductive Edit where
  /-- Leaves out the terminator of a block. -/
  | dropTerminator (block : Nat)
  /-- Leaves out an instruction of a block. -/
  | dropInst (block inst : Nat)
  /-- Leaves out a block. -/
  | dropBlock (block : Nat)
  /-- Lets the jump at the end of a block lead to a parameter. -/
  | jumpToParam (block param : Nat)
  /-- Gives a comparison a number that stands for no predicate. -/
  | unknownPredicate (block inst : Nat)
  /-- Makes a parameter a pointer to something unknown. -/
  | opaqueParam (param : Nat)
deriving DecidableEq, Repr

/-- The number that stands for no predicate. -/
def noPredicate : Nat := 99

/-- Changes the member of a list at a place. -/
def changeAt {α : Type} (f : α → Except Fault α) : List α → Nat → Except Fault (List α)
  | [], _ => .error .outOfRange
  | a :: as, 0 => do return (← f a) :: as
  | a :: as, n + 1 => do return a :: (← changeAt f as n)

/-- Leaves out the member of a list at a place. -/
def dropAt {α : Type} : List α → Nat → Except Fault (List α)
  | [], _ => .error .outOfRange
  | _ :: as, 0 => .ok as
  | a :: as, n + 1 => do return a :: (← dropAt as n)

/-- The instruction with a predicate that is none, if it is a comparison. -/
def Inst.withoutPredicate (inst : Inst) : Except Fault Inst :=
  match inst.op with
  | .icmp _ t x y => .ok { inst with op := .icmp (.unknown noPredicate) t x y }
  | _ => .error .outOfRange

/-- The block with a jump to a parameter, if it ends with a jump. -/
def Block.withJumpToParam (b : Block) : Except Fault Block :=
  match b.term with
  | some (.br _) => .ok { b with term := some (.br .param) }
  | _ => .error .outOfRange

namespace Func

variable (f : Func)

/-- Changes a block. -/
def changeBlock (n : Nat) (change : Block → Except Fault Block) : Except Fault Func := do
  return { f with blocks := ← changeAt change f.blocks n }

/-- The function after a change. -/
def edit : Edit → Except Fault Func
  | .dropTerminator b => f.changeBlock b fun blk => .ok { blk with term := none }
  | .dropInst b i => f.changeBlock b fun blk => do return { blk with insts := ← dropAt blk.insts i }
  | .dropBlock b => do return { f with blocks := ← dropAt f.blocks b }
  | .jumpToParam b p =>
    if p < f.params.length then f.changeBlock b Block.withJumpToParam else .error .outOfRange
  | .unknownPredicate b i => f.changeBlock b fun blk => do
    return { blk with insts := ← changeAt Inst.withoutPredicate blk.insts i }
  | .opaqueParam p => do
    let unknown (param : Param) : Except Fault Param := .ok { param with type := .unknownPointer }
    return { f with params := ← changeAt unknown f.params p }

end Func

/-- The module after a change of the first function with a name. -/
def Module.edit (m : Module) (name : String) (e : Edit) : Except Fault Module := do
  match m.funcs.findIdx? (·.name.label == encode name) with
  | none => throw .outOfRange
  | some n => return { m with funcs := ← changeAt (·.edit e) m.funcs n }

end Codegen.Llvm
