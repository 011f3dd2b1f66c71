import Codegen.X86.Instr

/-!
# Condition codes

A comparison sets flags, and a condition code says which flags make a jump happen. Only the signed
codes and the two for equality have a jump here.

## Main definitions

* `X86.Cond`: the condition codes.
* `X86.Cond.swap`: the code for the operands in the other order.
* `X86.Cond.jump?`: the jump for a code.
-/

namespace Codegen.X86

/-- A condition on the flags that a comparison sets. -/
inductive Cond where
  | e
  | ne
  | l
  | le
  | g
  | ge
  | b
  | be
  | a
  | ae
deriving DecidableEq, Repr

namespace Cond

/-- The condition codes in the order of their numbers. -/
def all : List Cond := [e, ne, l, le, g, ge, b, be, a, ae]

/-- The text of a condition code. -/
def name : Cond → String
  | e => "e"
  | ne => "ne"
  | l => "l"
  | le => "le"
  | g => "g"
  | ge => "ge"
  | b => "b"
  | be => "be"
  | a => "a"
  | ae => "ae"

/-- The condition code with a number. -/
def numbered (n : Nat) : Except Fault Cond :=
  match all[n]? with
  | some c => .ok c
  | none => .error .noSuchCondition

/-- The code that holds of `y` and `x` exactly if this one holds of `x` and `y`. -/
def swap : Cond → Cond
  | e => e
  | ne => ne
  | l => g
  | le => ge
  | g => l
  | ge => le
  | b => a
  | be => ae
  | a => b
  | ae => be

/-- The jump that happens if the code holds. -/
def jump? : Cond → Option Opcode
  | e => some .je
  | ne => some .jne
  | l => some .jl
  | le => some .jle
  | g => some .jg
  | ge => some .jge
  | _ => none

/-- The code of a predicate. -/
def ofPredicate : Predicate → Cond
  | .eq => e
  | .ne => ne
  | .slt => l
  | .sle => le
  | .sgt => g
  | .sge => ge
  | .ult => b
  | .ule => be
  | .ugt => a
  | .uge => ae

/-- The code of the predicate with a number. -/
def ofNumberedPredicate (n : Nat) : Except Fault Cond :=
  match Predicate.all[n]? with
  | some p => .ok (ofPredicate p)
  | none => .error .noSuchCondition

/-- The jump of the condition code with a number. -/
def numberedJump? (n : Nat) : Option Opcode := all[n]? >>= jump?

end Cond

end Codegen.X86
