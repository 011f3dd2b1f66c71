import Codegen.Llvm.Name

/-!
# Flags of a command line

An argument that starts with one or two dashes is a flag, and can hold a value after an equals sign.
Flags end at the first argument that is none, or behind an argument of two dashes alone. Numbers are
written in base ten, or in another base that is told by how they start, and can have underscores
between their digits.

## Main definitions

* `Flag.Arg`: what an argument is.
* `Flag.intValue?`, `Flag.boolValue?`: the values of flags.
-/

namespace Codegen.Flag

/-- What an argument is. -/
inductive Arg where
  /-- No flag. -/
  | plain
  /-- The end of the flags. -/
  | separator
  /-- A flag, with the value that it holds. -/
  | flag (name : String) (value : Option String)
  /-- A flag without a name. -/
  | malformed
deriving DecidableEq, Repr

/-- The flag that follows the dashes. The first character belongs to the name. -/
def ofBody : List Char → Arg
  | [] => .malformed
  | c :: cs =>
    if c == '-' || c == '=' then .malformed
    else
      let name := String.ofList (c :: cs.takeWhile (· != '='))
      match cs.dropWhile (· != '=') with
      | [] => .flag name none
      | _ :: value => .flag name (some (String.ofList value))

/-- What an argument is. One dash alone is no flag. -/
def Arg.ofString (s : String) : Arg :=
  match s.toList with
  | ['-', '-'] => .separator
  | '-' :: '-' :: body => ofBody body
  | '-' :: c :: body => ofBody (c :: body)
  | _ => .plain

/-! ### Numbers -/

/-- The number that digits of a base stand for when they follow those of `n`. An underscore has to
stand between digits; `afterDigit` says whether a digit, or the mark of the base, is in front. -/
def readDigits (base : Nat) : Nat → Bool → List Char → Option Nat
  | n, afterDigit, [] => if afterDigit then some n else none
  | n, afterDigit, '_' :: cs => if afterDigit then readDigits base n false cs else none
  | n, _, c :: cs =>
    match Llvm.hexValue? c with
    | some d => if d < base then readDigits base (base * n + d) true cs else none
    | none => none

/-- The base that a letter behind a zero stands for. -/
def baseOf? (c : Char) : Option Nat :=
  match c.toLower with
  | 'b' => some 2
  | 'o' => some 8
  | 'x' => some 16
  | _ => none

/-- A number without a sign. A zero in front stands for base eight, unless a letter gives another
base. -/
def readNat? : List Char → Option Nat
  | '0' :: c :: d :: cs =>
    match baseOf? c with
    | some base => readDigits base 0 true (d :: cs)
    | none => readDigits 8 0 true (c :: d :: cs)
  | '0' :: cs => readDigits 8 0 true cs
  | cs => readDigits 10 0 false cs

/-- A number of 64 bits. -/
def intValue? (s : String) : Option Int :=
  let value := match s.toList with
    | '-' :: cs => (readNat? cs).map fun n => -(n : Int)
    | '+' :: cs => (readNat? cs).map Int.ofNat
    | cs => (readNat? cs).map Int.ofNat
  value.filter fun n => -9223372036854775808 ≤ n && n ≤ 9223372036854775807

/-! ### Truth values -/

/-- A truth value. -/
def boolValue? (s : String) : Option Bool :=
  if ["1", "t", "T", "true", "TRUE", "True"].contains s then some true
  else if ["0", "f", "F", "false", "FALSE", "False"].contains s then some false
  else none

end Codegen.Flag
