/-!
# Text of integers

An integer is written in decimal, unless it is much more even in hexadecimal. How uneven digits are
is measured by the number of different ones among them.

## Main definitions

* `Llvm.DigitCount`: how many digits a number has, and how many of them differ.
* `Llvm.prefersHex`: whether a number is written in hexadecimal.
* `Llvm.intText`: the text of an integer.
-/

namespace Codegen.Llvm

/-- How many digits a number has in a base, and how many of them differ. -/
structure DigitCount where
  /-- The number of digits; ten stand for all that are more. -/
  all : Nat
  /-- The number of different digits. -/
  different : Nat
deriving DecidableEq, Repr

/-- The digits of a number in a base, counted. -/
def DigitCount.of (base n : Nat) : DigitCount :=
  let digits := Nat.toDigits base n
  ⟨min digits.length 10, digits.eraseDups.length⟩

/-- Whether a number is written in hexadecimal: it has more than three hexadecimal digits, and with
one digit more, at most two fifths of them would differ, which is half of the share of different
digits in decimal or less. -/
def prefersHex (n : Nat) : Bool :=
  let hex := DigitCount.of 16 n
  let decimal := DigitCount.of 10 n
  4096 ≤ n && 5 * hex.different ≤ 2 * (hex.all + 1) &&
    2 * hex.different * decimal.all ≤ decimal.different * (hex.all + 1)

/-- The hexadecimal digits of a number. -/
def hexText (n : Nat) : String := String.ofList ((Nat.toDigits 16 n).map Char.toUpper)

/-- The hexadecimal digits of a number, at least as many as given. -/
def paddedHexText (width n : Nat) : String :=
  let digits := hexText n
  String.ofList (List.replicate (width - digits.length) '0') ++ digits

/-- The text of an integer. -/
def intText : Int → String
  | .ofNat n => if prefersHex n then "u0x" ++ hexText n else toString n
  | .negSucc n => toString (Int.negSucc n)

end Codegen.Llvm
