/-!
# Names in LLVM IR

Values, blocks, types, functions and global variables of LLVM IR are named by a text or by a
number. A text that holds other characters than letters, digits and `-$._` is written in quotes, and
every byte in it can be written as a backslash and two hexadecimal digits. A text that reads as a
number is shown in quotes, so that it is not taken for one. Names are made of bytes, which need not
encode characters.

## Main definitions

* `Llvm.Name`: a name.
* `Llvm.Name.shown`: the name as other texts show it.
* `Llvm.Name.written`: the name as LLVM IR writes it.
* `Llvm.unescape`: the bytes of a quoted text without its escapes.
-/

namespace Codegen.Llvm

/-! ### Characters -/

/-- The characters with which a word can start. Other words than numbers start with one of them. -/
def isLetter (c : Char) : Bool := c.isAlpha || c == '-' || c == '$' || c == '.' || c == '_'

/-- The characters of words. -/
def isWordChar (c : Char) : Bool := isLetter c || c.isDigit

/-- The value of a hexadecimal digit. -/
def hexValue? (c : Char) : Option Nat :=
  if c.isDigit then some (c.toNat - '0'.toNat)
  else if 'a' ≤ c ∧ c ≤ 'f' then some (c.toNat - 'a'.toNat + 10)
  else if 'A' ≤ c ∧ c ≤ 'F' then some (c.toNat - 'A'.toNat + 10)
  else none

/-- The number that hexadecimal digits stand for. -/
def hexNumber (cs : List Char) : Nat := cs.foldl (fun n c => 16 * n + (hexValue? c).getD 0) 0

/-- The number that decimal digits stand for; there has to be one at least. -/
def digits? (cs : List Char) : Option Nat :=
  if !cs.isEmpty && cs.all Char.isDigit then
    some (cs.foldl (fun n c => 10 * n + (c.toNat - '0'.toNat)) 0)
  else none

/-- The number that decimal digits after an optional sign stand for, if it has 64 bits. -/
def int64? (s : String) : Option Int :=
  let signed := match s.toList with
    | '-' :: cs => (digits? cs).map fun n => -(n : Int)
    | '+' :: cs => (digits? cs).map Int.ofNat
    | cs => (digits? cs).map Int.ofNat
  signed.filter fun n => -9223372036854775808 ≤ n && n ≤ 9223372036854775807

/-! ### Bytes -/

/-- The character that some bytes encode, if they encode exactly one. -/
def charOf? (bytes : List UInt8) : Option Char :=
  match (String.fromUTF8? ⟨bytes.toArray⟩).map String.toList with
  | some [c] => some c
  | _ => none

/-- The characters that bytes encode. A byte that belongs to no character is replaced by the
replacement character. The first argument bounds the number of characters. -/
def decodeWithin : Nat → List UInt8 → List Char
  | 0, _ => []
  | _, [] => []
  | fuel + 1, b :: bs =>
    match [1, 2, 3, 4].findSome? fun n => (charOf? ((b :: bs).take n)).map (·, n) with
    | some (c, n) => c :: decodeWithin fuel ((b :: bs).drop n)
    | none => '�' :: decodeWithin fuel bs

/-- The text that bytes encode, with replacement characters for bytes that belong to no
character. -/
def decode (bytes : List UInt8) : String := String.ofList (decodeWithin bytes.length bytes)

/-- The bytes of a text. -/
def encode (s : String) : List UInt8 := s.toUTF8.toList

/-! ### Escapes -/

/-- The bytes of a text in which a backslash and two hexadecimal digits stand for a byte, and two
backslashes for one. -/
def unescape : List Char → List UInt8
  | [] => []
  | '\\' :: '\\' :: cs => 92 :: unescape cs
  | '\\' :: a :: b :: cs =>
    match hexValue? a, hexValue? b with
    | some x, some y => UInt8.ofNat (16 * x + y) :: unescape cs
    | _, _ => 92 :: unescape (a :: b :: cs)
  | c :: cs => encode (String.singleton c) ++ unescape cs

/-- A hexadecimal digit. -/
def hexDigit (n : Nat) : Char := "0123456789ABCDEF".toList.getD n '0'

/-- A byte as it stands in a quoted text. -/
def escapeByte (b : UInt8) : List Char :=
  if 32 ≤ b ∧ b ≤ 126 ∧ b ≠ 34 ∧ b ≠ 92 then [Char.ofNat b.toNat]
  else ['\\', hexDigit (b.toNat / 16), hexDigit (b.toNat % 16)]

/-- Bytes in quotes with escapes. -/
def quoted (bytes : List UInt8) : String :=
  "\"" ++ String.ofList (bytes.flatMap escapeByte) ++ "\""

/-- Bytes as they stand after the sign of their kind: in quotes unless they are a word. -/
def escaped (bytes : List UInt8) : String :=
  if bytes.all fun b => b < 128 && isWordChar (Char.ofNat b.toNat) then decode bytes
  else quoted bytes

/-! ### Names -/

/-- A name. -/
inductive Name where
  | text (bytes : List UInt8)
  | number (n : Nat)
deriving DecidableEq, Repr

namespace Name

/-- The name of things that have none. They are numbered instead, in the order of the text. -/
def blank : Name := number 0

/-- The name that a word without quotes stands for. A number has 63 bits at most. -/
def ofWord (cs : List Char) : Name :=
  match (digits? cs).filter (· < 9223372036854775808) with
  | some n => number n
  | none => text (encode (String.ofList cs))

/-- The name that a text in quotes stands for. The empty text is no name and counts as a name that
was left out. -/
def ofQuoted (cs : List Char) : Name :=
  let bytes := unescape cs
  if bytes.isEmpty then blank else text bytes

/-- The bytes of a name. They have quotes around them if a text reads as a number. -/
def label : Name → List UInt8
  | number n => encode (toString n)
  | text bytes =>
    match int64? (decode bytes) with
    | some n => encode ("\"" ++ toString n ++ "\"")
    | none => bytes

/-- The name as other texts show it. -/
def shown (n : Name) : String := decode n.label

/-- The name as LLVM IR writes it, without the sign of its kind. -/
def bare : Name → String
  | number n => toString n
  | text bytes =>
    let s := decode bytes
    if (digits? s.toList).any (· < 18446744073709551616) then "\"" ++ s ++ "\"" else escaped bytes

/-- The name of a value or of a block as LLVM IR writes it. -/
def written (n : Name) : String := "%" ++ n.bare

/-- The name of a function or of a global variable as LLVM IR writes it. -/
def writtenGlobal (n : Name) : String := "@" ++ n.bare

/-- The name under which a type is known. A text that reads as a number is known with its
quotes. -/
def ofType (n : Name) : Name := text n.label

/-- The name under which a type is known as LLVM IR writes it. -/
def writtenType : Name → String
  | number n => "%" ++ toString n
  | text bytes => "%" ++ escaped bytes

/-- The name under which the result of an instruction is known. A text that reads as a number is
known with its quotes, so that no written name refers to it by accident. -/
def ofResult : Name → Name
  | number n => number n
  | text bytes => text (text bytes).label

end Name

end Codegen.Llvm
