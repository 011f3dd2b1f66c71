import Codegen.Llvm.Decimal
import Codegen.Llvm.IntText
import Codegen.Llvm.Problem
import Codegen.Llvm.Type

/-!
# Floating-point constants

A literal is a decimal number or gives the bits of a number. A decimal literal is rounded to the
number of significant bits of its type; one of bits tells its format, and with it its number of
significant bits, itself. Exponents are of any size. A number is written in decimal if the fewest
digits that tell it apart in its type are the number itself. Otherwise its bits are written, in the
format of the type.

## Main definitions

* `Llvm.FloatValue`: a floating-point number, with its number of significant bits.
* `Llvm.FloatFormat`: a format of bits, with `decode` and `encode`.
* `Llvm.readFloat`: the value of a literal.
* `Llvm.FloatValue.text`: the text of a value of a type.
-/

namespace Codegen.Llvm

open Decimal (Fraction)

/-- How large a floating-point number is. -/
inductive Magnitude where
  | finite (f : Fraction)
  | infinite
  | undefined
deriving DecidableEq, Repr

/-- A floating-point number. -/
structure FloatValue where
  /-- Whether it has a minus sign. -/
  negative : Bool
  /-- How large it is. -/
  magnitude : Magnitude
  /-- The number of significant bits. -/
  precision : Nat
deriving DecidableEq, Repr

/-! ### Formats -/

/-- A format of bits: a sign, an exponent and a fraction. -/
structure FloatFormat where
  /-- The number of bits of the exponent. -/
  exponent : Nat
  /-- The number of bits of the fraction. -/
  fraction : Nat
deriving DecidableEq, Repr

namespace FloatFormat

/-- The format of 16 bits. -/
def half : FloatFormat := ⟨5, 10⟩

/-- The format of 16 bits with the exponents of the format of 32 bits. -/
def brain : FloatFormat := ⟨8, 7⟩

/-- The format of 64 bits. -/
def double : FloatFormat := ⟨11, 52⟩

/-- The format of 80 bits, without the first bit of the fraction, which is written there. -/
def extended : FloatFormat := ⟨15, 63⟩

/-- The format of 128 bits. -/
def quadruple : FloatFormat := ⟨15, 112⟩

variable (format : FloatFormat)

/-- The number of fractions. -/
def fractions : Nat := Nat.pow 2 format.fraction

/-- The exponent of what is no finite number. -/
def special : Nat := Nat.pow 2 format.exponent - 1

/-- The exponent that stands for zero. -/
def bias : Nat := Nat.pow 2 (format.exponent - 1) - 1

/-- The bits of a sign. -/
def signBit (negative : Bool) : Nat :=
  if negative then Nat.pow 2 (format.exponent + format.fraction) else 0

/-- How large the number of an exponent and a fraction is. -/
def magnitude (exponent fraction : Nat) : Magnitude :=
  if exponent = format.special then
    if fraction = 0 then .infinite else .undefined
  else
    let significant := if exponent = 0 then fraction else format.fractions + fraction
    let place : Int := max exponent 1
    .finite (Fraction.scaled significant 2 (place - format.bias - format.fraction))

/-- The number that bits stand for. -/
def decode (bits : Nat) : FloatValue where
  negative := bits / format.fractions / (format.special + 1) % 2 == 1
  magnitude :=
    format.magnitude (bits / format.fractions % (format.special + 1)) (bits % format.fractions)
  precision := format.fraction + 1

/-- The bits of a fraction, without a sign. What does not fit into the fraction of the format is cut
off in the way that is given. -/
def encodeFraction (cut : Fraction → Nat) (f : Fraction) : Nat :=
  if f.isZero then 0
  else
    let lowest : Int := 1 - (format.bias : Int)
    let place := max (Decimal.top f) lowest - format.fraction
    let steps := (place + format.fraction + format.bias - 1).toNat
    min (steps * format.fractions + cut (f.scale 2 (-place))) (format.special * format.fractions)

/-- The bits of a number. What is no number has the highest bit of the fraction set. -/
def encode (cut : Fraction → Nat) (v : FloatValue) : Nat :=
  format.signBit v.negative +
    match v.magnitude with
    | .finite f => format.encodeFraction cut f
    | .infinite => format.special * format.fractions
    | .undefined => format.special * format.fractions + format.fractions / 2

end FloatFormat

/-! ### Literals -/

/-- The digits of a literal before and after the point, and the exponent. -/
def splitDecimal (cs : List Char) : List Char × List Char × Int :=
  let whole := cs.takeWhile Char.isDigit
  let rest := (cs.dropWhile Char.isDigit).drop 1
  let frac := rest.takeWhile Char.isDigit
  let e : Int := match (rest.dropWhile Char.isDigit).drop 1 with
    | '-' :: ds => -(((digits? ds).getD 0 : Nat) : Int)
    | '+' :: ds => (digits? ds).getD 0
    | ds => (digits? ds).getD 0
  (whole, frac, e)

/-- A bound of decimal exponents beyond which every format has only zero and infinity. -/
def exponentBound : Nat := 20000

/-- The value of a decimal literal without its sign. -/
def decimalValue (precision : Nat) (negative : Bool) (cs : List Char) : FloatValue :=
  let (whole, frac, e) := splitDecimal cs
  let bound : Int := exponentBound + (whole.length + frac.length : Nat)
  let n := (digits? (whole ++ frac)).getD 0
  let f := Fraction.scaled n 10 (max (-bound) (min e bound) - frac.length)
  ⟨negative, .finite (Decimal.roundFraction precision f), precision⟩

/-- A value with other significant bits. -/
def FloatValue.rounded (v : FloatValue) (precision : Nat) : FloatValue :=
  { v with
    precision
    magnitude := match v.magnitude with
      | .finite f => .finite (Decimal.roundFraction precision f)
      | m => m }

/-- A number of some bits from hexadecimal digits. -/
def readBits (bits : Nat) (cs : List Char) : Read Nat := do
  let n := hexNumber cs
  demand (!cs.isEmpty && n < Nat.pow 2 bits)
  return n

/-- The value of the 80 bits of a number: four digits for the sign and the exponent, then the
significant bits. Of those with the highest exponent, only the one with a single significant bit is
infinite. -/
def readExtended (cs : List Char) : Read FloatValue := do
  if cs.length < 4 then outOfRange
  let head := hexNumber (cs.take 4)
  let significant ← readBits 64 (cs.drop 4)
  let exponent := head % 32768
  let magnitude :=
    if exponent = 32767 then
      if significant = FloatFormat.extended.fractions then .infinite else .undefined
    else .finite (Fraction.scaled significant 2 ((max exponent 1 : Nat) - 16383 - 63))
  return ⟨head / 32768 == 1, magnitude, 64⟩

/-- The sum of two numbers, with some significant bits. Infinities with different signs have no
sum. -/
def FloatValue.sum (precision : Nat) (v w : FloatValue) : Read FloatValue :=
  match v.magnitude, w.magnitude with
  | .undefined, _ => .ok ⟨false, .undefined, precision⟩
  | _, .undefined => .ok ⟨false, .undefined, precision⟩
  | .infinite, .infinite =>
    if v.negative == w.negative then .ok ⟨v.negative, .infinite, precision⟩ else illFormed
  | .infinite, _ => .ok ⟨v.negative, .infinite, precision⟩
  | _, .infinite => .ok ⟨w.negative, .infinite, precision⟩
  | .finite f, .finite g =>
    let total : FloatValue :=
      if v.negative == w.negative then ⟨v.negative, .finite (f.add g), precision⟩
      else if g.lt f then ⟨v.negative, .finite (f.sub g), precision⟩
      else if f.lt g then ⟨w.negative, .finite (g.sub f), precision⟩
      else ⟨false, .finite ⟨0, 1⟩, precision⟩
    .ok (total.rounded precision)

/-- The value of two numbers of 64 bits whose sum is the number. -/
def readPaired (cs : List Char) : Read FloatValue := do
  if cs.length < 16 then outOfRange
  let high ← readBits 64 (cs.take 16)
  let low ← readBits 64 (cs.drop 16)
  (FloatFormat.double.decode high).sum 106 (FloatFormat.double.decode low)

/-- The value of a literal of a type. A literal of bits tells its format itself, unless it has no
letter for it: then it has the format of 64 bits, and like a decimal literal it is there for some
types only. -/
def readFloat (kind : FloatKind) (literal : String) : Read FloatValue :=
  match literal.toList with
  | '0' :: 'x' :: 'K' :: cs => readExtended cs
  | '0' :: 'x' :: 'L' :: cs => do return FloatFormat.quadruple.decode (← readBits 128 cs)
  | '0' :: 'x' :: 'M' :: cs => readPaired cs
  | '0' :: 'x' :: 'H' :: cs => do return FloatFormat.half.decode (← readBits 16 cs)
  | '0' :: 'x' :: 'R' :: cs => do return FloatFormat.brain.decode (← readBits 16 cs)
  | '0' :: 'x' :: cs => do
    let bits ← readBits 64 cs
    if !kind.hasDecimals then illFormed
    return (FloatFormat.double.decode bits).rounded kind.precision
  | cs =>
    if !kind.hasDecimals then illFormed
    else
      match cs with
      | '-' :: cs => .ok (decimalValue kind.precision true cs)
      | '+' :: cs => .ok (decimalValue kind.precision false cs)
      | cs => .ok (decimalValue kind.precision false cs)

/-! ### Text -/

namespace FloatValue

variable (v : FloatValue)

/-- The decimal text of a value of a type, if the fewest digits that tell it apart in the type are
the value itself. The text has as many digits as tell the value apart among those with its number of
significant bits. -/
def decimalText? (kind : FloatKind) : Option String :=
  let sign := if v.negative then "-" else ""
  match v.magnitude with
  | .finite f =>
    if f.isZero then some (sign ++ "0.0")
    else if (Decimal.shortest (Decimal.round kind.precision f)).fraction.same f then
      some (sign ++ (Decimal.shortest (Decimal.round v.precision f)).text)
    else none
  | _ => none

/-- The 16 bits of a fraction, without a sign. Of an exponent that is too large for its bits, the
lowest ones are kept, up to the place of the sign. A fraction that is too small for the format has
the eleven bits that start nine places below its highest one. -/
def halfFraction (f : Fraction) : Nat :=
  let top := Decimal.top f
  if f.isZero then 0
  else if -14 ≤ top then
    ((top + 15).toNat * 1024) % 65536 ||| ((f.scale 2 (10 - top)).floor - 1024)
  else if -24 ≤ top then (f.scale 2 24).floor
  else (f.scale 2 (19 - top)).floor % 2048

/-- The 16 bits of a value. -/
def halfBits : Nat :=
  match v.magnitude with
  | .finite f => FloatFormat.half.signBit v.negative ||| halfFraction f
  | _ => FloatFormat.half.encode Fraction.floor v

/-- The 64 bits of the nearest number to a value. -/
def doubleBits : Nat := FloatFormat.double.encode Fraction.nearest v

/-- The bits of a number of the type of 32 bits, in the format of 64 bits: the lowest bits of the
fraction are not part of it. -/
def singleBits : Nat :=
  let unused := Nat.pow 2 29
  v.doubleBits / unused * unused

/-- The text of the 80 bits of a value. What is no number has all bits of the fraction set but the
first one. -/
def extendedText : String :=
  let format := FloatFormat.extended
  let bits := format.encode Fraction.floor v
  let head := bits / format.fractions
  let fraction := bits % format.fractions
  let significant := match v.magnitude with
    | .undefined => 3 * (format.fractions / 2) - 1
    | _ => if head % 32768 = 0 then fraction else format.fractions + fraction
  "0xK" ++ paddedHexText 4 head ++ paddedHexText 16 significant

/-- The 64 bits of what a value is more than the number of some other 64 bits. -/
def restBits (high : Nat) : Nat :=
  match v.magnitude, (FloatFormat.double.decode high).magnitude with
  | .finite f, .finite g =>
    let isBelow := f.lt g
    let rest := if isBelow then g.sub f else f.sub g
    if rest.isZero then 0 else doubleBits ⟨v.negative != isBelow, .finite rest, 53⟩
  | _, _ => 0

/-- The text of two numbers of 64 bits whose sum is a value with 106 significant bits. There is none
if the first one would have to be infinite. -/
def pairedText : Except String String :=
  let v := v.rounded 106
  let high := v.doubleBits
  let text (high low : Nat) : String := "0xM" ++ paddedHexText 16 high ++ paddedHexText 16 low
  match v.magnitude, (FloatFormat.double.decode high).magnitude with
  | .undefined, _ => .ok (text (high + 1) 0)
  | .finite _, .infinite => .error "addition of infinities with opposite signs"
  | _, _ => .ok (text high (v.restBits high))

/-- The text of a value of a type, or a message that tells why there is none. -/
def text : FloatKind → Except String String
  | .half => .ok ((v.decimalText? .half).getD ("0xH" ++ paddedHexText 4 v.halfBits))
  | .single => .ok ((v.decimalText? .single).getD ("0x" ++ hexText v.singleBits))
  | .double => .ok ((v.decimalText? .double).getD ("0x" ++ hexText v.doubleBits))
  | .extended => .ok v.extendedText
  | .quadruple =>
    .ok ("0xL" ++ paddedHexText 32 (FloatFormat.quadruple.encode Fraction.floor v))
  | .paired => v.pairedText

end FloatValue

/-- The text of a literal of a type, or a message that tells why there is none. -/
def floatText (kind : FloatKind) (literal : String) : Except String String :=
  match readFloat kind literal with
  | .ok v => v.text kind
  | .error _ => .ok literal

end Codegen.Llvm
