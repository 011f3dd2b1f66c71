/-!
# Decimal text of binary numbers

A binary number of some significant bits is shown with the fewest decimal digits that read back as
the same number. Between exponents `-4` and `5` the text is positional, otherwise it has an
exponent, and it always has a point.

## Main definitions

* `Decimal.Binary`: a number `m * 2 ^ q` with `m` of a given number of bits.
* `Decimal.round`: the nearest such number to a fraction.
* `Decimal.shortest`: the fewest digits that read back as the same number.
* `Decimal.Digits.text`: the text of a number, by its digits.
-/

namespace Codegen.Llvm.Decimal

/-! ### Fractions and binary numbers -/

/-- A fraction that is not negative. -/
structure Fraction where
  /-- The numerator. -/
  num : Nat
  /-- The denominator. -/
  den : Nat
deriving DecidableEq, Repr

namespace Fraction

/-- The fraction `n * b ^ e`. -/
def scaled (n b : Nat) (e : Int) : Fraction :=
  match e with
  | .ofNat k => ⟨n * b.pow k, 1⟩
  | .negSucc k => ⟨n, b.pow (k + 1)⟩

/-- The product of a fraction and `b ^ e`. -/
def scale (f : Fraction) (b : Nat) (e : Int) : Fraction :=
  match e with
  | .ofNat k => ⟨f.num * b.pow k, f.den⟩
  | .negSucc k => ⟨f.num, f.den * b.pow (k + 1)⟩

/-- Whether a fraction is less than another one. -/
def lt (f g : Fraction) : Bool := f.num * g.den < g.num * f.den

/-- Whether a fraction is at most another one. -/
def le (f g : Fraction) : Bool := f.num * g.den ≤ g.num * f.den

/-- Whether two fractions are the same number. -/
def same (f g : Fraction) : Bool := f.num * g.den == g.num * f.den

/-- The sum of two fractions. -/
def add (f g : Fraction) : Fraction := ⟨f.num * g.den + g.num * f.den, f.den * g.den⟩

/-- The difference of two fractions, of which the second one is not larger. -/
def sub (f g : Fraction) : Fraction := ⟨f.num * g.den - g.num * f.den, f.den * g.den⟩

/-- Whether a fraction is zero. -/
def isZero (f : Fraction) : Bool := f.num == 0

/-- The largest natural number that is not larger. -/
def floor (f : Fraction) : Nat := f.num / f.den

/-- The nearest natural number; of two the even one. -/
def nearest (f : Fraction) : Nat :=
  let q := f.num / f.den
  let r := f.num % f.den
  if 2 * r < f.den then q else if f.den < 2 * r then q + 1 else if q % 2 = 0 then q else q + 1

end Fraction

/-- The positive number `m * 2 ^ q`. -/
structure Binary where
  /-- The significant bits. -/
  m : Nat
  /-- The exponent. -/
  q : Int
deriving DecidableEq, Repr

/-- The largest exponent of two that is at most a fraction, give or take one. -/
def log2 (f : Fraction) : Int := (Nat.log2 f.num : Int) - (Nat.log2 f.den : Int)

/-- The exponent of the highest bit of a positive fraction. -/
def top (f : Fraction) : Int :=
  let e := log2 f
  if (Fraction.scaled 1 2 e).le f then e else e - 1

/-- The nearest number of `bits` significant bits to a positive fraction. -/
def round (bits : Nat) (f : Fraction) : Binary :=
  let q := top f - (bits - 1 : Nat)
  let m := (f.scale 2 (-q)).nearest
  if m = Nat.pow 2 bits then ⟨Nat.pow 2 (bits - 1), q + 1⟩ else ⟨m, q⟩

/-- The fraction that is a binary number. -/
def Binary.fraction (b : Binary) : Fraction := Fraction.scaled b.m 2 b.q

/-- The nearest fraction of `bits` significant bits to a fraction. -/
def roundFraction (bits : Nat) (f : Fraction) : Fraction :=
  if f.isZero then f else (round bits f).fraction

/-! ### Shortest digits -/

/-- The number `0.d₁d₂… * 10 ^ exponent`, by its digits. -/
structure Digits where
  /-- The digits; the first one is not zero. -/
  digits : List Char
  /-- The place of the point. -/
  exponent : Int
deriving DecidableEq, Repr

/-- Whether a fraction rounds to a binary number: the ends of the interval belong to it if the
significant bits are even. -/
def reads (b : Binary) (f : Fraction) : Bool :=
  let low := Fraction.scaled (2 * b.m - 1) 2 (b.q - 1)
  let high := Fraction.scaled (2 * b.m + 1) 2 (b.q - 1)
  if b.m % 2 = 0 then low.le f && f.le high else low.lt f && f.lt high

/-- The place of the point of a positive fraction: it is at least `10 ^ (place - 1)` and less than
`10 ^ place`. The search goes up from a place that is not too high. -/
def place (f : Fraction) : Nat → Int → Int
  | 0, p => p
  | fuel + 1, p => if f.lt (Fraction.scaled 1 10 p) then p else place f fuel (p + 1)

/-- The neighbours of a fraction among the numbers with `n` digits, the nearer one first. -/
def neighbours (f : Fraction) (p : Int) (n : Nat) : List Nat :=
  let g := f.scale 10 (n - p)
  let down := g.num / g.den
  if g.nearest = down then [down, down + 1] else [down + 1, down]

/-- The digits of a natural number, without zeros at the end. -/
def significant (n : Nat) : List Char :=
  ((Nat.toDigits 10 n).reverse.dropWhile (· == '0')).reverse

/-- The digits of `n * 10 ^ (p - k)`, if `n` has `k` digits or is `10 ^ k`. -/
def digitsOf (n k : Nat) (p : Int) : Digits :=
  ⟨significant n, if n = Nat.pow 10 k then p + 1 else p⟩

/-- The fewest digits, from `n` on, that read back as the same number. -/
def search (b : Binary) (f : Fraction) (p : Int) : Nat → Nat → Digits
  | 0, n => digitsOf (f.scale 10 (n - p)).nearest n p
  | fuel + 1, n =>
    match (neighbours f p n).find? fun d => reads b (Fraction.scaled d 10 (p - n)) with
    | some d => digitsOf d n p
    | none => search b f p fuel (n + 1)

/-- The fewest digits that read back as the same number. -/
def shortest (b : Binary) : Digits :=
  let f := b.fraction
  let low := log2 f * 3 / 10 - 2
  let p := place f ((log2 f).natAbs + 8) low
  search b f p 40 1

/-! ### Text -/

/-- An exponent with a sign and two digits at least. -/
def exponentText (e : Int) : String :=
  let digits := toString e.natAbs
  (if e < 0 then "e-" else "e+") ++ (if digits.length < 2 then "0" ++ digits else digits)

/-- A whole part and a fractional part that is not empty. -/
def pointed (whole frac : List Char) : String :=
  String.ofList (if whole.isEmpty then ['0'] else whole) ++ "." ++
    String.ofList (if frac.isEmpty then ['0'] else frac)

/-- The number that digits stand for. -/
def Digits.fraction (d : Digits) : Fraction :=
  let n := d.digits.foldl (fun n c => 10 * n + (c.toNat - '0'.toNat)) 0
  Fraction.scaled n 10 (d.exponent - d.digits.length)

/-- The text of a positive number, by its digits. -/
def Digits.text (d : Digits) : String :=
  let e := d.exponent - 1
  if e < -4 ∨ 6 ≤ e then pointed (d.digits.take 1) (d.digits.drop 1) ++ exponentText e
  else if d.exponent ≤ 0 then
    pointed [] (List.replicate d.exponent.natAbs '0' ++ d.digits)
  else
    let whole := d.exponent.toNat
    pointed (d.digits.take whole ++ List.replicate (whole - d.digits.length) '0')
      (d.digits.drop whole)

end Codegen.Llvm.Decimal
