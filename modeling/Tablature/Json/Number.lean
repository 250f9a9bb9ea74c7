/-
# Tablature.Json.Number — numbers as they are written, and the doubles they stand for.

A number is kept as written: an integer without point and exponent is its value, any other number
(and negative zero, which is no integer value) keeps its digits. `toFloat?` gives the double that
a reader with a 64-bit significand obtains: digits are collected while the significand fits, what
follows only moves the exponent, and the significand is then scaled by a power of ten in one step
for exponents of ordinary size. The result is close to the number and for most numbers the nearest
double; the exact steps are fixed here because they decide the last bit. `ofFloat?` writes a
double with the fewest digits that read back.
-/
import Tablature.Decimal.Layout

namespace Tablature.Json

open Tablature.Text Tablature.Decimal

/-- A number with a point or an exponent, digit by digit; also negative zero. -/
structure Literal where
  negative : Bool
  whole : Nat
  fraction : List Char
  exponent : Option Int
  deriving DecidableEq, Repr

/-- A number as it is written. -/
inductive Number
  | integer (value : Int)
  | decimal (literal : Literal)
  deriving DecidableEq, Repr

/-- A significand of at most 64 bits and a power of ten. -/
structure Approximation where
  significand : Nat
  exponent : Int
  deriving DecidableEq, Repr

namespace Approximation

/-- The significand with one more digit, if it still fits in 64 bits. -/
def extend (significand : Nat) (digit : Char) : Option Nat :=
  let longer := significand * 10 + Numeral.digitValue digit
  if longer < Nat.pow 2 64 then some longer else none

/-- Collects the digits before the point. From the first digit that does not fit on, every digit
only raises the exponent. -/
def takeWhole : Nat → List Char → Approximation
  | significand, [] => ⟨significand, 0⟩
  | significand, c :: rest =>
      match extend significand c with
      | some longer => takeWhole longer rest
      | none => ⟨significand, rest.length + 1⟩

/-- Collects the digits after the point, down to the first that does not fit. -/
def takeFraction : Approximation → List Char → Approximation
  | a, [] => a
  | a, c :: rest =>
      match extend a.significand c with
      | some longer => takeFraction ⟨longer, a.exponent - 1⟩ rest
      | none => a

/-- The double `significand · 10 ^ exponent`, refused when it is too large. A significand of 64
bits is zero after two divisions by `1e308`, so three steps are enough. -/
def scale (f : Float) : Nat → Int → Option Float
  | 0, _ => some f
  | fuel + 1, exponent =>
      if exponent.natAbs ≤ 308 then
        let power := Float.ofScientific 1 false exponent.natAbs
        if exponent < 0 then some (f / power)
        else
          let product := f * power
          if product.isInf then none else some product
      else if f == 0.0 then some f
      else if 0 ≤ exponent then none
      else scale (f / 1e308) fuel (exponent + 308)

/-- The double of an approximation. -/
def toFloat? (a : Approximation) : Option Float :=
  scale (Float.ofScientific a.significand false 0) 4 a.exponent

end Approximation

/-- The double with the given sign. -/
def signed (negative : Bool) (f : Float) : Float := if negative then -f else f

namespace Literal

/-- The double that a literal stands for, if it is not too large. An exponent beyond 31 bits settles
the matter by itself. -/
def toFloat? (l : Literal) : Option Float :=
  let collected :=
    (Approximation.takeWhole 0 (Numeral.digits l.whole)).takeFraction l.fraction
  let exponent := l.exponent.getD 0
  let magnitude :=
    if exponent.natAbs < Nat.pow 2 31 then
      Approximation.toFloat? ⟨collected.significand, collected.exponent + exponent⟩
    else if collected.significand ≠ 0 && 0 < exponent then none
    else some 0.0
  magnitude.map (signed l.negative)

/-- The text of an exponent, its sign always written. -/
def exponentText (e : Int) : List Char :=
  (if e < 0 then ['e', '-'] else ['e', '+']) ++ Numeral.digits e.natAbs

/-- A literal as it is written. -/
def text (l : Literal) : List Char :=
  sign l.negative ++ Numeral.digits l.whole
    ++ (if l.fraction = [] then [] else '.' :: l.fraction)
    ++ (l.exponent.map exponentText).getD []

end Literal

namespace Number

/-- The double that a number stands for, if it is not too large. -/
def toFloat? : Number → Option Float
  | .integer value =>
      ((Approximation.takeWhole 0 (Numeral.digits value.natAbs)).toFloat?).map
        (signed (decide (value < 0)))
  | .decimal literal => literal.toFloat?

/-- Can a reader hold the number? An integer of 64 bits is kept as it is, and any other number has
to be within the range of doubles. -/
def inRange (n : Number) : Bool :=
  match n with
  | .integer value =>
      (-9223372036854775808 ≤ value && value < 18446744073709551616) || n.toFloat?.isSome
  | .decimal _ => n.toFloat?.isSome

/-- A number as it is written. -/
def text : Number → List Char
  | .integer value => Numeral.ofInt value
  | .decimal literal => literal.text

/-- The layout of a decimal: with a point and no exponent when the first digit stands between the
fifth place after the point and the sixteenth before it, otherwise one digit, the others and an
exponent. -/
def layOut (negative : Bool) (s : Scientific) : Literal :=
  let digits := Numeral.digits s.coefficient
  let leading : Int := digits.length - 1 + s.exponent
  if s.coefficient = 0 then ⟨negative, 0, ['0'], none⟩
  else if leading < -5 || 16 ≤ leading then
    ⟨negative, Numeral.accumulate 0 (digits.take 1), digits.drop 1, some leading⟩
  else if 0 ≤ s.exponent then ⟨negative, s.coefficient * Nat.pow 10 s.exponent.toNat, ['0'], none⟩
  else
    let places := (-s.exponent).toNat
    let rest := Numeral.digits (s.coefficient % Nat.pow 10 places)
    ⟨negative, s.coefficient / Nat.pow 10 places,
      List.replicate (places - rest.length) '0' ++ rest, none⟩

/-- A finite double in the fewest digits that read back, a tie going to the even digit. -/
def ofFloat? (x : Float) : Option Number :=
  match Double.ofFloat x with
  | .finite d => some (.decimal (layOut d.negative (shortest .toEven d)))
  | _ => none

end Number

end Tablature.Json
