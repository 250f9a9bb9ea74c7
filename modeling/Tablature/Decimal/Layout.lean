/-
# Tablature.Decimal.Layout — decimal texts of doubles.

Three layouts are used. *Plain* text has the shortest digits and never an exponent. *Fixed* text
has a given number of places, computed from the exact value, a half going to the even neighbour.
The layout of JSON numbers is in `Tablature.Json.Number`, over the same digits.
-/
import Tablature.Decimal.Shortest

namespace Tablature.Decimal

open Tablature.Text

/-- The quotient rounded to the nearest whole number, a half to the even one. -/
def roundQuotient (numerator denominator : Nat) : Nat :=
  let whole := numerator / denominator
  let rest := numerator % denominator
  if 2 * rest < denominator then whole
  else if denominator < 2 * rest then whole + 1
  else if whole % 2 = 0 then whole else whole + 1

/-- A minus sign for negative values, negative zero included. -/
def sign (negative : Bool) : List Char := if negative then ['-'] else []

/-- The digits of `coefficient · 10 ^ exponent` written without an exponent. -/
def positional (s : Scientific) : List Char :=
  let digits := Numeral.digits s.coefficient
  if 0 ≤ s.exponent then digits ++ List.replicate s.exponent.toNat '0'
  else
    let places := (-s.exponent).toNat
    if digits.length ≤ places then
      '0' :: '.' :: List.replicate (places - digits.length) '0' ++ digits
    else digits.take (digits.length - places) ++ '.' :: digits.drop (digits.length - places)

/-- The texts of the doubles that are no number. -/
def unboundedText (negative : Bool) : List Char := sign negative ++ ['i', 'n', 'f']

/-- The shortest digits that read back, without an exponent. -/
def plain (x : Float) : String :=
  String.ofList <| match Double.ofFloat x with
    | .undefined => ['N', 'a', 'N']
    | .infinite negative => unboundedText negative
    | .finite d => sign d.negative ++ positional (shortest .upward d)

/-- The digits of a number of units in the last of `places` places. -/
def withPlaces (places units : Nat) : List Char :=
  let digits := Numeral.digits units
  let padded := List.replicate (places + 1 - digits.length) '0' ++ digits
  if places = 0 then padded
  else padded.take (padded.length - places) ++ '.' :: padded.drop (padded.length - places)

/-- The value rounded to `places` decimal places; the sign of a value that rounds to zero stays. -/
def fixed (places : Nat) (x : Float) : String :=
  String.ofList <| match Double.ofFloat x with
    | .undefined => ['N', 'a', 'N']
    | .infinite negative => unboundedText negative
    | .finite d =>
        sign d.negative ++
          withPlaces places (roundQuotient (d.numerator * Nat.pow 10 places) d.denominator)

end Tablature.Decimal
