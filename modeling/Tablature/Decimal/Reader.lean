/-
# Tablature.Decimal.Reader — doubles read from the values of options.

The accepted texts are an optional sign followed by `inf`, `infinity` or `nan` in any case, or by
a decimal: digits with at most one point among or around them, at least one digit in all, then
optionally an exponent. The value is the double nearest to the decimal.
-/
import Tablature.Text.Blank
import Tablature.Text.Numeral

namespace Tablature.Decimal

open Tablature.Text

/-- The double nearest to `coefficient · 10 ^ exponent`. Magnitudes far outside the range of
doubles are settled first, so that no huge power is computed. -/
def nearest (coefficient : Nat) (exponent : Int) : Float :=
  let magnitude := (Numeral.digits coefficient).length + exponent
  if coefficient = 0 || magnitude < -400 then 0.0
  else if 400 < magnitude then 1.0 / 0.0
  else Float.ofScientific coefficient (decide (exponent < 0)) exponent.natAbs

/-- The value of the exponent part of a decimal: nothing at all, or `e` and a signed numeral. -/
def readExponent : List Char → Option Int
  | [] => some 0
  | c :: rest =>
      if c = 'e' || c = 'E' then
        match rest with
        | '-' :: digits => (Numeral.readDigits digits).map fun n => -(n : Int)
        | _ => (Numeral.readDigits (Numeral.withoutPlus rest)).map Int.ofNat
      else none

/-- A decimal without a sign. -/
def readDecimal (text : List Char) : Option Float :=
  let whole := text.takeWhile Char.isDigit
  let rest := text.dropWhile Char.isDigit
  let (fraction, tail) := match rest with
    | '.' :: after => (after.takeWhile Char.isDigit, after.dropWhile Char.isDigit)
    | _ => ([], rest)
  let digits := whole ++ fraction
  if digits = [] then none
  else (readExponent tail).map fun exponent =>
    nearest (Numeral.accumulate 0 digits) (exponent - fraction.length)

/-- A number without a sign, the two that are not decimals included. -/
def readMagnitude (text : List Char) : Option Float :=
  let word := lower text
  if word = "inf".toList || word = "infinity".toList then some (1.0 / 0.0)
  else if word = "nan".toList then some (0.0 / 0.0)
  else readDecimal text

/-- A number with at most one sign in front. -/
def readFloat (text : List Char) : Option Float :=
  match text with
  | '-' :: rest => (readMagnitude rest).map Neg.neg
  | '+' :: rest => readMagnitude rest
  | _ => readMagnitude text

end Tablature.Decimal
