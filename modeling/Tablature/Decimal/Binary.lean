/-
# Tablature.Decimal.Binary — the exact value of a double.

A finite double is `± mantissa · 2 ^ exponent` with a mantissa below `2 ^ 53`; `ofFloat` reads the
three parts off the bits. Everything that is written in decimals is computed from this exact value
in whole numbers, so that no rounding happens twice.
-/
namespace Tablature.Decimal

/-- The value `± mantissa · 2 ^ exponent`. -/
structure Dyadic where
  negative : Bool
  mantissa : Nat
  exponent : Int
  deriving DecidableEq, Repr

/-- What the bits of a double stand for. -/
inductive Double
  | finite (value : Dyadic)
  | infinite (negative : Bool)
  | undefined
  deriving DecidableEq, Repr

namespace Double

/-- Sign, biased exponent and fraction of a double, put together: a biased exponent of zero has no
leading one, and the largest stands for infinities and for the undefined value. -/
def ofParts (negative : Bool) (biased fraction : Nat) : Double :=
  if biased = 2047 then
    if fraction = 0 then .infinite negative else .undefined
  else if biased = 0 then .finite ⟨negative, fraction, -1074⟩
  else .finite ⟨negative, fraction + Nat.pow 2 52, (biased : Int) - 1075⟩

/-- The exact meaning of a double. -/
def ofFloat (x : Float) : Double :=
  let bits := x.toBits.toNat
  ofParts (bits / Nat.pow 2 63 == 1) (bits / Nat.pow 2 52 % 2048) (bits % Nat.pow 2 52)

end Double

namespace Dyadic

/-- The part of the numerator that a power of two contributes. -/
def scaleUp (exponent : Int) : Nat := Nat.pow 2 exponent.toNat

/-- The part of the denominator that a power of two contributes. -/
def scaleDown (exponent : Int) : Nat := Nat.pow 2 (-exponent).toNat

/-- The numerator of the absolute value. -/
def numerator (d : Dyadic) : Nat := d.mantissa * scaleUp d.exponent

/-- The denominator of the absolute value, a power of two. -/
def denominator (d : Dyadic) : Nat := scaleDown d.exponent

end Dyadic

end Tablature.Decimal
