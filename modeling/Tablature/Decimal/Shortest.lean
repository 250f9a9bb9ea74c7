/-
# Tablature.Decimal.Shortest — the fewest digits that read back.

Every double has an interval of reals that round to it; its ends belong to it exactly when the
mantissa is even. The shortest decimal is found on the coarsest decimal grid that has a point in
the interval: for one digit, two digits and so on up to seventeen, the two neighbours of the value
on the grid are tested in exact arithmetic. Of two points on the same grid the nearer one is
taken; which of two equally near points wins is a parameter.
-/
import Tablature.Decimal.Binary
import Tablature.Text.Numeral

namespace Tablature.Decimal

/-- Which of two equally near neighbours is taken. -/
inductive Tie
  | toEven
  | upward
  deriving DecidableEq, Repr

/-- The number `coefficient · 10 ^ exponent`. -/
structure Scientific where
  coefficient : Nat
  exponent : Int
  deriving DecidableEq, Repr

/-- The interval of a double in quarters of its last binary place: the numerators of its lower
end, its value and its upper end over one common denominator, and whether the ends belong to it.
-/
structure Interval where
  low : Nat
  value : Nat
  high : Nat
  denominator : Nat
  closed : Bool

/-- The interval of a positive double. Below a power of two the doubles lie twice as dense, so the
lower half of the interval is half as wide there. -/
def Interval.ofDyadic (d : Dyadic) : Interval :=
  let narrow := d.mantissa == Nat.pow 2 52 && decide (-1074 < d.exponent)
  let up := Dyadic.scaleUp (d.exponent - 2)
  { low := (4 * d.mantissa - if narrow then 1 else 2) * up
    value := 4 * d.mantissa * up
    high := (4 * d.mantissa + 2) * up
    denominator := Dyadic.scaleDown (d.exponent - 2)
    closed := d.mantissa % 2 == 0 }

namespace Interval

/-- Is the point in the interval? The point is a numerator over the interval's denominator times
`shrink`. -/
def holds (i : Interval) (point shrink : Nat) : Bool :=
  let low := i.low * shrink
  let high := i.high * shrink
  if i.closed then decide (low ≤ point) && decide (point ≤ high)
  else decide (low < point) && decide (point < high)

/-- The point of the grid of multiples of `10 ^ exponent` that lies in the interval and is nearest
to its value, if the grid has a point in the interval. -/
def onGrid (i : Interval) (tie : Tie) (exponent : Int) : Option Nat :=
  let unit := Nat.pow 10 exponent.toNat * i.denominator
  let shrink := Nat.pow 10 (-exponent).toNat
  let value := i.value * shrink
  let below := value / unit
  let rest := value % unit
  match i.holds (below * unit) shrink, i.holds ((below + 1) * unit) shrink with
  | true, false => some below
  | false, true => some (below + 1)
  | false, false => none
  | true, true =>
      if 2 * rest < unit then some below
      else if unit < 2 * rest then some (below + 1)
      else match tie with
        | .toEven => some (if below % 2 = 0 then below else below + 1)
        | .upward => some (below + 1)

/-- The exponent of the first digit of the interval's value. Three tenths and a little is the
logarithm of two, close enough that only the next exponent remains to be tried. -/
def leading (i : Interval) : Int :=
  let binary : Int := (Nat.log2 i.value : Int) - Nat.log2 i.denominator
  let guess := Int.fdiv (binary * 30103) 100000
  let next := guess + 1
  if Nat.pow 10 next.toNat * i.denominator ≤ i.value * Nat.pow 10 (-next).toNat then next
  else guess

/-- The first grid with a point in the interval, trying `fuel` grids from `exponent` downwards. -/
def search (i : Interval) (tie : Tie) : Nat → Int → Scientific
  | 0, exponent => ⟨0, exponent⟩
  | fuel + 1, exponent =>
      match i.onGrid tie exponent with
      | some point => ⟨point, exponent⟩
      | none => i.search tie fuel (exponent - 1)

end Interval

/-- The coefficient without zeros at its end. -/
def Scientific.strip (s : Scientific) : Scientific :=
  if h : s.coefficient ≠ 0 ∧ s.coefficient % 10 = 0 then
    strip ⟨s.coefficient / 10, s.exponent + 1⟩
  else s
termination_by s.coefficient
decreasing_by omega

/-- The shortest decimal that rounds to the absolute value of a finite double. Seventeen digits
always suffice. -/
def shortest (tie : Tie) (d : Dyadic) : Scientific :=
  if d.mantissa = 0 then ⟨0, 0⟩
  else
    let i := Interval.ofDyadic d
    (i.search tie 18 i.leading).strip

end Tablature.Decimal
