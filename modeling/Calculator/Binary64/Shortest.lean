import Calculator.Binary64.Basic
import Calculator.Decimal.Numeral

/-!
# The shortest text of a binary64 number

A finite number is written with the fewest digits that identify it among all binary64 numbers, and
of those with the ones nearest to it, of two equally near the larger.  The coarsest power of ten
with a multiple among the reals that round to the number gives these digits.  No exponent is
written, nor a fraction that is zero.
-/

namespace Calculator.Binary64

/-- The fraction digits that suffice for the shortest digits of every number. -/
def finestScale : Nat := 340

/-- The reals that round to a number, as the interval `[lower / unit, upper / unit]` around
`centre / unit`; the ends belong to it or not. -/
structure Interval where
  lower : Nat
  centre : Nat
  upper : Nat
  unit : Nat
  closed : Bool

namespace Interval

/-- The interval of a finite number, in units of the finest scale.  Below the least significand of a
normal binade the neighbour is only half as far. -/
def ofFloat (x : Float) : Interval :=
  let power := pow2 (exponent x).toNat * pow10 finestScale
  let m := significand x
  { lower := (if m = pow2 52 ∧ 1 < exponentField x then 4 * m - 1 else 4 * m - 2) * power
    centre := 4 * m * power
    upper := (4 * m + 2) * power
    unit := 4 * pow2 (-exponent x).toNat
    closed := m % 2 == 0 }

def contains (i : Interval) (c : Nat) : Bool :=
  if i.closed then i.lower ≤ c * i.unit && c * i.unit ≤ i.upper
  else i.lower < c * i.unit && c * i.unit < i.upper

/-- The multiple of `step` in the interval that is nearest to the centre. -/
def nearestMultiple? (i : Interval) (step : Nat) : Option Nat :=
  let below := i.centre / (i.unit * step) * step
  let above := below + step
  if i.contains above && (!i.contains below
      || above * i.unit - i.centre ≤ i.centre - below * i.unit) then some above
  else if i.contains below then some below
  else none

/-- The nearest multiple of the coarsest power of ten, up to `10 ^ n`, that has one. -/
def coarsest? (i : Interval) : Nat → Option Nat
  | 0 => i.nearestMultiple? 1
  | n + 1 => (i.nearestMultiple? (pow10 (n + 1))).or (i.coarsest? n)

end Interval

/-- Powers of ten above this one exceed every finite number. -/
def largestPower : Nat := 308

/-- The shortest magnitude that identifies a finite number. -/
def shortest (x : Float) : Magnitude :=
  if significand x = 0 then .zero
  else
    Magnitude.trim ⟨((Interval.ofFloat x).coarsest? (largestPower + finestScale)).getD 0, finestScale⟩

/-- The shortest digits, without an exponent; the sign of zero is written. -/
def text (x : Float) : List Char :=
  if isNaN x then "NaN".toList
  else
    let magnitude := if isInfinite x then "inf".toList else (shortest x).text
    if negative x then '-' :: magnitude else magnitude

end Calculator.Binary64
