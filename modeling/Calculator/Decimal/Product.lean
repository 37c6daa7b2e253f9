import Calculator.Decimal.Rounding

/-!
# Products

A product is exact at the sum of the scales and then rounded.  The scale and sign of a zero are
settled by the size of the factors: a factor that is zero gives the plain `0`; two short factors
whose product lies far below the last fraction digit give the plain `0` as well, and otherwise a
zero without a sign; with a long factor the zero keeps the sign of the product.
-/

namespace Calculator

namespace Magnitude

/-- A coefficient of at most 32 bits. -/
def isShort (m : Magnitude) : Bool := m.coefficient < pow2 32

/-- The largest scale at which the product of two short factors is still rounded digit by digit. -/
def maxShortScale : Nat := 47

def mul? (a b : Magnitude) : Option Magnitude :=
  if a.coefficient = 0 ∨ b.coefficient = 0 then some zero
  else if a.isShort && b.isShort && decide (maxShortScale < a.scale + b.scale) then some zero
  else fit? ⟨a.coefficient * b.coefficient, a.scale + b.scale⟩

/-- Whether a product of these factors has a sign when it is rounded to zero. -/
def signsZero (a b : Magnitude) : Bool :=
  a.coefficient != 0 && b.coefficient != 0 && !(a.isShort && b.isShort)

end Magnitude

namespace Decimal

def mul? (a b : Decimal) : Option Decimal :=
  (a.toMagnitude.mul? b.toMagnitude).bind fun m =>
    ofMagnitude? ((a.negative != b.negative) && (m.coefficient != 0 || a.signsZero b.toMagnitude)) m

end Decimal

end Calculator
