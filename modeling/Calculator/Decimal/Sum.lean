import Calculator.Decimal.Rounding

/-!
# Sums and differences

A sum is exact at the larger of the two scales and then rounded.  A summand that is zero adds
nothing, not even its scale: the other one is the answer as it stands.
-/

namespace Calculator.Decimal

/-- The coefficient `a` would have at the scale `s`, with its sign. -/
def signedAt (a : Decimal) (s : Nat) : Int := a.signed * pow10 (s - a.scale)

/-- The sum of two numbers at their common scale; an exact zero is positive. -/
def sumOf (a b : Decimal) : Option Decimal :=
  let scale := max a.scale b.scale
  let sum := a.signedAt scale + b.signedAt scale
  round? (sum < 0) ⟨sum.natAbs, scale⟩

def add? (a b : Decimal) : Option Decimal :=
  if a.isZero then some b else if b.isZero then some a else sumOf a b

/-- The sum with the opposite, except that a zero keeps its sign. -/
def sub? (a b : Decimal) : Option Decimal :=
  a.add? (if b.isZero then b else -b)

end Calculator.Decimal
