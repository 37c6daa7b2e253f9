import Calculator.Decimal.Basic

/-!
# Rounding to a decimal

A number that needs more digits than a decimal has loses digits at its end, rounded to the nearest
with ties to the even neighbour (`divHalfEven`).  `Magnitude.fit?` drops as few digits as the two
bounds demand; only a whole part that is too large leaves no decimal.
-/

namespace Calculator

/-- The natural number nearest to `n / d`, of two the even one. -/
def divHalfEven (n d : Nat) : Nat :=
  if d < 2 * (n % d) ∨ 2 * (n % d) = d ∧ n / d % 2 = 1 then n / d + 1 else n / d

/-- How many digits `c` must lose at its end to come below the coefficient bound. -/
def excess (c : Nat) : Nat :=
  if c < coefficientBound then 0 else excess (c / 10) + 1
termination_by c
decreasing_by have := coefficientBound_pos; omega

namespace Magnitude

/-- Rounded to `k` fraction digits fewer; for `k` up to the scale. -/
def dropDigits (m : Magnitude) (k : Nat) : Magnitude :=
  ⟨divHalfEven m.coefficient (pow10 k), m.scale - k⟩

/-- After rounding: a coefficient that has grown to the bound loses one more digit. -/
def carry? (m : Magnitude) : Option Magnitude :=
  if m.coefficient < coefficientBound then some m
  else if m.scale = 0 then none
  else some (m.dropDigits 1)

/-- The digits that `m` has to lose to fit in a decimal. -/
def overhang (m : Magnitude) : Nat := max (m.scale - maxScale) (excess m.coefficient)

/-- Rounded just enough to fit in a decimal, if it can. -/
def fit? (m : Magnitude) : Option Magnitude :=
  if m.overhang ≤ m.scale then (m.dropDigits m.overhang).carry? else none

end Magnitude

/-- The decimal nearest to a signed magnitude, if there is one. -/
def Decimal.round? (negative : Bool) (m : Magnitude) : Option Decimal :=
  m.fit?.bind (ofMagnitude? negative)

end Calculator
