import Calculator.Binary64.Basic
import Calculator.Decimal.Basic

/-!
# From decimal to binary64

The whole part and the fraction are converted apart and added, and the sum is rounded to the
decimal's scale once more.
-/

namespace Calculator.Binary64

/-- `base ^ n` by squaring, from the lowest bit of the exponent up, times `p`. -/
def powBySquaring (p base : Float) (n : Nat) : Float :=
  if n = 0 then p
  else powBySquaring (if n % 2 = 1 then p * base else p) (base * base) (n / 2)
termination_by n

/-- The magnitude with whole part `whole` and fraction `fraction / 10 ^ scale`. -/
def ofParts (whole fraction scale : Nat) : Float :=
  let part := Float.ofNat fraction / Float.ofNat (pow10 scale)
  if part == 0 then Float.ofNat whole
  else
    let unit := powBySquaring 1 10 scale
    roundHalfUp ((Float.ofNat whole + part) * unit) / unit

/-- The binary64 number taken for a decimal.  The sign of a zero is kept unless its scale is zero. -/
def ofDecimal (a : Decimal) : Float :=
  let x := ofParts (a.coefficient / pow10 a.scale) (a.coefficient % pow10 a.scale) a.scale
  if a.negative && (a.scale != 0 || a.coefficient != 0) then -x else x

end Calculator.Binary64
