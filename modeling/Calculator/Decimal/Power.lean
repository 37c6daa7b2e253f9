import Calculator.Decimal.Quotient
import Calculator.Decimal.Wide

/-!
# Integral powers

Powers are built by repeated squaring, from the lowest bit of the exponent up.  Exponents below 1024
multiply decimals, larger ones multiply wide magnitudes.  A power with a negative exponent is the
reciprocal of the positive one.
-/

namespace Calculator

namespace Magnitude

/-- `p * x ^ e` by squaring, with the products `mul` gives; for a positive `e`. -/
def powBy (mul : Magnitude → Magnitude → Option Magnitude) (p x : Magnitude) (e : Nat) :
    Option Magnitude :=
  (if e % 2 = 1 then mul p x else some p).bind fun p =>
    if e < 2 then some p else (mul x x).bind fun x => powBy mul p x (e / 2)
termination_by e

/-- From this exponent on powers are multiplied out wide. -/
def wideExponent : Nat := 1024

/-- The power with a positive exponent. -/
def pow? (m : Magnitude) (e : Nat) : Option Magnitude :=
  if e < wideExponent then powBy mul? one m e else (powBy mulWide? one m e).bind narrow?

end Magnitude

namespace Decimal

/-- The power with a natural exponent.  The exponents 1 and 2 leave the digits as they come, larger
ones drop trailing zeros. -/
def powNat? (a : Decimal) (e : Nat) : Option Decimal :=
  if e = 0 then some one
  else if a.isZero then some zero
  else if a.Equiv one then some one
  else if e = 1 then some a
  else if e = 2 then a.mul? a
  else (a.pow? e).bind fun m =>
    ofMagnitude? (a.negative && e % 2 == 1 && m.coefficient != 0) m.trim

/-- The power with an integral exponent. -/
def powInt? (a : Decimal) : Int → Option Decimal
  | .ofNat e => a.powNat? e
  | .negSucc e => (a.powNat? (e + 1)).bind fun p => if p.isZero then none else one.div? p

/-- The integer a decimal is, if it is one. -/
def integer? (a : Decimal) : Option Int :=
  if a.coefficient % pow10 a.scale = 0 then some (a.signed / pow10 a.scale) else none

end Decimal

end Calculator
