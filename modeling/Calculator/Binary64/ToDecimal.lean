import Calculator.Binary64.Basic
import Calculator.Decimal.Rounding

/-!
# From binary64 to decimal

A number with a binary fraction is turned into a magnitude one halving at a time, then cut to 28
fraction digits and to a coefficient below `2 ^ 52`.  Of the result the 15 significant digits are
kept that a binary64 number surely carries.
-/

namespace Calculator.Binary64

/-- `k` halvings of a magnitude: an odd coefficient is halved exactly, by a further fraction digit,
for as long as it has room, and otherwise loses its last bit. -/
def halve : Nat → Magnitude → Magnitude
  | 0, m => m
  | k + 1, m =>
    if m.coefficient % 2 = 1 ∧ 5 * m.coefficient < coefficientBound then
      halve k ⟨5 * m.coefficient, m.scale + 1⟩
    else halve k ⟨m.coefficient / 2, m.scale⟩

/-- Cuts `k` fraction digits off, each one rounded half up, and all of them once nothing is left. -/
def cutScale : Nat → Magnitude → Magnitude
  | 0, m => m
  | k + 1, m =>
    if m.coefficient / 10 = 0 then .zero
    else cutScale k ⟨(m.coefficient + 5) / 10, m.scale - 1⟩

/-- Coefficients with a fraction are cut below this. -/
def significandBound : Nat := pow2 52

/-- Cuts fraction digits off, each one rounded half up, until the coefficient is short enough. -/
def cutCoefficient (c : Nat) : Nat → Magnitude
  | 0 => ⟨c, 0⟩
  | s + 1 => if significandBound ≤ c then cutCoefficient ((c + 5) / 10) s else ⟨c, s + 1⟩

/-- The magnitude of a finite number.  A whole number is taken as it is, and refused from `2 ^ 96` on: also
`79228162514264337593543950335 ^ 0.99999999999999999999`, which in binary64 is exactly that, has no
decimal. -/
def toMagnitude? (x : Float) : Option Magnitude :=
  if 0 ≤ exponent x then
    let whole := significand x * pow2 (exponent x).toNat
    if whole < coefficientBound then some ⟨whole, 0⟩ else none
  else
    let m := halve (-exponent x).toNat ⟨significand x, 0⟩
    let m := cutScale (m.scale - maxScale) m
    some (cutCoefficient m.coefficient m.scale).trim

/-- The significant digits that are kept. -/
def significantDigits : Nat := 15

/-- Rounded half to even to the significant digits that are kept, without trailing zeros. -/
def keepSignificant (m : Magnitude) : Magnitude :=
  let surplus := (Nat.toDigits 10 m.coefficient).length - significantDigits
  if surplus ≤ m.scale then (m.dropDigits surplus).trim
  else ⟨divHalfEven m.coefficient (pow10 surplus) * pow10 (surplus - m.scale), 0⟩

/-- The decimal of a binary64 number, if it is finite and not too large. -/
def toDecimal? (x : Float) : Option Decimal :=
  if isFinite x then
    ((toMagnitude? x).map keepSignificant).bind fun m =>
      Decimal.ofMagnitude? (negative x && m.coefficient != 0) m
  else none

end Calculator.Binary64
