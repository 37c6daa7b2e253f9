import Calculator.Radix

/-!
# Binary64 numbers

A finite binary64 number is `± significand * 2 ^ exponent`; the two are read off its bits.
-/

namespace Calculator.Binary64

/-- The sign bit. -/
def negative (x : Float) : Bool := x.toBits.toNat / pow2 63 == 1

/-- The eleven bits of the exponent field. -/
def exponentField (x : Float) : Nat := x.toBits.toNat / pow2 52 % pow2 11

/-- The 52 bits of the fraction field. -/
def fractionField (x : Float) : Nat := x.toBits.toNat % pow2 52

def isNaN (x : Float) : Bool := exponentField x == 2047 && fractionField x != 0

def isInfinite (x : Float) : Bool := exponentField x == 2047 && fractionField x == 0

def isFinite (x : Float) : Bool := exponentField x != 2047

/-- The significand of a finite number: 53 bits, fewer only below the normal range. -/
def significand (x : Float) : Nat :=
  if exponentField x = 0 then fractionField x else fractionField x + pow2 52

/-- The exponent of a finite number with its significand taken as an integer. -/
def exponent (x : Float) : Int := (max (exponentField x) 1 : Nat) - 1075

/-- The nearest integer of a finite number that is not negative, halves rounded up. -/
def roundHalfUp (x : Float) : Float :=
  if 0 ≤ exponent x then x
  else
    let unit := pow2 (-exponent x).toNat
    Float.ofNat ((2 * significand x + unit) / (2 * unit))

end Calculator.Binary64
