import Calculator.Decimal.Rounding

/-!
# Decimal numerals

A numeral is read digit by digit.  The first fraction digit that has no room any more rounds the
digits before it, five and up raising them, and ends the reading; a whole digit without room makes
the numeral unreadable.  A decimal is written with all its fraction digits and with its sign, zero
included.
-/

namespace Calculator

/-- The value of a digit. -/
def digitValue (c : Char) : Nat := c.toNat - '0'.toNat

namespace Magnitude

/-! ## Reading -/

/-- Appends whole digits. -/
def readWhole? (c : Nat) : List Char → Option Nat
  | [] => some c
  | d :: ds =>
    if 10 * c + digitValue d < coefficientBound then readWhole? (10 * c + digitValue d) ds else none

/-- Appends fraction digits, the first one without room rounded. -/
def readFraction? (m : Magnitude) : List Char → Option Magnitude
  | [] => some m
  | d :: ds =>
    if m.scale < maxScale ∧ 10 * m.coefficient + digitValue d < coefficientBound then
      readFraction? ⟨10 * m.coefficient + digitValue d, m.scale + 1⟩ ds
    else if digitValue d < 5 then some m
    else carry? ⟨m.coefficient + 1, m.scale⟩

/-- The magnitude that the digits before and after the point write. -/
def ofDigits? (whole fraction : List Char) : Option Magnitude :=
  (readWhole? 0 whole).bind fun c => readFraction? ⟨c, 0⟩ fraction

/-! ## Writing -/

/-- The last `n` digits of `c`, with leading zeros. -/
def fixedDigits (c : Nat) : Nat → List Char
  | 0 => []
  | n + 1 => fixedDigits (c / 10) n ++ [Nat.digitChar (c % 10)]

/-- The digits, with a point before the last `scale` of them. -/
def text (m : Magnitude) : List Char :=
  Nat.toDigits 10 (m.coefficient / pow10 m.scale) ++
    if m.scale = 0 then [] else '.' :: fixedDigits m.coefficient m.scale

end Magnitude

namespace Decimal

/-- The decimal that the digits before and after the point write. -/
def ofDigits? (whole fraction : List Char) : Option Decimal :=
  (Magnitude.ofDigits? whole fraction).bind (ofMagnitude? false)

/-- The decimal that a numeral with a point or without one writes. -/
def ofUnsigned? (numeral : List Char) : Option Decimal :=
  let whole := numeral.takeWhile Char.isDigit
  match numeral.dropWhile Char.isDigit with
  | [] => if whole.isEmpty then none else ofDigits? whole []
  | '.' :: fraction =>
    if fraction.all Char.isDigit && !(whole.isEmpty && fraction.isEmpty) then
      ofDigits? whole fraction
    else none
  | _ => none

/-- The decimal that a numeral writes, with a sign or without one. -/
def ofNumeral? : List Char → Option Decimal
  | '-' :: numeral => (ofUnsigned? numeral).map neg
  | numeral => ofUnsigned? numeral

/-- The numeral with all fraction digits and the sign. -/
def text (a : Decimal) : List Char :=
  if a.negative then '-' :: a.toMagnitude.text else a.toMagnitude.text

instance : ToString Decimal := ⟨fun a => String.ofList a.text⟩

end Decimal

end Calculator
