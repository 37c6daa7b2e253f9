import Calculator.Radix

/-!
# Decimals

A magnitude `⟨c, s⟩` is the number `c / 10 ^ s`, written with `s` fraction digits.  A decimal is a
magnitude with a coefficient below `2 ^ 96` and at most 28 fraction digits, and a sign.  Scale and
sign belong to a decimal: `1.0` and `1` differ as decimals and agree in `Decimal.value`, and so do
the two zeros.

`Magnitude.trim` drops trailing fraction zeros and stays within the bounds (`Fits.trim`).
-/

namespace Calculator

/-- A natural coefficient over a power of ten, of any size. -/
structure Magnitude where
  coefficient : Nat
  scale : Nat
  deriving DecidableEq, Repr

/-- Coefficients of decimals lie below this. -/
def coefficientBound : Nat := pow2 96

theorem coefficientBound_pos : 0 < coefficientBound := pow2_pos 96

/-- Decimals have at most this many fraction digits. -/
def maxScale : Nat := 28

namespace Magnitude

def zero : Magnitude := ⟨0, 0⟩

def one : Magnitude := ⟨1, 0⟩

/-- The number a magnitude stands for. -/
def value (m : Magnitude) : Rat := (m.coefficient : Rat) / pow10 m.scale

/-- Within the bounds of a decimal. -/
def Fits (m : Magnitude) : Prop := m.coefficient < coefficientBound ∧ m.scale ≤ maxScale

instance (m : Magnitude) : Decidable m.Fits := inferInstanceAs (Decidable (_ ∧ _))

theorem fits_zero : zero.Fits := by decide

theorem fits_one : one.Fits := by decide

/-! ## Trailing zeros -/

/-- The magnitude `c / 10 ^ s` without trailing fraction zeros. -/
def trimmed (c : Nat) : Nat → Magnitude
  | 0 => ⟨c, 0⟩
  | s + 1 => if c % 10 = 0 then trimmed (c / 10) s else ⟨c, s + 1⟩

/-- The same number with as few fraction digits as it can have. -/
def trim (m : Magnitude) : Magnitude := trimmed m.coefficient m.scale

theorem trimmed_coefficient_le (c s : Nat) : (trimmed c s).coefficient ≤ c := by
  induction s generalizing c with
  | zero => exact Nat.le_refl c
  | succ s ih =>
    rw [trimmed]
    split
    · exact Nat.le_trans (ih _) (Nat.div_le_self c 10)
    · exact Nat.le_refl c

theorem trimmed_scale_le (c s : Nat) : (trimmed c s).scale ≤ s := by
  induction s generalizing c with
  | zero => exact Nat.le_refl 0
  | succ s ih =>
    rw [trimmed]
    split
    · exact Nat.le_succ_of_le (ih _)
    · exact Nat.le_refl (s + 1)

theorem Fits.trim {m : Magnitude} (h : m.Fits) : m.trim.Fits :=
  ⟨Nat.lt_of_le_of_lt (trimmed_coefficient_le _ _) h.1, Nat.le_trans (trimmed_scale_le _ _) h.2⟩

end Magnitude

/-- A signed magnitude within the bounds; zero has a scale and a sign too. -/
structure Decimal extends Magnitude where
  negative : Bool
  fits : toMagnitude.Fits
  deriving DecidableEq

namespace Decimal

/-- The decimal `0`. -/
def zero : Decimal := ⟨.zero, false, Magnitude.fits_zero⟩

/-- The decimal `1`. -/
def one : Decimal := ⟨.one, false, Magnitude.fits_one⟩

/-- The decimal with this sign and magnitude, if the magnitude is within the bounds. -/
def ofMagnitude? (negative : Bool) (m : Magnitude) : Option Decimal :=
  if h : m.Fits then some ⟨m, negative, h⟩ else none

theorem ofMagnitude?_eq_some_iff {negative : Bool} {m : Magnitude} {a : Decimal} :
    ofMagnitude? negative m = some a ↔ a.toMagnitude = m ∧ a.negative = negative := by
  unfold ofMagnitude?
  constructor
  · intro h
    split at h
    · cases h; exact ⟨rfl, rfl⟩
    · cases h
  · rintro ⟨rfl, rfl⟩
    exact dif_pos a.fits

/-- The number without its scale and the sign of zero. -/
def value (a : Decimal) : Rat := if a.negative then -a.toMagnitude.value else a.toMagnitude.value

/-- The coefficient with its sign. -/
def signed (a : Decimal) : Int := if a.negative then -(a.coefficient : Int) else a.coefficient

/-- Zero of any scale and sign. -/
def isZero (a : Decimal) : Bool := a.coefficient == 0

/-- The other sign, also for zero. -/
def neg (a : Decimal) : Decimal := { a with negative := !a.negative }

instance : Neg Decimal := ⟨neg⟩

/-- The same digits without a sign. -/
def abs (a : Decimal) : Decimal := { a with negative := false }

/-- Equality of the numbers, whatever the scales and the signs of zeros. -/
def Equiv (a b : Decimal) : Prop := a.value = b.value

instance (a b : Decimal) : Decidable (a.Equiv b) := inferInstanceAs (Decidable (_ = _))

end Decimal

end Calculator
