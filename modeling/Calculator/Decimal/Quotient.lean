import Calculator.Decimal.Rounding

/-!
# Quotients

Long division: from the whole quotient on, up to nine digits are appended at a time for as long as
a remainder is left and the coefficient and the scale have room (`Quotient.extend`).  The last digit
is rounded half to even on everything that is left.  When the division did not end at once, zeros at
the end of the quotient are then stripped in groups of eight, four, two and one (`Quotient.strip`);
a group goes only if the coefficient is divisible by the power of two that belongs to it, so that
`1 / 2` is `0.50`.
-/

namespace Calculator

namespace Magnitude

/-! ## Trailing zeros of a quotient -/

/-- Strips a group of `k` fraction zeros if the coefficient is divisible by `2 ^ bits` and has one. -/
def stripGroup (bits k : Nat) (m : Magnitude) : Magnitude :=
  if m.coefficient % pow2 bits = 0 ∧ k ≤ m.scale ∧ m.coefficient % pow10 k = 0 then
    ⟨m.coefficient / pow10 k, m.scale - k⟩
  else m

/-- Strips groups of eight zeros, `n` at most. -/
def stripEights : Nat → Magnitude → Magnitude
  | 0, m => m
  | n + 1, m =>
    let stripped := m.stripGroup 32 8
    if stripped = m then m else stripEights n stripped

/-- Strips trailing fraction zeros in groups of eight, four, two and one. -/
def strip (m : Magnitude) : Magnitude :=
  (((m.stripEights (m.scale / 8)).stripGroup 4 4).stripGroup 2 2).stripGroup 1 1

/-! ## Long division -/

/-- The most digits, up to `most`, that can be appended to `q` below the coefficient bound. -/
def roomFor (q : Nat) : Nat → Nat
  | 0 => 0
  | k + 1 => if q * pow10 (k + 1) < coefficientBound then k + 1 else roomFor q k

theorem roomFor_le (q most : Nat) : roomFor q most ≤ most := by
  induction most with
  | zero => exact Nat.le_refl 0
  | succ k ih => rw [roomFor]; split <;> omega

/-- At most this many digits are appended in one step. -/
def digitsPerStep : Nat := 9

/-- The quotient `q + r / d` at the scale `s`, which is negative while whole digits are missing. -/
structure Division where
  quotient : Nat
  remainder : Nat
  scale : Int

namespace Division

/-- Appends `k` digits of the quotient by `d`. -/
def append (v : Division) (d k : Nat) : Division where
  quotient := v.quotient * pow10 k + v.remainder * pow10 k / d
  remainder := v.remainder * pow10 k % d
  scale := v.scale + k

/-- An exact quotient: whole digits still missing are zeros. -/
def finish? (v : Division) : Option Magnitude :=
  if 0 ≤ v.scale then some ⟨v.quotient, v.scale.toNat⟩
  else
    let whole := v.quotient * pow10 (-v.scale).toNat
    if whole < coefficientBound then some ⟨whole, 0⟩ else none

/-- The quotient rounded where it stands. -/
def last? (v : Division) (d : Nat) : Option Magnitude :=
  Magnitude.carry? ⟨divHalfEven (v.quotient * d + v.remainder) d, v.scale.toNat⟩

/-- The quotient rounded one digit earlier, after the appended digits made it too long. -/
def back? (v : Division) (d : Nat) : Option Magnitude :=
  if v.scale < 1 then none
  else some ⟨divHalfEven (v.quotient * d + v.remainder) (10 * d), (v.scale - 1).toNat⟩

/-- How many digits the next step appends. -/
def step (v : Division) : Nat :=
  roomFor v.quotient (min digitsPerStep (maxScale - v.scale).toNat)

/-- Continues a division by `d` to its last digit. -/
def extend (v : Division) (d : Nat) : Option Magnitude :=
  if v.remainder = 0 then v.finish?
  else if v.step < digitsPerStep ∧ v.step + v.scale < 0 then none
  else if v.step = 0 then v.last? d
  else if coefficientBound ≤ (v.append d v.step).quotient then (v.append d v.step).back? d
  else (v.append d v.step).extend d
termination_by (maxScale - v.scale).toNat
decreasing_by
  have := roomFor_le v.quotient (min digitsPerStep (maxScale - v.scale).toNat)
  simp only [append, step] at *
  omega

end Division

/-- The quotient of nonzero magnitudes. -/
def div? (a b : Magnitude) : Option Magnitude :=
  let start : Division := ⟨a.coefficient / b.coefficient, a.coefficient % b.coefficient,
    (a.scale : Int) - b.scale⟩
  if start.remainder = 0 then start.finish? else (start.extend b.coefficient).map strip

end Magnitude

namespace Decimal

/-- The quotient by a nonzero decimal; a zero is positive, and of scale zero if the dividend is zero. -/
def div? (a b : Decimal) : Option Decimal :=
  if a.isZero then some zero
  else (a.toMagnitude.div? b.toMagnitude).bind fun m =>
    ofMagnitude? ((a.negative != b.negative) && m.coefficient != 0) m

end Decimal

end Calculator
