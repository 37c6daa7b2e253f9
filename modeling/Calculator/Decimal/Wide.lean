import Calculator.Decimal.Product

/-!
# Wide magnitudes

Long powers are multiplied out with coefficients below `2 ^ 192` and at most 57 fraction digits,
and cut to the bounds of a decimal once, at the end.  A coefficient that is too long is cut by an
estimate of its excess digits, up to nine at a time; what decides the rounding is the remainder of
the last group alone, measured in units of that group's last digit (`roundsUp`).
-/

namespace Calculator

/-- Bounds on a magnitude: the bits of the coefficient and the largest scale. -/
structure Width where
  bits : Nat
  scale : Nat

namespace Width

/-- The bounds of a decimal. -/
def narrow : Width := ⟨96, 28⟩

/-- The bounds of a wide magnitude. -/
def wide : Width := ⟨192, 57⟩

def Holds (w : Width) (m : Magnitude) : Prop := m.coefficient < pow2 w.bits ∧ m.scale ≤ w.scale

instance (w : Width) (m : Magnitude) : Decidable (w.Holds m) := inferInstanceAs (Decidable (_ ∧ _))

/-- How many decimal digits the bits beyond the width amount to, rounded up. -/
def excessDigits (w : Width) (c : Nat) : Nat :=
  if c < pow2 w.bits then 0 else ((c.log2 + 1 - w.bits) * 77) / 256 + 1

/-- The digits a magnitude has to lose, by the estimate for its coefficient or for its scale. -/
def surplus (w : Width) (m : Magnitude) : Nat :=
  let digits := w.excessDigits m.coefficient
  if w.scale + digits < m.scale then m.scale - w.scale else digits

/-- Whether the remainder `r` of the last group cut off raises the coefficient `c`. -/
def roundsUp (c r : Nat) : Prop := 1 < r ∨ r = 1 ∧ c % 2 = 1

instance (c r : Nat) : Decidable (roundsUp c r) := inferInstanceAs (Decidable (_ ∨ _))

/-- Settles the last digit after the group with remainder `r` was cut off. -/
def settle? (w : Width) (m : Magnitude) (r : Nat) : Option Magnitude :=
  if roundsUp m.coefficient r then
    if m.coefficient + 1 < pow2 w.bits then some ⟨m.coefficient + 1, m.scale⟩
    else if m.scale = 0 then none
    else some ⟨(m.coefficient + 1) / 10, m.scale - 1⟩
  else some m

/-- Cuts `t` digits off, and more for as long as the coefficient is too long; `r` is the remainder
of the group before. -/
def cut? (w : Width) (m : Magnitude) (r t : Nat) : Option Magnitude :=
  if t = 0 then w.settle? m r
  else
    let k := min t 9
    let rest : Magnitude := ⟨m.coefficient / pow10 k, m.scale - k⟩
    if pow2 w.bits ≤ rest.coefficient ∧ t = k then
      if rest.scale = 0 then none else w.cut? rest (m.coefficient % pow10 k) 1
    else w.cut? rest (m.coefficient % pow10 k) (t - k)
termination_by m.scale + t
decreasing_by all_goals dsimp only [rest, k] at *; omega

/-- Shortened to the width, if the whole part allows it. -/
def reduce? (w : Width) (m : Magnitude) : Option Magnitude :=
  if w.surplus m ≤ m.scale then w.cut? m 0 (w.surplus m) else none

end Width

namespace Magnitude

/-- Rounded to the wide scale, up to nine digits at a time. -/
def roundWide (m : Magnitude) : Magnitude :=
  if m.scale ≤ Width.wide.scale then m
  else (m.dropDigits (min (m.scale - Width.wide.scale) 9)).roundWide
termination_by m.scale
decreasing_by simp only [dropDigits, Width.wide] at *; omega

/-- The product of wide magnitudes. -/
def mulWide? (a b : Magnitude) : Option Magnitude :=
  if a.coefficient = 0 ∨ b.coefficient = 0 then some zero
  else
    let product : Magnitude := ⟨a.coefficient * b.coefficient, a.scale + b.scale⟩
    if product.coefficient < pow2 Width.wide.bits then some product.roundWide
    else Width.wide.reduce? product

/-- A wide magnitude cut to the bounds of a decimal. -/
def narrow? (m : Magnitude) : Option Magnitude :=
  if Width.narrow.Holds m then some m else Width.narrow.reduce? m

end Magnitude

end Calculator
