import Calculator.Decimal.Product
import Calculator.Proofs.Decimal.Nearest

/-!
# Products are rounded to nearest

The product of two magnitudes is the product of the numbers, rounded (`Magnitude.rounds_mul?`).
Short factors with very many fraction digits are no exception: what they give for zero is so small
that it rounds to zero.
-/

namespace Calculator

variable {x : ℚ}

/-- Less than half of the last fraction digit there can be is nothing. -/
theorem rounds_zero_of_lt (hx : 0 ≤ x) (h : x * pow10 maxScale < 1 / 2) :
    Rounds (some .zero) x := by
  have hbound : (1 : ℚ) ≤ coefficientBound := Nat.one_le_cast.mpr coefficientBound_pos
  have hpos : 0 ≤ x * pow10 maxScale := mul_nonneg hx (pow10_cast_pos _).le
  have hscale : finestScale x = maxScale :=
    finestScale_eq hx (Nat.le_refl _) (by linarith) (.inl rfl)
  have hzero : halfEven (x * pow10 maxScale) = 0 :=
    halfEven_eq_of_near hpos (by push_cast; linarith) (by push_cast; linarith)
  refine ⟨?_, ?_⟩
  · rw [Magnitude.nearest?, hscale, hzero, if_pos coefficientBound_pos, roundAt, hzero,
      Option.map_some]
    simp [Magnitude.value, Magnitude.zero]
  · rintro _ ⟨⟩
    exact Magnitude.fits_zero

namespace Magnitude

theorem value_eq_zero_iff (m : Magnitude) : m.value = 0 ↔ m.coefficient = 0 := by
  rw [value, div_eq_zero_iff, or_iff_left (pow10_cast_ne_zero _), Nat.cast_eq_zero]

theorem value_zero : zero.value = 0 := (value_eq_zero_iff zero).mpr rfl

theorem value_mul (a b : Magnitude) :
    value ⟨a.coefficient * b.coefficient, a.scale + b.scale⟩ = a.value * b.value := by
  simp only [value, Nat.cast_mul, pow10_cast_add, div_mul_div_comm]

/-- The product of two short coefficients, with the fraction digits it has at least. -/
theorem mul_value_lt {a b : Magnitude} (ha : a.isShort) (hb : b.isShort)
    (h : maxShortScale < a.scale + b.scale) : a.value * b.value * pow10 maxScale < 1 / 2 := by
  have hca : a.coefficient < pow2 32 := of_decide_eq_true ha
  have hcb : b.coefficient < pow2 32 := of_decide_eq_true hb
  have hcoefficient : a.coefficient * b.coefficient < pow2 32 * pow2 32 :=
    Nat.mul_lt_mul'' hca hcb
  have hdigits : 2 * (pow2 32 * pow2 32) ≤ pow10 20 := by decide
  have hscale : pow10 20 ≤ pow10 (a.scale + b.scale - maxScale) :=
    Nat.pow_le_pow_right (by decide) (by unfold maxShortScale maxScale at *; omega)
  have hlt : 2 * (a.coefficient * b.coefficient) < pow10 (a.scale + b.scale - maxScale) := by omega
  have hsplit := pow10_cast_sub (show maxScale ≤ a.scale + b.scale by
    unfold maxShortScale maxScale at *; omega)
  have hhalf : 2 * ((a.coefficient * b.coefficient : Nat) : ℚ) <
      pow10 (a.scale + b.scale - maxScale) := by exact_mod_cast hlt
  rw [← value_mul, value, hsplit, div_mul_eq_mul_div,
    mul_div_mul_right _ _ (pow10_cast_ne_zero maxScale), div_lt_div_iff₀ (pow10_cast_pos _) two_pos]
  linarith

/-- The product of the numbers, rounded. -/
theorem rounds_mul? (a b : Magnitude) : Rounds (a.mul? b) (a.value * b.value) := by
  unfold mul?
  split_ifs with hzero hshort
  · have hvalue : a.value * b.value = zero.value := by
      rw [value_zero, mul_eq_zero, value_eq_zero_iff, value_eq_zero_iff]
      exact hzero
    rw [hvalue]
    exact rounds_of_fits fits_zero
  · rw [Bool.and_eq_true, Bool.and_eq_true, decide_eq_true_eq] at hshort
    obtain ⟨⟨ha, hb⟩, hscale⟩ := hshort
    exact rounds_zero_of_lt (mul_nonneg a.value_nonneg b.value_nonneg) (mul_value_lt ha hb hscale)
  · rw [← value_mul]
    exact rounds_fit? _

end Magnitude

end Calculator
