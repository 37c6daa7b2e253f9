import Calculator.Operator.Evaluation
import Calculator.Proofs.Decimal.ExactPower

/-!
# Powers with natural exponents

A power with an exponent below `2 ^ 63` is computed in decimals.  If the number it stands for is a
decimal, that is the answer, and nothing is lost in a square or a product on the way to it; a power
of an integer that is too long for a decimal is refused (`BinaryOp.apply_power_exact`).
-/

namespace Calculator.BinaryOp

variable {a b : Decimal}

theorem integralExponent?_eq_some {n : ℤ} (hb : b.value = n) (hlow : -exponentBound ≤ n)
    (hhigh : n < exponentBound) : integralExponent? b = some n := by
  rw [integralExponent?, Decimal.integer?_eq_some_iff.mpr hb, Option.filter_some, if_pos]
  rw [decide_eq_true hlow, decide_eq_true hhigh, Bool.and_self]

theorem apply_power_intCast (a : Decimal) {n : ℤ} (hb : b.value = n) (hlow : -exponentBound ≤ n)
    (hhigh : n < exponentBound) : power.apply a b = power.ofResult? a b (a.powInt? n) := by
  rw [apply, integralExponent?_eq_some hb hlow hhigh]

theorem apply_power_natCast (a : Decimal) {e : Nat} (hb : b.value = e) (he : e < 2 ^ 63) :
    power.apply a b = power.ofResult? a b (a.powNat? e) := by
  have hbound : exponentBound = 2 ^ 63 := by decide
  have hvalue : b.value = (e : ℤ) := by rw [hb, Int.cast_natCast]
  exact apply_power_intCast a hvalue (by omega) (by omega)

open Magnitude in
/-- A power that is a decimal is exact, and so is every product that leads to it.  A power of an
integer is refused from the coefficient bound on. -/
theorem apply_power_exact {e : Nat} (hb : b.value = e) (he : e < 2 ^ 63) :
    (∀ d : Decimal, d.value = a.value ^ e →
        (∃ c, power.apply a b = .ok c ∧ c.value = a.value ^ e) ∧
        ∀ u w, Multiplies (mulFor e) one a.toMagnitude e u w →
          ∃ q, mulFor e u w = some q ∧ q.value = u.value * w.value) ∧
      ∀ n : ℤ, a.value = n → (coefficientBound : ℚ) ≤ |a.value| ^ e →
        power.apply a b = .error (.notRepresentable (.binary .power) (power.approximate a b)) := by
  rw [apply_power_natCast a hb he]
  refine ⟨fun d hd => ⟨?_, fun u w huw => ?_⟩, fun n hn hlarge => ?_⟩
  · obtain ⟨c, hc, hvalue⟩ := Decimal.exists_powNat? hd
    exact ⟨c, by rw [hc, ofResult?], hvalue⟩
  · have hf : d.toMagnitude.value = a.toMagnitude.value ^ e := by
      rw [← Decimal.abs_value, hd, abs_pow, Decimal.abs_value]
    exact (pow?_exact a.fits d.fits hf huw.pos).2 u w huw
  · rw [Decimal.powNat?_eq_none hn hlarge, ofResult?]

/-- The last odd power of `-2.0` that is a decimal, and the power after it. -/
theorem apply_power_exact_two :
    (∃ c, power.apply ⟨⟨20, 1⟩, true, by decide⟩ ⟨⟨95, 0⟩, false, by decide⟩ = .ok c ∧
        c.value = -39614081257132168796771975168) ∧
      power.apply ⟨⟨20, 1⟩, true, by decide⟩ ⟨⟨960, 1⟩, false, by decide⟩ =
        .error (.notRepresentable (.binary .power)
          (power.approximate ⟨⟨20, 1⟩, true, by decide⟩ ⟨⟨960, 1⟩, false, by decide⟩)) := by
  have hbase : Decimal.value ⟨⟨20, 1⟩, true, by decide⟩ = -2 := by decide +kernel
  constructor
  · have hexponent : Decimal.value ⟨⟨95, 0⟩, false, by decide⟩ = (95 : Nat) := by decide +kernel
    have hpower : Decimal.value ⟨⟨39614081257132168796771975168, 0⟩, true, by decide⟩ =
        Decimal.value ⟨⟨20, 1⟩, true, by decide⟩ ^ 95 := by decide +kernel
    obtain ⟨c, hc, hvalue⟩ := ((apply_power_exact hexponent (by decide)).1 _ hpower).1
    exact ⟨c, hc, by rw [hvalue, hbase]; norm_num⟩
  · have hexponent : Decimal.value ⟨⟨960, 1⟩, false, by decide⟩ = (96 : Nat) := by decide +kernel
    refine (apply_power_exact hexponent (by decide)).2 (-2) hbase ?_
    rw [hbase, coefficientBound_eq, abs_neg, abs_two]
    norm_num

end Calculator.BinaryOp
