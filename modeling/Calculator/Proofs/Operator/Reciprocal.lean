import Calculator.Proofs.Decimal.NegativePower
import Calculator.Proofs.Operator.Power

/-!
# Powers with negative exponents

A power with a negative exponent is the reciprocal of the positive power, which has been rounded to a
decimal by then.  So it is exact where the positive power is a decimal.  Where only the reciprocal is
one, what rounding has lost shows again, unless the reciprocal is too small for that
(`BinaryOp.apply_reciprocal`).
-/

namespace Calculator.BinaryOp

variable {a b d : Decimal}

theorem exists_apply_power_iff {n : ℤ} (hb : b.value = n) (hlow : -exponentBound ≤ n)
    (hhigh : n < exponentBound) {x : ℚ} :
    (∃ c, power.apply a b = .ok c ∧ c.value = x) ↔ ∃ c, a.powInt? n = some c ∧ c.value = x := by
  rw [apply_power_intCast a hb hlow hhigh]
  cases a.powInt? n <;> simp [ofResult?]

/-- A decimal that is a power with a negative exponent comes out if and only if the positive power is
a decimal too, or the reciprocal is small.  The largest small one is `1.2089…`; the next one, which
does not come out, is `1.2379…`. -/
theorem apply_reciprocal {n : ℤ} (hb : b.value = n) (hlow : -exponentBound ≤ n) (hneg : n < 0)
    (ha : a.value ≠ 0) (hd : d.value = a.value ^ n) :
    (∃ c, power.apply a b = .ok c ∧ c.value = a.value ^ n) ↔
      (∃ p : Decimal, p.value = a.value ^ n.natAbs) ∨ |a.value ^ n| ≤ 121 / 100 := by
  obtain ⟨e, rfl⟩ := Int.eq_negSucc_of_lt_zero hneg
  have hinverse : d.value * a.value ^ (e + 1) = 1 := by
    rw [hd, zpow_negSucc, inv_mul_cancel₀ (pow_ne_zero _ ha)]
  have hhigh : Int.negSucc e < exponentBound := hneg.trans (by decide)
  rw [exists_apply_power_iff hb hlow hhigh, ← hd, Int.natAbs_negSucc]
  by_cases hp : ∃ p : Decimal, p.value = a.value ^ (e + 1)
  · obtain ⟨p, hp⟩ := hp
    exact iff_of_true (Decimal.exists_powInt?_of_power hinverse hp) (.inl ⟨p, hp⟩)
  · rw [Decimal.exists_powInt?_iff hinverse hp, or_iff_right hp]

/-- The power of `1.25` is no decimal, and its reciprocal is small. -/
theorem apply_reciprocal_five_quarters :
    ∃ c, power.apply ⟨⟨125, 2⟩, false, by decide⟩ ⟨⟨15, 0⟩, true, by decide⟩ = .ok c ∧
      c.value = 35184372088832 / 10 ^ 15 := by
  have hb : Decimal.value ⟨⟨15, 0⟩, true, by decide⟩ = ((-15 : ℤ) : ℚ) := by decide +kernel
  have ha : Decimal.value ⟨⟨125, 2⟩, false, by decide⟩ = 5 / 4 := by decide +kernel
  have hd : Decimal.value ⟨⟨35184372088832, 15⟩, false, by decide⟩ =
      Decimal.value ⟨⟨125, 2⟩, false, by decide⟩ ^ (-15 : ℤ) := by
    rw [ha]
    norm_num [Decimal.value, Magnitude.value, pow10_cast]
  have hvalue : Decimal.value ⟨⟨125, 2⟩, false, by decide⟩ ^ (-15 : ℤ) = 35184372088832 / 10 ^ 15 := by
    rw [ha]
    norm_num
  rw [← hvalue]
  refine (apply_reciprocal hb (by decide) (by decide) (by rw [ha]; norm_num) hd).mpr (.inr ?_)
  rw [hvalue]
  norm_num

/-- High powers of one half are rounded, and the reciprocals are no powers of two any more; or they
are rounded to zero, and there is no reciprocal. -/
theorem apply_power_half :
    Decimal.value ⟨⟨536870912, 0⟩, false, by decide⟩ =
        Decimal.value ⟨⟨5, 1⟩, false, by decide⟩ ^ (-29 : ℤ) ∧
      power.apply ⟨⟨5, 1⟩, false, by decide⟩ ⟨⟨29, 0⟩, true, by decide⟩ =
        .ok ⟨⟨53687091200000000001441151881, 20⟩, false, by decide⟩ ∧
      Decimal.value ⟨⟨53687091200000000001441151881, 20⟩, false, by decide⟩ ≠
        Decimal.value ⟨⟨536870912, 0⟩, false, by decide⟩ ∧
      Decimal.value ⟨⟨39614081257132168796771975168, 0⟩, false, by decide⟩ =
        Decimal.value ⟨⟨5, 1⟩, false, by decide⟩ ^ (-95 : ℤ) ∧
      power.apply ⟨⟨5, 1⟩, false, by decide⟩ ⟨⟨95, 0⟩, true, by decide⟩ =
        .error (.notRepresentable (.binary .power)
          (power.approximate ⟨⟨5, 1⟩, false, by decide⟩ ⟨⟨95, 0⟩, true, by decide⟩)) := by
  have ha : Decimal.value ⟨⟨5, 1⟩, false, by decide⟩ = 1 / 2 := by decide +kernel
  have hb : Decimal.value ⟨⟨29, 0⟩, true, by decide⟩ = ((-29 : ℤ) : ℚ) := by decide +kernel
  have hb' : Decimal.value ⟨⟨95, 0⟩, true, by decide⟩ = ((-95 : ℤ) : ℚ) := by decide +kernel
  have hpower : Decimal.powInt? ⟨⟨5, 1⟩, false, by decide⟩ (-29) =
      some ⟨⟨53687091200000000001441151881, 20⟩, false, by decide⟩ := by decide +kernel
  have hpower' : Decimal.powInt? ⟨⟨5, 1⟩, false, by decide⟩ (-95) = none := by decide +kernel
  rw [ha, apply_power_intCast _ hb (by decide) (by decide), hpower,
    apply_power_intCast _ hb' (by decide) (by decide), hpower']
  refine ⟨?_, rfl, by decide +kernel, ?_, rfl⟩
  · norm_num [Decimal.value, Magnitude.value]
  · norm_num [Decimal.value, Magnitude.value]

end Calculator.BinaryOp
