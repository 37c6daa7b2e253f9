import Calculator.Proofs.Decimal.ExactPower

/-!
# Reciprocals of powers

A power with a negative exponent is the reciprocal of the positive power, which has been rounded
before.  Here are the decimals that are such reciprocals (`Inverts`) of powers that are no decimals
themselves.  The digits of the base are a power of two or of five then, and the reciprocal is of one
of two kinds: a multiple of a unit that is coarser than the smallest one (`Coarse`), which rounding
does not give back (`mul_eq_one_of_nearest?`), or a power of two with fraction digits
(`Inverts.exists_of_not_two_dvd`).
-/

namespace Calculator

namespace Magnitude

variable {m q r : Magnitude} {e : Nat} {x y : ℚ}

/-! ## How near the nearest decimal is -/

theorem abs_roundAt_sub_lt {s : Nat} (hx : 0 ≤ x) (h : (pow10 maxScale : ℚ) / 2 < x * pow10 s) :
    |roundAt x s - x| * pow10 maxScale < x := by
  have hpos := pow10_cast_pos s
  have hnonneg : 0 ≤ x * pow10 s := mul_nonneg hx hpos.le
  have hround : |halfEven (x * pow10 s) - x * pow10 s| ≤ 1 / 2 :=
    abs_le.mpr ⟨by linarith [sub_half_le_halfEven (x * pow10 s)], by linarith [halfEven_le _ hnonneg]⟩
  have hscaled : (roundAt x s - x) * pow10 s = halfEven (x * pow10 s) - x * pow10 s := by
    rw [roundAt, sub_mul, div_mul_cancel₀ _ hpos.ne']
  refine lt_of_mul_lt_mul_right ?_ hpos.le
  calc |roundAt x s - x| * pow10 maxScale * pow10 s
    _ = |(roundAt x s - x) * pow10 s| * pow10 maxScale := by
      rw [abs_mul, abs_of_pos hpos]
      ring
    _ ≤ 1 / 2 * pow10 maxScale := by
      rw [hscaled]
      exact mul_le_mul_of_nonneg_right hround (pow10_cast_pos _).le
    _ < x * pow10 s := by linarith

/-- The nearest decimal agrees with a number above one half in the first 28 digits. -/
theorem abs_sub_lt_of_nearest? (hx : 1 / 2 < x) (h : nearest? x = some y) :
    |y - x| * pow10 maxScale < x := by
  have hnonneg : 0 ≤ x := by linarith
  have hdigits : (pow10 maxScale : ℚ) * 6 < coefficientBound := by decide +kernel
  have hmax : (1 : ℚ) < pow10 maxScale := by decide +kernel
  unfold nearest? at h
  split_ifs at h with hfit hzero
  · rw [← Option.some.inj h]
    refine abs_roundAt_sub_lt hnonneg ?_
    rcases (finestScale_le x).eq_or_lt with hscale | hlt
    · rw [hscale, div_eq_mul_one_div, mul_comm]
      exact mul_lt_mul_of_pos_right hx (pow10_cast_pos _)
    · -- one digit more has no room
      have hlong : ¬ x * pow10 (finestScale x + 1) < coefficientBound :=
        Nat.findGreatest_is_greatest (Nat.lt_succ_self _) hlt
      rw [not_lt, pow10_cast_succ, ← mul_assoc] at hlong
      linarith
  · obtain ⟨s, hs⟩ : ∃ s, finestScale x = s + 1 := Nat.exists_eq_succ_of_ne_zero hzero
    rw [hs] at h hfit
    rw [← Option.some.inj h]
    refine abs_roundAt_sub_lt hnonneg ?_
    have hbound : (coefficientBound : ℚ) ≤ halfEven (x * pow10 (s + 1)) :=
      Nat.cast_le.mpr (Nat.le_of_not_lt hfit)
    have hle := halfEven_le (x * pow10 (s + 1)) (mul_nonneg hnonneg (pow10_cast_pos _).le)
    rw [pow10_cast_succ, ← mul_assoc] at hbound hle
    rw [Nat.add_sub_cancel]
    linarith

theorem le_add_half_of_nearest? (hx : 0 ≤ x) (h : nearest? x = some y) : y ≤ x + 1 / 2 := by
  have hround (s : Nat) : roundAt x s ≤ x + 1 / 2 := by
    have hle := halfEven_le (x * pow10 s) (mul_nonneg hx (pow10_cast_pos s).le)
    have hone := one_le_pow10_cast s
    rw [roundAt, div_le_iff₀ (pow10_cast_pos s), add_mul]
    linarith
  unfold nearest? at h
  split_ifs at h
  · exact Option.some.inj h ▸ hround _
  · exact Option.some.inj h ▸ hround _

/-- A decimal is a whole number of smallest units. -/
theorem Fits.exists_mul_pow10 (hq : q.Fits) : ∃ n : Nat, q.value * pow10 maxScale = n := by
  refine ⟨q.coefficient * pow10 (maxScale - q.scale), ?_⟩
  rw [← q.value_mul_pow10, Nat.add_sub_cancel' hq.2]

/-- If the reciprocal of a decimal is rounded to a multiple of a coarser unit, it is that multiple. -/
theorem mul_eq_one_of_nearest? {n t : Nat} (hq : q.Fits) (hpos : 0 < q.value) (hy : 2 ≤ y)
    (ht : 0 < t) (hcoarse : t < pow10 maxScale) (hunit : y * t = n * pow10 maxScale)
    (h : nearest? q.value⁻¹ = some y) : q.value * y = 1 := by
  have hinv : 0 < q.value⁻¹ := inv_pos.mpr hpos
  have hlarge : 1 / 2 < q.value⁻¹ := by linarith [le_add_half_of_nearest? hinv.le h]
  have hnear : |q.value * y - 1| * pow10 maxScale < 1 := by
    have hlt := mul_lt_mul_of_pos_left (abs_sub_lt_of_nearest? hlarge h) hpos
    rwa [mul_inv_cancel₀ hpos.ne', ← mul_assoc, ← abs_of_pos hpos, ← abs_mul, abs_of_pos hpos, mul_sub,
      mul_inv_cancel₀ hpos.ne'] at hlt
  -- the product is a multiple of the `t`-th part of one, and too near to one to be another multiple
  obtain ⟨k, hk⟩ := hq.exists_mul_pow10
  have hproduct : q.value * y * t = (k * n : Nat) := by
    rw [mul_assoc, hunit, mul_left_comm, hk, Nat.cast_mul, mul_comm]
  have ht' : (0 : ℚ) < t := Nat.cast_pos.mpr ht
  have hdistance : |((k * n : Nat) : ℚ) - t| < 1 := by
    rw [← hproduct, ← sub_one_mul, abs_mul, abs_of_pos ht']
    refine lt_of_le_of_lt (mul_le_mul_of_nonneg_left ?_ (abs_nonneg _)) hnear
    exact_mod_cast hcoarse.le
  have heq : k * n = t := by
    have hint : |((k * n : Nat) : ℤ) - t| < 1 := by exact_mod_cast hdistance
    rw [Int.abs_lt_one_iff, sub_eq_zero] at hint
    exact_mod_cast hint
  rw [heq] at hproduct
  exact mul_right_cancel₀ ht'.ne' (hproduct.trans (one_mul _).symm)

/-! ## Decimals that are reciprocals of powers -/

/-- The decimal `r` is the reciprocal of the power of the decimal `m`; both without trailing zeros. -/
structure Inverts (m : Magnitude) (e : Nat) (r : Magnitude) : Prop where
  base_fits : m.Fits
  base_trimmed : m.IsTrimmed
  fits : r.Fits
  trimmed : r.IsTrimmed
  value : r.value * m.value ^ e = 1

theorem pow10_eq (n : Nat) : pow10 n = 2 ^ n * 5 ^ n := Nat.mul_pow 2 5 n

theorem two_pow_lt_coefficientBound {n : Nat} (h : n < 96) : 2 ^ n < coefficientBound :=
  Nat.pow_lt_pow_right (by decide) h

namespace Inverts

theorem coefficient_mul (h : Inverts m e r) :
    r.coefficient * m.coefficient ^ e = pow10 (m.scale * e + r.scale) := by
  have hvalue := h.value
  rw [← value_power, Magnitude.value, Magnitude.value, power, div_mul_div_comm,
    div_eq_one_iff_eq (mul_ne_zero (pow10_cast_ne_zero _) (pow10_cast_ne_zero _))] at hvalue
  rw [pow10_add, Nat.mul_comm (pow10 _)]
  exact_mod_cast hvalue

theorem coefficient_pos (h : Inverts m e r) : 0 < r.coefficient ∧ 0 < m.coefficient ^ e := by
  have hpos : 0 < r.coefficient * m.coefficient ^ e := h.coefficient_mul ▸ pow10_pos _
  exact ⟨Nat.pos_of_mul_pos_right hpos, Nat.pos_of_mul_pos_left hpos⟩

/-- A prime factor of ten that the base does not have is in its reciprocal. -/
theorem exists_coefficient_eq (h : Inverts m e r) {a b : Nat} (ha : a.Prime) (hab : a * b = 10)
    (hdvd : ¬ a ∣ m.coefficient) : ∃ k, r.coefficient = a ^ (m.scale * e + r.scale) * k ∧
      k * m.coefficient ^ e = b ^ (m.scale * e + r.scale) := by
  have hmul := h.coefficient_mul
  have hten : pow10 (m.scale * e + r.scale) =
      a ^ (m.scale * e + r.scale) * b ^ (m.scale * e + r.scale) := by
    rw [← Nat.mul_pow, hab]
    rfl
  have hcoprime : (a ^ (m.scale * e + r.scale)).Coprime (m.coefficient ^ e) :=
    Nat.Coprime.pow _ _ ((Nat.Prime.coprime_iff_not_dvd ha).mpr hdvd)
  rw [hten] at hmul
  obtain ⟨k, hk⟩ := hcoprime.dvd_of_dvd_mul_right (Dvd.intro _ hmul.symm)
  refine ⟨k, hk, ?_⟩
  rw [hk, Nat.mul_assoc] at hmul
  exact Nat.eq_of_mul_eq_mul_left (Nat.pow_pos ha.pos) hmul

theorem not_dvd (h : Inverts m e r) (hs : m.scale ≠ 0) :
    ¬ 2 ∣ m.coefficient ∨ ¬ 5 ∣ m.coefficient := by
  rw [← not_and_or]
  rintro ⟨htwo, hfive⟩
  exact h.base_trimmed.resolve_left hs
    (Nat.Coprime.mul_dvd_of_dvd_of_dvd (by decide : Nat.Coprime 2 5) htwo hfive)

/-- The reciprocal has at least as many bits as the power has fraction digits. -/
theorem scale_mul_lt (h : Inverts m e r) (hs : m.scale ≠ 0) : m.scale * e < 96 := by
  have hbits {a b : Nat} (ha : a.Prime) (hab : a * b = 10) (hdvd : ¬ a ∣ m.coefficient) :
      m.scale * e < 96 := by
    obtain ⟨k, hk, -⟩ := h.exists_coefficient_eq ha hab hdvd
    have hkpos : 0 < k := Nat.pos_of_mul_pos_left (hk ▸ h.coefficient_pos.1)
    refine (Nat.pow_lt_pow_iff_right (by decide : 1 < 2)).mp ?_
    calc 2 ^ (m.scale * e)
      _ ≤ 2 ^ (m.scale * e + r.scale) := Nat.pow_le_pow_right (by decide) (Nat.le_add_right _ _)
      _ ≤ a ^ (m.scale * e + r.scale) := Nat.pow_le_pow_left ha.two_le _
      _ ≤ r.coefficient := hk ▸ Nat.le_mul_of_pos_right _ hkpos
      _ < 2 ^ 96 := h.fits.1
  rcases h.not_dvd hs with hdvd | hdvd
  · exact hbits Nat.prime_two (by decide : 2 * 5 = 10) hdvd
  · exact hbits Nat.prime_five (by decide : 5 * 2 = 10) hdvd

/-- The power of a whole number is short if its reciprocal is. -/
theorem fits_power_of_scale (h : Inverts m e r) (hs : m.scale = 0) : (m.power e).Fits := by
  have hmul := h.coefficient_mul
  rw [hs, Nat.zero_mul, Nat.zero_add] at hmul
  refine ⟨?_, by rw [power, hs, Nat.zero_mul]; exact Nat.zero_le _⟩
  calc m.coefficient ^ e
    _ ≤ pow10 r.scale := hmul ▸ Nat.le_mul_of_pos_left _ h.coefficient_pos.1
    _ ≤ pow10 maxScale := Nat.pow_le_pow_right (by decide) h.fits.2
    _ < coefficientBound := by decide

/-- Powers that are too long, with short reciprocals, have small exponents. -/
theorem lt_wideExponent (h : Inverts m e r) (hnot : ¬ (m.power e).Fits) : e < wideExponent := by
  have hs : m.scale ≠ 0 := fun hs => hnot (h.fits_power_of_scale hs)
  calc e
    _ ≤ m.scale * e := Nat.le_mul_of_pos_left e (Nat.pos_of_ne_zero hs)
    _ < 96 := h.scale_mul_lt hs
    _ < wideExponent := by decide

/-- A power that is too long has too many fraction digits, if its digits are few. -/
theorem lt_scale_mul (hnot : ¬ (m.power e).Fits)
    (hfew : m.scale * e ≤ maxScale → m.coefficient ^ e < coefficientBound) :
    maxScale < m.scale * e := by
  by_contra hle
  rw [not_lt] at hle
  exact hnot ⟨hfew hle, hle⟩

end Inverts

/-- A number of some size that is a multiple of a unit coarser than the smallest one. -/
structure Coarse (y : ℚ) : Prop where
  two_le : 2 ≤ y
  unit : ∃ n t : Nat, 0 < t ∧ t < pow10 maxScale ∧ y * t = n * pow10 maxScale

theorem coarse_value {n t : Nat} (hlarge : 2 * pow10 r.scale ≤ r.coefficient) (ht : 0 < t)
    (hcoarse : t < pow10 maxScale)
    (hunit : r.coefficient * t = n * pow10 maxScale * pow10 r.scale) : Coarse r.value := by
  have hpos := pow10_cast_pos r.scale
  refine ⟨?_, n, t, ht, hcoarse, ?_⟩
  · rw [value, le_div_iff₀ hpos]
    exact_mod_cast hlarge
  · rw [value, div_mul_eq_mul_div, div_eq_iff hpos.ne']
    exact_mod_cast hunit

namespace Inverts

/-- The reciprocal of a number without the factor five. -/
theorem coarse_of_not_five_dvd (h : Inverts m e r) (hnot : ¬ (m.power e).Fits)
    (hdvd : ¬ 5 ∣ m.coefficient) : Coarse r.value := by
  obtain ⟨k, hk, hpower⟩ := h.exists_coefficient_eq Nat.prime_five (by decide : 5 * 2 = 10) hdvd
  have hkpos : 0 < k := Nat.pos_of_mul_pos_left (hk ▸ h.coefficient_pos.1)
  have hscale : r.scale ≤ 28 := h.fits.2
  have hlong : 28 < m.scale * e := by
    refine lt_scale_mul hnot fun hle => ?_
    have hle : m.scale * e ≤ 28 := hle
    calc m.coefficient ^ e
      _ ≤ 2 ^ (m.scale * e + r.scale) := hpower ▸ Nat.le_mul_of_pos_left _ hkpos
      _ < coefficientBound := two_pow_lt_coefficientBound (by omega)
  obtain ⟨u, hu⟩ := Nat.exists_eq_add_of_lt hlong
  obtain ⟨i, hi⟩ := Nat.exists_eq_add_of_le hscale
  rw [hu] at hk
  have hhalf : (2 : Nat) ^ 28 = 2 ^ r.scale * 2 ^ i := by rw [← Nat.pow_add, ← hi]
  refine coarse_value (n := 5 ^ (u + 1) * k * 2 ^ i) (t := 2 ^ 56) ?_ (by decide) (by decide) ?_
  · calc 2 * pow10 r.scale
      _ = 2 * 2 ^ r.scale * 5 ^ r.scale := by rw [pow10_eq, Nat.mul_assoc]
      _ ≤ 5 ^ 28 * 5 ^ r.scale := by
        have hle := Nat.pow_le_pow_right (by decide : 0 < 2) hscale
        exact Nat.mul_le_mul_right _ (Nat.le_trans (Nat.mul_le_mul_left 2 hle) (by decide))
      _ ≤ 5 ^ (28 + u + 1 + r.scale) := by
        rw [← Nat.pow_add]
        exact Nat.pow_le_pow_right (by decide) (by omega)
      _ ≤ r.coefficient := hk ▸ Nat.le_mul_of_pos_right _ hkpos
  · have hmax : pow10 maxScale = 2 ^ 28 * 5 ^ 28 := by decide
    have hunit : (2 : Nat) ^ 56 = 2 ^ 28 * (2 ^ r.scale * 2 ^ i) := by rw [← hhalf]; rfl
    rw [hk, hmax, pow10_eq, hunit]
    ring

/-- The reciprocal of a number without the factor two is a whole number. -/
theorem coarse_of_not_two_dvd (h : Inverts m e r) (hnot : ¬ (m.power e).Fits)
    (hdvd : ¬ 2 ∣ m.coefficient) (hs : r.scale = 0) : Coarse r.value := by
  obtain ⟨k, hk, hpower⟩ := h.exists_coefficient_eq Nat.prime_two (by decide : 2 * 5 = 10) hdvd
  have hkpos : 0 < k := Nat.pos_of_mul_pos_left (hk ▸ h.coefficient_pos.1)
  rw [hs, Nat.add_zero] at hk hpower
  have hlong : 28 < m.scale * e := by
    refine lt_scale_mul hnot fun hle => ?_
    have hle : m.scale * e ≤ 28 := hle
    calc m.coefficient ^ e
      _ ≤ 5 ^ (m.scale * e) := hpower ▸ Nat.le_mul_of_pos_left _ hkpos
      _ ≤ 5 ^ 28 := Nat.pow_le_pow_right (by decide) hle
      _ < coefficientBound := by decide
  obtain ⟨u, hu⟩ := Nat.exists_eq_add_of_lt hlong
  rw [hu] at hk
  refine coarse_value (n := 2 ^ (u + 1) * k) (t := 5 ^ 28) ?_ (by decide) (by decide) ?_
  · calc 2 * pow10 r.scale
      _ = 2 ^ 1 := by rw [hs]; rfl
      _ ≤ 2 ^ (28 + u + 1) := Nat.pow_le_pow_right (by decide) (by omega)
      _ ≤ r.coefficient := hk ▸ Nat.le_mul_of_pos_right _ hkpos
  · have hmax : pow10 maxScale = 2 ^ 28 * 5 ^ 28 := by decide
    rw [hk, hmax, hs, pow10_zero]
    ring

/-- The reciprocal of a number without the factor two is not whole. -/
theorem exists_of_not_two_dvd (h : Inverts m e r) (he : e ≠ 0) (hdvd : ¬ 2 ∣ m.coefficient)
    (hs : r.scale ≠ 0) :
    ∃ w, 0 < w ∧ m.coefficient = 5 ^ (m.scale + w) ∧ r = ⟨2 ^ ((m.scale + w) * e), w * e⟩ := by
  obtain ⟨k, hk, hpower⟩ := h.exists_coefficient_eq Nat.prime_two (by decide : 2 * 5 = 10) hdvd
  have hone : k = 1 := by
    obtain ⟨j, -, hj⟩ := (Nat.dvd_prime_pow Nat.prime_five).mp (Dvd.intro _ hpower)
    rcases Nat.eq_zero_or_pos j with rfl | hjpos
    · exact hj
    · -- a factor five would be a trailing zero
      refine absurd ?_ (h.trimmed.resolve_left hs)
      rw [hk, hj]
      exact Nat.mul_dvd_mul (dvd_pow_self 2 (by omega) : 2 ∣ _) (dvd_pow_self 5 hjpos.ne' : 5 ∣ _)
  rw [hone, Nat.one_mul] at hpower
  rw [hone, Nat.mul_one] at hk
  obtain ⟨v, -, hv⟩ := (Nat.dvd_prime_pow Nat.prime_five).mp
    (hpower ▸ dvd_pow_self m.coefficient he)
  rw [hv, ← Nat.pow_mul] at hpower
  have hexponent : v * e = m.scale * e + r.scale := Nat.pow_right_injective (by decide : 2 ≤ 5) hpower
  have hlt : m.scale < v := by
    by_contra hle
    have := Nat.mul_le_mul_right e (Nat.le_of_not_lt hle)
    omega
  obtain ⟨w, rfl⟩ := Nat.exists_eq_add_of_le hlt.le
  have hscale : r.scale = w * e := by
    rw [Nat.add_mul] at hexponent
    exact (Nat.add_left_cancel hexponent).symm
  refine ⟨w, by omega, hv, ?_⟩
  rw [hexponent, ← hk, ← hscale]

end Inverts

end Magnitude

end Calculator
