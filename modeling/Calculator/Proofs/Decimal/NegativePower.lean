import Calculator.Proofs.Decimal.Reciprocal

/-!
# Reciprocals of computed powers

What comes out for a power with a negative exponent is the reciprocal of the computed power
(`Magnitude.reciprocal?`), with the sign of the power (`Decimal.map_value_powInt?_eq`).  It is exact if
the power is a decimal (`Decimal.exists_powInt?_of_power`).  If it is none, what rounding has lost
shows in the reciprocal unless that is small (`Decimal.exists_powInt?_iff`).
-/

namespace Calculator

namespace Magnitude

variable {m m' q r : Magnitude} {e : Nat} {y : ℚ}

/-! ## Coarse reciprocals -/

/-- The reciprocal of the power that is computed. -/
def reciprocal? (m : Magnitude) (e : Nat) : Option Magnitude :=
  (m.pow? e).bind fun q => if q.coefficient = 0 then none else one.div? q

theorem map_value_one_div? (hq : q.value ≠ 0) : (one.div? q).map value = nearest? q.value⁻¹ := by
  rw [(rounds_div? fits_one ((value_eq_zero_iff q).not.mp hq)).value, value_one, one_div]

theorem map_value_reciprocal?_eq_some_iff : (m.reciprocal? e).map value = some y ↔
    ∃ q, m.pow? e = some q ∧ q.value ≠ 0 ∧ nearest? q.value⁻¹ = some y := by
  unfold reciprocal?
  cases hpow : m.pow? e with
  | none => simp
  | some q =>
    rw [Option.bind_some]
    split
    next hzero => simp [(value_eq_zero_iff q).mpr hzero]
    next hzero =>
      have hq : q.value ≠ 0 := (value_eq_zero_iff q).not.mpr hzero
      rw [map_value_one_div? hq]
      simp [hq]

theorem map_value_reciprocal? (hm : m.value = m'.value) (he : e < wideExponent) :
    (m.reciprocal? e).map value = (m'.reciprocal? e).map value := by
  refine map_bind_congr value value (map_value_pow? hm he) fun q _ q' _ hq => ?_
  have hzero : q.coefficient = 0 ↔ q'.coefficient = 0 := by
    rw [← value_eq_zero_iff, ← value_eq_zero_iff, hq]
  split_ifs with h h' h'
  · rfl
  · exact absurd (hzero.mp h) h'
  · exact absurd (hzero.mpr h') h
  · have hne := (value_eq_zero_iff q).not.mpr h
    rw [map_value_one_div? hne, map_value_one_div? (hq ▸ hne), hq]

/-- A coarse reciprocal comes out only if the power itself is a decimal. -/
theorem fits_power_of_coarse (h : Inverts m e r) (hcoarse : Coarse r.value)
    (he : e < wideExponent) (hexact : (m.reciprocal? e).map value = some r.value) :
    (m.power e).Fits := by
  obtain ⟨q, hq, hne, hnearest⟩ := map_value_reciprocal?_eq_some_iff.mp hexact
  have hfits := fits_pow? he hq
  have hpos : 0 < q.value := lt_of_le_of_ne q.value_nonneg hne.symm
  obtain ⟨htwo, n, t, ht, hunit, hmultiple⟩ := hcoarse
  have hmul := mul_eq_one_of_nearest? hfits hpos htwo ht hunit hmultiple hnearest
  refine fits_power h.base_trimmed hfits ?_
  have hr : r.value ≠ 0 := by linarith
  exact mul_right_cancel₀ hr (by rw [hmul, mul_comm, h.value])

/-! ## Reciprocals with fraction digits -/

/-- The power of `5 ^ w / 2 ^ s` is too long for a decimal, and its reciprocal is not. -/
structure Overlong (w e s : Nat) : Prop where
  base : Fits ⟨5 ^ (s + w), s⟩
  reciprocal : Fits ⟨2 ^ ((s + w) * e), w * e⟩
  power : ¬ (power ⟨5 ^ (s + w), s⟩ e).Fits

instance (w e s : Nat) : Decidable (Overlong w e s) :=
  decidable_of_iff (Fits ⟨5 ^ (s + w), s⟩ ∧ Fits ⟨2 ^ ((s + w) * e), w * e⟩ ∧
    ¬ (Magnitude.power ⟨5 ^ (s + w), s⟩ e).Fits)
    ⟨fun h => ⟨h.1, h.2.1, h.2.2⟩, fun h => ⟨h.base, h.reciprocal, h.power⟩⟩

/-- These powers are finitely many.  Which of them are near enough to be inverted depends on how each
single product on the way is rounded, so they are gone through one by one. -/
theorem reciprocal?_five_pow : ∀ w < 15, ∀ e < 28 / w + 1, ∀ s < 29, Overlong w e s →
    ((reciprocal? ⟨5 ^ (s + w), s⟩ e).map trim = some ⟨2 ^ ((s + w) * e), w * e⟩ ↔
      2 ^ ((s + w) * e) * 100 ≤ 121 * pow10 (w * e)) := by
  decide +kernel

theorem map_eq_trim_iff (hr : r.IsTrimmed) {m? : Option Magnitude} :
    m?.map value = some r.value ↔ m?.map trim = some r := by
  cases m? with
  | none => simp
  | some q =>
    rw [Option.map_some, Option.map_some, Option.some_inj, Option.some_inj]
    constructor
    · intro hvalue
      rw [← value_trim] at hvalue
      obtain ⟨hc, hs⟩ := hr.le hvalue
      obtain ⟨hc', hs'⟩ := q.isTrimmed_trim.le hvalue.symm
      rw [Magnitude.mk.injEq]
      exact ⟨Nat.le_antisymm hc' hc, Nat.le_antisymm hs' hs⟩
    · intro htrim
      rw [← value_trim, htrim]

theorem two_le_of_not_fits (hm : m.Fits) (hnot : ¬ (m.power e).Fits) : 2 ≤ e := by
  by_contra hlt
  obtain rfl | rfl : e = 0 ∨ e = 1 := by omega
  · exact hnot (by rw [power, Nat.pow_zero, Nat.mul_zero]; exact fits_one)
  · exact hnot (by rw [power, Nat.pow_one, Nat.mul_one]; exact hm)

theorem Inverts.reciprocal?_iff_of_fraction (h : Inverts m e r) (hnot : ¬ (m.power e).Fits)
    (hdvd : ¬ 2 ∣ m.coefficient) (hs : r.scale ≠ 0) :
    (m.reciprocal? e).map Magnitude.value = some r.value ↔ r.value ≤ 121 / 100 := by
  have he := two_le_of_not_fits h.base_fits hnot
  obtain ⟨w, hw, hc, hr⟩ := h.exists_of_not_two_dvd (by omega) hdvd hs
  rw [map_eq_trim_iff h.trimmed]
  obtain ⟨c, s⟩ := m
  dsimp only at hc hr
  subst hc hr
  have hover : Overlong w e s := ⟨h.base_fits, h.fits, hnot⟩
  have hscale : w * e ≤ 28 := h.fits.2
  have hsmall : w < 15 := by
    by_contra hle
    have := Nat.mul_le_mul (Nat.le_of_not_lt hle) he
    omega
  have hexponent : e < 28 / w + 1 :=
    Nat.lt_succ_of_le ((Nat.le_div_iff_mul_le hw).mpr (by rwa [Nat.mul_comm]))
  rw [reciprocal?_five_pow w hsmall e hexponent s (Nat.lt_succ_of_le h.base_fits.2) hover,
    Magnitude.value, div_le_div_iff₀ (pow10_cast_pos _) (by norm_num)]
  exact_mod_cast Iff.rfl

/-- If the power is no decimal and its reciprocal is one, the reciprocal comes out if it is small. -/
theorem Inverts.reciprocal?_iff (h : Inverts m e r) (hnot : ¬ (m.power e).Fits) :
    (m.reciprocal? e).map Magnitude.value = some r.value ↔ r.value ≤ 121 / 100 := by
  have hs : m.scale ≠ 0 := fun hs => hnot (h.fits_power_of_scale hs)
  have hcoarse (hy : Coarse r.value) :
      (m.reciprocal? e).map Magnitude.value = some r.value ↔ r.value ≤ 121 / 100 := by
    have htwo := hy.two_le
    refine iff_of_false (fun hexact => ?_) (by linarith)
    exact hnot (fits_power_of_coarse h hy (h.lt_wideExponent hnot) hexact)
  rcases (h.not_dvd hs).symm with hfive | htwo
  · exact hcoarse (h.coarse_of_not_five_dvd hnot hfive)
  · by_cases hwhole : r.scale = 0
    · exact hcoarse (h.coarse_of_not_two_dvd hnot htwo hwhole)
    · exact h.reciprocal?_iff_of_fraction hnot htwo hwhole

end Magnitude

/-! ## Signs -/

namespace Decimal

variable {a d : Decimal} {e : Nat} {x y : ℚ}

/-- A number that is negative if it is said to be. -/
def withSign (negative : Bool) (x : ℚ) : ℚ := if negative then -x else x

theorem withSign_inj {negative : Bool} : withSign negative x = withSign negative y ↔ x = y := by
  cases negative
  · exact Iff.rfl
  · exact neg_inj

theorem withSign_inv (negative : Bool) (x : ℚ) : (withSign negative x)⁻¹ = withSign negative x⁻¹ := by
  cases negative
  · rfl
  · exact inv_neg

theorem withSign_eq_zero_iff {negative : Bool} : withSign negative x = 0 ↔ x = 0 := by
  cases negative
  · exact Iff.rfl
  · exact neg_eq_zero

theorem nearest?_withSign (hx : 0 < x) (negative : Bool) :
    nearest? (withSign negative x) = (Magnitude.nearest? x).map (withSign negative) := by
  unfold nearest? withSign
  cases negative
  · simp [abs_of_pos hx, hx.not_gt]
  · simp [abs_of_pos hx, hx]

/-- The sign of a power. -/
def powSign (a : Decimal) (e : Nat) : Bool := a.negative && e % 2 == 1

theorem value_pow_eq (a : Decimal) (e : Nat) :
    a.value ^ e = withSign (a.powSign e) (a.toMagnitude.value ^ e) := value_pow a e

theorem map_value_pow?_two (m : Magnitude) :
    (m.pow? 2).map Magnitude.value = Magnitude.nearest? (m.value ^ 2) := by
  have hpow : m.pow? 2 = (m.mul? m).bind fun y => (Magnitude.one.mul? y).bind some := by
    rw [Magnitude.pow?, if_pos (by decide), Magnitude.powBy_eq]
    refine congrArg (m.mul? m).bind (funext fun y => ?_)
    rw [Magnitude.powBy_eq]
    rfl
  obtain ⟨hvalue, hfits⟩ := m.rounds_mul? m
  rw [hpow, sq, ← hvalue]
  cases hsquare : m.mul? m with
  | none => rfl
  | some y =>
    rw [Option.bind_some, Option.bind_fun_some, (Magnitude.one.rounds_mul? y).value,
      Magnitude.value_one, one_mul,
      ← (rounds_of_fits (hfits y hsquare)).value]

/-- The power of the digits, with the sign. -/
theorem map_value_powNat?_eq (hzero : a.value ≠ 0) (hone : ¬ a.Equiv one) (he : 2 ≤ e)
    (hshort : e < Magnitude.wideExponent) : (a.powNat? e).map value =
      (a.toMagnitude.pow? e).map fun q => withSign (a.powSign e) q.value := by
  unfold powNat?
  rw [if_neg (by omega), if_neg ((isZero_iff a).not.mpr hzero), if_neg hone, if_neg (by omega)]
  split
  next htwo =>
    subst htwo
    have hpos : 0 < a.toMagnitude.value := a.abs_value ▸ abs_pos.mpr hzero
    rw [map_value_mul?, ← sq, value_pow_eq, nearest?_withSign (pow_pos hpos 2), ← map_value_pow?_two,
      Option.map_map]
    rfl
  next =>
    cases hpow : a.toMagnitude.pow? e with
    | none => rfl
    | some q =>
      obtain ⟨c, hc, hvalue⟩ := exists_ofMagnitude?_trim (Magnitude.fits_pow? hshort hpow)
        (a.powSign e)
      rw [Option.bind_some, ← powSign, hc, Option.map_some, Option.map_some, hvalue, withSign]

theorem powInt?_negSucc (a : Decimal) (e : Nat) : a.powInt? (.negSucc e) =
    (a.powNat? (e + 1)).bind fun p => if p.isZero then none else one.div? p := rfl

/-- The reciprocal of the power of the digits, with the sign. -/
theorem map_value_powInt?_eq (hzero : a.value ≠ 0) (hone : ¬ a.Equiv one) (he : 1 ≤ e)
    (hshort : e + 1 < Magnitude.wideExponent) : (a.powInt? (.negSucc e)).map value =
      (a.toMagnitude.reciprocal? (e + 1)).map fun q => withSign (a.powSign (e + 1)) q.value := by
  have hpower := map_value_powNat?_eq hzero hone (by omega : 2 ≤ e + 1) hshort
  rw [powInt?_negSucc, Magnitude.reciprocal?]
  cases hq : a.toMagnitude.pow? (e + 1) with
  | none =>
    rw [hq, Option.map_none, Option.map_eq_none_iff] at hpower
    rw [hpower]
    rfl
  | some q =>
    rw [hq, Option.map_some] at hpower
    obtain ⟨p, hp, hvalue⟩ := Option.map_eq_some_iff.mp hpower
    have hiff : p.isZero ↔ q.coefficient = 0 := by
      rw [isZero_iff, hvalue, withSign_eq_zero_iff, Magnitude.value_eq_zero_iff]
    rw [hp, Option.bind_some, Option.bind_some]
    by_cases hqzero : q.coefficient = 0
    · rw [if_pos (hiff.mpr hqzero), if_pos hqzero]
      rfl
    · have hqne : q.value ≠ 0 := q.value_eq_zero_iff.not.mpr hqzero
      have hpne : p.value ≠ 0 := by rwa [hvalue, ne_eq, withSign_eq_zero_iff]
      have hqpos : 0 < q.value⁻¹ := inv_pos.mpr (lt_of_le_of_ne q.value_nonneg hqne.symm)
      rw [if_neg (hiff.not.mpr hqzero), if_neg hqzero, map_value_div? one hpne, value_one, one_div,
        hvalue, withSign_inv, nearest?_withSign hqpos, ← Magnitude.map_value_one_div? hqne,
        Option.map_map]
      rfl

theorem withSign_toMagnitude_value (a : Decimal) :
    withSign a.negative a.toMagnitude.value = a.value := rfl

/-- The power of a number is a decimal if that of its digits is. -/
theorem exists_value_eq_pow (h : (a.trim.power e).Fits) : ∃ p : Decimal, p.value = a.value ^ e := by
  refine ⟨⟨a.trim.power e, a.powSign e, h⟩, ?_⟩
  rw [← withSign_toMagnitude_value, Magnitude.value_power, Magnitude.value_trim, value_pow_eq]

theorem inverts_trim (hd : d.value * a.value ^ e = 1) : a.trim.Inverts e d.trim where
  base_fits := a.fits.trim
  base_trimmed := Magnitude.isTrimmed_trim _
  fits := d.fits.trim
  trimmed := Magnitude.isTrimmed_trim _
  value := by
    rw [Magnitude.value_trim, Magnitude.value_trim, ← abs_value, ← abs_value, ← abs_pow, ← abs_mul, hd,
      abs_one]

/-- If the power is a decimal and its reciprocal is one, that comes out. -/
theorem exists_powInt?_of_power {p : Decimal} (hd : d.value * a.value ^ (e + 1) = 1)
    (hp : p.value = a.value ^ (e + 1)) :
    ∃ c, a.powInt? (.negSucc e) = some c ∧ c.value = d.value := by
  obtain ⟨q, hq, hvalue⟩ := exists_powNat? hp
  have hne : q.value ≠ 0 := by
    rw [hvalue]
    exact right_ne_zero_of_mul_eq_one hd
  have hdiv := map_value_div? one hne
  rw [value_one, one_div, hvalue, ← eq_inv_of_mul_eq_one_left hd, nearest?_value] at hdiv
  obtain ⟨c, hc, hcvalue⟩ := Option.map_eq_some_iff.mp hdiv
  refine ⟨c, ?_, hcvalue⟩
  rw [powInt?_negSucc, hq, Option.bind_some, if_neg ((isZero_iff q).not.mpr hne), hc]

/-- If the power is no decimal and its reciprocal is one, that comes out if it is small. -/
theorem exists_powInt?_iff (hd : d.value * a.value ^ (e + 1) = 1)
    (hnot : ¬ ∃ p : Decimal, p.value = a.value ^ (e + 1)) :
    (∃ c, a.powInt? (.negSucc e) = some c ∧ c.value = d.value) ↔ |d.value| ≤ 121 / 100 := by
  have hinverts := inverts_trim hd
  have hlong : ¬ (a.trim.power (e + 1)).Fits := mt exists_value_eq_pow hnot
  have hshort := hinverts.lt_wideExponent hlong
  have he := Magnitude.two_le_of_not_fits a.fits.trim hlong
  have hzero : a.value ≠ 0 := by
    rintro hzero
    rw [hzero, zero_pow (Nat.succ_ne_zero e), mul_zero] at hd
    exact zero_ne_one hd
  have hone : ¬ a.Equiv one := by
    intro hone
    rw [Equiv, value_one] at hone
    exact hnot ⟨one, by rw [value_one, hone, one_pow]⟩
  have hsign : d.value = withSign (a.powSign (e + 1)) d.trim.value := by
    rw [eq_inv_of_mul_eq_one_left hinverts.value, ← withSign_inv, Magnitude.value_trim,
      ← value_pow_eq]
    exact eq_inv_of_mul_eq_one_left hd
  calc (∃ c, a.powInt? (.negSucc e) = some c ∧ c.value = d.value)
    _ ↔ (a.powInt? (.negSucc e)).map value = some d.value := Option.map_eq_some_iff.symm
    _ ↔ (a.toMagnitude.reciprocal? (e + 1)).map Magnitude.value = some d.trim.value := by
      rw [map_value_powInt?_eq hzero hone (by omega) hshort, hsign]
      cases a.toMagnitude.reciprocal? (e + 1) <;> simp [withSign_inj]
    _ ↔ (a.trim.reciprocal? (e + 1)).map Magnitude.value = some d.trim.value := by
      rw [Magnitude.map_value_reciprocal? (Magnitude.value_trim _).symm hshort]
    _ ↔ |d.value| ≤ 121 / 100 := by
      rw [hinverts.reciprocal?_iff hlong, Magnitude.value_trim, abs_value]

end Decimal

end Calculator
