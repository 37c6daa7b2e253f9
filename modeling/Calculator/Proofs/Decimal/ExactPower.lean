import Calculator.Proofs.Decimal.Power
import Calculator.Proofs.Decimal.Whole
import Mathlib.Data.Nat.Prime.Basic

/-!
# Exact powers

If a power is a decimal, then so is every lower power of the same number, and these are all that
repeated squaring multiplies on its way (`Magnitude.Multiplies.good`).  So every product is exact,
and the power is (`Decimal.exists_powNat?`).  A power of an integer is never anything but exact, and
so it is refused if it is too long (`Decimal.powNat?_eq_none`).
-/

namespace Calculator

namespace Magnitude

/-! ## What repeated squaring multiplies -/

section

variable {mul : Magnitude → Magnitude → Option Magnitude} {m p q x y u w : Magnitude} {e : Nat}

/-- The product gathered so far, with the factor for the lowest bit of the exponent. -/
def gather? (mul : Magnitude → Magnitude → Option Magnitude) (p x : Magnitude) (e : Nat) :
    Option Magnitude :=
  if e % 2 = 1 then mul p x else some p

theorem powBy_eq : powBy mul p x e = (gather? mul p x e).bind fun q =>
    if e < 2 then some q else (mul x x).bind fun y => powBy mul q y (e / 2) := by
  rw [powBy]
  rfl

/-- On its way `powBy mul p x e` multiplies `u` by `w`. -/
inductive Multiplies (mul : Magnitude → Magnitude → Option Magnitude) :
    Magnitude → Magnitude → Nat → Magnitude → Magnitude → Prop
  | factor {p x : Magnitude} {e : Nat} : e % 2 = 1 → Multiplies mul p x e p x
  | square {p q x : Magnitude} {e : Nat} : gather? mul p x e = some q → 2 ≤ e →
    Multiplies mul p x e x x
  | later {p q x y u w : Magnitude} {e : Nat} : gather? mul p x e = some q → 2 ≤ e →
    mul x x = some y → Multiplies mul q y (e / 2) u w → Multiplies mul p x e u w

theorem Multiplies.pos (h : Multiplies mul p x e u w) : 0 < e := by
  cases h <;> omega

/-- A power is refused only if a product is. -/
theorem exists_powBy (h : ∀ u w, Multiplies mul p x e u w → ∃ q, mul u w = some q) :
    ∃ q, powBy mul p x e = some q := by
  induction e using Nat.strongRecOn generalizing p x with
  | ind e ih =>
    obtain ⟨q, hq⟩ : ∃ q, gather? mul p x e = some q := by
      unfold gather?
      split
      next hodd => exact h p x (.factor hodd)
      next => exact ⟨p, rfl⟩
    rw [powBy_eq, hq, Option.bind_some]
    split
    next => exact ⟨q, rfl⟩
    next he =>
      have he : 2 ≤ e := Nat.le_of_not_lt he
      obtain ⟨y, hy⟩ := h x x (.square hq he)
      rw [hy, Option.bind_some]
      exact ih (e / 2) (by omega) fun u w huw => h u w (.later hq he hy huw)

variable {Good : Nat → Magnitude → Prop} {i k bound : Nat}

/-- Products of good powers are good, up to a bound on the exponent. -/
def Carries (mul : Magnitude → Magnitude → Option Magnitude) (Good : Nat → Magnitude → Prop)
    (bound : Nat) : Prop :=
  ∀ i j y z q, i + j ≤ bound → Good i y → Good j z → mul y z = some q → Good (i + j) q

/-- Besides, none is refused, and none loses a digit. -/
def Exact (mul : Magnitude → Magnitude → Option Magnitude) (Good : Nat → Magnitude → Prop)
    (bound : Nat) : Prop :=
  ∀ i j y z, i + j ≤ bound → Good i y → Good j z →
    ∃ q, mul y z = some q ∧ q.value = y.value * z.value ∧ Good (i + j) q

theorem Exact.carries_value (h : Exact mul Good bound) (m : Magnitude) :
    Carries mul (fun j y => Good j y ∧ y.value = m.value ^ j) bound := by
  intro i j y z q hij hy hz hq
  obtain ⟨q', hq', hvalue, hgood⟩ := h i j y z hij hy.1 hz.1
  rw [hq] at hq'
  cases hq'
  exact ⟨hgood, by rw [hvalue, hy.2, hz.2, pow_add]⟩

theorem Carries.gather? (hmul : Carries mul Good bound) (hp : Good i p) (hx : Good k x)
    (hbound : i + k * e ≤ bound) (h : gather? mul p x e = some q) : Good (i + k * (e % 2)) q := by
  unfold Magnitude.gather? at h
  split at h
  next hodd =>
    rw [hodd, Nat.mul_one]
    refine hmul i k p x q ?_ hp hx h
    have : k * 1 ≤ k * e := Nat.mul_le_mul_left k (by omega)
    omega
  next heven =>
    cases h
    rwa [Nat.mod_two_ne_one.mp heven, Nat.mul_zero, Nat.add_zero]

/-- The exponent that is left after one round. -/
theorem exponent_round (i k e : Nat) : i + k * (e % 2) + (k + k) * (e / 2) = i + k * e := by
  have : k * (2 * (e / 2) + e % 2) = k * e := by rw [Nat.div_add_mod]
  rw [Nat.mul_add] at this
  rw [← this, ← Nat.two_mul, Nat.mul_assoc 2, Nat.mul_left_comm]
  omega

theorem square_le (he : 2 ≤ e) (hbound : i + k * e ≤ bound) : k + k ≤ bound := by
  have : k * 2 ≤ k * e := Nat.mul_le_mul_left k he
  omega

/-- All that is multiplied are good powers, and so is the result. -/
theorem Multiplies.good (h : Multiplies mul p x e u w) (hmul : Carries mul Good bound)
    (hp : Good i p) (hx : Good k x) (hbound : i + k * e ≤ bound) :
    ∃ i' k', i' + k' ≤ bound ∧ Good i' u ∧ Good k' w := by
  induction h generalizing i k with
  | @factor p x e hodd =>
    refine ⟨i, k, ?_, hp, hx⟩
    have : k * 1 ≤ k * e := Nat.mul_le_mul_left k (by omega)
    omega
  | square _ he => exact ⟨k, k, square_le he hbound, hx, hx⟩
  | @later p q x y _ _ _ hq he hy _ ih =>
    refine ih (hmul.gather? hp hx hbound hq) (hmul k k x x y (square_le he hbound) hx hx hy) ?_
    rw [exponent_round]
    exact hbound

theorem good_powBy (hmul : Carries mul Good bound) (hp : Good i p) (hx : Good k x) (he : 0 < e)
    (hbound : i + k * e ≤ bound) (h : powBy mul p x e = some q) : Good (i + k * e) q := by
  induction e using Nat.strongRecOn generalizing p x i k with
  | ind e ih =>
    rw [powBy_eq] at h
    obtain ⟨r, hr, h⟩ := Option.bind_eq_some_iff.mp h
    have hgood := hmul.gather? hp hx hbound hr
    split at h
    next hlast =>
      cases h
      obtain rfl : e = 1 := by omega
      exact hgood
    next he =>
      have he : 2 ≤ e := Nat.le_of_not_lt he
      obtain ⟨y, hy, h⟩ := Option.bind_eq_some_iff.mp h
      have hsquare := hmul k k x x y (square_le he hbound) hx hx hy
      rw [← exponent_round] at hbound ⊢
      exact ih (e / 2) (by omega) hgood hsquare (by omega) hbound h

/-- Powers of `m` are multiplied out without loss. -/
theorem Exact.powBy (h : Exact mul Good e) (hone : Good 0 one) (hm : Good 1 m) (he : 0 < e) :
    (∃ q, powBy mul one m e = some q ∧ q.value = m.value ^ e ∧ Good e q) ∧
      ∀ u w, Multiplies mul one m e u w →
        ∃ q, mul u w = some q ∧ q.value = u.value * w.value := by
  have hbound : 0 + 1 * e ≤ e := by omega
  have hstart : Good 0 one ∧ one.value = m.value ^ 0 := ⟨hone, by rw [pow_zero, value_one]⟩
  have hbase : Good 1 m ∧ m.value = m.value ^ 1 := ⟨hm, (pow_one _).symm⟩
  have hmultiplies (u w : Magnitude) (huw : Multiplies mul one m e u w) :
      ∃ q, mul u w = some q ∧ q.value = u.value * w.value := by
    obtain ⟨i, j, hij, hu, hw⟩ := huw.good (h.carries_value m) hstart hbase hbound
    obtain ⟨q, hq, hvalue, -⟩ := h i j u w hij hu.1 hw.1
    exact ⟨q, hq, hvalue⟩
  obtain ⟨q, hq⟩ := exists_powBy fun u w huw => (hmultiplies u w huw).imp fun _ hq => hq.1
  have hpower := good_powBy (h.carries_value m) hstart hbase he hbound hq
  rw [Nat.zero_add, Nat.one_mul] at hpower
  exact ⟨⟨q, hq, hpower.2, hpower.1⟩, hmultiplies⟩

end

/-! ## Lower powers -/

variable {m f u w y z q : Magnitude} {n e i j : Nat}

/-- The power multiplied out, with all its digits. -/
def power (m : Magnitude) (e : Nat) : Magnitude := ⟨m.coefficient ^ e, m.scale * e⟩

theorem value_power (m : Magnitude) (e : Nat) : (m.power e).value = m.value ^ e := by
  rw [power, value, value, pow10_cast, pow10_cast, div_pow, pow_mul]
  push_cast
  rfl

/-- No fraction digit is a trailing zero. -/
def IsTrimmed (m : Magnitude) : Prop := m.scale = 0 ∨ ¬ 10 ∣ m.coefficient

theorem isTrimmed_trim (m : Magnitude) : m.trim.IsTrimmed := by
  show (trimmed m.coefficient m.scale).IsTrimmed
  generalize m.coefficient = c
  induction m.scale generalizing c with
  | zero => exact .inl rfl
  | succ s ih =>
    rw [trimmed]
    split
    next => exact ih _
    next h => exact .inr fun hdvd => h (Nat.mod_eq_zero_of_dvd hdvd)

theorem ten_dvd_of_pow {c : Nat} (h : 10 ∣ c ^ e) : 10 ∣ c := by
  have htwo : 2 ∣ c := Nat.prime_two.dvd_of_dvd_pow (Nat.dvd_trans (by decide) h)
  have hfive : 5 ∣ c := Nat.prime_five.dvd_of_dvd_pow (Nat.dvd_trans (by decide) h)
  exact Nat.Coprime.mul_dvd_of_dvd_of_dvd (by decide : Nat.Coprime 2 5) htwo hfive

theorem IsTrimmed.power (h : m.IsTrimmed) (e : Nat) : (m.power e).IsTrimmed := by
  rcases h with h | h
  · exact .inl (by rw [Magnitude.power, h, Nat.zero_mul])
  · exact .inr fun hdvd => h (ten_dvd_of_pow hdvd)

/-- Without trailing zeros a number is written as short as it can be. -/
theorem IsTrimmed.le (h : m.IsTrimmed) (hvalue : f.value = m.value) :
    m.coefficient ≤ f.coefficient ∧ m.scale ≤ f.scale := by
  have hcross : f.coefficient * pow10 m.scale = m.coefficient * pow10 f.scale := by
    rw [value, value, div_eq_div_iff (pow10_cast_ne_zero _) (pow10_cast_ne_zero _)] at hvalue
    exact_mod_cast hvalue
  have hscale : m.scale ≤ f.scale := by
    by_contra hlt
    rw [not_le] at hlt
    obtain ⟨d, hd⟩ := Nat.exists_eq_add_of_lt hlt
    rcases h with h | h
    · omega
    · refine h ⟨f.coefficient * pow10 d, ?_⟩
      rw [hd, pow10_succ, pow10_add] at hcross
      refine Nat.eq_of_mul_eq_mul_right (pow10_pos f.scale) ?_
      rw [← hcross]
      ring
  refine ⟨?_, hscale⟩
  rw [← Nat.sub_add_cancel hscale, pow10_add, ← Nat.mul_assoc] at hcross
  rw [Nat.eq_of_mul_eq_mul_right (pow10_pos m.scale) hcross]
  exact Nat.le_mul_of_pos_right _ (pow10_pos _)

theorem Fits.of_le (hf : f.Fits) (hc : m.coefficient ≤ f.coefficient) (hs : m.scale ≤ f.scale) :
    m.Fits :=
  ⟨Nat.lt_of_le_of_lt hc hf.1, Nat.le_trans hs hf.2⟩

theorem fits_power (hm : m.IsTrimmed) (hf : f.Fits) (h : f.value = m.value ^ e) :
    (m.power e).Fits := by
  rw [← value_power] at h
  obtain ⟨hc, hs⟩ := (hm.power e).le h
  exact hf.of_le hc hs

/-- Lower powers of a number have fewer digits. -/
theorem Fits.power_of_le (hm : m.IsTrimmed) (h : (m.power e).Fits) (hj : j ≤ e) :
    (m.power j).Fits := by
  rcases Nat.eq_zero_or_pos m.coefficient with hzero | hpos
  · have hscale : m.scale = 0 := hm.resolve_right (by rw [hzero]; simp)
    rw [Magnitude.power, hzero, hscale, Nat.zero_mul]
    refine ⟨Nat.lt_of_le_of_lt ?_ (by decide : 1 < coefficientBound), Nat.zero_le _⟩
    exact (Nat.pow_le_pow_left (Nat.zero_le 1) j).trans_eq (Nat.one_pow j)
  · exact h.of_le (Nat.pow_le_pow_right hpos hj) (Nat.mul_le_mul_left _ hj)

/-- Only nothing and one have very high powers. -/
theorem isWhole_of_fits_power (h : (m.power e).Fits) (he : wideExponent ≤ e) :
    ∃ n ≤ 1, m.IsWhole n := by
  have hscale : m.scale = 0 := by
    by_contra hne
    have hle : 1 * e ≤ m.scale * e := Nat.mul_le_mul_right e (Nat.pos_of_ne_zero hne)
    have hmax : m.scale * e ≤ maxScale := h.2
    unfold wideExponent maxScale at *
    omega
  have hcoefficient : m.coefficient ≤ 1 := by
    by_contra hlt
    have hpow : 2 ^ e ≤ m.coefficient ^ e := Nat.pow_le_pow_left (by omega) e
    have hbound : 2 ^ 96 ≤ 2 ^ e := Nat.pow_le_pow_right (by decide) (Nat.le_trans (by decide) he)
    exact absurd h.1 (Nat.not_lt_of_le (Nat.le_trans hbound hpow))
  refine ⟨m.coefficient, hcoefficient, ?_⟩
  rw [IsWhole, hscale, pow10_zero, Nat.mul_one]

/-! ## The two ways of multiplying -/

/-- The multiplication for powers with the exponent `e`. -/
def mulFor (e : Nat) : Magnitude → Magnitude → Option Magnitude :=
  if e < wideExponent then mul? else mulWide?

/-- A product that is a decimal is exact. -/
theorem exists_mul? (hf : f.Fits) (h : f.value = y.value * z.value) :
    ∃ q, y.mul? z = some q ∧ q.value = y.value * z.value := by
  have hvalue := (rounds_mul? y z).value
  rw [← h, ← (rounds_of_fits hf).value, Option.map_some] at hvalue
  obtain ⟨q, hq, hqf⟩ := Option.map_eq_some_iff.mp hvalue
  exact ⟨q, hq, hqf.trans h⟩

theorem mul?_whole {k : Nat} (hy : y.IsWhole n) (hz : z.IsWhole k) (h : y.mul? z = some q) :
    q.IsWhole (n * k) := by
  have hproduct : y.value * z.value = (n * k : Nat) := by
    rw [value_eq_natCast_iff.mpr hy, value_eq_natCast_iff.mpr hz, Nat.cast_mul]
  rw [← value_eq_natCast_iff, ← hproduct]
  rcases Nat.lt_or_ge (n * k) coefficientBound with hlt | hge
  · have hwhole : IsWhole ⟨n * k, 0⟩ (n * k) := (Nat.mul_one _).symm
    obtain ⟨q', hq', hvalue⟩ := exists_mul? (f := ⟨n * k, 0⟩) ⟨hlt, Nat.zero_le _⟩
      ((value_eq_natCast_iff.mpr hwhole).trans hproduct.symm)
    rw [h] at hq'
    cases hq'
    exact hvalue
  · have hnone := (rounds_none (Nat.cast_le.mpr hge)).value
    rw [← hproduct, ← (rounds_mul? y z).value, h] at hnone
    cases hnone

/-- Lower powers are multiplied without loss. -/
theorem exact_mul? (hm : m.IsTrimmed) (hf : (m.power e).Fits) :
    Exact mul? (fun j y => y.value = m.value ^ j) e := by
  intro i j y z hij hy hz
  have hproduct : (m.power (i + j)).value = y.value * z.value := by
    rw [value_power, pow_add, hy, hz]
  obtain ⟨q, hq, hvalue⟩ := exists_mul? (hf.power_of_le hm hij) hproduct
  exact ⟨q, hq, hvalue, hvalue.trans (hproduct.symm.trans (value_power m _))⟩

/-- Nothing and one are multiplied wide without loss. -/
theorem exact_mulWide? (hn : n ≤ 1) :
    Exact mulWide? (fun j y => y.IsWhole (n ^ j) ∧ y.scale ≤ Width.wide.scale) e := by
  intro i j y z _ hy hz
  have hpow : n ^ i * n ^ j ≤ 1 := by
    rw [← pow_add]
    exact (Nat.pow_le_pow_left hn _).trans_eq (Nat.one_pow _)
  obtain ⟨q, hq⟩ := exists_mulWide? hy.1 hz.1 hpow hy.2 hz.2
  obtain ⟨hwhole, -, hscale⟩ := mulWide?_whole hy.1 hz.1 hq
  refine ⟨q, hq, ?_, by rwa [pow_add], hscale⟩
  rw [value_eq_natCast_iff.mpr hwhole, value_eq_natCast_iff.mpr hy.1, value_eq_natCast_iff.mpr hz.1,
    Nat.cast_mul]

/-- If the power is a decimal, it is what comes out, and nothing is lost on the way. -/
theorem pow?_exact (hm : m.Fits) (hf : f.Fits) (h : f.value = m.value ^ e) (he : 0 < e) :
    (m.coefficient ≠ 0 → ∃ q, m.pow? e = some q ∧ q.Fits ∧ q.value = m.value ^ e) ∧
      ∀ u w, Multiplies (mulFor e) one m e u w →
        ∃ q, mulFor e u w = some q ∧ q.value = u.value * w.value := by
  have htrim : (m.trim.power e).Fits :=
    fits_power (isTrimmed_trim m) hf (by rwa [value_trim])
  unfold pow? mulFor
  rcases Nat.lt_or_ge e wideExponent with hshort | hlong
  · obtain ⟨⟨q, hq, hvalue, -⟩, hmultiplies⟩ :=
      (exact_mul? (isTrimmed_trim m) htrim).powBy (m := m) (by rw [pow_zero, value_one])
        (by rw [pow_one, value_trim]) he
    rw [if_pos hshort, if_pos hshort]
    exact ⟨fun _ => ⟨q, hq, fits_powBy fits_one hq, hvalue⟩, hmultiplies⟩
  · obtain ⟨n, hn, hwhole⟩ := isWhole_of_fits_power htrim hlong
    have hwhole : m.IsWhole n := by rwa [← value_eq_natCast_iff, ← value_trim, value_eq_natCast_iff]
    have hscale : m.scale ≤ Width.wide.scale := Nat.le_trans hm.2 (by decide)
    obtain ⟨⟨q, hq, hvalue, hqwhole, hqscale⟩, hmultiplies⟩ :=
      (exact_mulWide? hn).powBy (m := m) ⟨isWhole_one, Nat.zero_le _⟩ ⟨by rwa [pow_one], hscale⟩ he
    rw [if_neg (Nat.not_lt_of_le hlong), if_neg (Nat.not_lt_of_le hlong)]
    refine ⟨fun hne => ?_, hmultiplies⟩
    -- what is left is one
    obtain rfl : n = 1 := by
      rw [ne_eq, ← hwhole.coefficient_eq_zero_iff] at hne
      omega
    rw [one_pow] at hqwhole
    obtain ⟨r, hr⟩ := exists_narrow? hqwhole hqscale
    obtain ⟨hrwhole, hrfits⟩ := narrow?_whole hqwhole hr
    refine ⟨r, by rw [hq, Option.bind_some, hr], hrfits, ?_⟩
    rw [← hvalue, value_eq_natCast_iff.mpr hrwhole, value_eq_natCast_iff.mpr hqwhole]

theorem powBy_whole {mul : Magnitude → Magnitude → Option Magnitude}
    (hmul : ∀ i j y z q, y.IsWhole i → z.IsWhole j → mul y z = some q → q.IsWhole (i * j))
    (hm : m.IsWhole n) (he : 0 < e) (h : powBy mul one m e = some q) : q.IsWhole (n ^ e) := by
  have hcarries : Carries mul (fun j y => y.IsWhole (n ^ j)) e := by
    intro i j y z r _ hy hz hr
    rw [pow_add]
    exact hmul _ _ y z r hy hz hr
  have hstart : one.IsWhole (n ^ 0) := by rw [pow_zero]; exact isWhole_one
  have hbase : m.IsWhole (n ^ 1) := by rwa [pow_one]
  have hwhole := good_powBy hcarries hstart hbase he (by omega) h
  rwa [Nat.zero_add, Nat.one_mul] at hwhole

/-- A power of a whole number is exact, or refused. -/
theorem pow?_whole (hm : m.IsWhole n) (he : 0 < e) (h : m.pow? e = some q) :
    q.IsWhole (n ^ e) ∧ q.Fits := by
  unfold pow? at h
  split at h
  next =>
    have hwhole := powBy_whole (fun _ _ _ _ _ => mul?_whole) hm he h
    exact ⟨hwhole, fits_powBy fits_one h⟩
  next =>
    obtain ⟨r, hr, h⟩ := Option.bind_eq_some_iff.mp h
    have hwhole := powBy_whole (fun _ _ _ _ _ hy hz hr => (mulWide?_whole hy hz hr).1) hm he hr
    exact narrow?_whole hwhole h

end Magnitude

namespace Decimal

variable {a d : Decimal} {e : Nat} {n : ℤ}

/-- Odd powers keep the sign. -/
theorem value_pow (a : Decimal) (e : Nat) : a.value ^ e =
    if a.negative && e % 2 == 1 then -a.toMagnitude.value ^ e else a.toMagnitude.value ^ e := by
  rw [value]
  cases a.negative with
  | false => rfl
  | true =>
    rcases Nat.even_or_odd e with he | he
    · simp [Nat.even_iff.mp he, he.neg_pow]
    · simp [Nat.odd_iff.mp he, he.neg_pow]

/-- The sign and the trailing zeros that a power comes out with leave the number as it is. -/
theorem exists_ofMagnitude?_trim {m : Magnitude} (hm : m.Fits) (negative : Bool) :
    ∃ c, ofMagnitude? (negative && m.coefficient != 0) m.trim = some c ∧
      c.value = if negative then -m.value else m.value := by
  refine ⟨_, dif_pos hm.trim, ?_⟩
  rw [value]
  dsimp only
  rw [Magnitude.value_trim]
  by_cases hzero : m.coefficient = 0
  · rw [(m.value_eq_zero_iff).mpr hzero, neg_zero, ite_self, ite_self]
  · rw [bne_iff_ne.mpr hzero, Bool.and_true]

theorem value_one : one.value = 1 := Magnitude.value_one

/-- A power that is a decimal is exact. -/
theorem exists_powNat? (h : d.value = a.value ^ e) :
    ∃ c, a.powNat? e = some c ∧ c.value = a.value ^ e := by
  have hzero : zero.value = 0 := (value_eq_zero_iff zero).mpr rfl
  unfold powNat?
  split_ifs with he hbase hbase' he' he'
  · exact ⟨one, rfl, by rw [value_one, he, pow_zero]⟩
  · exact ⟨zero, rfl, by rw [hzero, (isZero_iff a).mp hbase, zero_pow he]⟩
  · have hvalue : a.value = 1 := value_one ▸ hbase'
    exact ⟨one, rfl, by rw [value_one, hvalue, one_pow]⟩
  · exact ⟨a, rfl, by rw [he', pow_one]⟩
  · have hsquare := map_value_mul? a a
    rw [← sq, ← he', ← h, nearest?_value, h, Option.map_eq_some_iff] at hsquare
    exact hsquare
  · have hf : d.toMagnitude.value = a.toMagnitude.value ^ e := by
      rw [← abs_value, h, abs_pow, abs_value]
    obtain ⟨m, hm, hfits, hvalue⟩ := (Magnitude.pow?_exact a.fits d.fits hf
      (Nat.pos_of_ne_zero he)).1 (by rwa [ne_eq, ← value_eq_zero_iff, ← isZero_iff])
    obtain ⟨c, hc, hcvalue⟩ := exists_ofMagnitude?_trim hfits (a.negative && e % 2 == 1)
    refine ⟨c, by rw [hm, Option.bind_some, hc], ?_⟩
    rw [hcvalue, hvalue, value_pow]

theorem isWhole_natAbs (ha : a.value = n) : a.toMagnitude.IsWhole n.natAbs := by
  rw [← Magnitude.value_eq_natCast_iff, ← abs_value, ha, Nat.cast_natAbs, Int.cast_abs]

/-- A power of an integer that is too long is refused. -/
theorem powNat?_eq_none (ha : a.value = n) (h : (coefficientBound : ℚ) ≤ |a.value| ^ e) :
    a.powNat? e = none := by
  have hbound : (1 : ℚ) < coefficientBound := Nat.one_lt_cast.mpr (by decide)
  have hsmall : ¬ |a.value| ^ e ≤ 1 := not_le_of_gt (hbound.trans_le h)
  have hwhole := isWhole_natAbs ha
  have hlong : coefficientBound ≤ n.natAbs ^ e := by
    rw [ha, ← Int.cast_abs, ← Nat.cast_natAbs] at h
    exact_mod_cast h
  unfold powNat?
  split_ifs with he hbase hbase' he' he'
  · exact absurd (by rw [he, pow_zero]) hsmall
  · exact absurd (by rw [(isZero_iff a).mp hbase, abs_zero, zero_pow he]; norm_num) hsmall
  · have hvalue : a.value = 1 := (hbase' : a.value = one.value).trans value_one
    exact absurd (by rw [hvalue, abs_one, one_pow]) hsmall
  · rw [he', pow_one] at hlong
    exact absurd a.fits.1 (Nat.not_lt_of_le (hlong.trans hwhole.le_coefficient))
  · have hsquare := map_value_mul? a a
    rw [he', sq, ← abs_mul] at h
    rw [nearest?, ← (rounds_none h).value] at hsquare
    exact Option.map_eq_none_iff.mp hsquare
  · have hnone : a.pow? e = none := by
      rw [Option.eq_none_iff_forall_ne_some]
      intro q hq
      obtain ⟨hqwhole, hqfits⟩ := Magnitude.pow?_whole hwhole (Nat.pos_of_ne_zero he) hq
      exact absurd hqfits.1 (Nat.not_lt_of_le (hlong.trans hqwhole.le_coefficient))
    rw [hnone, Option.bind_none]

end Decimal

end Calculator
