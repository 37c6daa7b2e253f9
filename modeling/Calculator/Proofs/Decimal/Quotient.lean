import Calculator.Decimal.Quotient
import Calculator.Proofs.Decimal.Product
import Mathlib.Data.Nat.Cast.Field

/-!
# Quotients are rounded to nearest

The long division carries what it divides along: quotient, remainder and scale are the number that
is sought, all the time (`Division.Approximates`).  Wherever the division ends, the answer is this
number rounded, and what is stripped afterwards are zeros (`Magnitude.rounds_div?`).
-/

namespace Calculator

namespace Magnitude

/-! ## Stripped zeros -/

variable {m : Magnitude} {x : ℚ}

theorem value_stripGroup (bits k : Nat) (m : Magnitude) :
    (m.stripGroup bits k).value = m.value := by
  unfold stripGroup
  split
  next h =>
    obtain ⟨-, hk, hdvd⟩ := h
    have hcoefficient : ((m.coefficient / pow10 k : Nat) : ℚ) = m.coefficient / pow10 k :=
      Nat.cast_div (Nat.dvd_of_mod_eq_zero hdvd) (pow10_cast_ne_zero k)
    rw [value, value, hcoefficient, div_div, ← pow10_cast_add, Nat.add_sub_cancel' hk]
  next => rfl

theorem Fits.stripGroup (h : m.Fits) (bits k : Nat) : (m.stripGroup bits k).Fits := by
  unfold Magnitude.stripGroup
  split
  · exact ⟨Nat.lt_of_le_of_lt (Nat.div_le_self _ _) h.1, Nat.le_trans (Nat.sub_le _ _) h.2⟩
  · exact h

theorem value_stripEights (n : Nat) (m : Magnitude) : (m.stripEights n).value = m.value := by
  induction n generalizing m with
  | zero => rfl
  | succ n ih =>
    rw [stripEights]
    split
    · rfl
    · rw [ih, value_stripGroup]

theorem Fits.stripEights (h : m.Fits) (n : Nat) : (m.stripEights n).Fits := by
  induction n generalizing m with
  | zero => exact h
  | succ n ih =>
    rw [Magnitude.stripEights]
    split
    · exact h
    · exact ih (h.stripGroup 32 8)

theorem value_strip (m : Magnitude) : m.strip.value = m.value := by
  rw [strip, value_stripGroup, value_stripGroup, value_stripGroup, value_stripEights]

theorem Fits.strip (h : m.Fits) : m.strip.Fits :=
  (((h.stripEights _).stripGroup 4 4).stripGroup 2 2).stripGroup 1 1

theorem rounds_strip {m? : Option Magnitude} (h : Rounds m? x) : Rounds (m?.map strip) x := by
  obtain ⟨hvalue, hfits⟩ := h
  cases m? with
  | none => exact ⟨hvalue, by simp⟩
  | some m =>
    refine ⟨?_, ?_⟩
    · rw [← hvalue, Option.map_some, Option.map_some, Option.map_some, value_strip]
    · rintro _ ⟨⟩
      exact (hfits m rfl).strip

/-! ## Room for digits -/

theorem mul_roomFor_lt {q : Nat} (hq : q < coefficientBound) (most : Nat) :
    q * pow10 (roomFor q most) < coefficientBound := by
  induction most with
  | zero => rwa [roomFor, pow10_zero, Nat.mul_one]
  | succ k ih =>
    rw [roomFor]
    split
    next h => exact h
    next => exact ih

theorem le_mul_of_roomFor_lt {q most : Nat} (h : roomFor q most < most) :
    coefficientBound ≤ q * pow10 (roomFor q most + 1) := by
  induction most with
  | zero => omega
  | succ k ih =>
    rw [roomFor] at h ⊢
    split at h
    next => omega
    next hlong =>
      rw [if_neg hlong]
      rcases Nat.lt_or_ge (roomFor q k) k with hlt | hge
      · exact ih hlt
      · rw [Nat.le_antisymm (roomFor_le q k) hge]
        exact Nat.le_of_not_lt hlong

namespace Division

variable {v : Division} {d : Nat}

/-! ## What the division carries along -/

/-- The quotient and the remainder by `d` are `x` at the scale of the division. -/
structure Approximates (v : Division) (d : Nat) (x : ℚ) : Prop where
  value_eq : x * 10 ^ v.scale = v.quotient + v.remainder / d
  remainder_lt : v.remainder < d
  scale_le : v.scale ≤ maxScale

theorem Approximates.quotient_le (h : v.Approximates d x) : v.quotient ≤ x * 10 ^ v.scale := by
  rw [h.value_eq]
  exact le_add_of_nonneg_right (div_nonneg (Nat.cast_nonneg _) (Nat.cast_nonneg _))

theorem eq_mul_scaled (x : ℚ) (scale : ℤ) : x = x * 10 ^ scale * 10 ^ (-scale) := by
  rw [mul_assoc, ← zpow_add₀ (by norm_num), add_neg_cancel, zpow_zero, mul_one]

theorem Approximates.nonneg (h : v.Approximates d x) : 0 ≤ x := by
  rw [eq_mul_scaled x v.scale]
  exact mul_nonneg ((Nat.cast_nonneg _).trans h.quotient_le) (zpow_nonneg (by norm_num) _)

/-- Whole digits that are missing make the number longer still. -/
theorem Approximates.mul_pow10_le (h : v.Approximates d x) {k : Nat} (hk : v.scale + k ≤ 0) :
    (v.quotient * pow10 k : Nat) ≤ x := by
  have hpow : ((pow10 k : Nat) : ℚ) ≤ 10 ^ (-v.scale) := by
    rw [pow10_cast, ← zpow_natCast]
    exact zpow_le_zpow_right₀ (by norm_num) (by omega)
  rw [eq_mul_scaled x v.scale, Nat.cast_mul]
  exact mul_le_mul h.quotient_le hpow (Nat.cast_nonneg _) ((Nat.cast_nonneg _).trans h.quotient_le)

theorem Approximates.le_of_long (h : v.Approximates d x) {k : Nat} (hk : v.scale + k ≤ 0)
    (hlong : coefficientBound ≤ v.quotient * pow10 k) : coefficientBound ≤ x :=
  le_trans (Nat.cast_le.mpr hlong) (h.mul_pow10_le hk)

/-! ### Scales that are not negative -/

theorem Approximates.le_maxScale (h : v.Approximates d x) {s : Nat} (hs : v.scale = s) :
    s ≤ maxScale := by
  have := h.scale_le
  omega

theorem Approximates.quotient_le_mul (h : v.Approximates d x) {s : Nat} (hs : v.scale = s) :
    v.quotient ≤ x * pow10 s := by
  have hle := h.quotient_le
  rwa [hs, zpow_natCast, ← pow10_cast] at hle

theorem Approximates.mul_pow10 (h : v.Approximates d x) {s : Nat} (hs : v.scale = s) :
    x * pow10 s = (v.quotient * d + v.remainder : Nat) / (d : ℚ) := by
  have hd : (d : ℚ) ≠ 0 := Nat.cast_ne_zero.mpr (Nat.ne_zero_of_lt h.remainder_lt)
  have hvalue := h.value_eq
  rw [hs, zpow_natCast, ← pow10_cast] at hvalue
  rw [hvalue]
  push_cast
  rw [add_div, mul_div_cancel_right₀ _ hd]

theorem Approximates.mul_lt (h : v.Approximates d x) {s : Nat} (hs : v.scale = s) :
    x * pow10 s < (v.quotient + 1 : Nat) := by
  have hd : (0 : ℚ) < d := Nat.cast_pos.mpr (Nat.zero_lt_of_lt h.remainder_lt)
  have hlt : v.quotient * d + v.remainder < (v.quotient + 1) * d := by
    rw [Nat.add_mul, Nat.one_mul]
    exact Nat.add_lt_add_left h.remainder_lt _
  rw [h.mul_pow10 hs, div_lt_iff₀ hd]
  exact_mod_cast hlt

theorem Approximates.append (h : v.Approximates d x) {k : Nat} (hk : v.scale + k ≤ maxScale) :
    (v.append d k).Approximates d x := by
  have hpos : 0 < d := Nat.zero_lt_of_lt h.remainder_lt
  have hd : (d : ℚ) ≠ 0 := Nat.cast_ne_zero.mpr hpos.ne'
  have hdivision : ((v.remainder * pow10 k : Nat) : ℚ) =
      d * (v.remainder * pow10 k / d : Nat) + (v.remainder * pow10 k % d : Nat) := by
    exact_mod_cast (Nat.div_add_mod _ d).symm
  refine ⟨?_, Nat.mod_lt _ hpos, hk⟩
  calc x * 10 ^ (v.scale + k)
    _ = x * 10 ^ v.scale * pow10 k := by
      rw [zpow_add₀ (by norm_num), zpow_natCast, ← pow10_cast, mul_assoc]
    _ = v.quotient * pow10 k + (v.remainder * pow10 k : Nat) / d := by
      rw [h.value_eq, add_mul, div_mul_eq_mul_div, Nat.cast_mul]
    _ = (v.append d k).quotient + (v.append d k).remainder / d := by
      rw [hdivision, add_div, mul_div_cancel_left₀ _ hd, Division.append]
      push_cast
      ring

/-! ## Where the division ends -/

theorem rounds_finish? (h : v.Approximates d x) (hr : v.remainder = 0)
    (hq : v.quotient < coefficientBound) : Rounds v.finish? x := by
  have hvalue := h.value_eq
  rw [hr, Nat.cast_zero, zero_div, add_zero] at hvalue
  unfold finish?
  split
  next hscale =>
    obtain ⟨s, hs⟩ := Int.eq_ofNat_of_zero_le hscale
    have hx : x = Magnitude.value ⟨v.quotient, s⟩ := by
      rw [hs, zpow_natCast, ← pow10_cast] at hvalue
      exact eq_div_of_mul_eq (pow10_cast_ne_zero s) hvalue
    have hle : s ≤ maxScale := by
      have := h.scale_le
      omega
    rw [hs, Int.toNat_natCast, hx]
    exact rounds_of_fits ⟨hq, hle⟩
  next hscale =>
    have hneg : (((-v.scale).toNat : Nat) : ℤ) = -v.scale := Int.toNat_of_nonneg (by omega)
    have hx : x = (v.quotient * pow10 (-v.scale).toNat : Nat) := by
      rw [eq_mul_scaled x v.scale, hvalue, Nat.cast_mul, pow10_cast, ← zpow_natCast, hneg]
    dsimp only
    split
    next hshort =>
      have hone : x = Magnitude.value ⟨v.quotient * pow10 (-v.scale).toNat, 0⟩ := by
        rw [hx, Magnitude.value, pow10_zero, Nat.cast_one, div_one]
      rw [hone]
      exact rounds_of_fits ⟨hshort, Nat.zero_le _⟩
    next hlong =>
      refine rounds_none ?_
      rw [hx]
      exact_mod_cast Nat.le_of_not_lt hlong

theorem rounds_last? (h : v.Approximates d x) (hq : v.quotient < coefficientBound) {s : Nat}
    (hs : v.scale = s) (hmax : s = maxScale ∨ coefficientBound ≤ v.quotient * 10) :
    Rounds (v.last? d) x := by
  have hlt : x * pow10 s < coefficientBound := (h.mul_lt hs).trans_le (Nat.cast_le.mpr hq)
  have hscale : finestScale x = s := by
    refine finestScale_eq h.nonneg (h.le_maxScale hs) hlt (hmax.imp_right fun hlong => ?_)
    have hlower := h.quotient_le_mul hs
    calc (coefficientBound : ℚ)
      _ ≤ (v.quotient * 10 : Nat) := Nat.cast_le.mpr hlong
      _ = v.quotient * 10 := by push_cast; rfl
      _ ≤ x * pow10 s * 10 := by linarith
      _ = x * pow10 (s + 1) := by rw [pow10_cast_succ, mul_assoc]
  rw [last?, hs, Int.toNat_natCast]
  refine rounds_carry? h.nonneg hscale hlt ?_
  rw [h.mul_pow10 hs]
  exact halfEven_div _ _ (Nat.zero_lt_of_lt h.remainder_lt)

/-- One digit earlier the number is short again: the digits appended last are few, compared with the
bound. -/
theorem mul_pow10_back_lt (h : v.Approximates d x) {s : Nat} (hs : v.scale = (s + 1 : Nat))
    (hshort : v.quotient < coefficientBound + pow10 digitsPerStep) :
    x * pow10 s + 1 < coefficientBound := by
  have hupper := h.mul_lt hs
  have hnine : pow10 digitsPerStep = 1000000000 := rfl
  have hle : ((v.quotient + 1 : Nat) : ℚ) ≤ (coefficientBound + 1000000000 : Nat) :=
    Nat.cast_le.mpr (hnine ▸ hshort)
  rw [pow10_cast_succ] at hupper
  rw [coefficientBound_eq] at hle ⊢
  push_cast at hle hupper ⊢
  linarith

theorem halfEven_back (h : v.Approximates d x) {s : Nat} (hs : v.scale = (s + 1 : Nat)) :
    halfEven (x * pow10 s) = divHalfEven (v.quotient * d + v.remainder) (10 * d) := by
  have hd : 0 < d := Nat.zero_lt_of_lt h.remainder_lt
  have hvalue := h.mul_pow10 hs
  rw [pow10_cast_succ, ← mul_assoc] at hvalue
  rw [← halfEven_div _ _ (by omega), eq_div_of_mul_eq (by norm_num) hvalue, div_div, Nat.cast_mul,
    mul_comm (d : ℚ)]
  rfl

theorem rounds_back? (h : v.Approximates d x) (hlong : coefficientBound ≤ v.quotient)
    (hshort : v.quotient < coefficientBound + pow10 digitsPerStep) : Rounds (v.back? d) x := by
  unfold back?
  split
  next hscale =>
    have hzero : v.scale + (0 : Nat) ≤ 0 := by omega
    exact rounds_none (h.le_of_long hzero (by rwa [pow10_zero, Nat.mul_one]))
  next hscale =>
    obtain ⟨s, hs⟩ : ∃ s : Nat, v.scale = (s + 1 : Nat) := ⟨(v.scale - 1).toNat, by omega⟩
    have hback : (v.scale - 1).toNat = s := by omega
    have hspare := mul_pow10_back_lt h hs hshort
    have hfinest : finestScale x = s := by
      refine finestScale_eq h.nonneg (Nat.le_of_succ_le (h.le_maxScale hs)) (by linarith) (.inr ?_)
      exact le_trans (Nat.cast_le.mpr hlong) (h.quotient_le_mul hs)
    have hround := halfEven_back h hs
    have hfit : halfEven (x * pow10 s) < coefficientBound := by
      have hhalf := halfEven_le (x * pow10 s) (mul_nonneg h.nonneg (pow10_cast_pos s).le)
      have hlt : (halfEven (x * pow10 s) : ℚ) < coefficientBound := by linarith
      exact_mod_cast hlt
    rw [hback, ← hround]
    exact rounds_some hfinest rfl hfit

/-! ## The whole division -/

theorem step_le (v : Division) : v.step ≤ digitsPerStep :=
  Nat.le_trans (roomFor_le _ _) (Nat.min_le_left _ _)

theorem scale_add_step_le (h : v.scale ≤ maxScale) : v.scale + v.step ≤ maxScale := by
  have := roomFor_le v.quotient (min digitsPerStep (maxScale - v.scale).toNat)
  unfold step
  omega

theorem append_quotient_lt (hq : v.quotient < coefficientBound) (hr : v.remainder < d) :
    (v.append d v.step).quotient < coefficientBound + pow10 digitsPerStep := by
  have hroom : v.quotient * pow10 v.step < coefficientBound := mul_roomFor_lt hq _
  have hdigits : v.remainder * pow10 v.step / d < pow10 v.step := by
    rw [Nat.div_lt_iff_lt_mul (Nat.zero_lt_of_lt hr), Nat.mul_comm]
    exact Nat.mul_lt_mul_of_pos_left hr (pow10_pos _)
  have hnine : pow10 v.step ≤ pow10 digitsPerStep := Nat.pow_le_pow_right (by decide) v.step_le
  show v.quotient * pow10 v.step + v.remainder * pow10 v.step / d < _
  omega

/-- Wherever it ends, a division gives the number rounded. -/
theorem rounds_extend (h : v.Approximates d x) (hq : v.quotient < coefficientBound) :
    Rounds (v.extend d) x := by
  fun_induction Division.extend v d with
  | case1 v hr => exact rounds_finish? h hr hq
  | case2 v _ hmissing =>
    obtain ⟨hroom, hscale⟩ := hmissing
    refine rounds_none ?_
    have hmost : min digitsPerStep (maxScale - v.scale).toNat = digitsPerStep := by
      unfold digitsPerStep maxScale at *
      omega
    have hlong : coefficientBound ≤ v.quotient * pow10 (v.step + 1) := by
      unfold step at hroom ⊢
      rw [hmost] at hroom ⊢
      exact le_mul_of_roomFor_lt hroom
    have hwhole : v.scale + (v.step + 1 : Nat) ≤ 0 := by omega
    exact h.le_of_long hwhole hlong
  | case3 v _ hmissing hstep =>
    obtain ⟨s, hs⟩ : ∃ s : Nat, v.scale = s := by
      refine ⟨v.scale.toNat, ?_⟩
      unfold digitsPerStep at hmissing
      omega
    refine rounds_last? h hq hs ?_
    unfold step at hstep
    by_cases hmax : s = maxScale
    · exact .inl hmax
    · right
      have hle := h.scale_le
      have hlt : roomFor v.quotient (min digitsPerStep (maxScale - v.scale).toNat) <
          min digitsPerStep (maxScale - v.scale).toNat := by
        rw [hstep]
        unfold digitsPerStep
        omega
      have hlong := le_mul_of_roomFor_lt hlt
      rwa [hstep] at hlong
  | case4 v _ _ _ hlong =>
    exact rounds_back? (h.append (scale_add_step_le h.scale_le)) hlong
      (append_quotient_lt hq h.remainder_lt)
  | case5 v _ _ _ hshort ih =>
    exact ih (h.append (scale_add_step_le h.scale_le)) (Nat.lt_of_not_le hshort)

end Division

theorem approximates_start {a b : Magnitude} (ha : a.Fits) (hb : b.coefficient ≠ 0) :
    Division.Approximates ⟨a.coefficient / b.coefficient, a.coefficient % b.coefficient,
      (a.scale : Int) - b.scale⟩ b.coefficient (a.value / b.value) := by
  have hpos : 0 < b.coefficient := Nat.pos_of_ne_zero hb
  have hd : (b.coefficient : ℚ) ≠ 0 := Nat.cast_ne_zero.mpr hb
  have hdivision : (a.coefficient : ℚ) = b.coefficient * (a.coefficient / b.coefficient : Nat) +
      (a.coefficient % b.coefficient : Nat) := by
    exact_mod_cast (Nat.div_add_mod a.coefficient b.coefficient).symm
  have hle : (a.scale : ℤ) - b.scale ≤ maxScale := by
    have := ha.2
    omega
  refine ⟨?_, Nat.mod_lt _ hpos, hle⟩
  have hscale : (10 : ℚ) ^ ((a.scale : ℤ) - b.scale) = pow10 a.scale / pow10 b.scale := by
    rw [zpow_sub₀ (by norm_num), zpow_natCast, zpow_natCast, pow10_cast, pow10_cast]
  have hsa := pow10_cast_ne_zero a.scale
  have hsb := pow10_cast_ne_zero b.scale
  calc a.value / b.value * 10 ^ ((a.scale : ℤ) - b.scale)
    _ = a.coefficient / b.coefficient := by
      rw [hscale, value, value]
      field_simp
    _ = _ := by
      rw [hdivision, add_div, mul_div_cancel_left₀ _ hd]

/-- The quotient of the numbers, rounded. -/
theorem rounds_div? {a b : Magnitude} (ha : a.Fits) (hb : b.coefficient ≠ 0) :
    Rounds (a.div? b) (a.value / b.value) := by
  have hstart := approximates_start ha hb
  have hq : a.coefficient / b.coefficient < coefficientBound :=
    Nat.lt_of_le_of_lt (Nat.div_le_self _ _) ha.1
  unfold div?
  dsimp only
  split
  next hr => exact Division.rounds_finish? hstart hr hq
  next => exact rounds_strip (Division.rounds_extend hstart hq)

end Magnitude

end Calculator
