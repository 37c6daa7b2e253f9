import Calculator.Decimal.Rounding
import Mathlib.Algebra.Order.Floor.Semifield
import Mathlib.Data.Nat.Find
import Mathlib.Data.Rat.Floor
import Mathlib.Tactic.FieldSimp
import Mathlib.Tactic.Linarith
import Mathlib.Tactic.Positivity

/-!
# The nearest decimal

`Magnitude.nearest?` says for a number which decimal stands for it: it is rounded half to even, with
as many fraction digits as the bounds leave room for.  It does not ask where the number comes from,
and so what is shown to round to it (`Rounds`) depends on the number alone.  Magnitudes that are too
long are the first case of it (`Magnitude.rounds_fit?`).
-/

namespace Calculator

theorem pow10_cast_pos (n : Nat) : (0 : ℚ) < pow10 n := Nat.cast_pos.mpr (pow10_pos n)

theorem pow10_cast_ne_zero (n : Nat) : (pow10 n : ℚ) ≠ 0 := (pow10_cast_pos n).ne'

theorem one_le_pow10_cast (n : Nat) : (1 : ℚ) ≤ pow10 n := Nat.one_le_cast.mpr (pow10_pos n)

theorem pow10_cast (n : Nat) : (pow10 n : ℚ) = 10 ^ n := by
  show ((10 ^ n : Nat) : ℚ) = 10 ^ n
  push_cast
  rfl

theorem pow10_cast_succ (n : Nat) : (pow10 (n + 1) : ℚ) = pow10 n * 10 := by
  rw [pow10_succ, Nat.cast_mul]
  rfl

theorem pow10_cast_add (m n : Nat) : (pow10 (m + n) : ℚ) = pow10 m * pow10 n := by
  rw [pow10_add, Nat.cast_mul]

theorem pow10_cast_sub {m n : Nat} (h : n ≤ m) : (pow10 m : ℚ) = pow10 (m - n) * pow10 n := by
  rw [← pow10_cast_add, Nat.sub_add_cancel h]

/-! ## Half to even -/

/-- The natural number nearest to `x`, of two the even one. -/
def halfEven (x : ℚ) : Nat :=
  if 1 < 2 * (x - ⌊x⌋₊) ∨ 2 * (x - ⌊x⌋₊) = 1 ∧ ⌊x⌋₊ % 2 = 1 then ⌊x⌋₊ + 1 else ⌊x⌋₊

theorem halfEven_div (n d : Nat) (hd : 0 < d) : halfEven (n / d) = divHalfEven n d := by
  have hpos : (0 : ℚ) < d := Nat.cast_pos.mpr hd
  have hfraction : (n : ℚ) / d - (n / d : Nat) = (n % d : Nat) / d := by
    have hn : (n : ℚ) = d * (n / d : Nat) + (n % d : Nat) := by
      exact_mod_cast (Nat.div_add_mod n d).symm
    field_simp
    linarith
  have hlt : 1 < 2 * ((n % d : Nat) / (d : ℚ)) ↔ d < 2 * (n % d) := by
    rw [← mul_div_assoc, lt_div_iff₀ hpos, one_mul]
    exact_mod_cast Iff.rfl
  have heq : 2 * ((n % d : Nat) / (d : ℚ)) = 1 ↔ 2 * (n % d) = d := by
    rw [← mul_div_assoc, div_eq_one_iff_eq hpos.ne']
    exact_mod_cast Iff.rfl
  simp only [halfEven, divHalfEven, Nat.floor_div_eq_div, hfraction, hlt, heq]

theorem halfEven_natCast (n : Nat) : halfEven n = n := by
  simp [halfEven]

theorem floor_le_halfEven (x : ℚ) : ⌊x⌋₊ ≤ halfEven x := by
  unfold halfEven
  split <;> omega

theorem halfEven_le_of_lt {x : ℚ} {n : Nat} (hx : 0 ≤ x) (h : x < n) : halfEven x ≤ n := by
  have hfloor : ⌊x⌋₊ < n := (Nat.floor_lt hx).mpr h
  unfold halfEven
  split <;> omega

theorem le_halfEven {x : ℚ} {n : Nat} (h : n ≤ x) : n ≤ halfEven x :=
  Nat.le_trans (Nat.le_floor h) (floor_le_halfEven x)

theorem halfEven_le (x : ℚ) (hx : 0 ≤ x) : halfEven x ≤ x + 1 / 2 := by
  have hfloor := Nat.floor_le hx
  unfold halfEven
  split
  next h =>
    push_cast
    rcases h with h | ⟨h, -⟩ <;> linarith
  next => linarith

theorem sub_half_le_halfEven (x : ℚ) : x - 1 / 2 ≤ halfEven x := by
  have hceil := Nat.lt_floor_add_one x
  unfold halfEven
  split
  next =>
    push_cast
    linarith
  next h =>
    have hhalf : 2 * (x - ⌊x⌋₊) ≤ 1 := not_lt.mp (not_or.mp h).1
    linarith

theorem halfEven_eq_of_near {x : ℚ} {n : Nat} (hx : 0 ≤ x) (hlow : n < x + 1 / 2)
    (hhigh : x < n + 1 / 2) : halfEven x = n := by
  have hfloor := Nat.floor_le hx
  have hceil := Nat.lt_floor_add_one x
  unfold halfEven
  generalize ⌊x⌋₊ = k at *
  -- the whole part is the number itself or the one before
  have hle : k < n + 1 := by
    have : (k : ℚ) < (n + 1 : Nat) := by push_cast; linarith
    exact_mod_cast this
  have hge : n < k + 2 := by
    have : (n : ℚ) < (k + 2 : Nat) := by push_cast; linarith
    exact_mod_cast this
  rcases Nat.lt_or_ge k n with h | h
  · have hn : n = k + 1 := by omega
    subst hn
    push_cast at hlow
    rw [if_pos (.inl (by linarith))]
  · have hn : n = k := by omega
    subst hn
    rw [if_neg]
    rintro (h | ⟨h, -⟩) <;> linarith

/-! ## The nearest decimal -/

/-- The most fraction digits, up to `maxScale`, with which `x` is below the coefficient bound. -/
def finestScale (x : ℚ) : Nat := Nat.findGreatest (fun s => x * pow10 s < coefficientBound) maxScale

/-- The number rounded to `s` fraction digits. -/
def roundAt (x : ℚ) (s : Nat) : ℚ := halfEven (x * pow10 s) / pow10 s

/-- The number with as many fraction digits as a decimal has room for; one less if rounding takes
the coefficient up to its bound.  Without a fraction digit to give up there is no such decimal. -/
def Magnitude.nearest? (x : ℚ) : Option ℚ :=
  if halfEven (x * pow10 (finestScale x)) < coefficientBound then some (roundAt x (finestScale x))
  else if finestScale x = 0 then none
  else some (roundAt x (finestScale x - 1))

variable {x : ℚ} {s : Nat}

theorem finestScale_le (x : ℚ) : finestScale x ≤ maxScale := Nat.findGreatest_le maxScale

theorem finestScale_eq (hx : 0 ≤ x) (hs : s ≤ maxScale) (hlt : x * pow10 s < coefficientBound)
    (hmax : s = maxScale ∨ coefficientBound ≤ x * pow10 (s + 1)) : finestScale x = s := by
  refine Nat.findGreatest_eq_iff.mpr ⟨hs, fun _ => hlt, fun n hsn hn => ?_⟩
  rcases hmax with rfl | hmax
  · omega
  · have hle : x * pow10 (s + 1) ≤ x * pow10 n := by
      rw [pow10_cast_sub hsn, mul_comm (pow10 (n - (s + 1)) : ℚ), ← mul_assoc]
      exact le_mul_of_one_le_right (mul_nonneg hx (pow10_cast_pos _).le) (one_le_pow10_cast _)
    exact not_lt_of_ge (hmax.trans hle)

/-- What an operation on magnitudes answers: the number rounded, within the bounds of a decimal. -/
structure Rounds (m? : Option Magnitude) (x : ℚ) : Prop where
  value : m?.map Magnitude.value = Magnitude.nearest? x
  fits : ∀ m ∈ m?, m.Fits

theorem Magnitude.value_nonneg (m : Magnitude) : 0 ≤ m.value :=
  div_nonneg (Nat.cast_nonneg _) (Nat.cast_nonneg _)

theorem Magnitude.value_mul_pow10 (m : Magnitude) (k : Nat) :
    m.value * pow10 (m.scale + k) = (m.coefficient * pow10 k : Nat) := by
  rw [Magnitude.value, pow10_cast_add, Nat.cast_mul, ← mul_assoc,
    div_mul_cancel₀ _ (pow10_cast_ne_zero _)]

theorem rounds_none (h : coefficientBound ≤ x) : Rounds none x := by
  have hx : 0 ≤ x := (Nat.cast_nonneg _).trans h
  have hscale : finestScale x = 0 := by
    refine Nat.findGreatest_eq_zero_iff.mpr fun n _ _ => not_lt_of_ge (h.trans ?_)
    exact le_mul_of_one_le_right hx (one_le_pow10_cast n)
  have hlong : coefficientBound ≤ halfEven (x * pow10 0) := by
    rw [pow10_zero, Nat.cast_one, mul_one]
    exact le_halfEven h
  refine ⟨?_, by simp⟩
  rw [Magnitude.nearest?, hscale, if_neg (Nat.not_lt_of_le hlong), if_pos rfl, Option.map_none]

/-- A number that is a decimal is its own nearest one. -/
theorem rounds_of_fits {m : Magnitude} (hm : m.Fits) : Rounds (some m) m.value := by
  have hlt : m.value * pow10 m.scale < coefficientBound := by
    have hvalue := m.value_mul_pow10 0
    rw [Nat.add_zero, pow10_zero, Nat.mul_one] at hvalue
    rw [hvalue]
    exact_mod_cast hm.1
  have hscale : m.scale ≤ finestScale m.value := Nat.le_findGreatest hm.2 hlt
  have hfinest : m.value * pow10 (finestScale m.value) < coefficientBound :=
    Nat.findGreatest_spec (P := fun s => m.value * pow10 s < coefficientBound) hm.2 hlt
  obtain ⟨k, hk⟩ := Nat.exists_eq_add_of_le hscale
  have hcoefficient := m.value_mul_pow10 k
  rw [← hk] at hcoefficient
  refine ⟨?_, ?_⟩
  · have hround : roundAt m.value (finestScale m.value) = m.value := by
      rw [roundAt, hcoefficient, halfEven_natCast, ← hcoefficient,
        mul_div_cancel_right₀ _ (pow10_cast_ne_zero _)]
    rw [hcoefficient] at hfinest
    have hshort : m.coefficient * pow10 k < coefficientBound := by exact_mod_cast hfinest
    rw [Magnitude.nearest?, hround, hcoefficient, halfEven_natCast, if_pos hshort, Option.map_some]
  · rintro _ ⟨⟩
    exact hm

/-! ## Rounding magnitudes -/

theorem coefficientBound_eq : coefficientBound = 79228162514264337593543950336 := by decide

/-- The coefficient at the bound loses its last digit. -/
theorem halfEven_carry {y : ℚ} (hx : 0 ≤ y) (h : halfEven (y * 10) = coefficientBound)
    (hlt : y * 10 < coefficientBound) : halfEven y = divHalfEven coefficientBound 10 := by
  have hle := halfEven_le (y * 10) (by linarith)
  rw [h] at hle
  have hquotient : divHalfEven coefficientBound 10 = 7922816251426433759354395034 := by decide
  rw [coefficientBound_eq] at hle hlt
  rw [hquotient]
  push_cast at hle hlt
  exact halfEven_eq_of_near hx (by push_cast; linarith) (by push_cast; linarith)

theorem rounds_some {c : Nat} (hs : finestScale x = s) (hc : halfEven (x * pow10 s) = c)
    (hfit : c < coefficientBound) : Rounds (some ⟨c, s⟩) x := by
  refine ⟨?_, ?_⟩
  · rw [Magnitude.nearest?, hs, hc, if_pos hfit, roundAt, hc]
    rfl
  · rintro _ ⟨⟩
    exact ⟨hfit, hs ▸ finestScale_le x⟩

/-- Rounding at the finest scale, with the carry. -/
theorem rounds_carry? {c : Nat} (hx : 0 ≤ x) (hs : finestScale x = s)
    (hlt : x * pow10 s < coefficientBound) (hc : halfEven (x * pow10 s) = c) :
    Rounds (Magnitude.carry? ⟨c, s⟩) x := by
  have hscale : s ≤ maxScale := hs ▸ finestScale_le x
  have hle : c ≤ coefficientBound := by
    rw [← hc]
    exact halfEven_le_of_lt (mul_nonneg hx (pow10_cast_pos s).le) hlt
  unfold Magnitude.carry?
  split_ifs with hfit hzero
  · exact rounds_some hs hc hfit
  · have hzero' : s = 0 := hzero
    refine ⟨?_, by simp⟩
    rw [Magnitude.nearest?, hs, hc, if_neg hfit, if_pos hzero', Option.map_none]
  · have hbound : c = coefficientBound := Nat.le_antisymm hle (Nat.le_of_not_lt hfit)
    obtain ⟨r, rfl⟩ : ∃ r, s = r + 1 := Nat.exists_eq_succ_of_ne_zero hzero
    have hsucc : x * pow10 (r + 1) = x * pow10 r * 10 := by rw [pow10_cast_succ, mul_assoc]
    rw [hsucc] at hlt hc
    rw [hbound] at hc
    have hcarry := halfEven_carry (mul_nonneg hx (pow10_cast_pos r).le) hc hlt
    have hten : pow10 1 = 10 := rfl
    simp only [Magnitude.dropDigits, hten, Nat.add_sub_cancel, hbound]
    refine ⟨?_, ?_⟩
    · rw [Magnitude.nearest?, hs, hsucc, hc, if_neg (Nat.lt_irrefl _), if_neg hzero, roundAt,
        Nat.add_sub_cancel, hcarry, Option.map_some, Magnitude.value]
    · have hshort : divHalfEven coefficientBound 10 < coefficientBound := by decide
      rintro _ ⟨⟩
      exact ⟨hshort, Nat.le_of_succ_le hscale⟩

theorem div_pow10_lt_iff (c k : Nat) : c / pow10 k < coefficientBound ↔ excess c ≤ k := by
  fun_induction excess c generalizing k with
  | case1 c h => exact iff_of_true (Nat.lt_of_le_of_lt (Nat.div_le_self c _) h) (Nat.zero_le k)
  | case2 c h ih =>
    cases k with
    | zero =>
      rw [pow10_zero, Nat.div_one]
      exact iff_of_false h (Nat.not_succ_le_zero _)
    | succ k =>
      rw [pow10_succ, Nat.mul_comm, ← Nat.div_div_eq_div_mul, ih, Nat.add_le_add_iff_right]

namespace Magnitude

/-- The coefficient that is left when digits are dropped. -/
theorem value_mul_pow10_sub (m : Magnitude) {k : Nat} (hk : k ≤ m.scale) :
    m.value * pow10 (m.scale - k) = (m.coefficient : ℚ) / pow10 k := by
  rw [Magnitude.value, pow10_cast_sub hk, div_mul_eq_mul_div, mul_comm (pow10 (m.scale - k) : ℚ)]
  exact mul_div_mul_right _ _ (pow10_cast_ne_zero _)

theorem value_mul_pow10_sub_lt_iff (m : Magnitude) {k : Nat} (hk : k ≤ m.scale) :
    m.value * pow10 (m.scale - k) < coefficientBound ↔ excess m.coefficient ≤ k := by
  rw [m.value_mul_pow10_sub hk, div_lt_iff₀ (pow10_cast_pos _), ← div_pow10_lt_iff,
    Nat.div_lt_iff_lt_mul (pow10_pos _)]
  exact_mod_cast Iff.rfl

theorem fits_of_overhang {m : Magnitude} (h : m.overhang = 0) : m.Fits := by
  unfold overhang at h
  have hexcess : excess m.coefficient ≤ 0 := by omega
  rw [← div_pow10_lt_iff, pow10_zero, Nat.div_one] at hexcess
  exact ⟨hexcess, by omega⟩

theorem finestScale_overhang {m : Magnitude} (hpos : m.overhang ≠ 0)
    (hle : m.overhang ≤ m.scale) : finestScale m.value = m.scale - m.overhang := by
  have hexcess : excess m.coefficient ≤ m.overhang := Nat.le_max_right _ _
  have hscale : m.scale - maxScale ≤ m.overhang := Nat.le_max_left _ _
  refine finestScale_eq m.value_nonneg (by omega)
    ((m.value_mul_pow10_sub_lt_iff hle).mpr hexcess) ?_
  by_cases hmax : m.scale - m.overhang = maxScale
  · exact .inl hmax
  · -- one digit more would be too long
    have hback : m.scale - m.overhang + 1 = m.scale - (m.overhang - 1) := by omega
    rw [hback, ← not_lt, m.value_mul_pow10_sub_lt_iff (by omega)]
    unfold overhang at *
    omega

/-- A magnitude is cut to the decimal nearest to it. -/
theorem rounds_fit? (m : Magnitude) : Rounds m.fit? m.value := by
  unfold fit?
  split
  next hle =>
    by_cases hnone : m.overhang = 0
    · have hfits := fits_of_overhang hnone
      have hdrop : m.dropDigits 0 = m := by simp [dropDigits, divHalfEven, Nat.mod_one]
      rw [hnone, hdrop, carry?, if_pos hfits.1]
      exact rounds_of_fits hfits
    · have hlt := (m.value_mul_pow10_sub_lt_iff hle).mpr (Nat.le_max_right _ _)
      refine rounds_carry? m.value_nonneg (finestScale_overhang hnone hle) hlt ?_
      rw [m.value_mul_pow10_sub hle]
      exact halfEven_div _ _ (pow10_pos _)
  next hlt =>
    have hlong : ¬ m.value * pow10 (m.scale - m.scale) < coefficientBound := by
      rw [m.value_mul_pow10_sub_lt_iff (Nat.le_refl _)]
      unfold overhang at hlt
      omega
    rw [Nat.sub_self, pow10_zero, Nat.cast_one, mul_one, not_lt] at hlong
    exact rounds_none hlong

end Magnitude

end Calculator
