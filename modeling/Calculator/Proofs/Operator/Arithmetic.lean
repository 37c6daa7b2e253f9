import Calculator.Operator.Evaluation
import Calculator.Proofs.Decimal.Operations

/-!
# Sums, differences, products and quotients

The four basic operations give the exact number, rounded half to even with as many fraction digits
as a decimal has room for (`RoundsTo`).  They fail for no other reason than that the whole part is
too large: from half a unit below the coefficient bound on, there is no decimal to round to
(`BinaryOp.apply_rounded`).

What is asked of the result is said without the functions that compute it: `IsHalfEven` by distances,
`IsFinestScale` by the whole part.
-/

namespace Calculator

variable {x y : ℚ}

/-! ## Half to even, by distances -/

/-- No integer is nearer to `x`, and of two that are equally near `n` is the even one. -/
structure IsHalfEven (x : ℚ) (n : ℤ) : Prop where
  near : |x - n| ≤ 1 / 2
  even : |x - n| = 1 / 2 → Even n

theorem IsHalfEven.neg {n : ℤ} (h : IsHalfEven x n) : IsHalfEven (-x) (-n) := by
  have hdistance : |-x - ((-n : ℤ) : ℚ)| = |x - n| := by
    rw [Int.cast_neg, ← neg_sub', abs_neg]
  exact ⟨hdistance.trans_le h.near, fun htie => (h.even (hdistance.symm.trans htie)).neg⟩

theorem isHalfEven_halfEven (hx : 0 ≤ x) : IsHalfEven x (halfEven x) := by
  have hfloor := Nat.floor_le hx
  have hceil := Nat.lt_floor_add_one x
  unfold halfEven
  generalize ⌊x⌋₊ = k at *
  split
  next h =>
    have hhalf : 1 ≤ 2 * (x - k) := by
      rcases h with h | ⟨h, -⟩
      · exact h.le
      · exact h.ge
    have hdistance : |x - ((k + 1 : Nat) : ℤ)| = k + 1 - x := by
      push_cast
      rw [abs_of_nonpos (by linarith)]
      ring
    refine ⟨by linarith, fun htie => ?_⟩
    -- in the middle only an odd whole part is rounded up
    rcases h with h | ⟨-, hodd⟩
    · linarith
    · exact_mod_cast Nat.even_add_one.mpr (Nat.not_even_iff.mpr hodd)
  next h =>
    rw [not_or, not_and, not_lt] at h
    obtain ⟨hhalf, heven⟩ := h
    have hdistance : |x - ((k : Nat) : ℤ)| = x - k := by
      push_cast
      exact abs_of_nonneg (by linarith)
    refine ⟨by linarith, fun htie => ?_⟩
    have hmod : ¬ k % 2 = 1 := heven (by linarith)
    exact_mod_cast Nat.even_iff.mpr (Nat.mod_two_ne_one.mp hmod)

/-- From the middle on an even number is reached. -/
theorem le_halfEven_of_even {n : Nat} (hn : Even n) (hx : 0 ≤ x) (h : (n : ℚ) - 1 / 2 ≤ x) :
    n ≤ halfEven x := by
  obtain ⟨hnear, heven⟩ := isHalfEven_halfEven hx
  rw [abs_le] at hnear
  by_contra hlt
  have hle : ((halfEven x : ℤ) : ℚ) + 1 ≤ n := by exact_mod_cast Nat.lt_of_not_le hlt
  have htie : x - (halfEven x : ℤ) = 1 / 2 := by linarith
  have hsucc : halfEven x + 1 = n := by
    have : ((halfEven x : ℤ) : ℚ) + 1 = n := by linarith
    exact_mod_cast this
  have hodd : Even (halfEven x) := by
    have := heven (by rw [htie]; norm_num)
    exact_mod_cast this
  rw [← hsucc, Nat.even_add_one] at hn
  exact hn hodd

/-! ## The finest scale, by the whole part -/

/-- With `s` fraction digits, and with no more, the whole part is below the coefficient bound. -/
def IsFinestScale (x : ℚ) (s : Nat) : Prop :=
  IsGreatest {s | s ≤ maxScale ∧ ⌊x * 10 ^ s⌋₊ < coefficientBound} s

theorem floor_mul_lt_iff (hx : 0 ≤ x) (s : Nat) :
    ⌊x * 10 ^ s⌋₊ < coefficientBound ↔ x * pow10 s < coefficientBound := by
  rw [pow10_cast]
  exact Nat.floor_lt (by positivity)

theorem isFinestScale_finestScale (hx : 0 ≤ x)
    (h : x * pow10 (finestScale x) < coefficientBound) : IsFinestScale x (finestScale x) := by
  refine ⟨⟨finestScale_le x, (floor_mul_lt_iff hx _).mpr h⟩, fun s hs => ?_⟩
  exact Nat.le_findGreatest hs.1 ((floor_mul_lt_iff hx s).mp hs.2)

/-! ## The nearest decimal -/

/-- `x` rounded half to even at its finest scale; at one fraction digit less if rounding takes the
coefficient up to its bound. -/
inductive RoundsTo (x : ℚ) : ℚ → Prop
  | finest {s : Nat} {n : ℤ} : IsFinestScale |x| s → IsHalfEven (x * 10 ^ s) n →
    n.natAbs < coefficientBound → RoundsTo x (n / 10 ^ s)
  | carried {s : Nat} {n m : ℤ} : IsFinestScale |x| (s + 1) → IsHalfEven (x * 10 ^ (s + 1)) n →
    n.natAbs = coefficientBound → IsHalfEven (x * 10 ^ s) m → RoundsTo x (m / 10 ^ s)

theorem RoundsTo.neg (h : RoundsTo x y) : RoundsTo (-x) (-y) := by
  cases h with
  | finest hs hn hfit =>
    rw [← neg_div, ← Int.cast_neg]
    refine .finest (by rwa [abs_neg]) ?_ (by rwa [Int.natAbs_neg])
    rw [neg_mul]
    exact hn.neg
  | carried hs hn hcarry hm =>
    rw [← neg_div, ← Int.cast_neg]
    refine .carried (by rwa [abs_neg]) (n := -_) ?_ (by rwa [Int.natAbs_neg]) ?_
    · rw [neg_mul]
      exact hn.neg
    · rw [neg_mul]
      exact hm.neg

theorem lt_of_halfEven_lt (h : halfEven x < coefficientBound) : x < coefficientBound := by
  by_contra hle
  exact absurd (le_halfEven (not_lt.mp hle)) (Nat.not_le_of_lt h)

theorem roundAt_eq (x : ℚ) (s : Nat) :
    roundAt x s = ((halfEven (x * pow10 s) : ℤ) : ℚ) / 10 ^ s := by
  rw [roundAt, Int.cast_natCast, pow10_cast]

theorem isHalfEven_mul_pow10 (hx : 0 ≤ x) (s : Nat) :
    IsHalfEven (x * 10 ^ s) (halfEven (x * pow10 s)) := by
  rw [← pow10_cast]
  exact isHalfEven_halfEven (mul_nonneg hx (pow10_cast_pos s).le)

theorem Magnitude.roundsTo_of_nearest? (hx : 0 ≤ x) (h : nearest? x = some y) : RoundsTo x y := by
  have hscale {s : Nat} : finestScale x = s → x * pow10 s < coefficientBound →
      IsFinestScale |x| s := by
    rintro rfl hlt
    rw [abs_of_nonneg hx]
    exact isFinestScale_finestScale hx hlt
  unfold nearest? at h
  split_ifs at h with hfit hzero
  · rw [← Option.some.inj h, roundAt_eq]
    exact .finest (hscale rfl (lt_of_halfEven_lt hfit)) (isHalfEven_mul_pow10 hx _) hfit
  · obtain ⟨s, hs⟩ : ∃ s, finestScale x = s + 1 := Nat.exists_eq_succ_of_ne_zero hzero
    have hlt : x * pow10 (s + 1) < coefficientBound := by
      rw [← hs]
      exact Nat.findGreatest_of_ne_zero (P := fun s => x * pow10 s < coefficientBound) rfl hzero
    have hle : halfEven (x * pow10 (s + 1)) ≤ coefficientBound :=
      halfEven_le_of_lt (mul_nonneg hx (pow10_cast_pos _).le) hlt
    rw [hs] at h hfit
    rw [← Option.some.inj h, Nat.add_sub_cancel, roundAt_eq]
    exact .carried (hscale hs hlt) (isHalfEven_mul_pow10 hx _)
      (Nat.le_antisymm hle (Nat.le_of_not_lt hfit)) (isHalfEven_mul_pow10 hx _)

/-- Half a unit below the coefficient bound numbers begin to have no nearest decimal. -/
theorem Magnitude.nearest?_eq_none_iff (hx : 0 ≤ x) :
    nearest? x = none ↔ (coefficientBound : ℚ) - 1 / 2 ≤ x := by
  have hone : x * pow10 0 = x := by rw [pow10_zero, Nat.cast_one, mul_one]
  constructor
  · intro h
    unfold nearest? at h
    split_ifs at h with hfit hzero
    rw [hzero, hone, not_lt] at hfit
    have hle : (coefficientBound : ℚ) ≤ halfEven x := Nat.cast_le.mpr hfit
    linarith [halfEven_le x hx]
  · intro h
    have heven : Even coefficientBound := by decide
    have hzero : finestScale x = 0 := by
      refine Nat.findGreatest_eq_zero_iff.mpr fun n hn _ => not_lt_of_ge ?_
      obtain ⟨k, rfl⟩ := Nat.exists_eq_succ_of_ne_zero hn.ne'
      have hbound : (1 : ℚ) ≤ coefficientBound := Nat.one_le_cast.mpr coefficientBound_pos
      calc (coefficientBound : ℚ)
        _ ≤ x * 10 := by linarith
        _ ≤ x * 10 * pow10 k := le_mul_of_one_le_right (by linarith) (one_le_pow10_cast k)
        _ = x * pow10 (k + 1) := by rw [pow10_cast_succ]; ring
    have hlong := le_halfEven_of_even heven hx h
    rw [nearest?, hzero, hone, if_neg (Nat.not_lt_of_le hlong), if_pos rfl]

namespace Decimal

theorem nearest?_eq_none_iff : nearest? x = none ↔ (coefficientBound : ℚ) - 1 / 2 ≤ |x| := by
  rw [nearest?, Option.map_eq_none_iff, Magnitude.nearest?_eq_none_iff (abs_nonneg x)]

theorem roundsTo_of_nearest? (h : nearest? x = some y) : RoundsTo x y := by
  obtain ⟨z, hz, hy⟩ := Option.map_eq_some_iff.mp h
  have hrounds := Magnitude.roundsTo_of_nearest? (abs_nonneg x) hz
  split_ifs at hy with hneg
  · rw [abs_of_neg hneg] at hrounds
    rw [← hy, ← neg_neg x]
    exact hrounds.neg
  · rw [abs_of_nonneg (le_of_not_gt hneg)] at hrounds
    exact hy ▸ hrounds

end Decimal

/-! ## The operations -/

namespace BinaryOp

/-- The number that a basic operation is to give. -/
inductive Exact : BinaryOp → ℚ → ℚ → ℚ → Prop
  | add (x y : ℚ) : Exact .add x y (x + y)
  | subtract (x y : ℚ) : Exact .subtract x y (x - y)
  | multiply (x y : ℚ) : Exact .multiply x y (x * y)
  | divide (x : ℚ) {y : ℚ} : y ≠ 0 → Exact .divide x y (x / y)

variable {op : BinaryOp} {a b : Decimal}

/-- Each basic operation gives the decimal nearest to the exact number, if there is one. -/
theorem exists_ofResult? (h : op.Exact a.value b.value x) :
    ∃ r, op.apply a b = op.ofResult? a b r ∧ r.map Decimal.value = Decimal.nearest? x := by
  cases h with
  | add => exact ⟨_, rfl, Decimal.map_value_add? a b⟩
  | subtract => exact ⟨_, rfl, Decimal.map_value_sub? a b⟩
  | multiply => exact ⟨_, rfl, Decimal.map_value_mul? a b⟩
  | divide _ hb =>
    refine ⟨_, ?_, Decimal.map_value_div? a hb⟩
    exact if_neg ((Decimal.isZero_iff b).not.mpr hb)

theorem apply_of_nearest? (h : op.Exact a.value b.value x) (hx : Decimal.nearest? x = some y) :
    ∃ c, op.apply a b = .ok c ∧ c.value = y := by
  obtain ⟨r, hr, hvalue⟩ := exists_ofResult? h
  rw [hx] at hvalue
  obtain ⟨c, rfl, hc⟩ := Option.map_eq_some_iff.mp hvalue
  exact ⟨c, hr, hc⟩

theorem apply_of_nearest?_none (h : op.Exact a.value b.value x) (hx : Decimal.nearest? x = none) :
    op.apply a b = .error (.notRepresentable (.binary op) (op.approximate a b)) := by
  obtain ⟨r, hr, hvalue⟩ := exists_ofResult? h
  rw [hx, Option.map_eq_none_iff] at hvalue
  rw [hr, hvalue, ofResult?]

/-- A basic operation fails exactly if the number it is to give is, up to half a unit, as large as the
coefficient bound or larger.  Otherwise it gives this number rounded; the number itself, if it is a
decimal. -/
theorem apply_rounded (h : op.Exact a.value b.value x) :
    (op.apply a b = .error (.notRepresentable (.binary op) (op.approximate a b)) ↔
        (coefficientBound : ℚ) - 1 / 2 ≤ |x|) ∧
      (|x| < (coefficientBound : ℚ) - 1 / 2 → ∃ c, op.apply a b = .ok c ∧ RoundsTo x c.value) ∧
      ∀ d : Decimal, d.value = x → ∃ c, op.apply a b = .ok c ∧ c.value = x := by
  refine ⟨⟨fun herror => ?_, fun hlarge => ?_⟩, fun hsmall => ?_, fun d hd => ?_⟩
  · rw [← Decimal.nearest?_eq_none_iff, Option.eq_none_iff_forall_ne_some]
    intro y hy
    obtain ⟨c, hc, -⟩ := apply_of_nearest? h hy
    rw [hc] at herror
    cases herror
  · exact apply_of_nearest?_none h (Decimal.nearest?_eq_none_iff.mpr hlarge)
  · rw [← not_le, ← Decimal.nearest?_eq_none_iff] at hsmall
    obtain ⟨y, hy⟩ := Option.ne_none_iff_exists'.mp hsmall
    obtain ⟨c, hc, rfl⟩ := apply_of_nearest? h hy
    exact ⟨c, hc, Decimal.roundsTo_of_nearest? hy⟩
  · have hnearest := d.nearest?_value
    rw [hd] at hnearest
    exact apply_of_nearest? h hnearest

/-- Two thirds, with the last of 28 digits rounded up. -/
theorem apply_rounded_thirds : ∃ c,
    divide.apply ⟨⟨2, 0⟩, false, by decide⟩ ⟨⟨3, 0⟩, false, by decide⟩ = .ok c ∧
      RoundsTo (2 / 3) c.value := by
  have htwo : Decimal.value ⟨⟨2, 0⟩, false, by decide⟩ = 2 := by decide +kernel
  have hthree : Decimal.value ⟨⟨3, 0⟩, false, by decide⟩ = 3 := by decide +kernel
  have hexact : Exact .divide (Decimal.value ⟨⟨2, 0⟩, false, by decide⟩)
      (Decimal.value ⟨⟨3, 0⟩, false, by decide⟩) (2 / 3) := by
    rw [htwo, hthree]
    exact .divide 2 (by norm_num)
  have hsmall : |(2 / 3 : ℚ)| < (coefficientBound : ℚ) - 1 / 2 := by
    rw [coefficientBound_eq, abs_of_pos (by norm_num)]
    norm_num
  exact (apply_rounded hexact).2.1 hsmall

end BinaryOp

end Calculator
