import Calculator.Decimal.Sum
import Calculator.Proofs.Decimal.Quotient

/-!
# Operations on decimals

A sum, a difference, a product and a quotient of decimals are the decimal nearest to the sum, the
difference, the product and the quotient of the numbers (`Decimal.map_value_add?` and the theorems
after it).  So they depend on the numbers alone, not on how these are written.
-/

namespace Calculator.Decimal

/-! ## Numbers and their signs -/

variable {a b : Decimal} {x : ℚ}

theorem abs_value (a : Decimal) : |a.value| = a.toMagnitude.value := by
  rw [value]
  split
  · rw [abs_neg, abs_of_nonneg a.value_nonneg]
  · exact abs_of_nonneg a.value_nonneg

theorem value_eq_zero_iff (a : Decimal) : a.value = 0 ↔ a.coefficient = 0 := by
  rw [← abs_eq_zero, abs_value, Magnitude.value_eq_zero_iff]

theorem isZero_iff (a : Decimal) : a.isZero ↔ a.value = 0 := by
  rw [value_eq_zero_iff, isZero, beq_iff_eq]

theorem value_neg (a : Decimal) : (-a).value = -a.value := by
  show (neg a).value = -a.value
  unfold value neg
  cases a.negative <;> simp

theorem negative_iff (h : a.value ≠ 0) : a.negative ↔ a.value < 0 := by
  have hpos : 0 < a.toMagnitude.value := a.abs_value ▸ abs_pos.mpr h
  unfold value
  split
  next hneg => simp [hneg, hpos]
  next hneg => simp [hneg, hpos.le]

/-- The sign of a product, and of a quotient. -/
theorem negative_ne_iff (ha : a.value ≠ 0) (hb : b.value ≠ 0) :
    (a.negative != b.negative) ↔ a.value * b.value < 0 := by
  rw [bne_iff_ne, ne_eq, Bool.eq_iff_iff, negative_iff ha, negative_iff hb, mul_neg_iff]
  rcases lt_or_gt_of_ne ha with ha | ha <;> rcases lt_or_gt_of_ne hb with hb | hb <;>
    simp [ha, hb, ha.not_gt, hb.not_gt]

/-! ## The nearest decimal -/

/-- The number rounded to a decimal, away from its sign. -/
def nearest? (x : ℚ) : Option ℚ :=
  (Magnitude.nearest? |x|).map fun y => if x < 0 then -y else y

/-- A decimal is its own nearest one. -/
theorem nearest?_value (a : Decimal) : nearest? a.value = some a.value := by
  have hvalue := (rounds_of_fits a.fits).value
  rw [← abs_value] at hvalue
  rw [nearest?, ← hvalue, Option.map_some, Option.map_some, ← abs_value, Option.some_inj]
  split
  next h => rw [abs_of_neg h, neg_neg]
  next h => exact abs_of_nonneg (le_of_not_gt h)

theorem nearest?_zero : nearest? 0 = some 0 := by
  have hzero : zero.value = 0 := (value_eq_zero_iff zero).mpr rfl
  rw [← hzero]
  exact nearest?_value zero

/-- A rounded magnitude with the sign of the number; a zero may have any. -/
theorem map_value_of_rounds {m? : Option Magnitude} (h : Rounds m? |x|)
    (negative : Magnitude → Bool)
    (hneg : x ≠ 0 → ∀ m ∈ m?, m.coefficient ≠ 0 → (negative m ↔ x < 0)) :
    (m?.bind fun m => ofMagnitude? (negative m) m).map value = nearest? x := by
  obtain ⟨hvalue, hfits⟩ := h
  cases m? with
  | none => rw [nearest?, ← hvalue]; rfl
  | some m =>
    have hm := hfits m rfl
    have hsome : ofMagnitude? (negative m) m = some ⟨m, negative m, hm⟩ := dif_pos hm
    have hnearest : nearest? x = some (if x < 0 then -m.value else m.value) := by
      rw [nearest?, ← hvalue]
      rfl
    rw [hnearest, Option.bind_some, hsome, Option.map_some, value, Option.some_inj]
    by_cases hzero : m.value = 0
    · rw [hzero, neg_zero, ite_self, ite_self]
    · have hx : x ≠ 0 := by
        rintro rfl
        rw [nearest?_zero, if_neg (lt_irrefl _), Option.some_inj] at hnearest
        exact hzero hnearest.symm
      have hiff := hneg hx m rfl ((Magnitude.value_eq_zero_iff m).not.mp hzero)
      simp only [hiff]

/-! ## Sums and differences -/

theorem value_eq_signed (a : Decimal) : a.value = a.signed / pow10 a.scale := by
  unfold value signed Magnitude.value
  split
  · push_cast
    rw [neg_div]
  · rfl

theorem signedAt_cast (a : Decimal) {s : Nat} (hs : a.scale ≤ s) :
    (a.signedAt s : ℚ) = a.value * pow10 s := by
  rw [value_eq_signed, signedAt, pow10_cast_sub hs]
  have := pow10_cast_ne_zero a.scale
  push_cast
  field_simp

theorem map_value_sumOf (a b : Decimal) : (a.sumOf b).map value = nearest? (a.value + b.value) := by
  have hsum : ((a.signedAt (max a.scale b.scale) + b.signedAt (max a.scale b.scale) : ℤ) : ℚ) =
      (a.value + b.value) * pow10 (max a.scale b.scale) := by
    push_cast
    rw [a.signedAt_cast (Nat.le_max_left _ _), b.signedAt_cast (Nat.le_max_right _ _), add_mul]
  unfold sumOf round?
  dsimp only
  generalize a.signedAt (max a.scale b.scale) + b.signedAt (max a.scale b.scale) = sum at *
  have hpos := pow10_cast_pos (max a.scale b.scale)
  have habs : |a.value + b.value| = Magnitude.value ⟨sum.natAbs, max a.scale b.scale⟩ := by
    rw [Magnitude.value, Nat.cast_natAbs, Int.cast_abs, hsum, abs_mul, abs_of_pos hpos,
      mul_div_cancel_right₀ _ hpos.ne']
  have hsign : sum < 0 ↔ a.value + b.value < 0 := by
    rw [← mul_lt_mul_iff_of_pos_right hpos, zero_mul, ← hsum]
    exact_mod_cast Iff.rfl
  refine map_value_of_rounds (habs ▸ Magnitude.rounds_fit? _) (fun _ => sum < 0) fun _ _ _ _ => ?_
  rw [decide_eq_true_iff]
  exact hsign

/-- The sum of the numbers, rounded. -/
theorem map_value_add? (a b : Decimal) : (a.add? b).map value = nearest? (a.value + b.value) := by
  unfold add?
  split_ifs with ha hb
  · rw [(isZero_iff a).mp ha, zero_add, nearest?_value, Option.map_some]
  · rw [(isZero_iff b).mp hb, add_zero, nearest?_value, Option.map_some]
  · exact map_value_sumOf a b

/-- The difference of the numbers, rounded. -/
theorem map_value_sub? (a b : Decimal) : (a.sub? b).map value = nearest? (a.value - b.value) := by
  rw [sub?, map_value_add?]
  split
  next hb => rw [(isZero_iff b).mp hb, add_zero, sub_zero]
  next => rw [value_neg, sub_eq_add_neg]

/-! ## Products and quotients -/

/-- The product of the numbers, rounded. -/
theorem map_value_mul? (a b : Decimal) : (a.mul? b).map value = nearest? (a.value * b.value) := by
  have hrounds := a.toMagnitude.rounds_mul? b.toMagnitude
  rw [← abs_value, ← abs_value, ← abs_mul] at hrounds
  refine map_value_of_rounds hrounds (fun m => (a.negative != b.negative) &&
    (m.coefficient != 0 || a.signsZero b.toMagnitude)) fun hx m _ hm => ?_
  rw [bne_iff_ne.mpr hm, Bool.true_or, Bool.and_true]
  exact negative_ne_iff (left_ne_zero_of_mul hx) (right_ne_zero_of_mul hx)

/-- The quotient of the numbers, rounded. -/
theorem map_value_div? (a : Decimal) {b : Decimal} (hb : b.value ≠ 0) :
    (a.div? b).map value = nearest? (a.value / b.value) := by
  unfold div?
  split
  next ha =>
    rw [(isZero_iff a).mp ha, zero_div, nearest?_zero, Option.map_some, Option.some_inj]
    exact (value_eq_zero_iff zero).mpr rfl
  next =>
    have hrounds := Magnitude.rounds_div? a.fits ((value_eq_zero_iff b).not.mp hb)
    rw [← abs_value, ← abs_value, ← abs_div] at hrounds
    refine map_value_of_rounds hrounds (fun m => (a.negative != b.negative) && m.coefficient != 0)
      fun hx m _ hm => ?_
    rw [bne_iff_ne.mpr hm, Bool.and_true, negative_ne_iff (div_ne_zero_iff.mp hx).1 hb, div_neg_iff,
      mul_neg_iff]

end Calculator.Decimal
