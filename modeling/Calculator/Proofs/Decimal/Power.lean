import Calculator.Decimal.Power
import Calculator.Proofs.Decimal.Operations

/-!
# Powers depend on the number

A power with an exponent below `Magnitude.wideExponent` is multiplied out with rounded products, and
so it is the same number however the base is written (`Decimal.map_value_powInt?`): squaring goes
through the same products for both bases, step by step.
-/

namespace Calculator

/-! ## Answers that are equal as numbers -/

section

variable {α β : Type}

/-- Steps that answer the same to the same go on to the same. -/
theorem map_bind_congr (f : α → ℚ) (g : β → ℚ) {o o' : Option α} {k k' : α → Option β}
    (h : o.map f = o'.map f)
    (hk : ∀ m ∈ o, ∀ m' ∈ o', f m = f m' → (k m).map g = (k' m').map g) :
    (o.bind k).map g = (o'.bind k').map g := by
  cases o with
  | none =>
    cases o' with
    | none => rfl
    | some m' => cases h
  | some m =>
    cases o' with
    | none => cases h
    | some m' => exact hk m rfl m' rfl (Option.some.inj h)

end

namespace Magnitude

variable {m m' p p' x x' : Magnitude}

theorem value_trimmed (c s : Nat) : (trimmed c s).value = value ⟨c, s⟩ := by
  induction s generalizing c with
  | zero => rfl
  | succ s ih =>
    rw [trimmed]
    split
    next h =>
      have hten : ((c / 10 : Nat) : ℚ) = c / 10 := by
        exact_mod_cast Nat.cast_div (Nat.dvd_of_mod_eq_zero h) (by norm_num)
      rw [ih, value, value, hten, div_div, pow10_succ, Nat.cast_mul, mul_comm]
      rfl
    next => rfl

theorem value_trim (m : Magnitude) : m.trim.value = m.value := value_trimmed _ _

theorem map_value_mul? (hm : m.value = m'.value) (hx : x.value = x'.value) :
    (m.mul? x).map value = (m'.mul? x').map value := by
  rw [(rounds_mul? m x).value, (rounds_mul? m' x').value, hm, hx]

/-- The same power, whatever the magnitudes on the way. -/
theorem map_value_powBy (hp : p.value = p'.value) (hx : x.value = x'.value) (e : Nat) :
    (powBy mul? p x e).map value = (powBy mul? p' x' e).map value := by
  induction e using Nat.strongRecOn generalizing p p' x x' with
  | ind e ih =>
    rw [powBy, powBy]
    have hproduct : (if e % 2 = 1 then mul? p x else some p).map value =
        (if e % 2 = 1 then mul? p' x' else some p').map value := by
      split
      · exact map_value_mul? hp hx
      · rw [Option.map_some, Option.map_some, hp]
    refine map_bind_congr value value hproduct fun q _ q' _ hq => ?_
    split
    next => rw [Option.map_some, Option.map_some, hq]
    next he =>
      refine map_bind_congr value value (map_value_mul? hx hx) fun y _ y' _ hy => ?_
      exact ih (e / 2) (by omega) hq hy

theorem fits_powBy {e : Nat} (hp : p.Fits) (h : m ∈ powBy mul? p x e) : m.Fits := by
  induction e using Nat.strongRecOn generalizing p x with
  | ind e ih =>
    rw [powBy] at h
    obtain ⟨q, hq, h⟩ := Option.bind_eq_some_iff.mp h
    have hfits : q.Fits := by
      split at hq
      · exact (rounds_mul? p x).fits q hq
      · cases hq
        exact hp
    split at h
    next =>
      cases h
      exact hfits
    next he =>
      obtain ⟨y, _, h⟩ := Option.bind_eq_some_iff.mp h
      exact ih (e / 2) (by omega) hfits h

theorem map_value_pow? (hm : m.value = m'.value) {e : Nat} (he : e < wideExponent) :
    (m.pow? e).map value = (m'.pow? e).map value := by
  rw [pow?, pow?, if_pos he, if_pos he]
  exact map_value_powBy rfl hm e

theorem fits_pow? {e : Nat} (he : e < wideExponent) (h : m ∈ x.pow? e) : m.Fits := by
  rw [pow?, if_pos he] at h
  exact fits_powBy fits_one h

end Magnitude

namespace Decimal

open Magnitude (wideExponent)

variable {a b : Decimal}

theorem isZero_congr (h : a.Equiv b) : a.isZero = b.isZero := by
  rw [Bool.eq_iff_iff, isZero_iff, isZero_iff, h]

theorem negative_congr (h : a.Equiv b) (ha : a.value ≠ 0) : a.negative = b.negative := by
  have hb : b.value ≠ 0 := h ▸ ha
  rw [Bool.eq_iff_iff, negative_iff ha, negative_iff hb, h]

theorem magnitude_congr (h : a.Equiv b) : a.toMagnitude.value = b.toMagnitude.value := by
  rw [← abs_value, ← abs_value, h]

/-- The sign and the trailing zeros that a power comes out with. -/
theorem map_value_ofMagnitude?_trim {m m' : Magnitude} (hm : m.Fits) (hm' : m'.Fits)
    (h : m.value = m'.value) (negative : Bool) :
    (ofMagnitude? (negative && m.coefficient != 0) m.trim).map value =
      (ofMagnitude? (negative && m'.coefficient != 0) m'.trim).map value := by
  have hzero : (m.coefficient != 0) = (m'.coefficient != 0) := by
    rw [Bool.eq_iff_iff, bne_iff_ne, bne_iff_ne, ne_eq, ne_eq, ← Magnitude.value_eq_zero_iff,
      ← Magnitude.value_eq_zero_iff, h]
  have hvalue : m.trim.value = m'.trim.value := by
    rw [Magnitude.value_trim, Magnitude.value_trim, h]
  rw [ofMagnitude?, ofMagnitude?, dif_pos hm.trim, dif_pos hm'.trim, hzero, Option.map_some,
    Option.map_some, value, value]
  simp only [hvalue]

theorem map_value_powNat? (h : a.Equiv b) {e : Nat} (he : e < wideExponent) :
    (a.powNat? e).map value = (b.powNat? e).map value := by
  have hone : a.Equiv one ↔ b.Equiv one := by rw [Equiv, Equiv, h]
  simp only [powNat?, isZero_congr h, hone]
  split_ifs with _ hb
  · rfl
  · rfl
  · rfl
  · rw [Option.map_some, Option.map_some, h]
  · rw [map_value_mul?, map_value_mul?, h]
  · have ha : a.value ≠ 0 := by rwa [h, ne_eq, ← isZero_iff]
    refine map_bind_congr Magnitude.value value (Magnitude.map_value_pow? (magnitude_congr h) he)
      fun m hm m' hm' hvalue => ?_
    rw [negative_congr h ha]
    exact map_value_ofMagnitude?_trim (Magnitude.fits_pow? he hm) (Magnitude.fits_pow? he hm')
      hvalue _

/-- An integral power is the same number for bases that are. -/
theorem map_value_powInt? (h : a.Equiv b) {n : Int} (hn : n.natAbs < wideExponent) :
    (a.powInt? n).map value = (b.powInt? n).map value := by
  cases n with
  | ofNat e => exact map_value_powNat? h hn
  | negSucc e =>
    refine map_bind_congr value value (map_value_powNat? h hn) fun p _ p' _ hp => ?_
    rw [isZero_congr hp]
    split
    next => rfl
    next hzero =>
      rw [isZero_iff] at hzero
      rw [map_value_div? one (hp ▸ hzero), map_value_div? one hzero, hp]

/-! ## Integers -/

theorem integer?_eq_some_iff {n : Int} : a.integer? = some n ↔ a.value = n := by
  have hpos := pow10_pos a.scale
  have hne : ((pow10 a.scale : Nat) : ℤ) ≠ 0 := by exact_mod_cast hpos.ne'
  have hvalue : a.value = n ↔ a.signed = n * pow10 a.scale := by
    rw [value_eq_signed, div_eq_iff (pow10_cast_ne_zero _)]
    exact_mod_cast Iff.rfl
  have hdvd : a.coefficient % pow10 a.scale = 0 ↔ ((pow10 a.scale : Nat) : ℤ) ∣ a.signed := by
    have hnat : a.signed.natAbs = a.coefficient := by
      unfold signed
      split <;> simp
    rw [Int.natCast_dvd, hnat, Nat.dvd_iff_mod_eq_zero]
  rw [hvalue, integer?]
  split
  next h =>
    obtain ⟨k, hk⟩ := hdvd.mp h
    rw [Option.some_inj, hk, Int.mul_ediv_cancel_left _ hne, mul_comm,
      mul_left_inj' hne]
  next h =>
    refine iff_of_false (by simp) fun hn => h (hdvd.mpr ⟨n, ?_⟩)
    rw [hn, mul_comm]

end Decimal

end Calculator
