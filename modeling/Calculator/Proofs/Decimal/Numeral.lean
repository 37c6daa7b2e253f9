import Calculator.Proofs.Decimal.Digits
import Calculator.Proofs.Decimal.Nearest
import Mathlib.Order.Bounds.Basic

/-!
# Reading numerals

Digits of any number are read as the number that they write (`Magnitude.written`), with as many of
the written fraction digits as a decimal has room for and the rest rounded half up (`ReadsAs`).  The
reader sees one digit after the other and stops at the first one without room; what is kept on the way
is that the digits still to come are the rest of the number (`Pending`).  Only numbers that would be
rounded up to the coefficient bound are refused (`Magnitude.reading_ofDigits?`).
-/

namespace Calculator

namespace Magnitude

/-- What the digits before and after the point write, of any size. -/
def written (whole fraction : List Char) : Magnitude :=
  ⟨Nat.ofDigitChars 10 (whole ++ fraction) 0, fraction.length⟩

/-- The number with `s` fraction digits, a half rounded up. -/
def halfUp (x : ℚ) (s : Nat) : Magnitude := ⟨⌊x * pow10 s + 1 / 2⌋₊, s⟩

/-- The most of the `digits` fraction digits that a number can be read with: no more than a decimal may
have, and so few that the digits of the number down to them write less than the coefficient bound. -/
def IsReadingScale (x : ℚ) (digits s : Nat) : Prop :=
  IsGreatest {s | s ≤ maxScale ∧ s ≤ digits ∧ ⌊x * pow10 s⌋₊ < coefficientBound} s

/-- How a number with so many fraction digits is read; with one less if rounding takes the
coefficient up to its bound. -/
inductive ReadsAs (x : ℚ) (digits : Nat) : Magnitude → Prop
  | finest {s : Nat} : IsReadingScale x digits s → (halfUp x s).coefficient < coefficientBound →
    ReadsAs x digits (halfUp x s)
  | carried {s : Nat} : IsReadingScale x digits (s + 1) →
    (halfUp x (s + 1)).coefficient = coefficientBound → ReadsAs x digits (halfUp x s)

/-- The outcomes of reading a number with so many fraction digits. -/
inductive Reading (x : ℚ) (digits : Nat) : Option Magnitude → Prop
  | refused : coefficientBound - 1 / 2 ≤ x → Reading x digits none
  | read {m : Magnitude} : x < coefficientBound - 1 / 2 → ReadsAs x digits m →
    Reading x digits (some m)

variable {x : ℚ} {c k s digits : Nat} {whole fraction ds : List Char} {m : Magnitude}

/-! ## The number that digits write -/

theorem digitValue_lt {d : Char} (hd : d.isDigit) : digitValue d < 10 := by
  have hle : d.toNat ≤ 57 := (Char.isDigit_iff_toNat.mp hd).2
  show d.toNat - 48 < 10
  omega

theorem ofDigitChars_cons (d : Char) (ds : List Char) : Nat.ofDigitChars 10 (d :: ds) 0 =
    pow10 ds.length * digitValue d + Nat.ofDigitChars 10 ds 0 := by
  rw [Nat.ofDigitChars_cons, Nat.ofDigitChars_eq_ofDigitChars_zero, Nat.mul_zero, Nat.zero_add]
  rfl

theorem written_value (whole fraction : List Char) : (written whole fraction).value =
    Nat.ofDigitChars 10 whole 0 + (written [] fraction).value := by
  have hsplit : (written whole fraction).coefficient =
      pow10 fraction.length * Nat.ofDigitChars 10 whole 0 + Nat.ofDigitChars 10 fraction 0 := by
    rw [written, Nat.ofDigitChars_append, Nat.ofDigitChars_eq_ofDigitChars_zero]
    rfl
  rw [value, hsplit, Nat.cast_add, Nat.cast_mul, add_div]
  exact congrArg (· + _) (mul_div_cancel_left₀ _ (pow10_cast_ne_zero _))

theorem written_nil : (written [] []).value = 0 := by simp [written, value]

/-- The first fraction digit moves before the point. -/
theorem written_cons_mul_ten (d : Char) (ds : List Char) :
    (written [] (d :: ds)).value * 10 = digitValue d + (written [] ds).value := by
  have hpos := pow10_cast_ne_zero ds.length
  simp only [value, written, List.nil_append, List.length_cons, ofDigitChars_cons, pow10_cast_succ]
  push_cast
  field_simp

theorem written_lt_one (h : ∀ d ∈ ds, d.isDigit) : (written [] ds).value < 1 := by
  induction ds with
  | nil => rw [written_nil]; exact one_pos
  | cons d ds ih =>
    have hten := written_cons_mul_ten d ds
    have hdigit : (digitValue d : ℚ) + 1 ≤ 10 := by
      exact_mod_cast digitValue_lt (h d List.mem_cons_self)
    have hrest := ih fun c hc => h c (List.mem_cons_of_mem d hc)
    linarith

/-! ## Whole digits -/

theorem le_ofDigitChars (ds : List Char) (c : Nat) : c ≤ Nat.ofDigitChars 10 ds c := by
  rw [Nat.ofDigitChars_eq_ofDigitChars_zero]
  have : c ≤ 10 ^ ds.length * c := Nat.le_mul_of_pos_left c (pow10_pos _)
  omega

/-- Whole digits are read to their number, if it is below the coefficient bound. -/
theorem readWhole?_eq (hc : c < coefficientBound) (ds : List Char) : readWhole? c ds =
    if Nat.ofDigitChars 10 ds c < coefficientBound then some (Nat.ofDigitChars 10 ds c)
    else none := by
  induction ds generalizing c with
  | nil => rw [readWhole?, Nat.ofDigitChars_nil, if_pos hc]
  | cons d ds ih =>
    have hcons : Nat.ofDigitChars 10 (d :: ds) c = Nat.ofDigitChars 10 ds (10 * c + digitValue d) :=
      Nat.ofDigitChars_cons
    rw [readWhole?, hcons]
    split
    next hlt => exact ih hlt
    next hge =>
      -- what follows does not make the number smaller
      have := le_ofDigitChars ds (10 * c + digitValue d)
      rw [if_neg (by omega)]

/-! ## Fraction digits -/

/-- The digits read so far are those of the number, up to the digits still to come. -/
structure Pending (x : ℚ) (m : Magnitude) (ds : List Char) : Prop where
  digits : ∀ d ∈ ds, d.isDigit
  fits : m.Fits
  value : x * pow10 m.scale = m.coefficient + (written [] ds).value

namespace Pending

variable {d : Char}

theorem nonneg (h : Pending x m ds) : 0 ≤ x := by
  refine nonneg_of_mul_nonneg_left ?_ (pow10_cast_pos m.scale)
  rw [h.value]
  exact add_nonneg (Nat.cast_nonneg _) (value_nonneg _)

theorem mul_pow10_lt (h : Pending x m ds) : x * pow10 m.scale < m.coefficient + 1 := by
  rw [h.value]
  exact add_lt_add_right (written_lt_one h.digits) _

theorem floor_eq (h : Pending x m ds) : ⌊x * pow10 m.scale⌋₊ = m.coefficient := by
  refine (Nat.floor_eq_iff (mul_nonneg h.nonneg (pow10_cast_pos _).le)).mpr ⟨?_, h.mul_pow10_lt⟩
  rw [h.value]
  exact le_add_of_nonneg_right (value_nonneg _)

/-- With one digit more, whether it has room or not. -/
theorem succ_value (h : Pending x m (d :: ds)) : x * pow10 (m.scale + 1) =
    (10 * m.coefficient + digitValue d : Nat) + (written [] ds).value := by
  rw [pow10_cast_succ, ← mul_assoc, h.value, add_mul, written_cons_mul_ten]
  push_cast
  ring

theorem succ (h : Pending x m (d :: ds)) (hscale : m.scale < maxScale)
    (hlt : 10 * m.coefficient + digitValue d < coefficientBound) :
    Pending x ⟨10 * m.coefficient + digitValue d, m.scale + 1⟩ ds where
  digits := fun c hc => h.digits c (List.mem_cons_of_mem d hc)
  fits := ⟨hlt, hscale⟩
  value := h.succ_value

end Pending

theorem mul_pow10_le (hx : 0 ≤ x) {s t : Nat} (hst : s ≤ t) : x * pow10 s ≤ x * pow10 t := by
  rw [pow10_cast_sub hst]
  refine mul_le_mul_of_nonneg_left ?_ hx
  exact le_mul_of_one_le_left (pow10_cast_pos s).le (one_le_pow10_cast _)

/-- The reading ends with the digits. -/
theorem Pending.isReadingScale_nil (h : Pending x m []) : IsReadingScale x m.scale m.scale := by
  refine ⟨⟨h.fits.2, le_rfl, ?_⟩, fun s hs => hs.2.1⟩
  rw [h.floor_eq]
  exact h.fits.1

/-- The reading ends before the first digit without room. -/
theorem Pending.isReadingScale_cons {d : Char} (h : Pending x m (d :: ds))
    (hfull : ¬ (m.scale < maxScale ∧ 10 * m.coefficient + digitValue d < coefficientBound)) :
    IsReadingScale x (m.scale + (d :: ds).length) m.scale := by
  refine ⟨⟨h.fits.2, Nat.le_add_right _ _, ?_⟩, fun s hs => ?_⟩
  · rw [h.floor_eq]
    exact h.fits.1
  · obtain ⟨hs, -, hfloor⟩ := hs
    by_contra hlt
    rw [not_le] at hlt
    refine hfull ⟨by omega, Nat.lt_of_le_of_lt ?_ hfloor⟩
    have hle := mul_pow10_le h.nonneg (Nat.succ_le_of_lt hlt)
    rw [Nat.succ_eq_add_one, h.succ_value] at hle
    exact Nat.le_floor (le_trans (le_add_of_nonneg_right (value_nonneg _)) hle)

theorem written_cons_lt_half_iff {d : Char} (h : ∀ c ∈ d :: ds, c.isDigit) :
    (written [] (d :: ds)).value < 1 / 2 ↔ digitValue d < 5 := by
  have hten := written_cons_mul_ten d ds
  have hnonneg := (written [] ds).value_nonneg
  have hlt := written_lt_one fun c hc => h c (List.mem_cons_of_mem d hc)
  constructor
  · intro hhalf
    have : (digitValue d : ℚ) < 5 := by linarith
    exact_mod_cast this
  · intro hdigit
    have : (digitValue d : ℚ) + 1 ≤ 5 := by exact_mod_cast hdigit
    linarith

theorem halfUp_eq {n : Nat} (hlow : n ≤ x * pow10 s + 1 / 2) (hhigh : x * pow10 s + 1 / 2 < n + 1) :
    halfUp x s = ⟨n, s⟩ := by
  have hfloor : ⌊x * pow10 s + 1 / 2⌋₊ = n :=
    (Nat.floor_eq_iff ((Nat.cast_nonneg n).trans hlow)).mpr ⟨hlow, hhigh⟩
  rw [halfUp, hfloor]

/-- The digits to come are rounded away. -/
theorem Pending.halfUp_of_lt (h : Pending x m ds) (hhalf : (written [] ds).value < 1 / 2) :
    halfUp x m.scale = m := by
  have hnonneg := (written [] ds).value_nonneg
  have hvalue := h.value
  exact halfUp_eq (by linarith) (by linarith)

/-- The digits to come are rounded up. -/
theorem Pending.halfUp_of_le (h : Pending x m ds) (hhalf : 1 / 2 ≤ (written [] ds).value) :
    halfUp x m.scale = ⟨m.coefficient + 1, m.scale⟩ := by
  have hlt := written_lt_one h.digits
  have hvalue := h.value
  exact halfUp_eq (by push_cast; linarith) (by push_cast; linarith)

/-- A coefficient rounded up to its bound is rounded up again without its last digit. -/
theorem halfUp_carry (hlow : coefficientBound ≤ x * pow10 (s + 1) + 1 / 2)
    (hhigh : x * pow10 (s + 1) < coefficientBound) :
    halfUp x s = dropDigits ⟨coefficientBound, s + 1⟩ 1 := by
  have hquotient : divHalfEven coefficientBound (pow10 1) = 7922816251426433759354395034 := by
    decide
  rw [coefficientBound_eq, pow10_cast_succ, ← mul_assoc] at hlow hhigh
  push_cast at hlow hhigh
  rw [dropDigits, hquotient]
  exact halfUp_eq (by push_cast; linarith) (by push_cast; linarith)

theorem Pending.le_mul_pow10 (h : Pending x m ds) : x ≤ x * pow10 m.scale :=
  le_mul_of_one_le_right h.nonneg (one_le_pow10_cast _)

theorem Pending.reading_down (h : Pending x m ds) (hscale : IsReadingScale x digits m.scale)
    (hhalf : (written [] ds).value < 1 / 2) : Reading x digits (some m) := by
  have hread := ReadsAs.finest hscale
  rw [h.halfUp_of_lt hhalf] at hread
  refine .read ?_ (hread h.fits.1)
  have hle := h.le_mul_pow10
  have hvalue := h.value
  have hfits : (m.coefficient : ℚ) + 1 ≤ coefficientBound := by exact_mod_cast h.fits.1
  linarith

theorem Pending.reading_up (h : Pending x m ds) (hscale : IsReadingScale x digits m.scale)
    (hhalf : 1 / 2 ≤ (written [] ds).value) (hshort : m.coefficient + 1 < coefficientBound) :
    Reading x digits (some ⟨m.coefficient + 1, m.scale⟩) := by
  have hread := ReadsAs.finest hscale
  rw [h.halfUp_of_le hhalf] at hread
  refine .read ?_ (hread hshort)
  have hle := h.le_mul_pow10
  have hlt := h.mul_pow10_lt
  have hfits : (m.coefficient : ℚ) + 1 + 1 ≤ coefficientBound := by exact_mod_cast hshort
  linarith

/-- With a fraction digit a number below the bound is far below it. -/
theorem lt_sub_half (hx : 0 ≤ x) (h : x * pow10 (s + 1) < coefficientBound) :
    x < coefficientBound - 1 / 2 := by
  have hten := mul_pow10_le hx (Nat.le_add_left 1 s)
  have hbig : (1 : ℚ) ≤ coefficientBound := by exact_mod_cast coefficientBound_pos
  have hfirst : (pow10 1 : ℚ) = 10 := rfl
  rw [hfirst] at hten
  linarith

/-- Rounding reaches the coefficient bound. -/
theorem Pending.reading_carry (h : Pending x m ds) (hscale : IsReadingScale x digits m.scale)
    (hhalf : 1 / 2 ≤ (written [] ds).value) (hfull : m.coefficient + 1 = coefficientBound) :
    Reading x digits (carry? ⟨coefficientBound, m.scale⟩) := by
  have hup := h.halfUp_of_le hhalf
  have hlt := h.mul_pow10_lt
  have hvalue := h.value
  have hcast : (m.coefficient : ℚ) + 1 = coefficientBound := by exact_mod_cast hfull
  rw [carry?, if_neg (Nat.lt_irrefl _)]
  by_cases hzero : m.scale = 0
  · rw [if_pos hzero]
    rw [hzero, pow10_zero, Nat.cast_one, mul_one] at hvalue
    exact .refused (by linarith)
  · obtain ⟨s, hs⟩ : ∃ s, m.scale = s + 1 := Nat.exists_eq_succ_of_ne_zero hzero
    rw [hcast] at hlt
    have hlow : coefficientBound ≤ x * pow10 m.scale + 1 / 2 := by linarith
    rw [if_neg hzero]
    rw [hs] at hscale hup hlt hlow ⊢
    rw [← halfUp_carry hlow hlt]
    exact .read (lt_sub_half h.nonneg hlt) (.carried hscale (by rw [hup, hfull]))

/-- Digits of any number are read by the rule, from any place between them. -/
theorem Pending.reading (h : Pending x m ds) :
    Reading x (m.scale + ds.length) (readFraction? m ds) := by
  induction ds generalizing m with
  | nil => exact h.reading_down h.isReadingScale_nil (by rw [written_nil]; norm_num)
  | cons d ds ih =>
    rw [readFraction?]
    split
    next hroom =>
      have hread := ih (h.succ hroom.1 hroom.2)
      rwa [Nat.add_assoc, Nat.add_comm 1] at hread
    next hfull =>
      have hscale := h.isReadingScale_cons hfull
      have hhalf := written_cons_lt_half_iff h.digits
      split
      next hdigit => exact h.reading_down hscale (hhalf.mpr hdigit)
      next hdigit =>
        have hhalf := not_lt.mp (mt hhalf.mp hdigit)
        by_cases hshort : m.coefficient + 1 < coefficientBound
        · rw [carry?, if_pos hshort]
          exact h.reading_up hscale hhalf hshort
        · have hbound : m.coefficient + 1 = coefficientBound :=
            Nat.le_antisymm h.fits.1 (Nat.le_of_not_lt hshort)
          rw [hbound]
          exact h.reading_carry hscale hhalf hbound

/-! ## Numerals -/

theorem ReadsAs.fits (h : ReadsAs x digits m) : m.Fits := by
  cases h with
  | finest hscale hlt => exact ⟨hlt, hscale.1.1⟩
  | @carried s hscale _ =>
    obtain ⟨hle, -, hfloor⟩ := hscale.1
    refine ⟨(Nat.floor_lt' coefficientBound_pos.ne').mpr ?_, Nat.le_of_succ_le hle⟩
    have hlt := Nat.lt_of_floor_lt hfloor
    have hbig : (1 : ℚ) ≤ coefficientBound := by exact_mod_cast coefficientBound_pos
    rw [pow10_cast_succ, ← mul_assoc] at hlt
    linarith

theorem ReadsAs.unique {m' : Magnitude} (h : ReadsAs x digits m) (h' : ReadsAs x digits m') :
    m = m' := by
  cases h with
  | finest hscale hlt =>
    cases h' with
    | finest hscale' _ => rw [hscale.unique hscale']
    | carried hscale' hbound =>
      rw [hscale.unique hscale'] at hlt
      exact absurd hbound hlt.ne
  | carried hscale hbound =>
    cases h' with
    | finest hscale' hlt =>
      rw [← hscale.unique hscale'] at hlt
      exact absurd hbound hlt.ne
    | carried hscale' _ => rw [Nat.succ.inj (hscale.unique hscale')]

/-- A decimal is read as it is written. -/
theorem Reading.eq_of_fits {m? : Option Magnitude} (hm : m.Fits)
    (h : Reading m.value m.scale m?) : m? = some m := by
  have hvalue := m.value_mul_pow10 0
  rw [Nat.add_zero, pow10_zero, Nat.mul_one] at hvalue
  have hpending : Pending m.value m [] :=
    ⟨fun _ hc => absurd hc List.not_mem_nil, hm, by rw [hvalue, written_nil, add_zero]⟩
  cases h with
  | refused hlarge =>
    have hle := hpending.le_mul_pow10
    have hlt : (m.coefficient : ℚ) + 1 ≤ coefficientBound := by exact_mod_cast hm.1
    linarith
  | read _ hread =>
    have hfinest := ReadsAs.finest hpending.isReadingScale_nil
    rw [hpending.halfUp_of_lt (by rw [written_nil]; norm_num)] at hfinest
    rw [hread.unique (hfinest hm.1)]

theorem reading_ofDigits? (whole : List Char) (hfraction : ∀ c ∈ fraction, c.isDigit) :
    Reading (written whole fraction).value fraction.length (ofDigits? whole fraction) := by
  rw [ofDigits?, readWhole?_eq coefficientBound_pos]
  have hvalue := written_value whole fraction
  split
  next hlt =>
    have hpending : Pending (written whole fraction).value ⟨Nat.ofDigitChars 10 whole 0, 0⟩
        fraction := by
      refine ⟨hfraction, ⟨hlt, Nat.zero_le _⟩, ?_⟩
      rw [hvalue, pow10_zero, Nat.cast_one, mul_one]
    have hread := hpending.reading
    rwa [Nat.zero_add] at hread
  next hge =>
    have hge' : (coefficientBound : ℚ) ≤ Nat.ofDigitChars 10 whole 0 := by
      exact_mod_cast Nat.le_of_not_lt hge
    have hnonneg := (written [] fraction).value_nonneg
    exact .refused (by linarith)

/-- Digits that write a decimal are read as they are written. -/
theorem ofDigits?_of_fits (hfraction : ∀ c ∈ fraction, c.isDigit)
    (hm : (written whole fraction).Fits) :
    ofDigits? whole fraction = some (written whole fraction) :=
  (reading_ofDigits? whole hfraction).eq_of_fits hm

end Magnitude

end Calculator
