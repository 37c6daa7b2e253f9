import Calculator.Decimal.Numeral
import Mathlib.Data.List.TakeWhile

/-!
# Digits read back

The digits that a decimal is written with are read as the same coefficient and the same scale
(`Decimal.ofDigits?_digits`): within the bounds no digit is refused, and none is rounded away.  So
the numeral of a decimal is read as the decimal itself (`Decimal.ofNumeral?_text`), and no two
decimals are written alike.
-/

namespace Calculator

theorem digitValue_digitChar {d : Nat} (hd : d < 10) : digitValue (Nat.digitChar d) = d :=
  Nat.toNat_digitChar_sub_48_of_lt_ten hd

namespace Magnitude

/-! ## Whole digits -/

theorem readWhole?_append (c : Nat) (u v : List Char) :
    readWhole? c (u ++ v) = (readWhole? c u).bind fun c' => readWhole? c' v := by
  induction u generalizing c with
  | nil => rfl
  | cons d u ih =>
    rw [List.cons_append, readWhole?, readWhole?]
    split
    · exact ih _
    · rfl

theorem readWhole?_digitChar {c d : Nat} (hd : d < 10) (h : 10 * c + d < coefficientBound) :
    readWhole? c [Nat.digitChar d] = some (10 * c + d) := by
  rw [readWhole?, digitValue_digitChar hd, if_pos h, readWhole?]

theorem readWhole?_toDigits {n : Nat} (h : n < coefficientBound) :
    readWhole? 0 (Nat.toDigits 10 n) = some n := by
  induction n using Nat.strongRecOn with
  | ind n ih =>
    rw [Nat.toDigits_eq_if (by decide)]
    split
    next hlt =>
      have := readWhole?_digitChar (c := 0) hlt (by omega)
      rwa [Nat.mul_zero, Nat.zero_add] at this
    next hle =>
      have hmod : n % 10 < 10 := Nat.mod_lt n (by decide)
      have hdiv : 10 * (n / 10) + n % 10 = n := Nat.div_add_mod n 10
      rw [readWhole?_append, ih (n / 10) (by omega) (by omega), Option.bind_some,
        readWhole?_digitChar hmod (by omega), hdiv]

/-! ## Fraction digits -/

theorem isDigit_of_mem_fixedDigits {c s : Nat} {d : Char} (h : d ∈ fixedDigits c s) : d.isDigit := by
  induction s generalizing c with
  | zero => cases h
  | succ s ih =>
    rcases List.mem_append.mp h with h | h
    · exact ih h
    · rw [List.mem_singleton.mp h, Nat.isDigit_digitChar, decide_eq_true_eq]
      exact Nat.mod_lt c (by decide)

theorem div_pow10_succ (c s : Nat) : c / pow10 (s + 1) = c / 10 / pow10 s := by
  rw [pow10_succ, Nat.mul_comm, Nat.div_div_eq_div_mul]

/-- The last `s` digits of `c` behind the other ones give `c` again, with `s` digits more behind
the point. -/
theorem readFraction?_fixedDigits {c k s : Nat} (hc : c < coefficientBound) (hs : k + s ≤ maxScale)
    (rest : List Char) :
    readFraction? ⟨c / pow10 s, k⟩ (fixedDigits c s ++ rest) = readFraction? ⟨c, k + s⟩ rest := by
  induction s generalizing c rest with
  | zero => rw [pow10_zero, Nat.div_one, fixedDigits, List.nil_append, Nat.add_zero]
  | succ s ih =>
    have hmod : c % 10 < 10 := Nat.mod_lt c (by decide)
    have hdiv : 10 * (c / 10) + c % 10 = c := Nat.div_add_mod c 10
    rw [div_pow10_succ, fixedDigits, List.append_assoc, ih (by omega) (by omega),
      List.singleton_append, readFraction?, digitValue_digitChar hmod, hdiv]
    exact if_pos ⟨by simp only []; omega, hc⟩

theorem ofDigits?_digits {m : Magnitude} (h : m.Fits) :
    ofDigits? (Nat.toDigits 10 (m.coefficient / pow10 m.scale))
      (fixedDigits m.coefficient m.scale) = some m := by
  have hwhole : m.coefficient / pow10 m.scale < coefficientBound :=
    Nat.lt_of_le_of_lt (Nat.div_le_self _ _) h.1
  have hscale : 0 + m.scale ≤ maxScale := by rw [Nat.zero_add]; exact h.2
  have hfraction := readFraction?_fixedDigits h.1 hscale []
  rw [List.append_nil, Nat.zero_add] at hfraction
  rw [ofDigits?, readWhole?_toDigits hwhole, Option.bind_some, hfraction, readFraction?]

end Magnitude

/-! ## Numerals -/

/-- The digits before the point end at the point, or with the text. -/
theorem Magnitude.span_text (m : Magnitude) :
    m.text.takeWhile Char.isDigit = Nat.toDigits 10 (m.coefficient / pow10 m.scale) ∧
      m.text.dropWhile Char.isDigit =
        if m.scale = 0 then [] else '.' :: fixedDigits m.coefficient m.scale := by
  have hdigits : ∀ c ∈ Nat.toDigits 10 (m.coefficient / pow10 m.scale), c.isDigit := fun c hc =>
    Nat.isDigit_of_mem_toDigits (by decide) (by decide) hc
  rw [text, List.takeWhile_append_of_pos hdigits, List.dropWhile_append_of_pos hdigits]
  split <;> simp

namespace Decimal

variable {a b : Decimal}

theorem negative_of_ofDigits? {whole fraction : List Char}
    (h : ofDigits? whole fraction = some a) : a.negative = false := by
  obtain ⟨m, _, hm⟩ := Option.bind_eq_some_iff.mp h
  exact (ofMagnitude?_eq_some_iff.mp hm).2

/-- The digits of a decimal are read as the decimal without its sign. -/
theorem ofDigits?_digits (a : Decimal) :
    ofDigits? (Nat.toDigits 10 (a.coefficient / pow10 a.scale))
      (Magnitude.fixedDigits a.coefficient a.scale) = some a.abs := by
  rw [ofDigits?, Magnitude.ofDigits?_digits a.fits, Option.bind_some]
  exact ofMagnitude?_eq_some_iff.mpr ⟨rfl, rfl⟩

theorem abs_of_not_negative (h : a.negative = false) : a.abs = a := by
  rw [abs, ← h]

theorem neg_abs_of_negative (h : a.negative) : -a.abs = a := by
  show neg (abs a) = a
  rw [neg, abs, Bool.not_false, ← h]

theorem ofUnsigned?_text (a : Decimal) : ofUnsigned? a.toMagnitude.text = some a.abs := by
  obtain ⟨hwhole, hrest⟩ := a.toMagnitude.span_text
  have hread := a.ofDigits?_digits
  have hne : Nat.toDigits 10 (a.coefficient / pow10 a.scale) ≠ [] := Nat.toDigits_ne_nil
  unfold ofUnsigned?
  dsimp only
  rw [hwhole, hrest]
  by_cases hscale : a.scale = 0
  · rw [hscale] at hread hne ⊢
    simpa [hne, Magnitude.fixedDigits] using hread
  · have hall : (Magnitude.fixedDigits a.coefficient a.scale).all Char.isDigit :=
      List.all_eq_true.mpr fun c hc => Magnitude.isDigit_of_mem_fixedDigits hc
    simpa [hscale, hne, hall] using hread

theorem ofNumeral?_text (a : Decimal) : ofNumeral? a.text = some a := by
  have hread := a.ofUnsigned?_text
  unfold text
  split
  next hneg =>
    rw [ofNumeral?, hread, Option.map_some]
    exact congrArg some (neg_abs_of_negative hneg)
  next hpos =>
    unfold ofNumeral?
    split
    next numeral htext =>
      -- a magnitude begins with a digit
      have hspan := a.toMagnitude.span_text.1
      rw [htext] at hspan
      exact absurd hspan.symm Nat.toDigits_ne_nil
    next => rw [hread, abs_of_not_negative (Bool.eq_false_iff.mpr hpos)]

/-- Different decimals, in digits, scale or sign, have different numerals. -/
theorem text_inj : a.text = b.text ↔ a = b := by
  constructor
  · intro h
    have hread := a.ofNumeral?_text
    rw [h, b.ofNumeral?_text] at hread
    exact (Option.some.inj hread).symm
  · rintro rfl
    rfl

end Decimal

end Calculator
