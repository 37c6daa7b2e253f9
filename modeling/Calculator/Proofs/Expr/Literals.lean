import Calculator.Proofs.Decimal.Numeral
import Calculator.Proofs.Expr.ErrorPosition

/-!
# Literals

A text that is one literal is read as a number, or refused as a whole at its beginning, by what its
digits write (`Expr.parse_literal`): any digits are read but those of a number that would be rounded
up to the coefficient bound.
-/

namespace Calculator

open Grammar

namespace Expr

variable {whole : List Char} {fraction : Option (List Char)} {text : String}

/-! ## Texts of one literal -/

theorem scanAll_literal (h : (Token.literal whole fraction).Lexeme) :
    Token.scanAll (Token.literal whole fraction).text = [.literal whole fraction] := by
  have hscan := Token.scanAll_text h (Token.endsBefore_nil _)
  rwa [List.append_nil, Token.scanAll_nil] at hscan

theorem dropBlanks_literal (h : (Token.literal whole fraction).Lexeme) :
    Text.dropBlanks (Token.literal whole fraction).text = (Token.literal whole fraction).text := by
  obtain ⟨c, s, hs⟩ := List.exists_cons_of_ne_nil h.text_ne_nil
  rw [hs, Text.dropBlanks_cons (h.isBlank_head hs)]

/-- A literal with a value is the number. -/
theorem parse_literal_of_some (h : (Token.literal whole fraction).Lexeme)
    (htext : text.toList = (Token.literal whole fraction).text) {a : Decimal}
    (ha : Decimal.ofDigits? whole (fraction.getD []) = some a) : parse text = .ok (.number a) := by
  have hderives := (Derives.literal ha).sum
  rw [← scanAll_literal h, ← htext] at hderives
  have hparse := parseChars_of_derives hderives
  rwa [if_pos ⟨Nat.zero_le _, by decide⟩] at hparse

/-- A literal without a value is refused where it begins. -/
theorem parse_literal_of_none (h : (Token.literal whole fraction).Lexeme)
    (htext : text.toList = (Token.literal whole fraction).text)
    (hnone : Decimal.ofDigits? whole (fraction.getD []) = none) :
    parse text = .error ⟨.invalidNumber text, 0, text⟩ := by
  have hbreaks : Breaks .sum [] [.literal whole fraction]
      (.invalidNumber (String.ofList (Token.literal whole fraction).text)) 1 :=
    .ofProduct (.ofPower (.base (.obstacle (.number hnone))))
  have hrefused : Refused maxNesting [] [.literal whole fraction] _ :=
    .broken (List.cons_ne_nil _ _) hbreaks (by decide)
  rw [← scanAll_literal h] at hrefused
  have hfails := expression_of_refused .start (dropBlanks_literal h) (by simp) hrefused
  have hparse := parse_ofList_error hfails
  rwa [Nat.sub_self, ← htext, String.ofList_toList] at hparse

theorem parse_literal_ok_iff (h : (Token.literal whole fraction).Lexeme)
    (htext : text.toList = (Token.literal whole fraction).text) {e : Expr} : parse text = .ok e ↔
      ∃ a, Decimal.ofDigits? whole (fraction.getD []) = some a ∧ e = .number a := by
  cases hdigits : Decimal.ofDigits? whole (fraction.getD []) with
  | none => simp [parse_literal_of_none h htext hdigits]
  | some a => simp [parse_literal_of_some h htext hdigits, eq_comm]

theorem parse_literal_error_iff (h : (Token.literal whole fraction).Lexeme)
    (htext : text.toList = (Token.literal whole fraction).text) {err : ParseError} :
    parse text = .error err ↔ Decimal.ofDigits? whole (fraction.getD []) = none ∧
      err = ⟨.invalidNumber text, 0, text⟩ := by
  cases hdigits : Decimal.ofDigits? whole (fraction.getD []) with
  | none => simp [parse_literal_of_none h htext hdigits, eq_comm]
  | some a => simp [parse_literal_of_some h htext hdigits]

/-! ## Spellings of one number -/

/-- A zero before the first digit changes nothing, and neither does one before the point. -/
theorem parse_zero_literal (h : (Token.literal whole fraction).Lexeme)
    (htext : text.toList = (Token.literal whole fraction).text) (e : Expr) :
    parse ("0" ++ text) = .ok e ↔ parse text = .ok e := by
  have hzero : (Token.literal ('0' :: whole) fraction).Lexeme := by
    refine ⟨fun c hc => ?_, h.2.1, .inl (List.cons_ne_nil _ _)⟩
    rcases List.mem_cons.mp hc with rfl | hc
    · decide
    · exact h.1 c hc
  have hlong : ("0" ++ text).toList = (Token.literal ('0' :: whole) fraction).text := by
    rw [String.toList_append, htext]
    cases fraction <;> rfl
  rw [parse_literal_ok_iff hzero hlong, parse_literal_ok_iff h htext]
  rfl

/-- A point without digits behind it changes nothing. -/
theorem parse_literal_point (h : (Token.literal whole none).Lexeme)
    (htext : text.toList = (Token.literal whole none).text) (e : Expr) :
    parse (text ++ ".") = .ok e ↔ parse text = .ok e := by
  have hlong : (text ++ ".").toList = (Token.literal whole (some [])).text := by
    rw [String.toList_append, htext]
    rfl
  have hpoint : (Token.literal whole (some [])).Lexeme := h
  rw [parse_literal_ok_iff hpoint hlong, parse_literal_ok_iff h htext]
  rfl

/-! ## The number read -/

/-- The decimal that digits write is the one of the rule, or there is none. -/
theorem ofDigits?_cases (whole : List Char) {digits : List Char} (h : ∀ c ∈ digits, c.isDigit) :
    (coefficientBound - 1 / 2 ≤ (Magnitude.written whole digits).value ∧
      Decimal.ofDigits? whole digits = none) ∨
    ∃ a : Decimal, (Magnitude.written whole digits).value < coefficientBound - 1 / 2 ∧
      Decimal.ofDigits? whole digits = some a ∧ a.negative = false ∧
      Magnitude.ReadsAs (Magnitude.written whole digits).value digits.length a.toMagnitude := by
  have hreading := Magnitude.reading_ofDigits? whole h
  unfold Decimal.ofDigits?
  generalize Magnitude.ofDigits? whole digits = m? at hreading
  cases hreading with
  | refused hlarge => exact .inl ⟨hlarge, rfl⟩
  | @read m hsmall hread =>
    refine .inr ⟨⟨m, false, hread.fits⟩, hsmall, ?_, rfl, hread⟩
    exact Decimal.ofMagnitude?_eq_some_iff.mpr ⟨rfl, rfl⟩

/-- A text of digits, with a point or without one, is refused if and only if rounding would take its
number up to the coefficient bound, and then as a whole.  Otherwise it is the number rounded half up,
with as many of the written fraction digits as there is room for; all of them if they write a
decimal.  A zero before it, or a point behind it, changes nothing. -/
theorem parse_literal (h : (Token.literal whole fraction).Lexeme)
    (htext : text.toList = (Token.literal whole fraction).text) :
    (∀ err, parse text = .error err ↔
      coefficientBound - 1 / 2 ≤ (Magnitude.written whole (fraction.getD [])).value ∧
        err = ⟨.invalidNumber text, 0, text⟩) ∧
    ((Magnitude.written whole (fraction.getD [])).value < coefficientBound - 1 / 2 →
      ∃ a : Decimal, parse text = .ok (.number a) ∧ a.negative = false ∧
        Magnitude.ReadsAs (Magnitude.written whole (fraction.getD [])).value
          (fraction.getD []).length a.toMagnitude) ∧
    (∀ hfits : (Magnitude.written whole (fraction.getD [])).Fits, parse text =
      .ok (.number ⟨Magnitude.written whole (fraction.getD []), false, hfits⟩)) ∧
    (∀ e, parse ("0" ++ text) = .ok e ↔ parse text = .ok e) ∧
    (fraction = none → ∀ e, parse (text ++ ".") = .ok e ↔ parse text = .ok e) := by
  refine ⟨fun err => ?_, fun hsmall => ?_, fun hfits => ?_, parse_zero_literal h htext, ?_⟩
  · rw [parse_literal_error_iff h htext]
    refine and_congr_left fun _ => ?_
    rcases ofDigits?_cases whole h.2.1 with ⟨hlarge, hnone⟩ | ⟨a, hsmall, hsome, -⟩
    · exact iff_of_true hnone hlarge
    · exact iff_of_false (by rw [hsome]; simp) (not_le_of_gt hsmall)
  · rcases ofDigits?_cases whole h.2.1 with ⟨hlarge, -⟩ | ⟨a, -, hsome, hrest⟩
    · exact absurd hsmall (not_lt_of_ge hlarge)
    · exact ⟨a, parse_literal_of_some h htext hsome, hrest⟩
  · refine parse_literal_of_some h htext ?_
    rw [Decimal.ofDigits?, Magnitude.ofDigits?_of_fits h.2.1 hfits, Option.bind_some]
    exact Decimal.ofMagnitude?_eq_some_iff.mpr ⟨rfl, rfl⟩
  · rintro rfl
    exact parse_literal_point h htext

/-- Half a unit above the largest coefficient is refused, and less is rounded away. -/
theorem parse_literal_largest :
    parse (toString (coefficientBound - 1) ++ ".5") =
      .error ⟨.invalidNumber (toString (coefficientBound - 1) ++ ".5"), 0,
        toString (coefficientBound - 1) ++ ".5"⟩ ∧
    (∃ a : Decimal, parse (toString (coefficientBound - 1) ++ ".49") = .ok (.number a) ∧
      a.negative = false ∧ Magnitude.ReadsAs (coefficientBound - 51 / 100) 2 a.toMagnitude) ∧
    parse ".50" = .ok (.number ⟨⟨50, 2⟩, false, by decide⟩) ∧
    parse "0.50" = .ok (.number ⟨⟨50, 2⟩, false, by decide⟩) := by
  have hlexeme (digits : List Char) (h : digits.all Char.isDigit) :
      (Token.literal (Nat.toDigits 10 (coefficientBound - 1)) (some digits)).Lexeme :=
    ⟨fun c hc => Nat.isDigit_of_mem_toDigits (by decide) (by decide) hc, List.all_eq_true.mp h,
      .inl Nat.toDigits_ne_nil⟩
  have htext (tail : String) : (toString (coefficientBound - 1) ++ tail).toList =
      Nat.toDigits 10 (coefficientBound - 1) ++ tail.toList := by
    rw [String.toList_append, Nat.toString_eq_ofList_toDigits, String.toList_ofList]
  have hvalue (digits : List Char) :
      (Magnitude.written (Nat.toDigits 10 (coefficientBound - 1)) digits).value =
        coefficientBound - 1 + (Magnitude.written [] digits).value := by
    rw [Magnitude.written_value, Nat.ofDigitChars_toDigits (by decide) (by decide),
      Nat.cast_pred coefficientBound_pos]
  have hfive : (Magnitude.written [] ['5']).value = 1 / 2 := by decide +kernel
  have hless : (Magnitude.written [] ['4', '9']).value = 49 / 100 := by decide +kernel
  have hpoint : (Token.literal [] (some ['5', '0'])).Lexeme := by decide
  have hhalf : parse ".50" = .ok (.number ⟨⟨50, 2⟩, false, by decide⟩) :=
    (parse_literal hpoint rfl).2.2.1 (by decide)
  refine ⟨?_, ?_, hhalf, ?_⟩
  · refine ((parse_literal (hlexeme ['5'] (by decide)) (htext ".5")).1 _).mpr ⟨?_, rfl⟩
    rw [Option.getD_some, hvalue, hfive]
    linarith
  · have hread := (parse_literal (hlexeme ['4', '9'] (by decide)) (htext ".49")).2.1
    have hsum : (coefficientBound : ℚ) - 1 + 49 / 100 = coefficientBound - 51 / 100 := by ring
    rw [Option.getD_some, hvalue, hless, hsum] at hread
    exact hread (by linarith)
  · exact ((parse_literal hpoint rfl).2.2.2.1 _).mpr hhalf

end Expr

end Calculator
