import Calculator.Proofs.Token.LongestMatch
import Mathlib.Data.List.Basic

/-!
# Where tokens break

Only digits, letters and the point go on with a token.  At any other character a text can be cut, and
its tokens are those of the two parts (`Token.scanAll_append_of_head`, `Token.scanAll_append_of_last`).
-/

namespace Calculator

namespace Text

/-- No token goes on before or behind the character. -/
def IsBreak (c : Char) : Prop := c.isDigit = false ∧ c.isAlpha = false ∧ c ≠ '.'

instance (c : Char) : Decidable (IsBreak c) := inferInstanceAs (Decidable (_ ∧ _ ∧ _))

theorem isBreak_of_isBlank {c : Char} (h : isBlank c) : IsBreak c := by
  refine ⟨?_, ?_, ?_⟩
  · rw [Bool.eq_false_iff]
    exact fun hdigit => absurd h (by simp [isBlank_eq_false_of_isDigit hdigit])
  · rw [Bool.eq_false_iff]
    exact fun halpha => absurd h (by simp [isBlank_eq_false_of_isAlpha halpha])
  · rintro rfl
    exact absurd h (by decide)

end Text

namespace Token

open Text (IsBreak isBlank)

variable {u v : List Char} {t : Token} {ts : List Token}

theorem continuedBy_eq_false {c : Char} (hc : IsBreak c) (t : Token) : t.continuedBy c = false := by
  obtain ⟨hdigit, halpha, hpoint⟩ := hc
  match t with
  | literal _ none => simp [continuedBy, hdigit, hpoint]
  | literal _ (some _) => simp [continuedBy, hdigit]
  | word _ => simp [continuedBy, halpha]
  | symbol _ => simp [continuedBy, hdigit]

theorem scanAll_append_cons {c : Char} (hc : IsBreak c) (u r : List Char) :
    scanAll (u ++ c :: r) = scanAll u ++ scanAll (c :: r) := by
  fun_induction scanAll u with
  | case1 u h =>
    obtain ⟨b, hb, hu⟩ := Text.exists_blanks_append u
    rw [scan_eq_none_iff.mp h, List.append_nil] at hu
    subst hu
    rw [List.nil_append]
    cases hscan : scan (c :: r) with
    | none => rw [scanAll_of_scan_none hscan, scanAll_of_scan_none ((scan_append hb _).trans hscan)]
    | some next =>
      rw [scanAll_of_scan_some hscan, scanAll_of_scan_some ((scan_append hb _).trans hscan)]
  | case2 u t rest h _ ih =>
    obtain ⟨b, hb, rfl, ht, hends⟩ := exists_of_scan h
    have hends' : t.EndsBefore (rest ++ c :: r) := by
      cases rest with
      | nil => exact (endsBefore_cons t c r).mpr (continuedBy_eq_false hc t)
      | cons d rest => exact (endsBefore_cons t d _).mpr ((endsBefore_cons t d rest).mp hends)
    rw [List.append_assoc, List.append_assoc, List.cons_append, ← ih]
    exact scanAll_of_scan_some ((scan_append hb _).trans (scan_text ht hends'))

/-- No symbol but the point goes on, and before it every token ends. -/
theorem scanAll_append_symbol {c : Char} (hc : (symbol c).Lexeme) (hpoint : c ≠ '.')
    (u r : List Char) : scanAll (u ++ c :: r) = scanAll u ++ symbol c :: scanAll r := by
  have hends : (symbol c).EndsBefore r := by
    intro d _
    simp [continuedBy, hpoint]
  rw [scanAll_append_cons ⟨hc.1, hc.2.1, hpoint⟩]
  exact congrArg _ (scanAll_text hc hends)

theorem scanAll_append_blank {c : Char} (hc : isBlank c) (u r : List Char) :
    scanAll (u ++ c :: r) = scanAll u ++ scanAll r := by
  rw [scanAll_append_cons (Text.isBreak_of_isBlank hc), scanAll_blank hc]

theorem scanAll_append_of_head (h : ∀ c ∈ v.head?, IsBreak c) (u : List Char) :
    scanAll (u ++ v) = scanAll u ++ scanAll v := by
  cases v with
  | nil => rw [List.append_nil, scanAll_nil, List.append_nil]
  | cons c v => exact scanAll_append_cons (h c rfl) u v

theorem scanAll_append_of_last (h : ∀ a ∈ u.getLast?, IsBreak a) (v : List Char) :
    scanAll (u ++ v) = scanAll u ++ scanAll v := by
  rcases List.eq_nil_or_concat' u with rfl | ⟨u, a, rfl⟩
  · rw [scanAll_nil]
    rfl
  · obtain ⟨hdigit, halpha, hpoint⟩ := h a List.getLast?_concat
    rw [List.append_assoc, List.singleton_append]
    by_cases hblank : isBlank a
    · rw [scanAll_append_blank hblank, scanAll_append_blank hblank, scanAll_nil, List.append_nil]
    · have ha : (symbol a).Lexeme := ⟨hdigit, halpha, Bool.eq_false_iff.mpr hblank⟩
      rw [scanAll_append_symbol ha hpoint, scanAll_append_symbol ha hpoint, scanAll_nil,
        List.append_assoc, List.singleton_append]

theorem Lexeme.isAlpha_eq_false {whole : List Char} {fraction : Option (List Char)}
    (h : (literal whole fraction).Lexeme) : ∀ c ∈ (literal whole fraction).text, c.isAlpha = false := by
  intro c hc
  rw [Bool.eq_false_iff]
  intro halpha
  rcases h.isDigit_or_point c hc with hdigit | rfl
  · rw [Text.isDigit_eq_false_of_isAlpha halpha] at hdigit
    cases hdigit
  · exact absurd halpha (by decide)

/-- Behind the last token of a text there are only blanks. -/
theorem Splits.exists_of_last (h : Splits u ts) (ht : t ∈ ts.getLast?) :
    t.Lexeme ∧ ∃ v b, u = v ++ (t.text ++ b) ∧ ∀ c ∈ b, isBlank c := by
  induction h with
  | blanks => cases ht
  | @token b rest a ts _ ha _ hrest ih =>
    cases ts with
    | nil =>
      cases ht
      cases hrest with
      | blanks hb => exact ⟨ha, b, rest, rfl, hb⟩
    | cons a' ts =>
      rw [List.getLast?_cons_cons] at ht
      obtain ⟨hlexeme, v, b', rfl, hb'⟩ := ih ht
      exact ⟨hlexeme, b ++ (a.text ++ v), b', by simp, hb'⟩

theorem Splits.exists_mem_of_last {a : Char} (h : Splits u ts) (ha : a ∈ u.getLast?)
    (hblank : isBlank a = false) : ∃ t ∈ ts.getLast?, a ∈ t.text := by
  rcases List.eq_nil_or_concat' ts with rfl | ⟨ts, t, rfl⟩
  · cases h with
    | blanks hb =>
      rw [hb a (List.mem_of_getLast? ha)] at hblank
      cases hblank
  · refine ⟨t, List.getLast?_concat, ?_⟩
    obtain ⟨ht, v, b, rfl, hb⟩ := h.exists_of_last List.getLast?_concat
    rcases List.eq_nil_or_concat' b with rfl | ⟨b, c, rfl⟩
    · rw [List.append_nil, List.getLast?_append_of_ne_nil _ ht.text_ne_nil] at ha
      exact List.mem_of_getLast? ha
    · rw [← List.append_assoc, ← List.append_assoc, List.getLast?_concat] at ha
      cases ha
      rw [hb a (List.mem_append_right _ List.mem_cons_self)] at hblank
      cases hblank

end Token

end Calculator
