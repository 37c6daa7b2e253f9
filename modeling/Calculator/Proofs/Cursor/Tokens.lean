import Calculator.Proofs.Cursor.Steps

/-!
# The cursor at a token

The cursor looks at single characters, the rules of the grammar at whole tokens.  Behind the blanks
both find the same: a symbol or the keyword exactly where it is the next token, the beginning of a
factor where the next token begins one, and a number or a word up to the end of the token.
-/

namespace Calculator

namespace Token

open Text (isBlank dropBlanks)

variable {t : Token} {s r : List Char} {d : Char}

/-- The next token lies behind the blanks. -/
theorem dropBlanks_of_scan (h : scan s = some (t, r)) :
    dropBlanks s = t.text ++ r ∧ t.Lexeme ∧ t.EndsBefore r := by
  obtain ⟨b, hb, rfl, ht, hr⟩ := exists_of_scan h
  obtain ⟨c, v, hv⟩ := List.exists_cons_of_ne_nil ht.text_ne_nil
  refine ⟨?_, ht, hr⟩
  rw [Text.dropBlanks_append hb, hv, List.cons_append, Text.dropBlanks_cons (ht.isBlank_head hv)]

theorem scan_of_dropBlanks (ht : t.Lexeme) (hr : t.EndsBefore r) (h : dropBlanks s = t.text ++ r) :
    scan s = some (t, r) := by
  rw [← scan_dropBlanks, h, scan_text ht hr]

/-- The symbols that mean something to the grammar. -/
def IsPlain (d : Char) : Prop := (symbol d).Lexeme ∧ d ≠ '.'

instance (d : Char) : Decidable (IsPlain d) := inferInstanceAs (Decidable (_ ∧ _))

theorem scan_eq_symbol_iff (hd : IsPlain d) :
    scan s = some (symbol d, r) ↔ dropBlanks s = d :: r := by
  constructor
  · exact fun h => (dropBlanks_of_scan h).1
  · refine fun h => scan_of_dropBlanks hd.1 (fun c _ => ?_) h
    simp [continuedBy, hd.2]

theorem scan_eq_squareRoot_iff : scan s = some (word squareRoot, r) ↔
    dropBlanks s = squareRoot ++ r ∧ r.head?.any Char.isAlpha = false := by
  have hends : (word squareRoot).EndsBefore r ↔ r.head?.any Char.isAlpha = false := by
    cases r <;> simp [continuedBy]
  constructor
  · intro h
    obtain ⟨hs, _, hr⟩ := dropBlanks_of_scan h
    exact ⟨hs, hends.mp hr⟩
  · rintro ⟨hs, hr⟩
    exact scan_of_dropBlanks (by decide) (hends.mpr hr) hs

/-- The first character shows whether a token begins a factor. -/
theorem beginsFactor_eq (ht : t.Lexeme) (hs : t.text ++ r = d :: s) :
    t.beginsFactor = (d == '(' || d.isDigit || d.isAlpha) := by
  match t with
  | literal (c :: whole) fraction =>
    have hc : c = d := by cases fraction <;> exact (List.cons.inj hs).1
    subst hc
    simp [beginsFactor, ht.1 c List.mem_cons_self]
  | literal [] none => simp [Lexeme] at ht
  | literal [] (some fraction) =>
    obtain ⟨rfl, -⟩ := List.cons.inj hs
    rfl
  | word [] => exact absurd rfl ht.2
  | word (c :: letters) =>
    obtain ⟨rfl, -⟩ := List.cons.inj hs
    simp [beginsFactor, ht.1 c List.mem_cons_self]
  | symbol c =>
    obtain ⟨rfl, -⟩ := List.cons.inj hs
    simp [beginsFactor, ht.1, ht.2.1]

/-- The text of a literal is the numeral of its digits. -/
theorem ofUnsigned?_text {whole : List Char} {fraction : Option (List Char)}
    (ht : (literal whole fraction).Lexeme) :
    Decimal.ofUnsigned? (literal whole fraction).text =
      Decimal.ofDigits? whole (fraction.getD []) := by
  cases fraction with
  | none =>
    have hwhole : whole ≠ [] := by simpa [Lexeme] using ht.2.2
    have htake : whole.takeWhile Char.isDigit = whole := List.takeWhile_eq_self_iff.mpr ht.1
    have hdrop : whole.dropWhile Char.isDigit = [] := List.dropWhile_eq_nil_iff.mpr ht.1
    rw [Decimal.ofUnsigned?, text]
    simp [htake, hdrop, hwhole]
  | some digits =>
    have hpoint : ∀ c ∈ ('.' :: digits).head?, c.isDigit = false := by simp
    have hdigits : digits.all Char.isDigit := List.all_eq_true.mpr ht.2.1
    have hsome : (!(whole.isEmpty && digits.isEmpty)) = true := by
      simpa [Lexeme, Decidable.imp_iff_not_or] using ht.2.2
    rw [Decimal.ofUnsigned?, text, takeWhile_append_of_head ht.1 hpoint,
      dropWhile_append_of_head ht.1 hpoint]
    simp [hdigits, hsome]

end Token

namespace Cursor

open Text (byteLength dropBlanks)
open Token (IsPlain)
open TokenSource (next? settle)

variable {text s r : List Char} {c : Cursor} {d : Char}

theorem Stands.settled (h : Stands text c s) :
    Stands text (c.advanced (byteLength (s.takeWhile Text.isBlank))) (dropBlanks s) :=
  h.skipped Text.isBlank

/-! ## Symbols and the keyword -/

/-- A symbol is matched if it is the next token, and then the cursor moves behind it. -/
theorem matchChar_cases (hd : IsPlain d) (h : Stands text c (dropBlanks s)) :
    (∃ r, next? s = some (.symbol d, r) ∧ Stands text (c.advanced d.utf8Size) r ∧
        matchChar text d c = some (.ok true, c.advanced d.utf8Size)) ∨
      (∀ r, next? s ≠ some (.symbol d, r)) ∧ matchChar text d c = some (.ok false, c) := by
  by_cases hhead : (dropBlanks s).head? = some d
  · obtain ⟨r, hr⟩ := List.head?_eq_some_iff.mp hhead
    rw [hr] at h
    exact .inl ⟨r, (Token.scan_eq_symbol_iff hd).mpr hr, h.advanced (v := [d]), matchChar_cons h⟩
  · refine .inr ⟨fun r hnext => hhead ?_, matchChar_of_ne h hhead⟩
    rw [(Token.scan_eq_symbol_iff hd).mp hnext]
    rfl

theorem matchKeyword_cases (h : Stands text c (dropBlanks s)) :
    (∃ r n, next? s = some (.word Token.squareRoot, r) ∧ Stands text (c.advanced n) r ∧
        matchKeyword text Token.squareRoot c = some (.ok true, c.advanced n)) ∨
      (∀ r, next? s ≠ some (.word Token.squareRoot, r)) ∧
        matchKeyword text Token.squareRoot c = some (.ok false, c) := by
  by_cases hroot : ∃ r, next? s = some (.word Token.squareRoot, r)
  · obtain ⟨r, hr⟩ := hroot
    obtain ⟨hs, halpha⟩ := Token.scan_eq_squareRoot_iff.mp hr
    rw [hs] at h
    exact .inl ⟨r, _, hr, h.advanced, matchKeyword_append h halpha⟩
  · refine .inr ⟨fun r hr => hroot ⟨r, hr⟩, matchKeyword_of_ne h fun r hs => ?_⟩
    by_contra halpha
    rw [Bool.not_eq_true] at halpha
    exact hroot ⟨r, Token.scan_eq_squareRoot_iff.mpr ⟨hs, halpha⟩⟩

/-- A factor may begin where the next token begins one. -/
theorem startsFactor_cases (h : Stands text c (dropBlanks s)) :
    (next? s = none ∧ startsFactor text c = some (.ok false, c)) ∨
      ∃ t r, next? s = some (t, r) ∧ startsFactor text c = some (.ok t.beginsFactor, c) := by
  cases hnext : next? s with
  | none =>
    refine .inl ⟨rfl, ?_⟩
    rw [Token.scan_eq_none_iff.mp hnext] at h
    exact startsFactor_apply h
  | some next =>
    obtain ⟨t, r⟩ := next
    refine .inr ⟨t, r, rfl, ?_⟩
    obtain ⟨hs, ht, -⟩ := Token.dropBlanks_of_scan hnext
    obtain ⟨d, v, hv⟩ := List.exists_cons_of_ne_nil (List.append_ne_nil_of_left_ne_nil ht.text_ne_nil r)
    rw [hs, hv] at h
    rw [startsFactor_apply h, Token.beginsFactor_eq ht hv]
    rfl

/-! ## Numbers and words -/

theorem skipDigits_append {v : List Char} (hv : ∀ d ∈ v, d.isDigit)
    (hr : ∀ d ∈ r.head?, d.isDigit = false) (h : Stands text c (v ++ r)) :
    skipDigits text c = some (.ok (byteLength v), c.advanced (byteLength v)) := by
  rw [skipDigits_apply h, Token.takeWhile_append_of_head hv hr]

/-- The digits before a point and those behind it, if there is one. -/
theorem readNumber_apply {whole : List Char} {fraction : Option (List Char)}
    (hwhole : ∀ d ∈ whole, d.isDigit) (hfraction : ∀ d ∈ fraction.getD [], d.isDigit)
    (hr : (Token.literal whole fraction).EndsBefore r)
    (h : Stands text c ((Token.literal whole fraction).text ++ r)) :
    readNumber text c =
      leaf text c.position (byteLength whole) (byteLength (fraction.getD []))
        (c.advanced (byteLength (Token.literal whole fraction).text)) := by
  cases fraction with
  | none =>
    have hdigit : ∀ d ∈ r.head?, d.isDigit = false := fun d hd => by
      have := hr d hd
      rw [Token.continuedBy, Bool.or_eq_false_iff] at this
      exact this.1
    have hpoint : r.head? ≠ some '.' := fun hd => by simpa [Token.continuedBy] using hr '.' hd
    have hbehind : Stands text (c.advanced (byteLength whole)) r := h.advanced
    have hfraction : skipFraction text (c.advanced (byteLength whole)) =
        some (.ok 0, c.advanced (byteLength whole)) := bind_ok (matchChar_of_ne hbehind hpoint) _
    rw [readNumber, get_bind, bind_ok (skipDigits_append hwhole hdigit h), bind_ok hfraction]
    rfl
  | some digits =>
    have hpoint : ∀ d ∈ ('.' :: (digits ++ r)).head?, d.isDigit = false := by simp
    rw [Token.text, List.append_assoc, List.cons_append] at h
    have hbehind : Stands text ((c.advanced (byteLength whole)).advanced '.'.utf8Size)
        (digits ++ r) := h.advanced.advanced (v := ['.'])
    have hskip : skipFraction text (c.advanced (byteLength whole)) = _ :=
      (bind_ok (matchChar_cons h.advanced) _).trans (skipDigits_append hfraction hr hbehind)
    rw [readNumber, get_bind, bind_ok (skipDigits_append hwhole hpoint h), bind_ok hskip, Token.text,
      Text.byteLength_append, advanced_advanced, advanced_advanced]
    rfl

/-- A literal is read to its end, and is a leaf if it has a value. -/
theorem readNumber_literal {whole : List Char} {fraction : Option (List Char)}
    (ht : (Token.literal whole fraction).Lexeme)
    (hr : (Token.literal whole fraction).EndsBefore r)
    (h : Stands text c ((Token.literal whole fraction).text ++ r)) :
    readNumber text c =
      (match Decimal.ofDigits? whole (fraction.getD []) with
        | some value => pure ⟨.number value, 0⟩
        | none => refuseAt text c.position
            (.invalidNumber (String.ofList (Token.literal whole fraction).text)) : Step Subtree)
        (c.advanced (byteLength (Token.literal whole fraction).text)) := by
  have hdigits : ¬ (byteLength whole = 0 ∧ byteLength (fraction.getD []) = 0) := by
    rw [Text.byteLength_eq_zero_iff, Text.byteLength_eq_zero_iff]
    exact fun hnone => ht.2.2.elim (· hnone.1) (· hnone.2)
  have hvalue := Token.ofUnsigned?_text ht
  rw [readNumber_apply ht.1 ht.2.1 hr h, leaf, if_neg hdigits, get_bind, advanced_position,
    lift_bind (between?_of_stands h)]
  cases hnumeral : Decimal.ofDigits? whole (fraction.getD []) with
  | none =>
    rw [hnumeral] at hvalue
    simp only [hvalue]
  | some value =>
    rw [hnumeral] at hvalue
    simp only [hvalue]

/-- A point without digits is no number. -/
theorem readNumber_point (hr : (Token.symbol '.').EndsBefore r) (h : Stands text c ('.' :: r)) :
    readNumber text c =
      (refuseAt text c.position .expectedNumber : Step Subtree) (c.advanced (byteLength ['.'])) := by
  have hends : (Token.literal [] (some [])).EndsBefore r := fun d hd => by
    simpa [Token.continuedBy] using hr d hd
  have hwhole : ∀ d ∈ ([] : List Char), d.isDigit := by simp
  have hfraction : ∀ d ∈ (some ([] : List Char)).getD [], d.isDigit := by simp
  exact readNumber_apply hwhole hfraction hends h

theorem readWord_apply {letters : List Char} (ht : (Token.word letters).Lexeme)
    (hr : (Token.word letters).EndsBefore r) (h : Stands text c (letters ++ r)) :
    readWord text c =
      (refuseAt text c.position (.unknownIdentifier (String.ofList letters)) : Step Subtree)
        (c.advanced (byteLength letters)) := by
  have hskip := skipWhile_apply .letter h
  rw [Kind.includes, Token.takeWhile_append_of_head ht.1 hr] at hskip
  rw [readWord, get_bind, bind_ok hskip, get_bind, advanced_position,
    lift_bind (between?_of_stands h)]

end Cursor

end Calculator
