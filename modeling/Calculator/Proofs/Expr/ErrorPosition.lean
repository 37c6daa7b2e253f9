import Calculator.Proofs.Expr.Printing
import Calculator.Proofs.Grammar.Refusal

/-!
# Where texts are refused

A text that is refused, but for nesting, is the beginning of an expression up to the place of the
refusal: a digit at most and closing parentheses complete it.  And where a character is refused that
no text can go on with, no text goes on with it (`Expr.parse_error_place`).
-/

namespace Calculator

open Grammar

namespace Text

theorem byteLength_append (u v : List Char) :
    byteLength (u ++ v) = byteLength u + byteLength v := by
  induction u with
  | nil => exact (Nat.zero_add _).symm
  | cons c u ih => rw [List.cons_append, byteLength, byteLength, ih, Nat.add_assoc]

end Text

namespace Grammar

/-! ## Places of failures -/

/-- Places in a text and the tokens that are left there. -/
theorem simulates_reaches (s : List Char) :
    Simulates fun r us => (∃ ts, Token.Reaches s ts r) ∧ Token.scanAll r = us where
  settle := by
    rintro r us ⟨⟨ts, hts⟩, hus⟩
    exact ⟨⟨ts, .blanks hts⟩, simulates_scanAll.settle hus⟩
  next?_none := by
    rintro r us ⟨_, hus⟩ h
    exact simulates_scanAll.next?_none hus h
  next?_some := by
    rintro r r' us a ⟨⟨ts, hts⟩, hus⟩ h
    obtain ⟨us', hnext, hus'⟩ := simulates_scanAll.next?_some hus h
    exact ⟨us', hnext, ⟨ts ++ [a], .token hts h⟩, hus'⟩

variable {s r : List Char} {cause : Cause} {room : Nat}

/-- A text fails behind some of its tokens. -/
theorem exists_reaches_of_failure (h : expression room s = .error ⟨cause, r⟩) :
    ∃ ts, Token.Reaches s ts r := by
  have hagree := agree_expression (simulates_reaches s) room ⟨⟨[], .start⟩, rfl⟩
  rw [h] at hagree
  generalize expression room (Token.scanAll s) = answer at hagree
  cases hagree with
  | deep hr => exact hr.1
  | stuck hr =>
    obtain ⟨⟨ts, hts⟩, _⟩ := hr
    exact ⟨ts, .blanks hts⟩

/-- A text fails behind some of its tokens and the blanks that follow them, and is refused as the
list of its tokens is. -/
theorem exists_reaches_of_error (h : expression room s = .error ⟨cause, r⟩)
    (hcause : cause ≠ .nestingTooDeep) : ∃ ts, Token.Reaches s ts r ∧ Text.dropBlanks r = r ∧
      Refused room ts (Token.scanAll r) cause := by
  have hagree := agree_expression (simulates_reaches s) room ⟨⟨[], .start⟩, rfl⟩
  rw [h] at hagree
  generalize hanswer : expression room (Token.scanAll s) = answer at hagree
  cases hagree with
  | deep => exact absurd rfl hcause
  | @stuck _ r₀ us hr =>
    obtain ⟨⟨ts, hts⟩, rfl⟩ := hr
    obtain ⟨read, hread, hrefused⟩ := (expression_error_iff hcause).mp hanswer
    rw [hts.scanAll_eq] at hread
    obtain rfl := List.append_cancel_right hread
    refine ⟨ts, .blanks hts, Text.dropBlanks_dropBlanks r₀, ?_⟩
    rw [← Token.scanAll_settle] at hrefused
    exact hrefused

/-- A text is refused where the list of its tokens is. -/
theorem expression_of_refused {ts : List Token} (hs : Token.Reaches s ts r)
    (hr : Text.dropBlanks r = r) (hcause : cause ≠ .nestingTooDeep)
    (h : Refused room ts (Token.scanAll r) cause) : expression room s = .error ⟨cause, r⟩ := by
  have htokens : expression room (Token.scanAll s) = .error ⟨cause, Token.scanAll r⟩ :=
    (expression_error_iff hcause).mpr ⟨ts, hs.scanAll_eq, h⟩
  obtain ⟨r', hfails⟩ := (agree_scanAll room s).refused_iff.mpr ⟨_, htokens⟩
  obtain ⟨ts', hs', hr', h'⟩ := exists_reaches_of_error hfails hcause
  have htokens' : expression room (Token.scanAll s) = .error ⟨cause, Token.scanAll r'⟩ :=
    (expression_error_iff hcause).mpr ⟨ts', hs'.scanAll_eq, h'⟩
  have hrest : Token.scanAll r' = Token.scanAll r := by
    rw [htokens, Except.error.injEq, Failure.mk.injEq] at htokens'
    exact htokens'.2.symm
  -- both places have the same tokens before them
  obtain rfl : ts = ts' := by
    have hsplit := hs.scanAll_eq
    rw [hs'.scanAll_eq, hrest] at hsplit
    exact (List.append_cancel_right hsplit).symm
  have hplace : r' = r := by rw [← hr', hs'.dropBlanks_eq, ← hs.dropBlanks_eq, hr]
  rw [hfails, hplace]

end Grammar

namespace Token

/-! ## Texts behind a place -/

/-- A zero, if asked for, and closing parentheses. -/
def closingText (digit : Bool) (k : Nat) : List Char :=
  (if digit then ['0'] else []) ++ List.replicate k ')'

theorem spells_closing (digit : Bool) (k : Nat) :
    Spells (closingText digit k) (closing digit k) := by
  have hparens : Spells (List.replicate k ')') (List.replicate k (.symbol ')')) := by
    induction k with
    | zero => exact spells_nil
    | succ k ih => exact ih.symbol_cons (by decide) (by decide)
  cases digit with
  | false => exact hparens
  | true =>
    have hlexeme : (literal ['0'] none).Lexeme := by decide
    have hzero : Spells ['0'] [literal ['0'] none] := spells_literal hlexeme
    cases k with
    | zero => exact hzero
    | succ k => exact hzero.append hparens (by decide)

theorem endsBefore_closing {t : Token} {digit : Bool} (k : Nat)
    (h : digit → t.continuedBy '0' = false) : t.EndsBefore (closingText digit k) := by
  cases digit with
  | true => exact (endsBefore_cons t '0' _).mpr (h rfl)
  | false =>
    cases k with
    | zero => exact endsBefore_nil t
    | succ k =>
      refine (endsBefore_cons t ')' _).mpr ?_
      match t with
      | literal _ none | literal _ (some _) | word _ => rfl
      | symbol c => simp [continuedBy]

end Token

namespace Expr

/-- The text is an expression, perhaps one that is too high. -/
def IsExpression (text : String) : Prop :=
  ∃ t, parse text = .ok t ∨ maxHeight < t.height ∧
    ∃ n, n ≤ maxNesting ∧ Derives .sum (Token.scanAll text.toList) t n

theorem isExpression_of_derives {s : List Char} {t : Expr} {n : Nat}
    (h : Derives .sum (Token.scanAll s) t n) (hn : n ≤ maxNesting) :
    IsExpression (String.ofList s) := by
  have hread := parseChars_of_derives h
  rw [← String.toList_ofList (l := s)] at h hread
  by_cases hheight : t.height ≤ maxHeight
  · rw [if_pos ⟨hheight, hn⟩] at hread
    exact ⟨t, .inl hread⟩
  · exact ⟨t, .inr ⟨Nat.lt_of_not_le hheight, n, hn, h⟩⟩

/-- The text before a refusal, completed. -/
theorem isExpression_of_refused {r u : List Char} {ts : List Token} {cause : Cause}
    (hu : ∀ r', Token.Replaces ts r r' → Token.Reaches (u ++ r') ts (Text.dropBlanks r'))
    (h : Refused maxNesting ts (Token.scanAll r) cause) :
    ∃ digit k, IsExpression (String.ofList (u ++ Token.closingText digit k)) := by
  obtain ⟨digit, k, t, n, hd, hn, hdigit⟩ := h.completes (by decide)
  have hseam : Token.Replaces ts r (Token.closingText digit k) :=
    .inr fun t ht => Token.endsBefore_closing k fun hdig => hdigit hdig t ht
  have hclosing : Token.scanAll (Token.closingText digit k) = closing digit k := by
    have hspells := Token.spells_closing digit k [] (by simp [Token.Seam])
    rwa [Token.scanAll_nil, List.append_nil, List.append_nil] at hspells
  have hscan := (hu _ hseam).scanAll_eq
  rw [Token.scanAll_dropBlanks, hclosing] at hscan
  rw [← hscan] at hd
  exact ⟨digit, k, isExpression_of_derives hd hn⟩

/-- The same failure, whatever follows the character at its place. -/
theorem expression_of_same_head {u x y : List Char} {c : Char} {ts : List Token} {cause : Cause}
    (hu : ∀ r', Token.Replaces ts (c :: x) r' → Token.Reaches (u ++ r') ts (Text.dropBlanks r'))
    (hblank : Text.isBlank c = false) (hcause : cause.isDefinite)
    (h : Refused maxNesting ts (Token.scanAll (c :: x)) cause) :
    expression maxNesting (u ++ c :: y) = .error ⟨cause, c :: y⟩ := by
  have hdrop : Text.dropBlanks (c :: y) = c :: y := Text.dropBlanks_cons hblank y
  have hreaches := hu (c :: y) (.inl rfl)
  rw [hdrop] at hreaches
  have hdeep : cause ≠ .nestingTooDeep := by rintro rfl; cases hcause
  refine expression_of_refused hreaches hdrop hdeep ?_
  rw [Token.scanAll_cons hblank] at h ⊢
  exact h.of_resembles hcause (Token.resembles_scanFrom c x y)

theorem parse_ofList_error {s r : List Char} {cause : Cause}
    (h : expression maxNesting s = .error ⟨cause, r⟩) :
    parse (String.ofList s) =
      .error ⟨cause, Text.byteLength s - Text.byteLength r, String.ofList r⟩ := by
  rw [parse, String.toList_ofList, parseChars, h]
  rfl

theorem exists_failure_of_parse {s : String} {err : ParseError} (h : parse s = .error err) :
    ∃ f, expression maxNesting s.toList = .error f ∧ err = ParseError.ofFailure s.toList f := by
  rw [parse, parseChars] at h
  cases hanswer : expression maxNesting s.toList with
  | ok => rw [hanswer] at h; cases h
  | error f =>
    rw [hanswer] at h
    exact ⟨f, rfl, (Except.error.inj h).symm⟩

/-- A text that is refused, but for nesting, is cut in two by the place of the refusal.  What stands
before it is completed to an expression by a digit at most and by closing parentheses.  If the cause
is definite, every text that agrees with it up to the character at the place is refused in the same
way. -/
theorem parse_error_place {s : String} {err : ParseError} (h : parse s = .error err)
    (hcause : err.cause ≠ .nestingTooDeep) :
    ∃ u r, s.toList = u ++ r ∧ err.position = Text.byteLength u ∧ err.remaining = String.ofList r ∧
      (∃ digit k, IsExpression (String.ofList (u ++ Token.closingText digit k))) ∧
      (err.cause.isDefinite → ∀ c x, r = c :: x → ∀ y, parse (String.ofList (u ++ c :: y)) =
        .error ⟨err.cause, err.position, String.ofList (c :: y)⟩) := by
  obtain ⟨cause, r, hfails, rfl⟩ : ∃ cause r, expression maxNesting s.toList = .error ⟨cause, r⟩ ∧
      err = ParseError.ofFailure s.toList ⟨cause, r⟩ := by
    rw [parse, parseChars] at h
    cases hanswer : expression maxNesting s.toList with
    | ok => rw [hanswer] at h; cases h
    | error f =>
      rw [hanswer] at h
      exact ⟨f.cause, f.rest, rfl, (Except.error.inj h).symm⟩
  obtain ⟨ts, hreaches, hsettled, hrefused⟩ := exists_reaches_of_error hfails hcause
  obtain ⟨u, hs, hu⟩ := hreaches.replace
  have hposition : Text.byteLength s.toList - Text.byteLength r = Text.byteLength u := by
    rw [hs, Text.byteLength_append, Nat.add_sub_cancel]
  refine ⟨u, r, hs, hposition, rfl, isExpression_of_refused hu hrefused, ?_⟩
  rintro hdefinite c x rfl y
  have hblank : Text.isBlank c = false := by
    have hhead := Token.head?_dropWhile (p := Text.isBlank) (s := c :: x) c
    exact hhead (by rw [← Text.dropBlanks, hsettled]; rfl)
  have hfails' : expression maxNesting (u ++ c :: y) = .error ⟨cause, c :: y⟩ :=
    expression_of_same_head hu hblank hdefinite hrefused
  show parse _ = .error ⟨cause, Text.byteLength s.toList - Text.byteLength (c :: x), _⟩
  rw [parse_ofList_error hfails', hposition, Text.byteLength_append, Nat.add_sub_cancel]

/-- A sign with nothing but a parenthesis behind it. -/
theorem parse_error_place_minus :
    parse (String.ofList ['-', ')']) =
        .error ⟨.unexpectedCharacter ')', 1, String.ofList [')']⟩ ∧
      ∃ u r, ['-', ')'] = u ++ r ∧ 1 = Text.byteLength u ∧
        ∃ digit k, IsExpression (String.ofList (u ++ Token.closingText digit k)) := by
  have hfails : expression maxNesting ['-', ')'] = .error ⟨.unexpectedCharacter ')', [')']⟩ := rfl
  have hparse := parse_ofList_error hfails
  obtain ⟨u, r, hs, hposition, _, hcompleted, _⟩ := parse_error_place hparse (by decide)
  rw [String.toList_ofList] at hs
  exact ⟨hparse, u, r, hs, hposition, hcompleted⟩

end Expr

end Calculator
