import Calculator.Proofs.Cursor.Reading
import Calculator.Proofs.Token.Parentheses

/-!
# Expressions put together

A text that is read by itself is read as the same tree between parentheses, and so under every operator
(`Expr.parse_composed`).  What the texts are is of no account, only how far they go: how deep the cursor
comes in them (`Expr.nesting`) and how high their trees are.

A group takes one level of nesting more than its text, and two as an exponent or under a unary
operator.
-/

namespace Calculator

open Grammar

namespace Token

theorem lexeme_unary (op : UnaryOp) : op.token.Lexeme := by
  cases op <;> decide

theorem lexeme_binary (op : BinaryOp) : op.token.Lexeme := by
  cases op <;> decide

theorem scanAll_lexeme {t : Token} (ht : t.Lexeme) : scanAll t.text = [t] := by
  have h := scanAll_text ht (endsBefore_nil t)
  rwa [List.append_nil, scanAll_nil] at h

end Token

namespace Expr

/-! ## Nesting of texts -/

/-- The highest depth to which the cursor comes when it reads the text. -/
def nesting (text : String) : Nat :=
  match Cursor.read text.toList maxNesting Cursor.start with
  | some (_, after) => after.deepest
  | none => 0

variable {a b text : String} {t u e : Expr} {n : Nat}

theorem derives_nesting (h : parse text = .ok t) :
    Derives .sum (Token.scanAll text.toList) t (nesting text) := by
  obtain ⟨after, hread, -, hderives⟩ := Cursor.read_apply text.toList
  rw [nesting, hread maxNesting le_rfl]
  exact hderives t h

theorem within_of_parse (h : parse text = .ok t) : t.height ≤ maxHeight ∧ nesting text ≤ maxNesting := by
  have hread := parseChars_of_derives (derives_nesting h)
  split at hread
  next hwithin => exact hwithin
  next =>
    obtain ⟨err, herr, -⟩ := hread
    rw [parse, herr] at h
    cases h

/-! ## Groups -/

/-- The text between parentheses. -/
def enclosed (text : String) : String := "(" ++ text ++ ")"

/-- Under the condition the text is read as the tree, otherwise it is refused for nesting. -/
def ReadsIf (P : Prop) (text : String) (e : Expr) : Prop :=
  (P → parse text = .ok e) ∧
    (¬ P → ∃ err, parse text = .error err ∧ err.cause = .nestingTooDeep)

theorem readsIf_of_derives {P : Prop} (hd : Derives .sum (Token.scanAll text.toList) e n)
    (hP : P ↔ e.height ≤ maxHeight ∧ n ≤ maxNesting) : ReadsIf P text e := by
  have hread := parseChars_of_derives hd
  split at hread
  next hwithin => exact ⟨fun _ => hread, fun hn => absurd (hP.mpr hwithin) hn⟩
  next hbeyond => exact ⟨fun hp => absurd (hP.mp hp) hbeyond, fun _ => hread⟩

/-- The tokens of a group. -/
def groupTokens (text : String) : List Token :=
  .symbol '(' :: (Token.scanAll text.toList ++ [.symbol ')'])

theorem scanAll_enclosed_append (a w : String) :
    Token.scanAll (enclosed a ++ w).toList = groupTokens a ++ Token.scanAll w.toList := by
  have h := Token.scanAll_group [] a.toList w.toList
  simpa [enclosed, groupTokens, Token.scanAll_nil] using h

theorem scanAll_enclosed (a : String) : Token.scanAll (enclosed a).toList = groupTokens a := by
  have h := scanAll_enclosed_append a ""
  rwa [String.append_empty, String.toList_empty, Token.scanAll_nil, List.append_nil] at h

theorem scanAll_append_enclosed {token : Token} {symbol : String} (ht : token.Lexeme)
    (hsymbol : token.text = symbol.toList) (a : String) :
    Token.scanAll (symbol ++ enclosed a).toList = token :: groupTokens a := by
  have h := Token.scanAll_group token.text a.toList []
  rw [Token.scanAll_lexeme ht, hsymbol, Token.scanAll_nil] at h
  simpa [enclosed, groupTokens] using h

theorem derives_group (h : parse text = .ok t) :
    Derives .factor (groupTokens text) t (nesting text + 1) := (derives_nesting h).group

/-- A group is the operand of a sign or a square root. -/
theorem derives_enclosed_unary (op : UnaryOp) (h : parse a = .ok t) : Derives .sum
    (Token.scanAll (op.symbol ++ enclosed a).toList) (.unary op t) (nesting a + 2) := by
  rw [scanAll_append_enclosed (Token.lexeme_unary op) op.token_text]
  by_cases hop : op = .squareRoot
  · subst hop
    exact (derives_group h).root.sum
  · exact (Derives.sign hop (derives_group h).base).sum

section

variable (ha : parse a = .ok t) (hb : parse b = .ok u)

include ha hb

theorem derives_enclosed_binary {op : BinaryOp} (hop : op ≠ .power) : Derives .sum
    (Token.scanAll (enclosed a ++ (op.symbol ++ enclosed b)).toList) (.binary op t u)
    (max (nesting a + 1) (nesting b + 1)) := by
  have hl := derives_group ha
  have hr := (derives_group hb).base
  rw [scanAll_enclosed_append, scanAll_append_enclosed (Token.lexeme_binary op) op.token_text]
  cases op with
  | add => exact .additive (.inl rfl) hl.sum hr.ofPower
  | subtract => exact .additive (.inr rfl) hl.sum hr.ofPower
  | multiply => exact (Derives.multiplicative (.inl rfl) hl.base.ofPower hr).sum
  | divide => exact (Derives.multiplicative (.inr rfl) hl.base.ofPower hr).sum
  | power => exact absurd rfl hop

theorem derives_enclosed_juxtaposed : Derives .sum (Token.scanAll (enclosed a ++ enclosed b).toList)
    (.binary .multiply t u) (max (nesting a + 1) (nesting b + 1)) := by
  have hl := (derives_group ha).base.ofPower
  have hr := (derives_group hb).base
  rw [scanAll_enclosed_append, scanAll_enclosed]
  exact (Derives.juxtaposed hl hr rfl).sum

theorem derives_enclosed_power : Derives .sum
    (Token.scanAll (enclosed a ++ (BinaryOp.power.symbol ++ enclosed b)).toList)
    (.binary .power t u) (max (nesting a + 1) (nesting b + 2)) := by
  rw [scanAll_enclosed_append, scanAll_append_enclosed (Token.lexeme_binary .power) BinaryOp.power.token_text]
  exact (Derives.power (derives_group ha) (signLed_group _) (derives_group hb).base).sum

end

theorem height_binary_le_iff {op : BinaryOp} :
    (binary op t u).height ≤ maxHeight ↔ t.height < maxHeight ∧ u.height < maxHeight := by
  rw [height, Nat.succ_le_iff, Nat.max_lt]

/-- Texts that are read are put together.  Between parentheses they are operands of all operators, and of
a product without one, as long as the bounds on nesting and height are kept: an exponent takes one level
of nesting more than a base, and a sign or a square root one more than its operand. -/
theorem parse_composed (ha : parse a = .ok t) (hb : parse b = .ok u) :
    ReadsIf (nesting a < maxNesting) (enclosed a) t ∧
    (∀ op : UnaryOp, ReadsIf (nesting a + 1 < maxNesting ∧ t.height < maxHeight)
      (op.symbol ++ enclosed a) (.unary op t)) ∧
    (∀ op : BinaryOp, op ≠ .power → ReadsIf
      ((t.height < maxHeight ∧ u.height < maxHeight) ∧ nesting a < maxNesting ∧ nesting b < maxNesting)
      (enclosed a ++ (op.symbol ++ enclosed b)) (.binary op t u)) ∧
    ReadsIf
      ((t.height < maxHeight ∧ u.height < maxHeight) ∧ nesting a < maxNesting ∧ nesting b < maxNesting)
      (enclosed a ++ enclosed b) (.binary .multiply t u) ∧
    ReadsIf
      ((t.height < maxHeight ∧ u.height < maxHeight) ∧ nesting a < maxNesting ∧ nesting b + 1 < maxNesting)
      (enclosed a ++ (BinaryOp.power.symbol ++ enclosed b)) (.binary .power t u) := by
  refine ⟨?_, fun op => ?_, fun op hop => ?_, ?_, ?_⟩
  · have hd := (derives_group ha).sum
    rw [← scanAll_enclosed] at hd
    exact readsIf_of_derives hd (iff_and_self.mpr fun _ => (within_of_parse ha).1)
  · refine readsIf_of_derives (derives_enclosed_unary op ha) ?_
    exact and_comm
  · refine readsIf_of_derives (derives_enclosed_binary ha hb hop) ?_
    rw [height_binary_le_iff, Nat.max_le]
    rfl
  · refine readsIf_of_derives (derives_enclosed_juxtaposed ha hb) ?_
    rw [height_binary_le_iff, Nat.max_le]
    rfl
  · refine readsIf_of_derives (derives_enclosed_power ha hb) ?_
    rw [height_binary_le_iff, Nat.max_le]
    rfl

/-- A power and a sign, each of which is nested twice. -/
theorem parse_composed_power :
    let two : Expr := .number ⟨⟨2, 0⟩, false, by decide⟩
    let power : Expr := .binary .power two two
    let sign : Expr := .unary .minus two
    parse "2^2" = .ok power ∧ parse "-2" = .ok sign ∧ nesting "2^2" = 2 ∧ nesting "-2" = 2 ∧
      parse "(2^2)" = .ok power ∧ parse "sqrt(2^2)" = .ok (.unary .squareRoot power) ∧
      parse "(2^2)/(-2)" = .ok (.binary .divide power sign) ∧
      parse "(2^2)(-2)" = .ok (.binary .multiply power sign) ∧
      parse "(2^2)^(-2)" = .ok (.binary .power power sign) := by
  intro two power sign
  have hpower : parse "2^2" = .ok power := by decide +kernel
  have hsign : parse "-2" = .ok sign := by decide +kernel
  have hpower' : nesting "2^2" = 2 := by decide +kernel
  have hsign' : nesting "-2" = 2 := by decide +kernel
  obtain ⟨hgroup, hunary, hbinary, hjuxtaposed, hexponent⟩ := parse_composed hpower hsign
  rw [hpower', hsign'] at hbinary hjuxtaposed hexponent
  rw [hpower'] at hgroup hunary
  exact ⟨hpower, hsign, hpower', hsign', hgroup.1 (by decide), (hunary .squareRoot).1 (by decide),
    (hbinary .divide (by decide)).1 (by decide), hjuxtaposed.1 (by decide), hexponent.1 (by decide)⟩

end Expr

end Calculator
