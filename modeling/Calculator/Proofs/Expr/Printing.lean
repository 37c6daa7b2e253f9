import Calculator.Expr.Evaluation
import Calculator.Expr.Text
import Calculator.Proofs.Decimal.Digits
import Calculator.Proofs.Grammar.Language

/-!
# Printed expressions

The text of an expression is read back as the expression itself, except that a negative number is
read as the minus of its absolute value (`Expr.unsigned`), which has the same value.  Reading needs
`Expr.need` factors and exponents open inside each other; that it fails for nesting, and for nothing
else, where these are more than `maxNesting` or the tree is too high, is `Expr.parse_printed`.

The text is first cut into tokens (`Expr.tokens`, `Expr.spells_text`), and these are derived at the
level of the operator at the root (`Expr.derives_tokens`).
-/

namespace Calculator

open Grammar

namespace Token

/-! ## Texts made of lexemes -/

/-- Whether a literal ends before the text. -/
def Seam (rest : List Char) : Prop := ∀ c ∈ rest.head?, c.isDigit = false ∧ c ≠ '.'

/-- Where no literal goes on behind it, the text is cut into these tokens. -/
def Spells (u : List Char) (ts : List Token) : Prop :=
  ∀ rest, Seam rest → scanAll (u ++ rest) = ts ++ scanAll rest

variable {u v : List Char} {ts us : List Token}

theorem Spells.append {c : Char} (hu : Spells u ts) (hv : Spells (c :: v) us)
    (hc : c.isDigit = false ∧ c ≠ '.') : Spells (u ++ c :: v) (ts ++ us) := by
  intro rest hrest
  have hseam : Seam (c :: v ++ rest) := by
    intro d hd
    cases hd
    exact hc
  rw [List.append_assoc, hu _ hseam, hv rest hrest, List.append_assoc]

/-- No symbol but the point goes on. -/
theorem Spells.symbol_cons {c : Char} (hc : (symbol c).Lexeme) (hp : c ≠ '.') (hv : Spells v us) :
    Spells (c :: v) (symbol c :: us) := by
  intro rest hrest
  have hends : (symbol c).EndsBefore (v ++ rest) := by
    intro d _
    simp [continuedBy, hp]
  rw [List.cons_append, List.cons_append, ← hv rest hrest]
  exact scanAll_text hc hends

theorem Spells.blank_cons {c : Char} (hc : Text.isBlank c) (hv : Spells v us) :
    Spells (c :: v) us := by
  intro rest hrest
  rw [List.cons_append, scanAll_blank hc, hv rest hrest]

theorem spells_nil : Spells [] [] := fun _ _ => rfl

theorem spells_literal {whole : List Char} {fraction : Option (List Char)}
    (ht : (literal whole fraction).Lexeme) :
    Spells (literal whole fraction).text [literal whole fraction] := by
  intro rest hrest
  refine scanAll_text ht fun c hc => ?_
  obtain ⟨hd, hp⟩ := hrest c hc
  cases fraction <;> simp [continuedBy, hd, hp]

/-- A word goes up to the parenthesis behind it. -/
theorem Spells.squareRoot_append (hv : Spells ('(' :: v) us) :
    Spells (squareRoot ++ '(' :: v) (word squareRoot :: us) := by
  intro rest hrest
  have ht : (word squareRoot).Lexeme := by decide
  have hends : (word squareRoot).EndsBefore ('(' :: v ++ rest) := by
    intro c hc
    cases hc
    decide
  show _ = word squareRoot :: (us ++ scanAll rest)
  rw [List.append_assoc, ← hv rest hrest]
  exact scanAll_text ht hends

end Token

open Token (Spells)

/-! ## Levels -/

namespace BinaryOp

/-- The rule that reads the operator. -/
def level : BinaryOp → Level
  | add | subtract => .sum
  | multiply | divide => .product
  | power => .power

/-- The rule that reads the operand on the given side. -/
def operandLevel : BinaryOp → Side → Level
  | power, .left => .factor
  | power, .right => .power
  | multiply, .left | divide, .left => .product
  | multiply, .right | divide, .right => .power
  | add, .left | subtract, .left => .sum
  | add, .right | subtract, .right => .product

end BinaryOp

/-! ## Numbers -/

namespace Decimal

/-- The literal that is written without the sign. -/
def literal (a : Decimal) : Token :=
  .literal (Nat.toDigits 10 (a.coefficient / pow10 a.scale))
    (if a.scale = 0 then none else some (Magnitude.fixedDigits a.coefficient a.scale))

theorem literal_text (a : Decimal) : a.literal.text = a.toMagnitude.text := by
  unfold literal Magnitude.text
  split
  · rw [List.append_nil]
    rfl
  · rfl

theorem literal_lexeme (a : Decimal) : a.literal.Lexeme := by
  refine ⟨fun c => Nat.isDigit_of_mem_toDigits (by decide) (by decide), ?_,
    .inl Nat.toDigits_ne_nil⟩
  split
  · simp
  · exact fun c => Magnitude.isDigit_of_mem_fixedDigits

theorem derives_literal (a : Decimal) : Derives .factor [a.literal] (.number a.abs) 1 := by
  refine .literal ?_
  rw [← a.ofDigits?_digits]
  congr 1
  split
  next hs => rw [hs]; rfl
  next => rfl

end Decimal

namespace Expr

/-! ## The tree that is read back -/

/-- Negative numbers as the minus of their absolute values. -/
def unsigned : Expr → Expr
  | number value => if value.negative then unary .minus (number value.abs) else number value
  | unary op operand => unary op operand.unsigned
  | binary op left right => binary op left.unsigned right.unsigned

theorem evaluate_unsigned (e : Expr) : e.unsigned.evaluate = e.evaluate := by
  induction e with
  | number value =>
    unfold unsigned
    split
    next h =>
      show (UnaryOp.minus.apply value.abs .unary) = .ok value
      rw [UnaryOp.apply, Decimal.neg_abs_of_negative h]
    next => rfl
  | unary op operand ih => rw [unsigned, evaluate, evaluate, ih]
  | binary op left right ihl ihr => rw [unsigned, evaluate, evaluate, ihl, ihr]

/-! ## Parentheses -/

/-- Whether the operand of `op` stands in parentheses. -/
def isEnclosedUnder (op : UnaryOp) (operand : Expr) : Bool :=
  op == .squareRoot || operand.isEnclosedAfterSign

theorem text_unary (op : UnaryOp) (operand : Expr) : (unary op operand).text =
    op.symbol.toList ++ enclose (isEnclosedUnder op operand) operand.text := by
  cases op <;> rfl

/-- Parentheses open one more factor around what they enclose. -/
def enclosedNeed (parentheses : Bool) (n : Nat) : Nat := if parentheses then n + 1 else n

/-- How many factors and exponents are open inside each other while the text is read. -/
def need : Expr → Nat
  | number value => if value.negative then 2 else 1
  | unary .squareRoot operand => operand.need + 2
  | unary _ operand => enclosedNeed operand.isEnclosedAfterSign operand.need + 1
  | binary .power left right =>
    max (enclosedNeed (isEnclosed .power .left left) left.need)
      (enclosedNeed (isEnclosed .power .right right) right.need + 1)
  | binary op left right =>
    max (enclosedNeed (isEnclosed op .left left) left.need)
      (enclosedNeed (isEnclosed op .right right) right.need)

theorem need_unary (op : UnaryOp) (operand : Expr) : (unary op operand).need =
    enclosedNeed (isEnclosedUnder op operand) operand.need + 1 := by
  cases op <;> rfl

theorem need_binary {op : BinaryOp} (hop : op ≠ .power) (left right : Expr) :
    (binary op left right).need = max (enclosedNeed (isEnclosed op .left left) left.need)
      (enclosedNeed (isEnclosed op .right right) right.need) := by
  cases op with
  | power => exact absurd rfl hop
  | _ => rfl

/-- The tokens, in parentheses if asked for. -/
def encloseTokens (parentheses : Bool) (ts : List Token) : List Token :=
  if parentheses then .symbol '(' :: (ts ++ [.symbol ')']) else ts

/-- The tokens of the text. -/
def tokens : Expr → List Token
  | number value =>
    if value.negative then [UnaryOp.minus.token, value.literal] else [value.literal]
  | unary op operand => op.token :: encloseTokens (isEnclosedUnder op operand) operand.tokens
  | binary op left right =>
    encloseTokens (isEnclosed op .left left) left.tokens ++
      op.token :: encloseTokens (isEnclosed op .right right) right.tokens

/-! ## The text spells the tokens -/

theorem spells_enclose {u : List Char} {ts : List Token} (h : Spells u ts) (parentheses : Bool) :
    Spells (enclose parentheses u) (encloseTokens parentheses ts) := by
  cases parentheses with
  | false => exact h
  | true =>
    have hclose : Spells [')'] [.symbol ')'] := Token.spells_nil.symbol_cons (by decide) (by decide)
    exact (h.append hclose (by decide)).symbol_cons (by decide) (by decide)

theorem spells_number (value : Decimal) : Spells (number value).text (number value).tokens := by
  have hdigits : Spells value.toMagnitude.text [value.literal] := by
    rw [← value.literal_text]
    exact Token.spells_literal value.literal_lexeme
  show Spells value.text _
  rw [Decimal.text, tokens]
  split
  · exact hdigits.symbol_cons (by decide) (by decide)
  · exact hdigits

theorem spells_unary (op : UnaryOp) {operand : Expr} (h : Spells operand.text operand.tokens) :
    Spells (unary op operand).text (unary op operand).tokens := by
  have henclosed := spells_enclose h (isEnclosedUnder op operand)
  rw [text_unary, tokens, ← UnaryOp.token_text]
  cases op with
  | squareRoot => exact Token.Spells.squareRoot_append henclosed
  | _ => exact henclosed.symbol_cons (by decide) (by decide)

theorem spaced_power : BinaryOp.power.spaced = BinaryOp.power.token.text :=
  (BinaryOp.token_text .power).symm

theorem spaced_of_ne_power {op : BinaryOp} (hop : op ≠ .power) :
    op.spaced = ' ' :: op.token.text ++ [' '] := by
  rw [BinaryOp.token_text]
  cases op with
  | power => exact absurd rfl hop
  | _ => rfl

theorem spells_binary (op : BinaryOp) {u v : List Char} {ts us : List Token} (hu : Spells u ts)
    (hv : Spells v us) : Spells (u ++ op.spaced ++ v) (ts ++ op.token :: us) := by
  obtain ⟨c, htoken, hc, hp⟩ : ∃ c, op.token = .symbol c ∧ (Token.symbol c).Lexeme ∧ c ≠ '.' := by
    cases op <;> exact ⟨_, rfl, by decide, by decide⟩
  rw [List.append_assoc]
  by_cases hop : op = .power
  · subst hop
    rw [spaced_power, htoken]
    exact hu.append (hv.symbol_cons hc hp) ⟨hc.1, hp⟩
  · have hspace : Spells (' ' :: v) us := hv.blank_cons (by decide)
    rw [spaced_of_ne_power hop, htoken]
    exact hu.append ((hspace.symbol_cons hc hp).blank_cons (by decide)) (by decide)

theorem spells_text (e : Expr) : Spells e.text e.tokens := by
  induction e with
  | number value => exact spells_number value
  | unary op operand ih => exact spells_unary op ih
  | binary op left right ihl ihr =>
    exact spells_binary op (spells_enclose ihl _) (spells_enclose ihr _)

theorem scanAll_text (e : Expr) : Token.scanAll e.text = e.tokens := by
  have h := e.spells_text [] (by simp [Token.Seam])
  rwa [Token.scanAll_nil, List.append_nil, List.append_nil] at h

/-! ## The tokens are derived -/

/-- The rule that reads the text. -/
def level : Expr → Level
  | number _ => .factor
  | unary _ _ => .factor
  | binary op _ _ => op.level

theorem level_of_binaryOp?_none {e : Expr} (h : e.binaryOp? = none) : e.level = .factor := by
  cases e with
  | binary => cases h
  | _ => rfl

theorem level_of_binaryOp?_some {e : Expr} {op : BinaryOp} (h : e.binaryOp? = some op) :
    e.level = op.level := by
  cases e with
  | binary => rw [level, Option.some.inj h]
  | _ => cases h

/-- Parentheses stand around what the rule at the operand's place does not read, and around the sign
of a base. -/
theorem isEnclosed_iff {op : BinaryOp} {side : Side} {operand : Expr} :
    isEnclosed op side operand ↔ (op = .power ∧ side = .left ∧ operand.isSigned) ∨
      (op.operandLevel side).rank < operand.level.rank := by
  unfold isEnclosed
  generalize operand.isSigned = signed
  cases hchild : operand.binaryOp? with
  | none =>
    rw [level_of_binaryOp?_none hchild]
    revert signed
    cases op <;> cases side <;> decide
  | some child =>
    rw [level_of_binaryOp?_some hchild]
    revert signed
    cases op <;> cases side <;> cases child <;> decide

theorem isEnclosedAfterSign_iff {operand : Expr} :
    operand.isEnclosedAfterSign ↔ Level.power.rank < operand.level.rank := by
  unfold isEnclosedAfterSign
  cases hchild : operand.binaryOp? with
  | none =>
    rw [level_of_binaryOp?_none hchild]
    decide
  | some child =>
    rw [level_of_binaryOp?_some hchild]
    cases child <;> decide

/-- In parentheses, tokens are derived at every place. -/
theorem derives_encloseTokens {level place : Level} {t : Expr} {ts : List Token} {n : Nat}
    {parentheses : Bool} (h : Derives level ts t n)
    (hp : place.rank < level.rank → parentheses) :
    Derives place (encloseTokens parentheses ts) t (enclosedNeed parentheses n) := by
  cases parentheses with
  | true => exact (Derives.group h.sum).raise (Nat.zero_le _)
  | false =>
    refine h.raise (Nat.le_of_not_lt fun hlt => ?_)
    exact absurd (hp hlt) (by decide)

theorem derives_operand {operand : Expr} (op : BinaryOp) (side : Side)
    (h : Derives operand.level operand.tokens operand.unsigned operand.need) :
    Derives (op.operandLevel side) (encloseTokens (isEnclosed op side operand) operand.tokens)
      operand.unsigned (enclosedNeed (isEnclosed op side operand) operand.need) :=
  derives_encloseTokens h fun hlt => isEnclosed_iff.mpr (.inr hlt)

theorem signLed_tokens (e : Expr) (h : e.level = .factor) : signLed e.tokens = e.isSigned := by
  cases e with
  | number value =>
    rw [tokens, isSigned]
    split
    next hneg => rw [hneg, signLed_sign (by decide)]
    next hneg => rw [Bool.eq_false_iff.mpr hneg, Decimal.literal, signLed_literal]
  | unary op operand =>
    rw [tokens, isSigned]
    by_cases hop : op = .squareRoot
    · subst hop
      rw [signLed_root]
      exact signLed_group _
    · rw [signLed_sign hop]
      simp [hop]
  | binary op left right => cases op <;> cases h

/-- A base is no sign: it would stand in parentheses. -/
theorem signLed_base (e : Expr) :
    signLed (encloseTokens (isEnclosed .power .left e) e.tokens) = false := by
  cases henclosed : isEnclosed .power .left e with
  | true => exact signLed_group _
  | false =>
    have hnot : ¬ isEnclosed .power .left e := by simp [henclosed]
    rw [isEnclosed_iff, not_or] at hnot
    obtain ⟨hsign, hlevel⟩ := hnot
    show signLed e.tokens = false
    rw [signLed_tokens e (Level.eq_factor_of_rank (Nat.le_of_not_lt hlevel)), Bool.eq_false_iff]
    exact fun hsigned => hsign ⟨rfl, rfl, hsigned⟩

theorem derives_number (value : Decimal) :
    Derives .factor (number value).tokens (number value).unsigned (number value).need := by
  rw [tokens, unsigned, need]
  split
  next => exact .sign (by decide) value.derives_literal.base
  next h =>
    have hd := value.derives_literal
    rwa [Decimal.abs_of_not_negative (Bool.eq_false_iff.mpr h)] at hd

theorem derives_unary (op : UnaryOp) {operand : Expr}
    (ih : Derives operand.level operand.tokens operand.unsigned operand.need) :
    Derives .factor (unary op operand).tokens (unary op operand).unsigned
      (unary op operand).need := by
  rw [tokens, unsigned, need_unary]
  by_cases hop : op = .squareRoot
  · subst hop
    exact .root (derives_encloseTokens ih fun _ => rfl)
  · refine .sign hop (derives_encloseTokens ih fun hlt => ?_)
    rw [isEnclosedUnder, isEnclosedAfterSign_iff.mpr hlt, Bool.or_true]

theorem derives_binary (op : BinaryOp) {left right : Expr}
    (ihl : Derives left.level left.tokens left.unsigned left.need)
    (ihr : Derives right.level right.tokens right.unsigned right.need) :
    Derives op.level (binary op left right).tokens (binary op left right).unsigned
      (binary op left right).need := by
  have hl := derives_operand op .left ihl
  have hr := derives_operand op .right ihr
  cases op with
  | power => exact .power hl (signLed_base left) hr
  | multiply | divide => exact .multiplicative (by decide) hl hr
  | add | subtract => exact .additive (by decide) hl hr

theorem derives_tokens (e : Expr) : Derives e.level e.tokens e.unsigned e.need := by
  induction e with
  | number value => exact derives_number value
  | unary op operand ih => exact derives_unary op ih
  | binary op left right ihl ihr => exact derives_binary op ihl ihr

/-! ## Reading what is printed -/

theorem toString_toList (e : Expr) : (toString e).toList = e.text :=
  String.toList_ofList

theorem parse_toString (e : Expr) :
    if e.unsigned.height ≤ maxHeight ∧ e.need ≤ maxNesting then parse (toString e) = .ok e.unsigned
    else ∃ err, parse (toString e) = .error err ∧ err.cause = .nestingTooDeep := by
  have hd : Derives .sum (Token.scanAll e.text) e.unsigned e.need := by
    rw [scanAll_text]
    exact e.derives_tokens.sum
  rw [parse, toString_toList]
  exact parseChars_of_derives hd

/-- Within the bounds the text of an expression is read as the expression, with negative numbers as
the minus of their absolute values; beyond the bounds it is refused for nesting.  The expression
that is read has the same value, or the same failure. -/
theorem parse_printed (e : Expr) :
    (if e.unsigned.height ≤ maxHeight ∧ e.need ≤ maxNesting then
        parse (toString e) = .ok e.unsigned
      else ∃ err, parse (toString e) = .error err ∧ err.cause = .nestingTooDeep) ∧
      e.unsigned.evaluate = e.evaluate :=
  ⟨e.parse_toString, e.evaluate_unsigned⟩

end Expr

end Calculator
