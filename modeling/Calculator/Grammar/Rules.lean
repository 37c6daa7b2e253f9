import Calculator.Decimal.Numeral
import Calculator.Expr.Basic
import Calculator.Token.Source

/-!
# The rules of the grammar

From the loosest to the tightest binding:

    sum     := product (("+" | "-") product)*
    product := power (("*" | "/" | nothing) power)*
    power   := factor ("^" power)?
    factor  := "sqrt" factor | ("+" | "-") power | "(" sum ")" | literal

A factor directly behind another one is multiplied with it.  A sign takes a whole power as its
operand, a square root a single factor.

Each rule reads from a source of tokens and never steps back: it answers the expression, or the
first place where the text cannot be continued.  Factors and exponents may be open inside each other
to a depth of `maxNesting`; the argument `room` of `factor` and `power` is how many of them may still
be opened.  Trees are at most `maxHeight` operators high, which also ends the chains of `chain`.
-/

namespace Calculator

namespace Grammar

open TokenSource (next? settle)

/-- How many factors and exponents may be open inside each other. -/
def maxNesting : Nat := 128

/-- How many operators may lie between the root of a tree and a leaf. -/
def maxHeight : Nat := 512

/-- Why a text is not an expression. -/
inductive Cause where
  | emptyInput
  | unexpectedCharacter (c : Char)
  | unexpectedEnd
  | expectedNumber
  | invalidNumber (literal : String)
  | unknownIdentifier (name : String)
  | missingClosingParenthesis
  | trailingInput
  | nestingTooDeep
  deriving DecidableEq, Repr

/-- What a rule has read, with the height of the tree, and the place behind it. -/
structure Parsed (σ : Type) where
  tree : Expr
  height : Nat
  rest : σ

/-- Why a rule cannot go on, and where. -/
structure Failure (σ : Type) where
  cause : Cause
  rest : σ

/-- A rule reads an expression from a source. -/
abbrev Rule (σ : Type) := σ → Except (Failure σ) (Parsed σ)

variable {σ : Type} [TokenSource σ]

/-- The expression under a unary operator. -/
def Parsed.wrap (op : UnaryOp) (operand : Parsed σ) : Except (Failure σ) (Parsed σ) :=
  if operand.height < maxHeight then
    .ok ⟨.unary op operand.tree, operand.height + 1, operand.rest⟩
  else .error ⟨.nestingTooDeep, operand.rest⟩

/-- Two expressions under a binary operator. -/
def Parsed.join (op : BinaryOp) (left right : Parsed σ) : Except (Failure σ) (Parsed σ) :=
  if max left.height right.height < maxHeight then
    .ok ⟨.binary op left.tree right.tree, max left.height right.height + 1, right.rest⟩
  else .error ⟨.nestingTooDeep, right.rest⟩

/-- Joins an expression with the operands that follow it, from the left, for as long as there are
operators. -/
def chain (operator? : σ → Option (BinaryOp × σ)) (operand : Rule σ) (left : Parsed σ) :
    Except (Failure σ) (Parsed σ) :=
  match operator? left.rest with
  | none => .ok { left with rest := settle left.rest }
  | some (op, s) =>
    match operand s with
    | .error failure => .error failure
    | .ok right =>
      if max left.height right.height < maxHeight then
        chain operator? operand
          ⟨.binary op left.tree right.tree, max left.height right.height + 1, right.rest⟩
      else .error ⟨.nestingTooDeep, right.rest⟩
termination_by maxHeight - left.height

/-- The operator between two products. -/
def sumOperator? (s : σ) : Option (BinaryOp × σ) :=
  match next? s with
  | some (.symbol '+', s) => some (.add, s)
  | some (.symbol '-', s) => some (.subtract, s)
  | _ => none

/-- The operator between two powers; nothing is read of a factor that follows without one. -/
def productOperator? (s : σ) : Option (BinaryOp × σ) :=
  match next? s with
  | some (.symbol '*', s) => some (.multiply, s)
  | some (.symbol '/', s) => some (.divide, s)
  | some (t, _) => if t.beginsFactor then some (.multiply, settle s) else none
  | none => none

/-- Powers joined by `*`, `/` or nothing. -/
def product (power : Rule σ) : Rule σ := fun s => do
  chain productOperator? power (← power s)

/-- Products joined by `+` or `-`. -/
def sum (power : Rule σ) : Rule σ := fun s => do
  chain sumOperator? (product power) (← product power s)

/-- A factor, and an exponent if one follows. -/
def powerStep (factor power : Rule σ) : Rule σ := fun s => do
  let base ← factor s
  match next? base.rest with
  | some (.symbol '^', s) => base.join .power (← power s)
  | _ => .ok { base with rest := settle base.rest }

/-- A sum in parentheses, from behind the opening one. -/
def group (power : Rule σ) : Rule σ := fun s => do
  let inner ← sum power s
  match next? inner.rest with
  | some (.symbol ')', s) => .ok { inner with rest := s }
  | _ => .error ⟨.missingClosingParenthesis, settle inner.rest⟩

/-- The leaf for the literal between `start` and `rest`, if it has a value. -/
def leaf (start rest : σ) (literal : Token) (value? : Option Decimal) :
    Except (Failure σ) (Parsed σ) :=
  match value? with
  | some value => .ok ⟨.number value, 0, rest⟩
  | none => .error ⟨.invalidNumber (String.ofList literal.text), settle start⟩

/-- A factor whose parts are read by `factor` and `power`. -/
def factorStep (factor power : Rule σ) : Rule σ := fun start =>
  match next? start with
  | some (.literal whole fraction, s) =>
    leaf start s (.literal whole fraction) (Decimal.ofDigits? whole (fraction.getD []))
  | some (.word letters, s) =>
    if letters = Token.squareRoot then do (← factor s).wrap .squareRoot
    else .error ⟨.unknownIdentifier (String.ofList letters), settle start⟩
  | some (.symbol '+', s) => do (← power s).wrap .plus
  | some (.symbol '-', s) => do (← power s).wrap .minus
  | some (.symbol '(', s) => group power s
  | some (.symbol '.', _) => .error ⟨.expectedNumber, settle start⟩
  | some (.symbol c, _) => .error ⟨.unexpectedCharacter c, settle start⟩
  | none => .error ⟨.unexpectedEnd, settle start⟩

mutual

/-- A factor, with room for `room` factors and exponents inside each other. -/
def factor : Nat → Rule σ
  | 0 => fun s => .error ⟨.nestingTooDeep, s⟩
  | room + 1 => factorStep (factor room) (power room)

/-- A power, with room for `room` factors and exponents inside each other. -/
def power : Nat → Rule σ
  | 0 => fun s => .error ⟨.nestingTooDeep, s⟩
  | room + 1 => powerStep (factorStep (factor room) (power room)) (power room)

end

/-- A whole text, with room for `room` factors and exponents inside each other. -/
def expression (room : Nat) (s : σ) : Except (Failure σ) Expr :=
  match next? s with
  | none => .error ⟨.emptyInput, settle s⟩
  | some _ => do
    let parsed ← sum (power room) s
    match next? parsed.rest with
    | none => .ok parsed.tree
    | some _ => .error ⟨.trailingInput, settle parsed.rest⟩

end Grammar

end Calculator
