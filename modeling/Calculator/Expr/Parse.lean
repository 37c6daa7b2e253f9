import Calculator.Grammar.Rules

/-!
# Reading expressions

A text is read by the rules of the grammar; a text that is not an expression is refused with the
cause and the place, counted in bytes of UTF-8.
-/

namespace Calculator

open Grammar (Cause)

/-- The number of bytes a text takes. -/
def Text.byteLength : List Char → Nat
  | [] => 0
  | c :: s => c.utf8Size + byteLength s

/-- Why a text is not an expression, where it ceases to be one, and the text from there on. -/
structure ParseError where
  cause : Cause
  position : Nat
  remaining : String
  deriving DecidableEq, Repr

def Grammar.Cause.message : Cause → String
  | emptyInput => "Expression is empty"
  | unexpectedCharacter c => "Unexpected character '" ++ c.toString ++ "'"
  | unexpectedEnd => "Expected an operand but the input ended"
  | expectedNumber => "Expected number"
  | invalidNumber literal => "Invalid number '" ++ literal ++ "'"
  | unknownIdentifier name => "Unknown identifier '" ++ name ++ "'"
  | missingClosingParenthesis => "Missing closing parenthesis"
  | trailingInput => "Unexpected input"
  | nestingTooDeep => "Expression is nested too deeply"

namespace ParseError

/-- The failure at the place where `rest` is left of `text`. -/
def ofFailure (text : List Char) (failure : Grammar.Failure (List Char)) : ParseError where
  cause := failure.cause
  position := Text.byteLength text - Text.byteLength failure.rest
  remaining := String.ofList failure.rest

/-- The cause and the place; input left over is quoted. -/
def message (e : ParseError) : String :=
  e.cause.message ++ " at position " ++ toString e.position ++
    if e.cause = .trailingInput then ": '" ++ e.remaining ++ "'" else ""

end ParseError

namespace Expr

/-- The expression that a list of characters writes. -/
def parseChars (text : List Char) : Except ParseError Expr :=
  (Grammar.expression Grammar.maxNesting text).mapError (ParseError.ofFailure text)

/-- The expression that a text writes. -/
def parse (text : String) : Except ParseError Expr := parseChars text.toList

end Expr

end Calculator
