import Calculator.Expr.PostOrder
import Calculator.Expr.Text
import Calculator.Main
import Calculator.Proofs.Token.LongestMatch
import Calculator.Proofs.Token.Places
import Calculator.Proofs.Decimal.Digits
import Calculator.Proofs.Grammar.Derivation
import Calculator.Proofs.Grammar.Simulation
import Calculator.Proofs.Grammar.Reading
import Calculator.Proofs.Grammar.Soundness
import Calculator.Proofs.Grammar.Language
import Calculator.Proofs.Grammar.Breaking
import Calculator.Proofs.Grammar.Refusal
import Calculator.Proofs.Expr.Printing
import Calculator.Proofs.Expr.Reprinting
import Calculator.Proofs.Expr.ErrorPosition
import Calculator.Proofs.Session.Answers
import Calculator.Proofs.Grammar.Grouping
import Calculator.Proofs.Session.Transcript
import Calculator.Proofs.Expr.Replacement
import Calculator.Proofs.Decimal.Nearest
import Calculator.Proofs.Decimal.Product
import Calculator.Proofs.Decimal.Quotient
import Calculator.Proofs.Decimal.Operations
import Calculator.Proofs.Decimal.Power
import Calculator.Proofs.Operator.Arithmetic
import Calculator.Proofs.Decimal.Whole
import Calculator.Proofs.Decimal.ExactPower
import Calculator.Proofs.Operator.Power
import Calculator.Proofs.Expr.Rescaling
import Calculator.Proofs.Expr.Juxtaposition
import Calculator.Proofs.Expr.Parentheses
import Calculator.Proofs.Decimal.Numeral
import Calculator.Proofs.Expr.Literals
import Calculator.Proofs.Decimal.Reciprocal
import Calculator.Proofs.Decimal.NegativePower
import Calculator.Proofs.Operator.Reciprocal
import Calculator.Proofs.Expr.PostOrder
import Calculator.Proofs.Expr.Drawing
import Calculator.Proofs.Cursor.Routines
import Calculator.Proofs.Cursor.Steps
import Calculator.Proofs.Cursor.Tokens
import Calculator.Proofs.Cursor.Following
import Calculator.Proofs.Cursor.Limit
import Calculator.Proofs.Cursor.Reading
import Calculator.Proofs.Cursor.Calls
import Calculator.Proofs.Expr.Composition
