import Calculator.Expr.Evaluation
import Calculator.Expr.Parse

/-!
# Calculation

The value of a text: the text is read as an expression and the expression evaluated.  Either step
can refuse, the first with a place in the text, the second with an operation and its operands.
-/

namespace Calculator

/-- Why a text has no value: it is no expression, or its expression has none. -/
inductive CalculationError where
  | malformed (error : ParseError)
  | undefined (error : EvalError)

def CalculationError.message : CalculationError → String
  | malformed error => error.message
  | undefined error => error.message

/-- The value of the expression that a text writes. -/
def calculate (text : String) : Except CalculationError Decimal := do
  let tree ← (Expr.parse text).mapError .malformed
  tree.evaluate.mapError .undefined

end Calculator
