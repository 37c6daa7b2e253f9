import Calculator.Expr.Basic
import Calculator.Operator.Evaluation

/-!
# Evaluation

The value of an expression: operands first, left before right, then the operator.  The first
operation without a value ends the evaluation.
-/

namespace Calculator.Expr

def evaluate : Expr → Except EvalError Decimal
  | number value => .ok value
  | unary op operand => do
    let a ← operand.evaluate
    op.apply a .unary
  | binary op left right => do
    let a ← left.evaluate
    let b ← right.evaluate
    op.apply a b

end Calculator.Expr
