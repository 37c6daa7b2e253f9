import Calculator.Binary64.Shortest
import Calculator.Operator.Basic

/-!
# Undefined operations

The reasons for which an operator has no value, each with the operands or the result that show it.
-/

namespace Calculator

inductive EvalError where
  /-- The divisor is zero. -/
  | divideByZero (operator : BinaryOp) (left right : Decimal)
  /-- The operand lies outside the operator's domain. -/
  | unsupportedOperation (operator : UnaryOp) (node : Shape) (operand : Decimal)
  /-- The result, here in binary64, is no decimal. -/
  | notRepresentable (operator : Operator) (value : Float)

namespace EvalError

def message : EvalError → String
  | divideByZero operator left right =>
    "Division by zero is not allowed for operation " ++ operator.symbol ++ " with operands "
      ++ toString left ++ " and " ++ toString right
  | unsupportedOperation operator node operand =>
    "Operation " ++ operator.symbol ++ " is not supported for " ++ node.name ++ " with operand "
      ++ toString operand
  | notRepresentable operator value =>
    "Result of operation " ++ operator.symbol ++ " cannot be represented as a decimal (got "
      ++ String.ofList (Binary64.text value) ++ ")"

/-- Equality with decimals and binary64 numbers compared as numbers. -/
def Equiv : EvalError → EvalError → Prop
  | divideByZero op a b, divideByZero op' a' b' => op = op' ∧ a.Equiv a' ∧ b.Equiv b'
  | unsupportedOperation op node a, unsupportedOperation op' node' a' =>
    op = op' ∧ node = node' ∧ a.Equiv a'
  | notRepresentable op x, notRepresentable op' y => op = op' ∧ x == y
  | _, _ => False

instance (e f : EvalError) : Decidable (e.Equiv f) := by
  unfold Equiv
  split <;> infer_instance

end EvalError

end Calculator
