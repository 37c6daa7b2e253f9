import Calculator.Decimal.Basic
import Calculator.Operator.Basic

/-!
# Expressions

The tree of an arithmetic expression: numbers at its leaves and an operator at every other node.
-/

namespace Calculator

inductive Expr where
  | number (value : Decimal)
  | unary (op : UnaryOp) (operand : Expr)
  | binary (op : BinaryOp) (left right : Expr)
  deriving DecidableEq

namespace Expr

/-- What stands at the root. -/
def shape : Expr → Shape
  | number _ => .number
  | unary _ _ => .unary
  | binary _ _ _ => .binary

/-- The operator at the root of a binary expression. -/
def binaryOp? : Expr → Option BinaryOp
  | binary op _ _ => some op
  | _ => none

/-- The number of operators on the longest path to a leaf. -/
def height : Expr → Nat
  | number _ => 0
  | unary _ operand => operand.height + 1
  | binary _ left right => max left.height right.height + 1

/-- The same tree with leaves that are equal as numbers. -/
def Equiv : Expr → Expr → Prop
  | number a, number b => a.Equiv b
  | unary op e, unary op' e' => op = op' ∧ e.Equiv e'
  | binary op l r, binary op' l' r' => op = op' ∧ l.Equiv l' ∧ r.Equiv r'
  | _, _ => False

/-- Whether two trees are the same up to the digits of their leaves. -/
def decideEquiv : (e f : Expr) → Decidable (e.Equiv f)
  | number a, number b => inferInstanceAs (Decidable (a.Equiv b))
  | unary op e, unary op' e' =>
    have := decideEquiv e e'
    inferInstanceAs (Decidable (op = op' ∧ e.Equiv e'))
  | binary op l r, binary op' l' r' =>
    have := decideEquiv l l'
    have := decideEquiv r r'
    inferInstanceAs (Decidable (op = op' ∧ l.Equiv l' ∧ r.Equiv r'))
  | number _, unary _ _ | number _, binary _ _ _ | unary _ _, number _ | unary _ _, binary _ _ _
  | binary _ _ _, number _ | binary _ _ _, unary _ _ => isFalse id

instance (e f : Expr) : Decidable (e.Equiv f) := decideEquiv e f

end Expr

end Calculator
