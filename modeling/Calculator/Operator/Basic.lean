/-!
# Operators

The unary and binary operators, with their symbols and the way binary operators group.
-/

namespace Calculator

inductive UnaryOp where
  | plus
  | minus
  | squareRoot
  deriving DecidableEq, Repr

inductive BinaryOp where
  | add
  | subtract
  | multiply
  | divide
  | power
  deriving DecidableEq, Repr

/-- The side on which a chain of one operator groups without parentheses. -/
inductive Side where
  | left
  | right
  deriving DecidableEq, Repr

namespace UnaryOp

def symbol : UnaryOp → String
  | plus => "+"
  | minus => "-"
  | squareRoot => "sqrt"

end UnaryOp

namespace BinaryOp

def symbol : BinaryOp → String
  | add => "+"
  | subtract => "-"
  | multiply => "*"
  | divide => "/"
  | power => "^"

/-- Operators of higher precedence bind their operands first. -/
def precedence : BinaryOp → Nat
  | add | subtract => 0
  | multiply | divide => 1
  | power => 2

/-- `a - b - c` is `(a - b) - c`, and `a^b^c` is `a^(b^c)`. -/
def grouping : BinaryOp → Side
  | power => .right
  | _ => .left

end BinaryOp

/-- Any operator. -/
inductive Operator where
  | unary (op : UnaryOp)
  | binary (op : BinaryOp)
  deriving DecidableEq, Repr

def Operator.symbol : Operator → String
  | unary op => op.symbol
  | binary op => op.symbol

/-- What stands at the root of an expression. -/
inductive Shape where
  | number
  | unary
  | binary
  deriving DecidableEq, Repr

def Shape.name : Shape → String
  | number => "number"
  | unary => "unary operation"
  | binary => "binary operation"

end Calculator
