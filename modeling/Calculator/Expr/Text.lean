import Calculator.Decimal.Numeral
import Calculator.Expr.Basic

/-!
# The text of an expression

An expression is written with the parentheses that reading it back needs and no others, save those
around the operand of a square root, which are always written.
-/

namespace Calculator

/-- Between spaces, except that a power is written close. -/
def BinaryOp.spaced : BinaryOp → List Char
  | power => power.symbol.toList
  | op => ' ' :: op.symbol.toList ++ [' ']

namespace Expr

/-- Whether the text begins with the expression's own sign. -/
def isSigned : Expr → Bool
  | number value => value.negative
  | unary op _ => op != .squareRoot
  | binary _ _ _ => false

/-- Whether an operand on the given side of `op` stands in parentheses: a signed base of a power, and
what binds less or groups on the other side. -/
def isEnclosed (op : BinaryOp) (side : Side) (operand : Expr) : Bool :=
  op == .power && side == .left && operand.isSigned ||
    match operand.binaryOp? with
    | some child =>
      child.precedence < op.precedence || child.precedence == op.precedence && side != op.grouping
    | none => false

/-- Whether the operand of a sign stands in parentheses: all but powers among binary expressions. -/
def isEnclosedAfterSign (operand : Expr) : Bool :=
  match operand.binaryOp? with
  | some child => child.precedence < BinaryOp.power.precedence
  | none => false

/-- The text, in parentheses if asked for. -/
def enclose (parentheses : Bool) (text : List Char) : List Char :=
  if parentheses then '(' :: text ++ [')'] else text

def text : Expr → List Char
  | number value => value.text
  | unary .squareRoot operand => UnaryOp.squareRoot.symbol.toList ++ enclose true operand.text
  | unary op operand => op.symbol.toList ++ enclose operand.isEnclosedAfterSign operand.text
  | binary op left right =>
    enclose (isEnclosed op .left left) left.text ++ op.spaced ++
      enclose (isEnclosed op .right right) right.text

instance : ToString Expr := ⟨fun e => String.ofList e.text⟩

end Expr

end Calculator
