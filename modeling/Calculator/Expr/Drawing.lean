import Calculator.Decimal.Numeral
import Calculator.Expr.Basic

/-!
# Drawing expressions

A drawing has a line for each node: the indent, which ends in the branch that leads to the node, and
the operator's symbol or the number.  Below a node the branch is continued, by a pipe while another
operand follows and by blanks after the last.
-/

namespace Calculator.Expr

/-- The branch to an operand, the last one or one before it. -/
def branch (isLast : Bool) : List Char := if isLast then ['└', '─', ' '] else ['├', '─', ' ']

/-- What stands below a branch. -/
def continuation (isLast : Bool) : List Char := if isLast then [' ', ' ', ' '] else ['│', ' ', ' ']

/-- The indent below a node: its own branch, if the indent ends in it, is continued. -/
def continued (indent : List Char) (isLast : Bool) : List Char :=
  if (branch isLast).isSuffixOf indent then
    indent.take (indent.length - (branch isLast).length) ++ continuation isLast
  else indent

/-- The lines of an expression that is or is not the last operand of its node. -/
def drawing (indent : List Char) (isLast : Bool) : Expr → List Char
  | number value => indent ++ value.text ++ ['\n']
  | unary op operand =>
    let below := continued indent isLast
    indent ++ op.symbol.toList ++ '\n' :: operand.drawing (below ++ branch true) true
  | binary op left right =>
    let below := continued indent isLast
    indent ++ op.symbol.toList ++ '\n' :: (left.drawing (below ++ branch false) false ++
      right.drawing (below ++ branch true) true)

end Calculator.Expr
