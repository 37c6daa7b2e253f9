import Calculator.Expr.Basic

/-!
# Post-order

An expression as the list of its nodes, operands before their operator.  Building the tree on a stack
reads the list back (`ofPostOrder?_postOrder`).
-/

namespace Calculator

/-- What is done at a node once its operands are there. -/
inductive Instruction where
  | push (value : Decimal)
  | unary (op : UnaryOp)
  | binary (op : BinaryOp)
  deriving DecidableEq

namespace Expr

/-- The nodes with operands before their operator, left before right. -/
def postOrder : Expr → List Instruction
  | number value => [.push value]
  | unary op operand => operand.postOrder ++ [.unary op]
  | binary op left right => left.postOrder ++ (right.postOrder ++ [.binary op])

/-- Carries the instructions out on a stack of trees, if they find their operands. -/
def build? : List Instruction → List Expr → Option (List Expr)
  | [], stack => some stack
  | .push value :: rest, stack => build? rest (number value :: stack)
  | .unary op :: rest, operand :: stack => build? rest (unary op operand :: stack)
  | .binary op :: rest, right :: left :: stack => build? rest (binary op left right :: stack)
  | _, _ => none

/-- The expression whose nodes are listed. -/
def ofPostOrder? (instructions : List Instruction) : Option Expr :=
  match build? instructions [] with
  | some [e] => some e
  | _ => none

theorem build?_postOrder (e : Expr) (rest : List Instruction) (stack : List Expr) :
    build? (e.postOrder ++ rest) stack = build? rest (e :: stack) := by
  induction e generalizing rest stack with
  | number value => rfl
  | unary op operand ih => simp only [postOrder, List.append_assoc, ih]; rfl
  | binary op left right ihl ihr => simp only [postOrder, List.append_assoc, ihl, ihr]; rfl

theorem ofPostOrder?_postOrder (e : Expr) : ofPostOrder? e.postOrder = some e := by
  have h := build?_postOrder e [] []
  rw [List.append_nil] at h
  rw [ofPostOrder?, h]
  rfl

end Expr

end Calculator
