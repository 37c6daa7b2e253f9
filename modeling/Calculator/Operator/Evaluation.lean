import Calculator.Binary64.OfDecimal
import Calculator.Binary64.ToDecimal
import Calculator.Decimal.Power
import Calculator.Decimal.Sum
import Calculator.Operator.Error

/-!
# Applying operators

Sums, products, quotients and integral powers are computed in decimals.  Square roots and all other
powers go through binary64 and come back with 15 significant digits.  An operation without a decimal
result fails with the binary64 result of the same operation.
-/

namespace Calculator

/-- A binary64 result of `operator` as a decimal. -/
def ofBinary64 (operator : Operator) (x : Float) : Except EvalError Decimal :=
  match Binary64.toDecimal? x with
  | some value => .ok value
  | none => .error (.notRepresentable operator x)

namespace UnaryOp

/-- The value for an operand of an expression with the given root. -/
def apply (op : UnaryOp) (a : Decimal) (node : Shape) : Except EvalError Decimal :=
  match op with
  | plus => .ok a
  | minus => .ok (-a)
  | squareRoot =>
    if a.signed < 0 then .error (.unsupportedOperation squareRoot node a)
    else ofBinary64 (.unary squareRoot) (Binary64.ofDecimal a).sqrt

end UnaryOp

namespace BinaryOp

/-- The operation in binary64. -/
def approximate (op : BinaryOp) (a b : Decimal) : Float :=
  let x := Binary64.ofDecimal a
  let y := Binary64.ofDecimal b
  match op with
  | add => x + y
  | subtract => x - y
  | multiply => x * y
  | divide => x / y
  | power => x.pow y

/-- The exponents up to which integral powers are computed in decimals: `-bound ≤ e < bound`. -/
def exponentBound : Int := pow2 63

/-- The exponent of a power that is computed in decimals. -/
def integralExponent? (b : Decimal) : Option Int :=
  b.integer?.filter fun e => -exponentBound ≤ e && e < exponentBound

/-- A decimal result of `op`, or the failure of an operation that has none. -/
def ofResult? (op : BinaryOp) (a b : Decimal) : Option Decimal → Except EvalError Decimal
  | some value => .ok value
  | none => .error (.notRepresentable (.binary op) (op.approximate a b))

def apply (op : BinaryOp) (a b : Decimal) : Except EvalError Decimal :=
  match op with
  | add => add.ofResult? a b (a.add? b)
  | subtract => subtract.ofResult? a b (a.sub? b)
  | multiply => multiply.ofResult? a b (a.mul? b)
  | divide =>
    if b.isZero then .error (.divideByZero divide a b) else divide.ofResult? a b (a.div? b)
  | power =>
    match integralExponent? b with
    | some e => power.ofResult? a b (a.powInt? e)
    | none => ofBinary64 (.binary power) (power.approximate a b)

end BinaryOp

end Calculator
