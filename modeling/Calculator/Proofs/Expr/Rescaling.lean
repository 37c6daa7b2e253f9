import Calculator.Expr.Evaluation
import Calculator.Proofs.Operator.Power

/-!
# Expressions with leaves written otherwise

Two expressions whose leaves are equal as numbers have the same outcome for as long as evaluation
stays in decimals: numbers that are equal, or failures for the same reason at the same operator
(`Expr.evaluate_congr`).  So trailing zeros of a leaf never change the value of such an expression,
although they choose between the ways a product and a quotient are computed.
-/

namespace Calculator

open Magnitude (wideExponent)

/-- The same reason at the same operator. -/
def EvalError.Matches : EvalError → EvalError → Prop
  | divideByZero op _ _, divideByZero op' _ _ => op = op'
  | unsupportedOperation op _ _, unsupportedOperation op' _ _ => op = op'
  | notRepresentable op _, notRepresentable op' _ => op = op'
  | _, _ => False

/-! ## Operators -/

/-- Results that are equal as numbers, or failures that match. -/
inductive Agrees : Except EvalError Decimal → Except EvalError Decimal → Prop
  | ok {x y : Decimal} : x.Equiv y → Agrees (.ok x) (.ok y)
  | error {err err' : EvalError} : err.Matches err' → Agrees (.error err) (.error err')

variable {a a' b b' : Decimal}

theorem UnaryOp.apply_agrees {op : UnaryOp} (hop : op ≠ .squareRoot) (h : a.Equiv a')
    (node : Shape) : Agrees (op.apply a node) (op.apply a' node) := by
  cases op with
  | plus => exact .ok h
  | minus =>
    have hneg : (-a).Equiv (-a') := by rw [Decimal.Equiv, Decimal.value_neg, Decimal.value_neg, h]
    exact .ok hneg
  | squareRoot => exact absurd rfl hop

namespace BinaryOp

theorem ofResult?_agrees (op : BinaryOp) {r r' : Option Decimal}
    (h : r.map Decimal.value = r'.map Decimal.value) :
    Agrees (op.ofResult? a b r) (op.ofResult? a' b' r') := by
  cases r with
  | none =>
    cases r' with
    | none => exact .error rfl
    | some y => cases h
  | some x =>
    cases r' with
    | none => cases h
    | some y => exact .ok (Option.some.inj h)

theorem apply_power (a : Decimal) {n : Int} (hb : b.value = n) (hn : n.natAbs < wideExponent) :
    power.apply a b = power.ofResult? a b (a.powInt? n) := by
  have hbound : exponentBound = 9223372036854775808 := rfl
  unfold wideExponent at hn
  exact apply_power_intCast a hb (by omega) (by omega)

/-- An operator answers the same to operands that are equal as numbers; a power, if its exponent is
an integer that is not too large. -/
theorem apply_agrees (op : BinaryOp) (ha : a.Equiv a') (hb : b.Equiv b')
    (hexponent : op = .power → ∃ n : Int, b.value = n ∧ n.natAbs < wideExponent) :
    Agrees (op.apply a b) (op.apply a' b') := by
  cases op with
  | add =>
    refine ofResult?_agrees .add ?_
    rw [Decimal.map_value_add?, Decimal.map_value_add?, ha, hb]
  | subtract =>
    refine ofResult?_agrees .subtract ?_
    rw [Decimal.map_value_sub?, Decimal.map_value_sub?, ha, hb]
  | multiply =>
    refine ofResult?_agrees .multiply ?_
    rw [Decimal.map_value_mul?, Decimal.map_value_mul?, ha, hb]
  | divide =>
    rw [apply, apply, Decimal.isZero_congr hb]
    split
    next => exact .error rfl
    next hzero =>
      rw [Decimal.isZero_iff] at hzero
      refine ofResult?_agrees .divide ?_
      rw [Decimal.map_value_div? a (hb ▸ hzero), Decimal.map_value_div? a' hzero, ha, hb]
  | power =>
    obtain ⟨n, hn, hsmall⟩ := hexponent rfl
    rw [apply_power a hn hsmall, apply_power a' (hb ▸ hn) hsmall]
    exact ofResult?_agrees .power (Decimal.map_value_powInt? ha hsmall)

end BinaryOp

namespace Expr

/-! ## Where an evaluation fails -/

/-- The way from an operator to one of its operands. -/
inductive Turn where
  | operand
  | left
  | right
  deriving DecidableEq, Repr

/-- The node at which an evaluation fails, with the failure: the first operator without a value. -/
inductive FailsAt : Expr → List Turn → EvalError → Prop
  | unary {op : UnaryOp} {e : Expr} {a : Decimal} {err : EvalError} : e.evaluate = .ok a →
    op.apply a .unary = .error err → FailsAt (.unary op e) [] err
  | operand {op : UnaryOp} {e : Expr} {path : List Turn} {err : EvalError} : FailsAt e path err →
    FailsAt (.unary op e) (.operand :: path) err
  | binary {op : BinaryOp} {l r : Expr} {a b : Decimal} {err : EvalError} : l.evaluate = .ok a →
    r.evaluate = .ok b → op.apply a b = .error err → FailsAt (.binary op l r) [] err
  | left {op : BinaryOp} {l r : Expr} {path : List Turn} {err : EvalError} : FailsAt l path err →
    FailsAt (.binary op l r) (.left :: path) err
  | right {op : BinaryOp} {l r : Expr} {a : Decimal} {path : List Turn} {err : EvalError} :
    l.evaluate = .ok a → FailsAt r path err → FailsAt (.binary op l r) (.right :: path) err

variable {e e' l l' r r' : Expr}

theorem evaluate_unary {a : Decimal} (h : e.evaluate = .ok a) (op : UnaryOp) :
    (unary op e).evaluate = op.apply a .unary := by
  rw [evaluate, h]
  rfl

theorem evaluate_binary {a b : Decimal} (hl : l.evaluate = .ok a) (hr : r.evaluate = .ok b)
    (op : BinaryOp) : (binary op l r).evaluate = op.apply a b := by
  rw [evaluate, hl, hr]
  rfl

theorem FailsAt.evaluate {path : List Turn} {err : EvalError} (h : e.FailsAt path err) :
    e.evaluate = .error err := by
  induction h with
  | unary he happly => rw [evaluate_unary he, happly]
  | operand _ ih => rw [Expr.evaluate, ih]; rfl
  | binary hl hr happly => rw [evaluate_binary hl hr, happly]
  | left _ ih => rw [Expr.evaluate, ih]; rfl
  | right hl _ ih => rw [Expr.evaluate, hl, ih]; rfl

theorem exists_failsAt {err : EvalError} (h : e.evaluate = .error err) :
    ∃ path, e.FailsAt path err := by
  induction e with
  | number a => cases h
  | unary op e ih =>
    cases he : e.evaluate with
    | ok a =>
      rw [evaluate_unary he] at h
      exact ⟨[], .unary he h⟩
    | error err' =>
      rw [Expr.evaluate, he] at h
      cases h
      obtain ⟨path, hpath⟩ := ih he
      exact ⟨_, .operand hpath⟩
  | binary op l r ihl ihr =>
    cases hl : l.evaluate with
    | error err' =>
      rw [Expr.evaluate, hl] at h
      cases h
      obtain ⟨path, hpath⟩ := ihl hl
      exact ⟨_, .left hpath⟩
    | ok a =>
      cases hr : r.evaluate with
      | error err' =>
        rw [Expr.evaluate, hl, hr] at h
        cases h
        obtain ⟨path, hpath⟩ := ihr hr
        exact ⟨_, .right hl hpath⟩
      | ok b =>
        rw [evaluate_binary hl hr] at h
        exact ⟨[], .binary hl hr h⟩

theorem FailsAt.not_ok {path : List Turn} {err : EvalError} {a : Decimal} (h : e.FailsAt path err) :
    e.evaluate ≠ .ok a := by
  rw [h.evaluate]
  exact fun heq => nomatch heq

theorem FailsAt.path_unique {path path' : List Turn} {err err' : EvalError}
    (h : e.FailsAt path err) (h' : e.FailsAt path' err') : path = path' := by
  induction h generalizing path' with
  | unary he =>
    cases h' with
    | unary => rfl
    | operand hf => exact absurd he hf.not_ok
  | operand hf ih =>
    cases h' with
    | unary he => exact absurd he hf.not_ok
    | operand hf' => rw [ih hf']
  | binary hl hr =>
    cases h' with
    | binary => rfl
    | left hf => exact absurd hl hf.not_ok
    | right _ hf => exact absurd hr hf.not_ok
  | left hf ih =>
    cases h' with
    | binary hl => exact absurd hl hf.not_ok
    | left hf' => rw [ih hf']
    | right hl => exact absurd hl hf.not_ok
  | right hl hf ih =>
    cases h' with
    | binary _ hr => exact absurd hr hf.not_ok
    | left hf' => exact absurd hl hf'.not_ok
    | right _ hf' => rw [ih hf']

/-- An evaluation fails at exactly one node, if it fails. -/
theorem evaluate_eq_error_iff {err : EvalError} :
    e.evaluate = .error err ↔ ∃! path, e.FailsAt path err := by
  constructor
  · intro h
    obtain ⟨path, hpath⟩ := exists_failsAt h
    exact ⟨path, hpath, fun path' hpath' => hpath'.path_unique hpath⟩
  · rintro ⟨path, hpath, _⟩
    exact hpath.evaluate

/-! ## Outcomes -/

/-- Values that are equal as numbers, or failures that match at the same node. -/
inductive SameOutcome (e e' : Expr) : Prop
  | value {a b : Decimal} : e.evaluate = .ok a → e'.evaluate = .ok b → a.Equiv b → SameOutcome e e'
  | failure {path : List Turn} {err err' : EvalError} : e.FailsAt path err → e'.FailsAt path err' →
    err.Matches err' → SameOutcome e e'

/-- The operator at the root has the last word. -/
theorem SameOutcome.of_agrees {path : List Turn} {o o' : Except EvalError Decimal} (h : Agrees o o')
    (he : e.evaluate = o) (he' : e'.evaluate = o')
    (hfails : ∀ err, o = .error err → e.FailsAt path err)
    (hfails' : ∀ err, o' = .error err → e'.FailsAt path err) : SameOutcome e e' := by
  cases h with
  | ok hvalue => exact .value he he' hvalue
  | error hmatches => exact .failure (hfails _ rfl) (hfails' _ rfl) hmatches

theorem SameOutcome.unary {op : UnaryOp} (hop : op ≠ .squareRoot) (h : SameOutcome e e') :
    SameOutcome (.unary op e) (.unary op e') := by
  cases h with
  | value ha ha' haa =>
    exact .of_agrees (UnaryOp.apply_agrees hop haa .unary) (evaluate_unary ha op)
      (evaluate_unary ha' op) (fun _ => .unary ha) fun _ => .unary ha'
  | failure hf hf' hmatches => exact .failure hf.operand hf'.operand hmatches

theorem SameOutcome.binary {op : BinaryOp} (hl : SameOutcome l l') (hr : SameOutcome r r')
    (hexponent : op = .power → ∀ b, r.evaluate = .ok b →
      ∃ n : Int, b.value = n ∧ n.natAbs < wideExponent) :
    SameOutcome (.binary op l r) (.binary op l' r') := by
  cases hl with
  | failure hf hf' hmatches => exact .failure hf.left hf'.left hmatches
  | value ha ha' haa =>
    cases hr with
    | failure hf hf' hmatches => exact .failure (.right ha hf) (.right ha' hf') hmatches
    | value hb hb' hbb =>
      exact .of_agrees (op.apply_agrees haa hbb fun hop => hexponent hop _ hb)
        (evaluate_binary ha hb op) (evaluate_binary ha' hb' op) (fun _ => .binary ha hb)
        fun _ => .binary ha' hb'

/-- No square roots, and powers only with integral exponents below `wideExponent`, as far as these
have a value: nothing goes through binary64, and no power is multiplied out wide. -/
def StaysDecimal : Expr → Prop
  | number _ => True
  | unary op e => op ≠ .squareRoot ∧ e.StaysDecimal
  | binary op l r => (op = .power → ∀ b, r.evaluate = .ok b →
      ∃ n : Int, b.value = n ∧ n.natAbs < wideExponent) ∧ l.StaysDecimal ∧ r.StaysDecimal

theorem sameOutcome (h : e.Equiv e') (hstays : e.StaysDecimal) : SameOutcome e e' := by
  induction e generalizing e' with
  | number a =>
    cases e' with
    | number b => exact .value rfl rfl h
    | _ => cases h
  | unary op e ih =>
    cases e' with
    | unary op' e' =>
      obtain ⟨rfl, h⟩ := h
      exact (ih h hstays.2).unary hstays.1
    | _ => cases h
  | binary op l r ihl ihr =>
    cases e' with
    | binary op' l' r' =>
      obtain ⟨rfl, hl, hr⟩ := h
      obtain ⟨hexponent, hstaysl, hstaysr⟩ := hstays
      exact (ihl hl hstaysl).binary (ihr hr hstaysr) hexponent
    | _ => cases h

/-- Of two trees that are equal up to the digits of their leaves, and of which one stays in
decimals, either both have values, which are equal as numbers; or both fail, at the same node and for
the same reason. -/
theorem evaluate_congr (h : e.Equiv e') (hstays : e.StaysDecimal) :
    (∃ a b, e.evaluate = .ok a ∧ e'.evaluate = .ok b ∧ a.Equiv b) ∨
      ∃ path err err', e.evaluate = .error err ∧ e'.evaluate = .error err' ∧
        e.FailsAt path err ∧ e'.FailsAt path err' ∧ err.Matches err' := by
  cases sameOutcome h hstays with
  | value ha hb hab => exact .inl ⟨_, _, ha, hb, hab⟩
  | failure hf hf' hmatches =>
    exact .inr ⟨_, _, _, hf.evaluate, hf'.evaluate, hf, hf', hmatches⟩

/-- The squares `1.50 ^ 2.0` and `1.5 ^ 2`. -/
theorem evaluate_congr_square : ∃ a b,
    (binary .power (number ⟨⟨150, 2⟩, false, by decide⟩)
      (number ⟨⟨20, 1⟩, false, by decide⟩)).evaluate = .ok a ∧
    (binary .power (number ⟨⟨15, 1⟩, false, by decide⟩)
      (number ⟨⟨2, 0⟩, false, by decide⟩)).evaluate = .ok b ∧ a.Equiv b := by
  have hequiv : (binary .power (number ⟨⟨150, 2⟩, false, by decide⟩)
      (number ⟨⟨20, 1⟩, false, by decide⟩)).Equiv (binary .power
        (number ⟨⟨15, 1⟩, false, by decide⟩) (number ⟨⟨2, 0⟩, false, by decide⟩)) := by
    decide +kernel
  have hexponent : Decimal.value ⟨⟨20, 1⟩, false, by decide⟩ = (2 : Int) := by decide +kernel
  have hstays : (binary .power (number ⟨⟨150, 2⟩, false, by decide⟩)
      (number ⟨⟨20, 1⟩, false, by decide⟩)).StaysDecimal := by
    refine ⟨fun _ b hb => ?_, trivial, trivial⟩
    cases hb
    exact ⟨2, hexponent, by decide⟩
  rcases evaluate_congr hequiv hstays with hvalue | ⟨_, _, _, herr, _⟩
  · exact hvalue
  · have hsquare : Decimal.powInt? ⟨⟨150, 2⟩, false, by decide⟩ 2 =
        some ⟨⟨22500, 4⟩, false, by decide⟩ := by decide +kernel
    rw [evaluate_binary rfl rfl, BinaryOp.apply_power _ hexponent (by decide), hsquare] at herr
    cases herr

end Expr

end Calculator
