import Calculator.Grammar.Rules

/-!
# Derivations

The grammar by itself, without a reader: `Derives level ts e n` says that the rule `level` derives
the tokens `ts` with the tree `e`, and that at most `n` factors and exponents are open inside each
other on the way.

The rules leave open where the operand of a sign ends: `-2^2` could be the power of a sign.  It is
settled by `signLed`: a factor that is a sign, or square roots that end in one, is no base.
-/

namespace Calculator

/-- The token that an operator is written with. -/
def UnaryOp.token : UnaryOp → Token
  | plus => .symbol '+'
  | minus => .symbol '-'
  | squareRoot => .word Token.squareRoot

def BinaryOp.token : BinaryOp → Token
  | add => .symbol '+'
  | subtract => .symbol '-'
  | multiply => .symbol '*'
  | divide => .symbol '/'
  | power => .symbol '^'

theorem UnaryOp.token_text (op : UnaryOp) : op.token.text = op.symbol.toList := by
  cases op <;> decide

theorem BinaryOp.token_text (op : BinaryOp) : op.token.text = op.symbol.toList := by
  cases op <;> decide

namespace Grammar

/-- The rules of the grammar. -/
inductive Level where
  | factor
  | power
  | product
  | sum
  deriving DecidableEq, Repr

/-- Whether a factor that begins so is a sign, or square roots that end in a sign. -/
def signLed : List Token → Bool
  | [] => false
  | t :: ts =>
    t == UnaryOp.plus.token || t == UnaryOp.minus.token || t == UnaryOp.squareRoot.token && signLed ts

/-- Whether a factor that begins so may follow another one without an operator: after a parenthesis,
a literal that begins with a digit, or a square root. -/
def juxtaposes : List Token → Bool
  | .literal whole _ :: _ => !whole.isEmpty
  | t :: _ => t == .symbol '(' || t == UnaryOp.squareRoot.token
  | [] => false

/-- The tokens that each rule derives, with the tree they write and the number of factors and
exponents that are open inside each other.  A literal needs a value. -/
inductive Derives : Level → List Token → Expr → Nat → Prop
  | literal {whole : List Char} {fraction : Option (List Char)} {value : Decimal} :
    Decimal.ofDigits? whole (fraction.getD []) = some value →
    Derives .factor [.literal whole fraction] (.number value) 1
  | root {ts : List Token} {e : Expr} {n : Nat} : Derives .factor ts e n →
    Derives .factor (UnaryOp.squareRoot.token :: ts) (.unary .squareRoot e) (n + 1)
  | sign {op : UnaryOp} {ts : List Token} {e : Expr} {n : Nat} : op ≠ .squareRoot →
    Derives .power ts e n → Derives .factor (op.token :: ts) (.unary op e) (n + 1)
  | group {ts : List Token} {e : Expr} {n : Nat} : Derives .sum ts e n →
    Derives .factor (.symbol '(' :: (ts ++ [.symbol ')'])) e (n + 1)
  | base {ts : List Token} {e : Expr} {n : Nat} : Derives .factor ts e n → Derives .power ts e n
  | power {ts us : List Token} {b e : Expr} {m n : Nat} : Derives .factor ts b m →
    signLed ts = false → Derives .power us e n →
    Derives .power (ts ++ BinaryOp.power.token :: us) (.binary .power b e) (max m (n + 1))
  | ofPower {ts : List Token} {e : Expr} {n : Nat} : Derives .power ts e n →
    Derives .product ts e n
  | multiplicative {op : BinaryOp} {ts us : List Token} {l r : Expr} {m n : Nat} :
    op = .multiply ∨ op = .divide → Derives .product ts l m → Derives .power us r n →
    Derives .product (ts ++ op.token :: us) (.binary op l r) (max m n)
  | juxtaposed {ts us : List Token} {l r : Expr} {m n : Nat} : Derives .product ts l m →
    Derives .power us r n → juxtaposes us → Derives .product (ts ++ us) (.binary .multiply l r) (max m n)
  | ofProduct {ts : List Token} {e : Expr} {n : Nat} : Derives .product ts e n → Derives .sum ts e n
  | additive {op : BinaryOp} {ts us : List Token} {l r : Expr} {m n : Nat} :
    op = .add ∨ op = .subtract → Derives .sum ts l m → Derives .product us r n →
    Derives .sum (ts ++ op.token :: us) (.binary op l r) (max m n)

variable {level : Level} {ts : List Token} {e : Expr} {n : Nat}

/-- A derivation opens a factor at least. -/
theorem Derives.nesting_pos (h : Derives level ts e n) : 0 < n := by
  induction h <;> omega

theorem Derives.ne_nil (h : Derives level ts e n) : ts ≠ [] := by
  induction h <;> simp_all

/-- Looser rules are of higher rank. -/
def Level.rank : Level → Nat
  | factor => 0
  | power => 1
  | product => 2
  | sum => 3

theorem Level.eq_factor_of_rank {l : Level} (h : l.rank ≤ factor.rank) : l = factor := by
  cases l with
  | factor => rfl
  | _ => exact absurd h (by decide)

theorem Derives.sum (h : Derives level ts e n) : Derives .sum ts e n := by
  cases level with
  | factor => exact h.base.ofPower.ofProduct
  | power => exact h.ofPower.ofProduct
  | product => exact h.ofProduct
  | sum => exact h

/-- What a rule derives is derived by the rules of higher rank. -/
theorem Derives.raise {l : Level} (h : Derives level ts e n) (hl : level.rank ≤ l.rank) :
    Derives l ts e n := by
  cases l with
  | sum => exact h.sum
  | factor =>
    rw [Level.eq_factor_of_rank hl] at h
    exact h
  | power =>
    cases level with
    | factor => exact h.base
    | power => exact h
    | _ => exact absurd hl (by decide)
  | product =>
    cases level with
    | factor => exact h.base.ofPower
    | power => exact h.ofPower
    | product => exact h
    | sum => exact absurd hl (by decide)

@[simp] theorem signLed_root (ts : List Token) :
    signLed (UnaryOp.squareRoot.token :: ts) = signLed ts := by
  simp [signLed, UnaryOp.token]

theorem signLed_sign {op : UnaryOp} (hop : op ≠ .squareRoot) (ts : List Token) :
    signLed (op.token :: ts) := by
  cases op <;> simp_all [signLed, UnaryOp.token]

@[simp] theorem signLed_group (ts : List Token) : signLed (.symbol '(' :: ts) = false := by
  simp [signLed, UnaryOp.token]

@[simp] theorem signLed_literal (whole : List Char) (fraction : Option (List Char))
    (ts : List Token) : signLed (.literal whole fraction :: ts) = false := by
  simp [signLed, UnaryOp.token]

end Grammar

end Calculator
