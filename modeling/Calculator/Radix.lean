/-!
# Powers of ten and two

The powers of the two radices that numbers are written in.
-/

namespace Calculator

/-- `10 ^ n`. -/
def pow10 (n : Nat) : Nat := Nat.pow 10 n

/-- `2 ^ n`. -/
def pow2 (n : Nat) : Nat := Nat.pow 2 n

@[simp] theorem pow10_zero : pow10 0 = 1 := rfl

theorem pow10_succ (n : Nat) : pow10 (n + 1) = pow10 n * 10 := rfl

theorem pow10_add (m n : Nat) : pow10 (m + n) = pow10 m * pow10 n := Nat.pow_add 10 m n

theorem pow10_pos (n : Nat) : 0 < pow10 n := Nat.pow_pos (by decide)

theorem pow2_pos (n : Nat) : 0 < pow2 n := Nat.pow_pos (by decide)

end Calculator
