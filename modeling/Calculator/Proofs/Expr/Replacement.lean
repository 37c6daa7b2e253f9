import Calculator.Calculation
import Calculator.Proofs.Expr.Reprinting
import Calculator.Proofs.Grammar.Grouping

/-!
# Values in place of groups

What stands in matching parentheses is an expression by itself, and its value can be written in its
place: the text has the same value, or the same failure, as before (`calculate_replaced`).  A
negative value opens one factor more than its digits, for the minus, and this may be one too many.
-/

namespace Calculator

open Grammar

namespace Expr

/-! ## Values at a place -/

theorem Context.evaluate_fill {e e' : Expr} (h : e'.evaluate = e.evaluate) (c : Context) :
    (c.fill e').evaluate = (c.fill e).evaluate := by
  induction c with
  | hole => exact h
  | unary op c ih => rw [fill, fill, evaluate, evaluate, ih]
  | left op c r ih => rw [fill, fill, evaluate, evaluate, ih]
  | right op l c ih => rw [fill, fill, evaluate, evaluate, ih]

/-- A value is read as a tree that is no higher than the tree it is the value of. -/
theorem height_unsigned_number_le {e : Expr} {v : Decimal} (hunsigned : e.unsigned = e)
    (h : e.evaluate = .ok v) : (number v).unsigned.height ≤ e.height := by
  cases e with
  | number a =>
    cases h
    rw [hunsigned]
  | unary op operand =>
    rw [unsigned]
    split <;> simp [height]
  | binary op left right =>
    rw [unsigned]
    split <;> simp [height]

theorem need_number_le {v : Decimal} (h : v.negative = false) : (number v).need ≤ 1 := by
  rw [need, h]
  decide

/-! ## Groups of a text -/

variable {u s w : List Char} {t : Expr}

/-- The tokens of a text that is read, with the tree of what is inside matching parentheses. -/
theorem framed_of_parseChars (h : parseChars (u ++ '(' :: (s ++ ')' :: w)) = .ok t)
    (hs : Text.Balanced s) : t.height ≤ maxHeight ∧ ∃ n ≤ maxNesting,
      Framed .sum (Token.scanAll u) (Token.scanAll s) (Token.scanAll w) t n := by
  obtain ⟨ts, n, hts, hd, hheight, hn⟩ := parseChars_eq_ok_iff_writes.mp h
  rw [← Token.splits_iff.mp hts, Token.scanAll_group] at hd
  exact ⟨hheight, n, hn, hd.framed (Token.balanced_scanAll hs) rfl⟩

/-- The text with the value of a group in the place of what is inside. -/
theorem parseChars_replaced {c : Context} {k l m : Nat} {e : Expr} {v : Decimal}
    (hframes : Frames .sum (Token.scanAll u) (Token.scanAll w) c k l)
    (he : Derives .sum (Token.scanAll s) e m) (hv : e.evaluate = .ok v)
    (hheight : (c.fill e).height ≤ maxHeight) (hnesting : max k (m + l) ≤ maxNesting) :
    parseChars (u ++ '(' :: (v.text ++ ')' :: w)) = .ok (c.fill (number v).unsigned) ∨
      v.negative ∧ ∃ err, parseChars (u ++ '(' :: (v.text ++ ')' :: w)) = .error err ∧
        err.cause = .nestingTooDeep := by
  have htokens : Token.scanAll v.text = (number v).tokens := (number v).scanAll_text
  have hd := hframes _ _ _ (derives_number v).sum
  rw [← htokens, grouped, ← Token.scanAll_group] at hd
  have hread := parseChars_of_derives hd
  have hlow : (c.fill (number v).unsigned).height ≤ maxHeight :=
    Nat.le_trans (c.height_fill_le (height_unsigned_number_le he.unsigned hv)) hheight
  split at hread
  next => exact .inl hread
  next hbeyond =>
    refine .inr ⟨?_, hread⟩
    by_contra hpositive
    have hneed := need_number_le (Bool.eq_false_iff.mpr hpositive)
    have hpos := he.nesting_pos
    exact hbeyond ⟨hlow, by omega⟩

end Expr

/-! ## Values of texts -/

theorem calculate_of_parse {text : String} {t : Expr} (h : Expr.parse text = .ok t) :
    calculate text = t.evaluate.mapError .undefined := by
  rw [calculate, h]
  rfl

theorem calculate_of_refused {text : String} {err : ParseError} (h : Expr.parse text = .error err) :
    calculate text = .error (.malformed err) := by
  rw [calculate, h]
  rfl

theorem evaluate_of_calculate {text : String} {t : Expr} {v : Decimal}
    (hread : Expr.parse text = .ok t) (h : calculate text = .ok v) : t.evaluate = .ok v := by
  rw [calculate_of_parse hread] at h
  cases heval : t.evaluate with
  | ok a =>
    rw [heval] at h
    cases h
    rfl
  | error err =>
    rw [heval] at h
    cases h

/-- What stands between matching parentheses of a text that is read is read by itself.  With its
value in its place the text has the same outcome; or else the value is negative, and the text is
refused for nesting. -/
theorem calculate_replaced {before inside after : String} {t : Expr}
    (hread : Expr.parse (before ++ "(" ++ inside ++ ")" ++ after) = .ok t)
    (hmatch : Text.Balanced inside.toList) : (∃ e, Expr.parse inside = .ok e) ∧
      ∀ v, calculate inside = .ok v →
        calculate (before ++ "(" ++ toString v ++ ")" ++ after) =
            calculate (before ++ "(" ++ inside ++ ")" ++ after) ∨
          v.negative ∧ ∃ err, calculate (before ++ "(" ++ toString v ++ ")" ++ after) =
            .error (.malformed err) ∧ err.cause = .nestingTooDeep := by
  have htext (s : String) : (before ++ "(" ++ s ++ ")" ++ after).toList =
      before.toList ++ '(' :: (s.toList ++ ')' :: after.toList) := by simp
  have hvalue (v : Decimal) : (toString v).toList = v.text := String.toList_ofList
  have hchars := hread
  rw [Expr.parse, htext] at hchars
  obtain ⟨hheight, n, hn, c, k, l, e, m, he, rfl, rfl, hframes⟩ :=
    Expr.framed_of_parseChars hchars hmatch
  have hinside : Expr.parse inside = .ok e := by
    have hparse := Expr.parseChars_of_derives he
    rwa [if_pos ⟨Nat.le_trans (c.height_le_height_fill e) hheight, by omega⟩] at hparse
  refine ⟨⟨e, hinside⟩, fun v hv => ?_⟩
  have hev := evaluate_of_calculate hinside hv
  have hreplaced := Expr.parseChars_replaced hframes he hev hheight hn
  rw [← hvalue, ← htext] at hreplaced
  rcases hreplaced with hok | ⟨hneg, err, herr, hcause⟩
  · have hsame : (Expr.number v).unsigned.evaluate = e.evaluate := by
      rw [Expr.evaluate_unsigned, hev]
      rfl
    left
    rw [calculate_of_parse hok, calculate_of_parse hread, c.evaluate_fill hsame]
  · exact .inr ⟨hneg, err, calculate_of_refused herr, hcause⟩

/-- The product `1.5 * 2.0` is `3.00`, and may be written so. -/
theorem calculate_replaced_product :
    calculate ("7-" ++ "(" ++ toString (⟨⟨300, 2⟩, false, by decide⟩ : Decimal) ++ ")" ++ "^2") =
      calculate ("7-" ++ "(" ++ "1.5*2.0" ++ ")" ++ "^2") := by
  let product : Expr := .binary .multiply (.number ⟨⟨15, 1⟩, false, by decide⟩)
    (.number ⟨⟨20, 1⟩, false, by decide⟩)
  have hread : Expr.parse ("7-" ++ "(" ++ "1.5*2.0" ++ ")" ++ "^2") =
      .ok (.binary .subtract (.number ⟨⟨7, 0⟩, false, by decide⟩)
        (.binary .power product (.number ⟨⟨2, 0⟩, false, by decide⟩))) := by decide +kernel
  have hinside : Expr.parse "1.5*2.0" = .ok product := by decide +kernel
  have hproduct : (⟨⟨15, 1⟩, false, by decide⟩ : Decimal).mul? ⟨⟨20, 1⟩, false, by decide⟩ =
      some ⟨⟨300, 2⟩, false, by decide⟩ := by decide +kernel
  have hvalue : calculate "1.5*2.0" = .ok ⟨⟨300, 2⟩, false, by decide⟩ := by
    rw [calculate_of_parse hinside]
    show (BinaryOp.multiply.apply _ _).mapError _ = _
    rw [BinaryOp.apply, hproduct]
    rfl
  rcases (calculate_replaced hread (by decide)).2 _ hvalue with h | ⟨hneg, _⟩
  · exact h
  · exact absurd hneg (by decide)

end Calculator
