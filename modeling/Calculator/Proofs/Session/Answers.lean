import Calculator.Proofs.Expr.ErrorPosition
import Calculator.Session

/-!
# Answers of one line

A text without a line break is answered by the drawing of its tree, if there is one and it is asked
for, and then by exactly one line (`answeredInOneLine`).  The line may quote any part of the text:
what is quoted has no line break because the text has none (`unbroken_parseError_message`).
-/

namespace Calculator

open Grammar

/-- No line break is in the text. -/
def Unbroken (s : String) : Prop := '\n' ∉ s.toList

instance (s : String) : Decidable (Unbroken s) := inferInstanceAs (Decidable (¬ _))

theorem unbroken_append {s t : String} : Unbroken (s ++ t) ↔ Unbroken s ∧ Unbroken t := by
  rw [Unbroken, String.toList_append, List.mem_append, not_or]
  rfl

theorem unbroken_ofList {s : List Char} : Unbroken (String.ofList s) ↔ '\n' ∉ s := by
  rw [Unbroken, String.toList_ofList]

/-! ## Numbers -/

theorem newline_not_mem_toDigits (n : Nat) : '\n' ∉ Nat.toDigits 10 n := by
  intro h
  exact absurd (Nat.isDigit_of_mem_toDigits (by decide) (by decide) h) (by decide)

theorem Magnitude.newline_not_mem_text (m : Magnitude) : '\n' ∉ m.text := by
  have hdigits : '\n' ∉ '.' :: fixedDigits m.coefficient m.scale := by
    rw [List.mem_cons, not_or]
    exact ⟨by decide, fun h => absurd (isDigit_of_mem_fixedDigits h) (by decide)⟩
  rw [text, List.mem_append, not_or]
  refine ⟨newline_not_mem_toDigits _, ?_⟩
  split
  · exact List.not_mem_nil
  · exact hdigits

theorem unbroken_nat (n : Nat) : Unbroken (toString n) :=
  unbroken_ofList.mpr (newline_not_mem_toDigits n)

/-- A sign is no line break. -/
theorem newline_not_mem_signed {s : List Char} (negative : Bool) (h : '\n' ∉ s) :
    '\n' ∉ if negative then '-' :: s else s := by
  split
  · rw [List.mem_cons, not_or]
    exact ⟨by decide, h⟩
  · exact h

theorem Decimal.unbroken_toString (a : Decimal) : Unbroken (toString a) :=
  unbroken_ofList.mpr (newline_not_mem_signed a.negative a.toMagnitude.newline_not_mem_text)

theorem Binary64.unbroken_text (x : Float) : Unbroken (String.ofList (text x)) := by
  rw [unbroken_ofList, text]
  split
  · decide
  · refine newline_not_mem_signed (negative x) ?_
    split
    · decide
    · exact (shortest x).newline_not_mem_text

/-! ## Failures -/

theorem UnaryOp.unbroken_symbol (op : UnaryOp) : Unbroken op.symbol := by
  cases op <;> decide

theorem BinaryOp.unbroken_symbol (op : BinaryOp) : Unbroken op.symbol := by
  cases op <;> decide

theorem Operator.unbroken_symbol (op : Operator) : Unbroken op.symbol := by
  cases op with
  | unary op => exact op.unbroken_symbol
  | binary op => exact op.unbroken_symbol

theorem Shape.unbroken_name (shape : Shape) : Unbroken shape.name := by
  cases shape <;> decide

theorem EvalError.unbroken_message (e : EvalError) : Unbroken e.message := by
  unfold message
  cases e with
  | divideByZero operator left right =>
    simp only [unbroken_append]
    exact ⟨⟨⟨⟨⟨by decide, operator.unbroken_symbol⟩, by decide⟩, left.unbroken_toString⟩,
      by decide⟩, right.unbroken_toString⟩
  | unsupportedOperation operator node operand =>
    simp only [unbroken_append]
    exact ⟨⟨⟨⟨⟨by decide, operator.unbroken_symbol⟩, by decide⟩, node.unbroken_name⟩,
      by decide⟩, operand.unbroken_toString⟩
  | notRepresentable operator value =>
    simp only [unbroken_append]
    exact ⟨⟨⟨⟨by decide, operator.unbroken_symbol⟩, by decide⟩, Binary64.unbroken_text value⟩,
      by decide⟩

theorem Token.mem_of_mem_scanAll {s : List Char} {t : Token} (h : t ∈ scanAll s) :
    ∀ c ∈ t.text, c ∈ s := by
  fun_induction scanAll s with
  | case1 => cases h
  | case2 s a rest hscan _ ih =>
    obtain ⟨b, _, rfl, _, _⟩ := exists_of_scan hscan
    intro c hc
    rw [List.mem_append, List.mem_append]
    rcases List.mem_cons.mp h with rfl | h
    · exact .inr (.inl hc)
    · exact .inr (.inr (ih h c hc))

namespace Grammar

variable {level : Level} {ts rest : List Token} {cause : Cause} {n : Nat}

theorem Breaks.cause_cases (h : Breaks level ts rest cause n) :
    cause = .missingClosingParenthesis ∨ Obstacle rest cause := by
  induction h with
  | obstacle h => exact .inr h
  | unclosed => exact .inl rfl
  | root _ ih | sign _ _ ih | group _ ih | base _ ih | exponent _ _ _ _ ih | ofPower _ ih
  | multiplicative _ _ _ _ ih | juxtaposed _ _ _ _ _ ih | ofProduct _ ih
  | additive _ _ _ _ ih => exact ih

/-- Causes quote what stands at their place. -/
theorem Obstacle.unbroken_message (h : Obstacle rest cause)
    (hrest : ∀ t ∈ rest, '\n' ∉ t.text) : Unbroken cause.message := by
  unfold Cause.message
  cases h with
  | ending | point => decide
  | number =>
    simp only [unbroken_append, unbroken_ofList]
    exact ⟨⟨by decide, hrest _ List.mem_cons_self⟩, by decide⟩
  | identifier =>
    simp only [unbroken_append, unbroken_ofList]
    exact ⟨⟨by decide, hrest _ List.mem_cons_self⟩, by decide⟩
  | character =>
    simp only [unbroken_append]
    refine ⟨⟨by decide, ?_⟩, by decide⟩
    rw [Unbroken, Char.toString, String.toList_singleton]
    exact hrest _ List.mem_cons_self

theorem Refused.unbroken_message {room : Nat} (h : Refused room ts rest cause)
    (hrest : ∀ t ∈ rest, '\n' ∉ t.text) : Unbroken cause.message := by
  cases h with
  | empty | trailing => decide
  | broken _ hb _ =>
    rcases hb.cause_cases with rfl | hobstacle
    · decide
    · exact hobstacle.unbroken_message hrest

end Grammar

theorem ParseError.unbroken_message {e : ParseError} (hcause : Unbroken e.cause.message)
    (hremaining : Unbroken e.remaining) : Unbroken e.message := by
  rw [message, unbroken_append, unbroken_append, unbroken_append]
  refine ⟨⟨⟨hcause, by decide⟩, unbroken_nat _⟩, ?_⟩
  split
  · rw [unbroken_append, unbroken_append]
    exact ⟨⟨by decide, hremaining⟩, by decide⟩
  · decide

theorem unbroken_parseError_message {s : String} {e : ParseError} (hs : Unbroken s)
    (h : Expr.parse s = .error e) : Unbroken e.message := by
  obtain ⟨⟨cause, r⟩, hfails, rfl⟩ := Expr.exists_failure_of_parse h
  obtain ⟨us, hreaches⟩ := exists_reaches_of_failure hfails
  obtain ⟨u, hu, _⟩ := hreaches.replace
  have hr : '\n' ∉ r := fun hmem => hs (by rw [hu]; exact List.mem_append_right u hmem)
  refine ParseError.unbroken_message ?_ (unbroken_ofList.mpr hr)
  by_cases hcause : cause = .nestingTooDeep
  · subst hcause
    show Unbroken Cause.nestingTooDeep.message
    decide
  · obtain ⟨ts, _, _, hrefused⟩ := exists_reaches_of_error hfails hcause
    exact hrefused.unbroken_message fun t ht hmem => hr (Token.mem_of_mem_scanAll ht _ hmem)

theorem unbroken_message {s : String} {e : CalculationError} (hs : Unbroken s)
    (h : calculate s = .error e) : Unbroken e.message := by
  cases e with
  | undefined error => exact error.unbroken_message
  | malformed error =>
    refine unbroken_parseError_message (s := s) hs ?_
    cases hparse : Expr.parse s with
    | error error' =>
      rw [calculate, hparse] at h
      cases h
      rfl
    | ok tree =>
      rw [calculate, hparse] at h
      cases hvalue : tree.evaluate with
      | ok | error =>
        simp only [Except.mapError, bind, Except.bind, hvalue] at h
        cases h

/-! ## The answer -/

theorem result_of_ok {s : String} {v : Decimal} (h : calculate s = .ok v) :
    result s = ⟨true, "Result: " ++ toString v ++ "\n"⟩ := by
  rw [result, h]

theorem result_of_error {s : String} {e : CalculationError} (h : calculate s = .error e) :
    result s = ⟨false, "Error: " ++ e.message ++ "\n"⟩ := by
  rw [result, h]

/-- The answer is one line, which gives the value or says why there is none.  The drawing of the tree
stands before it just if it is asked for and the text is read. -/
def AnsweredInOneLine (text : String) : Prop :=
  ∃ line succeeded, Unbroken line ∧
    ((∃ value, calculate text = .ok value ∧ line = "Result: " ++ toString value ∧ succeeded = true) ∨
      ∃ e, calculate text = .error e ∧ line = "Error: " ++ e.message ∧ succeeded = false) ∧
    respond false text = ⟨succeeded, line ++ "\n"⟩ ∧
    (∀ tree, Expr.parse text = .ok tree → tree.drawing [] false ≠ [] ∧
      respond true text = ⟨succeeded, String.ofList (tree.drawing [] false) ++ (line ++ "\n")⟩) ∧
    ∀ e, Expr.parse text = .error e → respond true text = ⟨succeeded, line ++ "\n"⟩

theorem Expr.drawing_ne_nil (e : Expr) (indent : List Char) (isLast : Bool) :
    e.drawing indent isLast ≠ [] := by
  cases e <;> simp [drawing]

theorem exists_result {text : String} (h : Unbroken text) :
    ∃ line succeeded, result text = ⟨succeeded, line ++ "\n"⟩ ∧ Unbroken line ∧
      ((∃ value, calculate text = .ok value ∧ line = "Result: " ++ toString value ∧
          succeeded = true) ∨
        ∃ e, calculate text = .error e ∧ line = "Error: " ++ e.message ∧ succeeded = false) := by
  cases hvalue : calculate text with
  | ok value =>
    refine ⟨_, _, result_of_ok hvalue, ?_, .inl ⟨value, rfl, rfl, rfl⟩⟩
    exact unbroken_append.mpr ⟨by decide, value.unbroken_toString⟩
  | error e =>
    refine ⟨_, _, result_of_error hvalue, ?_, .inr ⟨e, rfl, rfl, rfl⟩⟩
    exact unbroken_append.mpr ⟨by decide, unbroken_message h hvalue⟩

theorem answeredInOneLine {text : String} (h : Unbroken text) : AnsweredInOneLine text := by
  obtain ⟨line, succeeded, hresult, hline, hvalue⟩ := exists_result h
  refine ⟨line, succeeded, hline, hvalue, ?_, fun tree htree => ⟨tree.drawing_ne_nil _ _, ?_⟩,
    fun e he => ?_⟩
  · simp [respond, hresult]
  · simp [respond, hresult, drawn, htree]
  · simp [respond, hresult, drawn, he]

end Calculator
