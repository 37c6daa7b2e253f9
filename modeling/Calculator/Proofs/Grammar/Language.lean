import Calculator.Expr.Parse
import Calculator.Proofs.Grammar.Simulation
import Calculator.Proofs.Grammar.Soundness
import Calculator.Proofs.Token.LongestMatch

/-!
# The language of expressions

A text is read from its characters, and its grammar speaks of tokens.  Scanning all tokens takes the
one source to the other (`simulates_scanAll`), so that `Writes text e`, the grammar with the bounds
on height and nesting, is exactly what is read (`parse_language`).  Blanks between tokens mean
nothing, neither to texts that are read nor to texts that are refused (`parse_spacing`).
-/

namespace Calculator

namespace Grammar

open TokenSource (next? settle)

theorem simulates_scanAll :
    Simulates fun (s : List Char) (ts : List Token) => Token.scanAll s = ts where
  settle := by
    rintro s _ rfl
    exact Token.scanAll_settle s
  next?_none := by
    rintro s _ rfl h
    rw [TokenSource.next?_scanAll, h]
    rfl
  next?_some := by
    rintro s s' _ a rfl h
    exact ⟨Token.scanAll s', by rw [TokenSource.next?_scanAll, h]; rfl, rfl⟩

/-- A text is read as the list of its tokens is. -/
theorem agree_scanAll (room : Nat) (s : List Char) :
    Agree (fun (s : List Char) (ts : List Token) => Token.scanAll s = ts) Eq
      (expression room s) (expression room (Token.scanAll s)) :=
  agree_expression simulates_scanAll room rfl

end Grammar

open Grammar

/-- The text writes the tree: the grammar derives the tree from the text's tokens by longest match,
no path of the tree has more than `maxHeight` operators, and no more than `maxNesting` factors and
exponents are open inside each other. -/
def Writes (text : List Char) (e : Expr) : Prop :=
  ∃ ts n, Token.Splits text ts ∧ Derives .sum ts e n ∧ e.height ≤ maxHeight ∧ n ≤ maxNesting

namespace Expr

theorem parseChars_eq_ok_iff {s : List Char} {e : Expr} :
    parseChars s = .ok e ↔ expression maxNesting (Token.scanAll s) = .ok e := by
  rw [← (agree_scanAll maxNesting s).eq_ok_iff, parseChars]
  cases expression maxNesting s <;> simp [Except.mapError]

theorem parseChars_refused_iff {s : List Char} {cause : Cause} :
    (∃ err, parseChars s = .error err ∧ err.cause = cause) ↔
      ∃ place, expression maxNesting (Token.scanAll s) = .error ⟨cause, place⟩ := by
  rw [← (agree_scanAll maxNesting s).refused_iff, parseChars]
  cases expression maxNesting s with
  | ok => simp [Except.mapError]
  | error f =>
    obtain ⟨cause', rest⟩ := f
    simp [Except.mapError, ParseError.ofFailure]

theorem parseChars_eq_ok_iff_writes {s : List Char} {e : Expr} :
    parseChars s = .ok e ↔ Writes s e := by
  rw [parseChars_eq_ok_iff]
  constructor
  · intro h
    obtain ⟨n, hd, hheight, hn⟩ := exists_derives_of_expression h
    exact ⟨_, n, Token.splits_scanAll s, hd, hheight, hn⟩
  · rintro ⟨ts, n, hts, hd, hheight, hn⟩
    rw [Token.splits_iff.mp hts]
    exact (hd.expression maxNesting).1 ⟨hheight, hn⟩

/-- A text is read as the tree that it writes, and it writes no second one. -/
theorem parse_language (text : String) :
    (∀ e, parse text = .ok e ↔ Writes text.toList e) ∧
      ∀ e e', Writes text.toList e → Writes text.toList e' → e = e' := by
  refine ⟨fun e => parseChars_eq_ok_iff_writes, fun e e' h h' => ?_⟩
  have hread := parseChars_eq_ok_iff_writes.mpr h
  rw [parseChars_eq_ok_iff_writes.mpr h'] at hread
  exact (Except.ok.inj hread).symm

/-- A text that the grammar derives is read, or refused for nesting if it is beyond the bounds. -/
theorem parseChars_of_derives {s : List Char} {e : Expr} {n : Nat}
    (h : Derives .sum (Token.scanAll s) e n) :
    if e.height ≤ maxHeight ∧ n ≤ maxNesting then parseChars s = .ok e
    else ∃ err, parseChars s = .error err ∧ err.cause = .nestingTooDeep := by
  obtain ⟨hok, hdeep⟩ := h.expression maxNesting
  split
  next hw => exact parseChars_eq_ok_iff.mpr (hok hw)
  next hw => exact parseChars_refused_iff.mpr (hdeep hw)

/-! ## Spacing -/

theorem mapError_parseChars (s : List Char) : (parseChars s).mapError ParseError.cause =
    (expression maxNesting (Token.scanAll s)).mapError Failure.cause := by
  rw [← (agree_scanAll maxNesting s).mapError_cause, parseChars]
  cases expression maxNesting s <;> rfl

/-- Two texts that are cut into the same tokens are read as the same tree, or refused for the same
cause. -/
theorem parse_spacing {s s' : String} {ts : List Token} (h : Token.Splits s.toList ts)
    (h' : Token.Splits s'.toList ts) :
    (parse s).mapError ParseError.cause = (parse s').mapError ParseError.cause := by
  rw [parse, parse, mapError_parseChars, mapError_parseChars, Token.splits_iff.mp h,
    Token.splits_iff.mp h']

/-- A product written close, and with blanks of several kinds. -/
theorem parse_spacing_product : ∃ ts, Token.Splits "2(.5)".toList ts ∧
    Token.Splits "\u3000 2\n(\t.5 )".toList ts ∧ (parse "2(.5)").mapError ParseError.cause =
      (parse "\u3000 2\n(\t.5 )").mapError ParseError.cause := by
  have h : Token.scanAll "\u3000 2\n(\t.5 )".toList = Token.scanAll "2(.5)".toList := by
    decide +kernel
  have hclose := Token.splits_scanAll "2(.5)".toList
  have hwide := Token.splits_iff.mpr h
  exact ⟨_, hclose, hwide, parse_spacing hclose hwide⟩

end Expr

end Calculator
