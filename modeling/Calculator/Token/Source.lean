import Calculator.Token.Scan

/-!
# Sources of tokens

What the rules of the grammar read from: a place from which the next token can be taken.  A text is
a source, and so is a list of tokens; `Token.scanAll` takes the one to the other, token by token.
-/

namespace Calculator

class TokenSource (σ : Type) where
  /-- The next token, and the place behind it. -/
  next? : σ → Option (Token × σ)
  /-- The same place behind the blanks that follow it. -/
  settle : σ → σ

instance : TokenSource (List Char) where
  next? := Token.scan
  settle := Text.dropBlanks

instance : TokenSource (List Token) where
  next?
    | [] => none
    | t :: rest => some (t, rest)
  settle := id

/-- The next token of the list of all tokens is the next token of the text. -/
theorem TokenSource.next?_scanAll (s : List Char) :
    next? (Token.scanAll s) = (next? s).map fun (t, rest) => (t, Token.scanAll rest) := by
  show next? (Token.scanAll s) = (Token.scan s).map _
  cases h : Token.scan s with
  | none => rw [Token.scanAll_of_scan_none h]; rfl
  | some next => rw [Token.scanAll_of_scan_some h]; rfl

theorem Token.scanAll_settle (s : List Char) :
    scanAll (TokenSource.settle s) = TokenSource.settle (scanAll s) := by
  show scanAll (Text.dropBlanks s) = scanAll s
  have hs := scan_dropBlanks s
  cases h : scan s with
  | none => rw [scanAll_of_scan_none h, scanAll_of_scan_none (hs.trans h)]
  | some next => rw [scanAll_of_scan_some h, scanAll_of_scan_some (hs.trans h)]

end Calculator
