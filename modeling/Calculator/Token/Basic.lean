/-!
# Tokens

A token is a number literal, a run of letters or any other single character.
-/

namespace Calculator

inductive Token where
  /-- The digits before the point and, if there is a point, those behind it. -/
  | literal (whole : List Char) (fraction : Option (List Char))
  | word (letters : List Char)
  | symbol (c : Char)
  deriving DecidableEq, Repr

namespace Token

/-- The characters of a token. -/
def text : Token → List Char
  | literal whole none => whole
  | literal whole (some fraction) => whole ++ '.' :: fraction
  | word letters => letters
  | symbol c => [c]

/-- The word that stands for the square root. -/
def squareRoot : List Char := ['s', 'q', 'r', 't']

/-- Whether a factor that begins with this token is multiplied with the factor before it. -/
def beginsFactor : Token → Bool
  | literal whole _ => !whole.isEmpty
  | word _ => true
  | symbol c => c == '('

end Token

end Calculator
