import Calculator.Text.Blank
import Calculator.Token.Basic

/-!
# Scanning tokens

`Token.scan` takes the longest token off a text after its blanks, and `Token.scanAll` lists all tokens
of a text.  Every text has tokens: `scan` finds none only where nothing but blanks is left
(`scan_eq_none_iff`), and what it leaves is shorter (`scan_length_lt`).
-/

namespace Calculator.Token

open Text (dropBlanks)

/-- The literal that begins with digits, and what follows it. -/
def scanLiteral (s : List Char) : Token × List Char :=
  let whole := s.takeWhile Char.isDigit
  match s.dropWhile Char.isDigit with
  | '.' :: rest =>
    (literal whole (some (rest.takeWhile Char.isDigit)), rest.dropWhile Char.isDigit)
  | rest => (literal whole none, rest)

/-- The token at a point, and what follows it: a literal if digits follow the point. -/
def scanPoint (rest : List Char) : Token × List Char :=
  match rest.takeWhile Char.isDigit with
  | [] => (symbol '.', rest)
  | fraction => (literal [] (some fraction), rest.dropWhile Char.isDigit)

/-- The token that begins with the character `c`, and what follows it. -/
def scanFrom (c : Char) (rest : List Char) : Token × List Char :=
  if c.isDigit then scanLiteral (c :: rest)
  else if c = '.' then scanPoint rest
  else if c.isAlpha then
    (word ((c :: rest).takeWhile Char.isAlpha), (c :: rest).dropWhile Char.isAlpha)
  else (symbol c, rest)

/-- The first token of a text, and what follows it. -/
def scan (s : List Char) : Option (Token × List Char) :=
  match dropBlanks s with
  | [] => none
  | c :: rest => some (scanFrom c rest)

/-! ## What a scan leaves -/

theorem length_dropWhile_le {α : Type} (p : α → Bool) (s : List α) :
    (s.dropWhile p).length ≤ s.length :=
  (List.dropWhile_suffix p).length_le

theorem scanLiteral_length_lt {c : Char} (rest : List Char) (h : c.isDigit) :
    (scanLiteral (c :: rest)).2.length < (c :: rest).length := by
  unfold scanLiteral
  rw [List.dropWhile_cons_of_pos h]
  have := length_dropWhile_le Char.isDigit rest
  split
  next heq =>
    rw [heq] at this
    have := length_dropWhile_le Char.isDigit ‹List Char›
    simp only [List.length_cons] at *
    omega
  next => simp only [List.length_cons]; omega

theorem scanFrom_length_lt (c : Char) (rest : List Char) :
    (scanFrom c rest).2.length < (c :: rest).length := by
  unfold scanFrom
  split
  next h => exact scanLiteral_length_lt rest h
  split
  · unfold scanPoint
    split
    · exact Nat.lt_succ_self _
    · exact Nat.lt_succ_of_le (length_dropWhile_le _ _)
  split
  next h =>
    rw [List.dropWhile_cons_of_pos h]
    exact Nat.lt_succ_of_le (length_dropWhile_le _ _)
  · exact Nat.lt_succ_self _

theorem scan_length_lt {s rest : List Char} {t : Token} (h : scan s = some (t, rest)) :
    rest.length < s.length := by
  unfold scan at h
  split at h
  · cases h
  next c cs heq =>
    have hs : (c :: cs).length ≤ s.length := heq ▸ length_dropWhile_le _ s
    have := scanFrom_length_lt c cs
    simp only [Option.some.injEq] at h
    rw [h] at this
    exact Nat.lt_of_lt_of_le this hs

theorem scan_eq_none_iff {s : List Char} : scan s = none ↔ dropBlanks s = [] := by
  unfold scan
  split <;> simp_all

theorem scan_dropBlanks (s : List Char) : scan (dropBlanks s) = scan s := by
  rw [scan, Text.dropBlanks_dropBlanks, scan]

/-! ## All tokens -/

/-- The tokens of a text, in order. -/
def scanAll (s : List Char) : List Token :=
  match h : scan s with
  | none => []
  | some (t, rest) =>
    have := scan_length_lt h
    t :: scanAll rest
termination_by s.length

theorem scanAll_of_scan_none {s : List Char} (h : scan s = none) : scanAll s = [] := by
  rw [scanAll]; split <;> simp_all

theorem scanAll_of_scan_some {s rest : List Char} {t : Token} (h : scan s = some (t, rest)) :
    scanAll s = t :: scanAll rest := by
  rw [scanAll]; split <;> simp_all

end Calculator.Token
