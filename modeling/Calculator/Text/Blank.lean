/-!
# Blanks

The characters with the Unicode property `White_Space`; they separate tokens and mean nothing else.
-/

namespace Calculator.Text

/-- The code points of `White_Space`, as ranges with both ends. -/
def blankRanges : List (Nat × Nat) :=
  [(0x9, 0xD), (0x20, 0x20), (0x85, 0x85), (0xA0, 0xA0), (0x1680, 0x1680), (0x2000, 0x200A),
    (0x2028, 0x2029), (0x202F, 0x202F), (0x205F, 0x205F), (0x3000, 0x3000)]

def isBlank (c : Char) : Bool :=
  blankRanges.any fun range => range.1 ≤ c.toNat && c.toNat ≤ range.2

/-- The text from its first character that is no blank. -/
def dropBlanks (s : List Char) : List Char := s.dropWhile isBlank

theorem dropBlanks_dropBlanks (s : List Char) : dropBlanks (dropBlanks s) = dropBlanks s := by
  induction s with
  | nil => rfl
  | cons c s ih =>
    cases h : isBlank c with
    | true => simpa [dropBlanks, h] using ih
    | false => simp [dropBlanks, h]

end Calculator.Text
