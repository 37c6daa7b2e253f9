import Calculator.Expr.Parse

/-!
# A cursor over a text

The rules of the grammar, carried out on the bytes of a text: a cursor stands at a byte, moves
forward only, and counts the factors and exponents that are open.  Routines call each other with
nothing handed over but the cursor, and each answers a tree with its height, or a refusal.

A step has no outcome if it takes a part of the text that does not begin and end between characters.
Factors and exponents are read by routines that call themselves; they do so `limit` times inside each
other, and beyond that they have no outcome either.  `read` is the whole of it.

What the routines do hangs on `position` and `depth`; `deepest` and `calls` are records.
-/

namespace Calculator

namespace Text

/-- The text from a byte on, if a character begins there or the text ends. -/
def fromByte? : List Char → Nat → Option (List Char)
  | s, 0 => some s
  | [], _ + 1 => none
  | c :: s, n + 1 => if c.utf8Size ≤ n + 1 then fromByte? s (n + 1 - c.utf8Size) else none

theorem lt_byteLength_of_fromByte? {s r : List Char} {c : Char} {n : Nat}
    (h : fromByte? s n = some (c :: r)) : n < byteLength s := by
  fun_induction fromByte? s n with
  | case1 s =>
    obtain rfl := Option.some.inj h
    exact Nat.lt_of_lt_of_le c.utf8Size_pos (Nat.le_add_right _ _)
  | case2 => cases h
  | case3 d s n hle ih =>
    have := ih h
    rw [byteLength]
    omega
  | case4 => cases h

/-- The text up to a byte, if a character begins there or the text ends. -/
def upToByte? : List Char → Nat → Option (List Char)
  | _, 0 => some []
  | [], _ + 1 => none
  | c :: s, n + 1 =>
    if c.utf8Size ≤ n + 1 then (upToByte? s (n + 1 - c.utf8Size)).map (c :: ·) else none

/-- The text between two bytes. -/
def between? (s : List Char) (start stop : Nat) : Option (List Char) :=
  if start ≤ stop then (fromByte? s start).bind fun r => upToByte? r (stop - start) else none

end Text

/-- Characters that are passed while they follow each other. -/
inductive Kind where
  | blank
  | digit
  | letter
  deriving DecidableEq, Repr

namespace Kind

def includes : Kind → Char → Bool
  | blank => Text.isBlank
  | digit => Char.isDigit
  | letter => Char.isAlpha

/-- How many bytes are passed with a character: digits and letters are taken to be one. -/
def width : Kind → Char → Nat
  | blank, c => c.utf8Size
  | _, _ => 1

theorem width_pos (kind : Kind) (c : Char) : 0 < kind.width c := by
  cases kind with
  | blank => exact c.utf8Size_pos
  | _ => exact Nat.one_pos

end Kind

/-- Sums and products are read alike: operands that operators join from the left. -/
inductive Layer where
  | sum
  | product
  deriving DecidableEq, Repr

/-- The routines that read a part of an expression. -/
inductive Routine where
  | expression
  | layer (layer : Layer)
  | power
  | factor
  deriving DecidableEq, Repr

/-- A call of a routine, with the byte and the depth at which it is made. -/
structure Call where
  routine : Routine
  position : Nat
  depth : Nat
  deriving DecidableEq, Repr

structure Cursor where
  /-- The byte at which the cursor stands. -/
  position : Nat
  /-- How many factors and exponents are open. -/
  depth : Nat
  /-- The highest value that `depth` has had. -/
  deepest : Nat
  /-- The calls that have been made, the last one first. -/
  calls : List Call

namespace Cursor

open Grammar (Cause maxNesting maxHeight)

/-- A step from one cursor to another, with an answer or a refusal, or without an outcome. -/
abbrev Step (α : Type) := ExceptT ParseError (StateT Cursor Option) α

/-- A tree with the number of operators on its longest path. -/
structure Subtree where
  tree : Expr
  height : Nat

/-- The cursor before a text. -/
def start : Cursor := ⟨0, 0, 0, []⟩

def advanced (n : Nat) (c : Cursor) : Cursor := { c with position := c.position + n }

def called (routine : Routine) (c : Cursor) : Cursor :=
  { c with calls := ⟨routine, c.position, c.depth⟩ :: c.calls }

/-- One more factor or exponent is open. -/
def opened (c : Cursor) : Cursor :=
  { c with depth := c.depth + 1, deepest := max c.deepest (c.depth + 1) }

/-- One less is open. -/
def closed (c : Cursor) : Cursor := { c with depth := c.depth - 1 }

/-! ## Looking and moving -/

section

variable (text : List Char)

/-- What is left of the text. -/
def remaining : Step (List Char) := do
  Text.fromByte? text (← get).position

def peek : Step (Option Char) := return (← remaining text).head?

def atEnd : Step Bool := return Text.byteLength text ≤ (← get).position

def refuseAt {α : Type} (position : Nat) (cause : Cause) : Step α := do
  let rest ← Text.fromByte? text position
  throw ⟨cause, position, String.ofList rest⟩

def refuse {α : Type} (cause : Cause) : Step α := do
  refuseAt text (← get).position cause

/-- Passes the characters of a kind. -/
def skipWhile (kind : Kind) (c : Cursor) : Option (Except ParseError Unit × Cursor) :=
  match h : Text.fromByte? text c.position with
  | none => none
  | some [] => some (.ok (), c)
  | some (d :: rest) =>
    have := Text.lt_byteLength_of_fromByte? h
    have := kind.width_pos d
    if kind.includes d then skipWhile kind (c.advanced (kind.width d))
    else some (.ok (), c)
termination_by Text.byteLength text - c.position
decreasing_by
  show _ - (c.position + _) < _
  omega

def skipBlanks : Step Unit := skipWhile text .blank

/-- Passes digits and answers how many bytes they take. -/
def skipDigits : Step Nat := do
  let before := (← get).position
  skipWhile text .digit
  return (← get).position - before

def matchChar (expected : Char) : Step Bool := do
  if (← peek text) = some expected then
    modify (advanced expected.utf8Size)
    return true
  else return false

/-- Passes the keyword unless it is the beginning of a longer word. -/
def matchKeyword (keyword : List Char) : Step Bool := do
  let rest ← remaining text
  if keyword.isPrefixOf rest then
    let behind ← Text.fromByte? rest (Text.byteLength keyword)
    if behind.head?.any Char.isAlpha then return false
    else
      modify (advanced (Text.byteLength keyword))
      return true
  else return false

/-- Whether the next character can begin a factor that is multiplied without an operator. -/
def startsFactor : Step Bool :=
  return (← peek text).any fun c => c == '(' || c.isDigit || c.isAlpha

/-! ## Leaves and nodes -/

/-- The leaf for the digits from the byte `before` on, with their numbers before and behind the point. -/
def leaf (before whole fraction : Nat) : Step Subtree := do
  if whole = 0 ∧ fraction = 0 then refuseAt text before .expectedNumber
  else
    let literal ← Text.between? text before (← get).position
    match Decimal.ofUnsigned? literal with
    | some value => return ⟨.number value, 0⟩
    | none => refuseAt text before (.invalidNumber (String.ofList literal))

def skipFraction : Step Nat := do
  if ← matchChar text '.' then skipDigits text
  else return 0

def readNumber : Step Subtree := do
  let before := (← get).position
  let whole ← skipDigits text
  let fraction ← skipFraction text
  leaf text before whole fraction

/-- No word but that of the square root has a meaning. -/
def readWord : Step Subtree := do
  let before := (← get).position
  skipWhile text .letter
  let name ← Text.between? text before (← get).position
  refuseAt text before (.unknownIdentifier (String.ofList name))

/-- A number or a word, as the next character shows. -/
def readLeaf : Step Subtree := do
  match ← peek text with
  | none => refuse text .unexpectedEnd
  | some c =>
    if c.isDigit || c == '.' then readNumber text
    else if c.isAlpha then readWord text
    else refuse text (.unexpectedCharacter c)

def wrap (op : UnaryOp) (operand : Subtree) : Step Subtree :=
  if operand.height + 1 > maxHeight then refuse text .nestingTooDeep
  else return ⟨.unary op operand.tree, operand.height + 1⟩

def join (op : BinaryOp) (left right : Subtree) : Step Subtree :=
  if max left.height right.height + 1 > maxHeight then refuse text .nestingTooDeep
  else return ⟨.binary op left.tree right.tree, max left.height right.height + 1⟩

/-- The operator between two operands of a layer; between two factors it may be left out. -/
def operator : Layer → Step (Option BinaryOp)
  | .sum => do
    if ← matchChar text '+' then return some .add
    else if ← matchChar text '-' then return some .subtract
    else return none
  | .product => do
    if ← matchChar text '*' then return some .multiply
    else if ← matchChar text '/' then return some .divide
    else if ← startsFactor text then return some .multiply
    else return none

/-! ## Routines -/

/-- The count of what is open goes up, and down again whether the text is refused or not. -/
def nested (inside : Step Subtree) : Step Subtree := fun c => do
  if maxNesting ≤ c.depth then refuse text .nestingTooDeep c
  else
    let (answer, c) ← inside c.opened
    return (answer, c.closed)

/-- The operators that follow `left`, with their operands.  Each makes the tree higher. -/
def continued (l : Layer) (operand : Step Subtree) (left : Subtree) : Step Subtree := do
  skipBlanks text
  match ← operator text l with
  | none => return left
  | some op =>
    let right ← operand
    if max left.height right.height + 1 > maxHeight then refuse text .nestingTooDeep
    else
      continued l operand
        ⟨.binary op left.tree right.tree, max left.height right.height + 1⟩
termination_by maxHeight - left.height

def layer (l : Layer) (operand : Step Subtree) : Step Subtree := do
  modify (called (.layer l))
  let left ← operand
  continued text l operand left

def product (power : Step Subtree) : Step Subtree := layer text .product power

def sum (power : Step Subtree) : Step Subtree := layer text .sum (product text power)

def expression (power : Step Subtree) : Step Subtree := do
  modify (called .expression)
  sum text power

/-- A power from its factor on, with an exponent if one follows. -/
def powerFrom (factor exponent : Step Subtree) : Step Subtree := do
  modify (called .power)
  let base ← factor
  skipBlanks text
  if ← matchChar text '^' then
    let exponent ← nested text exponent
    join text .power base exponent
  else return base

/-- A sum in parentheses, from behind the opening one. -/
def group (power : Step Subtree) : Step Subtree := do
  let inner ← expression text power
  skipBlanks text
  if ← matchChar text ')' then return inner
  else refuse text .missingClosingParenthesis

/-- What is read with a factor open, by the routines for what is inside. -/
def factorFrom (factor power : Step Subtree) : Step Subtree := do
  skipBlanks text
  if ← matchKeyword text Token.squareRoot then
    let operand ← factor
    wrap text .squareRoot operand
  else if ← matchChar text '+' then
    let operand ← power
    wrap text .plus operand
  else if ← matchChar text '-' then
    let operand ← power
    wrap text .minus operand
  else if ← matchChar text '(' then group text power
  else readLeaf text

def openFactor (inside : Step Subtree) : Step Subtree := do
  modify (called .factor)
  nested text inside

mutual

def factor : Nat → Step Subtree
  | 0 => openFactor text fun _ => none
  | limit + 1 => openFactor text (factorFrom text (factor limit) (power limit))

def power : Nat → Step Subtree
  | 0 => powerFrom text (openFactor text fun _ => none) fun _ => none
  | limit + 1 =>
    powerFrom text (openFactor text (factorFrom text (factor limit) (power limit))) (power limit)

end

/-- The routine of a call. -/
def perform (limit : Nat) : Routine → Step Subtree
  | .expression => expression text (power text limit)
  | .layer .sum => sum text (power text limit)
  | .layer .product => product text (power text limit)
  | .power => power text limit
  | .factor => factor text limit

/-- A whole text. -/
def read (limit : Nat) : Step Expr := do
  skipBlanks text
  if ← atEnd text then refuse text .emptyInput
  else
    let whole ← perform text limit .expression
    skipBlanks text
    if ← atEnd text then return whole.tree
    else refuse text .trailingInput

end

end Cursor

end Calculator
