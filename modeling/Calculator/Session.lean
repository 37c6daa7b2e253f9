import Calculator.Calculation
import Calculator.Expr.Drawing

/-!
# Sessions

A session greets, and then answers one line of input after the other, each after a prompt.  The line
`exit`, the end of the input or a line that is not UTF-8 end it.
-/

namespace Calculator

/-- What is printed for one expression, and whether it has a value. -/
structure Answer where
  succeeded : Bool
  output : String
  deriving DecidableEq, Repr

/-- The drawing of the expression that a text writes, if it writes one. -/
def drawn (text : String) : String :=
  match Expr.parse text with
  | .ok tree => String.ofList (tree.drawing [] false)
  | .error _ => ""

/-- The line with the value of a text, or with the reason why it has none. -/
def result (text : String) : Answer :=
  match calculate text with
  | .ok value => ⟨true, "Result: " ++ toString value ++ "\n"⟩
  | .error error => ⟨false, "Error: " ++ error.message ++ "\n"⟩

/-- The answer to a text, with the drawing of the tree if asked for. -/
def respond (showTree : Bool) (text : String) : Answer :=
  let answer := result text
  { answer with output := (if showTree then drawn text else "") ++ answer.output }

namespace Session

/-- The line that ends a session. -/
def farewell : String := "exit"

def greeting : String :=
  "Welcome to the calculator!\n" ++
  "Please enter a mathematical expression to calculate, allowed operators are +, -, *, /, ^ and sqrt."
  ++ " You can also use parentheses ( ).\n" ++
  "Type '" ++ farewell ++ "' to quit the calculator.\n\n" ++
  "Example: 2 + 3 * (4 - 1)\n\n"

def prompt : String := "> "

/-! ## Lines -/

def newline : UInt8 := 10

def carriageReturn : UInt8 := 13

/-- A line that a newline ends, without a carriage return before it. -/
def chomp (line : List UInt8) : List UInt8 :=
  if line.getLast? = some carriageReturn then line.dropLast else line

/-- The lines of an input.  A last line without a newline is taken as it is, unless it is empty. -/
def lines (input : List UInt8) : List (List UInt8) :=
  match h : input.dropWhile (· != newline) with
  | [] => if input.isEmpty then [] else [input]
  | _ :: rest =>
    have : rest.length < input.length := by
      have := (List.dropWhile_suffix (· != newline) (l := input)).length_le
      rw [h] at this
      exact this
    chomp (input.takeWhile (· != newline)) :: lines rest
termination_by input.length

/-! ## Runs -/

/-- How a session ends. -/
inductive Ending where
  /-- The farewell was said. -/
  | goodbye
  /-- The input is used up. -/
  | endOfInput
  /-- A line is not UTF-8. -/
  | undecodable
  deriving DecidableEq, Repr

namespace Ending

/-- What is printed at the end. -/
def output : Ending → String
  | goodbye => "Goodbye!\n"
  | endOfInput | undecodable => ""

/-- The failure a session ends with. -/
def failure? : Ending → Option String
  | undecodable => some "stream did not contain valid UTF-8"
  | goodbye | endOfInput => none

end Ending

/-- The answer to a line, or the ending it brings. -/
def step (showTree : Bool) (line : List UInt8) : Except Ending String :=
  match String.fromUTF8? ⟨line.toArray⟩ with
  | none => .error .undecodable
  | some text => if text = farewell then .error .goodbye else .ok (respond showTree text).output

/-- What is printed for the lines from the first prompt on, and the ending. -/
def converse (showTree : Bool) : List (List UInt8) → String × Ending
  | [] => (prompt, .endOfInput)
  | line :: rest =>
    match step showTree line with
    | .error ending => (prompt ++ ending.output, ending)
    | .ok answer =>
      let (output, ending) := converse showTree rest
      (prompt ++ answer ++ output, ending)

/-- The whole transcript of a session on an input, and its ending. -/
def run (showTree : Bool) (input : List UInt8) : String × Ending :=
  let (output, ending) := converse showTree (lines input)
  (greeting ++ output, ending)

end Session

end Calculator
