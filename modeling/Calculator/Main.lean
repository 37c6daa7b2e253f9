import Calculator.CommandLine

/-!
# The calculator program

Reads the standard input line by line and prints each answer at once; what is answered, and with
which exit status the program ends, is decided by `CommandLine` and `Session`.
-/

namespace Calculator

/-- The bytes of the next line with its newline, or those before the end of the input. -/
partial def readLine (input : IO.FS.Stream) (line : List UInt8) : IO (List UInt8) := do
  match (← input.read 1).toList with
  | [] => return line.reverse
  | b :: _ => if b = Session.newline then return (b :: line).reverse else readLine input (b :: line)

/-- Answers the lines of the standard input as they come. -/
partial def converse (showTree : Bool) : IO Session.Ending := do
  let output ← IO.getStdout
  output.putStr Session.prompt
  output.flush
  match Session.lines (← readLine (← IO.getStdin) []) with
  | [] => return .endOfInput
  | line :: _ =>
    match Session.step showTree line with
    | .error ending =>
      output.putStr ending.output
      return ending
    | .ok answer =>
      output.putStr answer
      converse showTree

end Calculator

open Calculator in
def main (arguments : List String) : IO UInt32 := do
  match CommandLine.parse? arguments with
  | none =>
    IO.eprintln "usage: calculator [--tree] [-v|-q] [--] [EXPRESSION]"
    return CommandLine.usageStatus.toUInt32
  | some request =>
    match request.expression with
    | some text =>
      let answer := respond request.showTree text
      IO.print answer.output
      return (CommandLine.statusOf answer.succeeded).toUInt32
    | none =>
      IO.print Session.greeting
      let ending ← converse request.showTree
      if let some failure := ending.failure? then IO.eprintln ("Error: " ++ failure)
      return (CommandLine.statusOf ending.failure?.isNone).toUInt32
