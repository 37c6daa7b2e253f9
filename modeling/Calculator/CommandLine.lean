import Calculator.Session

/-!
# The command line

An expression on the command line is answered at once; without one a session reads the standard
input.  `--tree` draws trees.  `-v` and `-q` ask for more or less of a log and exclude each other; no
log is kept.
-/

namespace Calculator.CommandLine

/-- What the arguments ask for. -/
structure Request where
  expression : Option String
  showTree : Bool
  verbose : Bool
  quiet : Bool
  deriving DecidableEq, Repr

namespace Request

def empty : Request := ⟨none, false, false, false⟩

/-- Takes an expression, if there is none yet. -/
def addExpression? (r : Request) (text : String) : Option Request :=
  if r.expression.isNone then some { r with expression := some text } else none

/-- Takes a letter of a group of short options. -/
def addLetter? (r : Request) (letter : Char) : Option Request :=
  if letter = 'v' then some { r with verbose := true }
  else if letter = 'q' then some { r with quiet := true }
  else none

/-- Takes an argument that begins with a hyphen and more. -/
def addOption? (r : Request) (option : String) : Option Request :=
  if option = "--tree" then if r.showTree then none else some { r with showTree := true }
  else if option = "--verbose" then some { r with verbose := true }
  else if option = "--quiet" then some { r with quiet := true }
  else (option.toList.drop 1).foldlM addLetter? r

/-- Takes the arguments one after the other; behind `--` all are expressions. -/
def addAll? (r : Request) : List String → Option Request
  | [] => some r
  | "--" :: rest => rest.foldlM addExpression? r
  | argument :: rest =>
    (if argument.startsWith "-" && argument != "-" then r.addOption? argument
      else r.addExpression? argument).bind fun r => r.addAll? rest

end Request

/-- The request that the arguments make, unless they are used wrongly. -/
def parse? (arguments : List String) : Option Request :=
  (Request.empty.addAll? arguments).filter fun r => !(r.verbose && r.quiet)

/-- The exit status and what is printed to the standard output. -/
structure Outcome where
  status : Nat
  output : String
  deriving DecidableEq, Repr

/-- The exit status after wrong arguments. -/
def usageStatus : Nat := 2

/-- The exit status of an expression without a value and of a session that fails. -/
def statusOf (succeeded : Bool) : Nat := if succeeded then 0 else 1

/-- What the program does for its arguments and its standard input. -/
def run (arguments : List String) (input : List UInt8) : Outcome :=
  match parse? arguments with
  | none => ⟨usageStatus, ""⟩
  | some request =>
    match request.expression with
    | some text =>
      let answer := respond request.showTree text
      ⟨statusOf answer.succeeded, answer.output⟩
    | none =>
      let (output, ending) := Session.run request.showTree input
      ⟨statusOf ending.failure?.isNone, output⟩

end Calculator.CommandLine
