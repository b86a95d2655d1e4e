/-
The commands that are part of the shell.

A builtin runs in the environment of the shell itself, so it can change variables, read lines
and leave loops. A builtin wins over a function and a utility of its name.

What a builtin that only computes comes to is an answer: text for standard output, diagnostics, and a
status. A diagnostic is written behind the name of the shell, one to a line. The text is written before
the diagnostics, whatever the order in which they arose.
-/
import Shell.Outcome

set_option autoImplicit false

namespace Shell

inductive Builtin where
  | colon | succeed | fail | echo | exit | return | break | continue | test | bracket | shift | set
  | unset | export | eval | read | let | printf | type | command | builtin
  deriving DecidableEq, Repr

namespace Builtin

def name : Builtin → String
  | .colon => ":"
  | .succeed => "true"
  | .fail => "false"
  | .echo => "echo"
  | .exit => "exit"
  | .return => "return"
  | .break => "break"
  | .continue => "continue"
  | .test => "test"
  | .bracket => "["
  | .shift => "shift"
  | .set => "set"
  | .unset => "unset"
  | .export => "export"
  | .eval => "eval"
  | .read => "read"
  | .let => "let"
  | .printf => "printf"
  | .type => "type"
  | .command => "command"
  | .builtin => "builtin"

def all : List Builtin :=
  [.colon, .succeed, .fail, .echo, .exit, .return, .break, .continue, .test, .bracket, .shift, .set,
    .unset, .export, .eval, .read, .let, .printf, .type, .command, .builtin]

/-- The builtin of a name. -/
def ofName? (name : String) : Option Builtin := all.find? fun b => b.name == name

end Builtin

/-- What a builtin that only computes comes to. -/
structure Answer where
  output : String := ""
  diagnostics : List String := []
  status : Nat := 0
  deriving DecidableEq, Repr

namespace Answer

/-- An answer that is a status alone. -/
def ofStatus (status : Nat) : Answer := { status := status }

/-- The answer of a builtin that cannot do what it is asked. -/
def refusal (message : String) (status : Nat) : Answer :=
  { diagnostics := [message], status := status }

/-- The text of the diagnostics in a shell with the given name. -/
def errorText (answer : Answer) (name : String) : String :=
  String.join (answer.diagnostics.map fun message => name ++ ": " ++ message ++ "\n")

/-- Writes an answer and comes to its status. -/
def give (answer : Answer) : Exec Outcome := do
  Exec.writeOutput answer.output
  Exec.writeErrors (answer.errorText (← Exec.context).name)
  return .status answer.status

end Answer

/-- Lines with a newline after each. -/
def unlines (lines : List String) : String := String.join (lines.map (· ++ "\n"))

end Shell
