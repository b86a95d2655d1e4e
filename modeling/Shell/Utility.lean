/-
The utilities that a shell has unless it is given others.

`argv [ARG ...]`: the arguments as a list in brackets. Each argument stands in single quotes, with
backslashes before quotes and backslashes and with newlines and tabs as escapes. So a quote in the
output that no backslash stands before opens or closes an argument, and the list can be read back in
one way only.

`env` and `printenv [NAME ...]`: the exported variables.
-/
import Shell.Utility.Cat
import Shell.Utility.Head

set_option autoImplicit false

namespace Shell.Utility.Argv

/-- A character between the quotes. -/
def escapedChar (c : Char) : List Char :=
  match c with
  | '\\' => ['\\', '\\']
  | '\'' => ['\\', '\'']
  | '\n' => ['\\', 'n']
  | '\t' => ['\\', 't']
  | c => [c]

/-- An argument in quotes. -/
def quoted (arg : String) : List Char := '\'' :: arg.toList.flatMap escapedChar ++ ['\'']

/-- The list of arguments. -/
def listing (args : List String) : String :=
  "[" ++ ", ".intercalate (args.map fun arg => String.ofList (quoted arg)) ++ "]\n"

/-- The utility. -/
def utility : Utility := fun call => return { output := listing call.args }

end Shell.Utility.Argv

namespace Shell.Utility.Variables

/-- A line for each variable, in the order of the names. -/
def listing (vars : Table String) : String :=
  String.join (vars.entries.map fun (name, value) => name ++ "=" ++ value ++ "\n")

/-- `env`, which only lists. -/
def env : Utility := fun call =>
  if call.args.isEmpty then return { output := listing call.vars }
  else return { errors := "env: running commands is not supported\n", status := 125 }

/-- Values with newlines between and after them, unless they come to nothing. -/
def valuesText (values : List String) : String :=
  let text := "\n".intercalate values
  if text.isEmpty then "" else text ++ "\n"

/-- `printenv` lists all variables, or tells the values of those named. It fails if one of them
is not exported. -/
def printenv : Utility := fun call =>
  if call.args.isEmpty then return { output := listing call.vars }
  else
    return {
      output := valuesText (call.args.filterMap call.vars.get?)
      status := if call.args.all call.vars.contains then 0 else 1 }

end Shell.Utility.Variables

namespace Shell.Utility

/-- The standard utilities by their names. -/
def standard : Table Utility :=
  .ofList [
    ("argv", Argv.utility),
    ("cat", Cat.utility),
    ("env", Variables.env),
    ("head", Head.utility),
    ("printenv", Variables.printenv),
    ("tac", Tac.utility)]

end Shell.Utility
