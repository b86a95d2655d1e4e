/-
`set`, `shift`, `export` and `unset`: the builtins that list and change the environment.

Each of them is a function from an environment to an answer and the environment after it.
`set` and `export` without names list variables in a form that the shell reads back.
-/
import Shell.Builtin
import Shell.Name
import Shell.Text.Numeral
import Shell.Text.Quoted

set_option autoImplicit false

namespace Shell.Variables

open Shell.Text

/-- A builtin that looks at nothing but its arguments and the environment. -/
abbrev Change := Environment → List String → Answer × Environment

/-- An answer that leaves the environment as it is. -/
def refuse (env : Environment) (message : String) (status : Nat) : Answer × Environment :=
  (.refusal message status, env)

/-- What one operand does to the environment, or the diagnostic about it. -/
abbrev Step := Environment → String → Except String Environment

/-- The environment after a step, with the diagnostics so far, the last one first. An operand
with a diagnostic changes nothing. -/
def Step.run (step : Step) (done : List String × Environment) (operand : String) :
    List String × Environment :=
  match step done.2 operand with
  | .ok env => (done.1, env)
  | .error message => (message :: done.1, done.2)

/-- A step for each operand in turn. The answer fails if there is a diagnostic. -/
def forEach (step : Step) (env : Environment) (operands : List String) : Answer × Environment :=
  let (messages, env) := operands.foldl step.run ([], env)
  ({ diagnostics := messages.reverse, status := if messages.isEmpty then 0 else 1 }, env)

/-- Whether an argument is made of options: a sign with something behind it. -/
def isOption (sign : Char) (arg : String) : Bool :=
  match arg.toList with
  | c :: _ :: _ => c == sign
  | _ => false

/-- The options in an argument. -/
def optionLetters (arg : String) : List Char := arg.toList.drop 1

/-! ## `set` and `shift` -/

/-- A variable in the listing of `set`. -/
def setLine (name value : String) : String :=
  name ++ "=" ++ String.ofList (Quoted.setValue value.toList)

/-- The listing of all variables. -/
def setListing (env : Environment) : String :=
  unlines (env.vars.entries.map fun (name, value) => setLine name value)

/-- `set [--] [ARG ...]` lists the variables, or replaces the positional parameters. -/
def set : Change := fun env args =>
  match args with
  | [] => ({ output := setListing env }, env)
  | first :: rest =>
    if first = "--" then ({}, env.setArgs rest)
    else if isOption '-' first || isOption '+' first then
      refuse env ("set: " ++ first ++ ": invalid option") 2
    else ({}, env.setArgs args)

/-- Drops `count` positional parameters. -/
def shiftBy (env : Environment) (count : Int) : Answer × Environment :=
  match env.shift? count with
  | some env => ({}, env)
  | none => refuse env ("shift: " ++ toString count ++ ": shift count out of range") 1

/-- `shift [N]` drops the first N positional parameters. -/
def shift : Change := fun env args =>
  match args with
  | [] => shiftBy env 1
  | [count] =>
    match readDecimal? count.toList with
    | some n => shiftBy env n
    | none => refuse env ("shift: " ++ count ++ ": numeric argument required") 1
  | _ => refuse env "shift: too many arguments" 1

/-! ## `export` -/

/-- An exported variable in the listing of `export`. -/
def exportLine (name value : String) : String :=
  "export " ++ name ++ "=" ++ String.ofList (Quoted.exportValue value.toList)

/-- The listing of the exported variables. -/
def exportListing (env : Environment) : String :=
  unlines (env.exportedVariables.map fun (name, value) => exportLine name value)

/-- What `export` is asked for. -/
structure ExportRequest where
  /-- Whether the marks are taken away. -/
  remove : Bool := false
  /-- The names with their values, backwards. -/
  operands : List String := []
  deriving DecidableEq, Repr

/-- The request with more options; the first letter that is no option is an error. `-p` asks
for the listing, which there is anyway without names. -/
def ExportRequest.addOptions (request : ExportRequest) : List Char → Except Char ExportRequest
  | [] => .ok request
  | 'n' :: letters => { request with remove := true }.addOptions letters
  | 'p' :: letters => request.addOptions letters
  | letter :: _ => .error letter

/-- The request that arguments make after those before them. Options may follow names, up to
`--`. -/
def ExportRequest.read (request : ExportRequest) : List String → Except Char ExportRequest
  | [] => .ok { request with operands := request.operands.reverse }
  | arg :: args =>
    if arg = "--" then .ok { request with operands := request.operands.reverse ++ args }
    else if isOption '-' arg then
      match request.addOptions (optionLetters arg) with
      | .ok request => request.read args
      | .error letter => .error letter
    else { request with operands := arg :: request.operands }.read args

/-- An operand of `export`: a name with the value it is given, if it is given one. -/
structure ExportOperand where
  name : String
  value : Option String
  /-- Whether the value is put behind that the variable has. -/
  append : Bool
  deriving DecidableEq, Repr

/-- The parts of an operand. A plus sign at the end of the name belongs to the equals sign, even
where there is none. -/
def ExportOperand.ofText (text : String) : ExportOperand :=
  let (name, rest) := text.toList.span (· ≠ '=')
  let value := match rest with
    | [] => none
    | _ :: value => some (String.ofList value)
  if name.getLast? = some '+' then ⟨String.ofList name.dropLast, value, true⟩
  else ⟨String.ofList name, value, false⟩

/-- The environment with one operand exported, or its mark taken away. -/
def exportOne (remove : Bool) (env : Environment) (operand : ExportOperand) : Environment :=
  let env := match operand.value with
    | some value =>
      let before := if operand.append then (env.get? operand.name).getD "" else ""
      env.set operand.name (before ++ value)
    | none => env
  if remove then env.removeExport operand.name else env.addExport operand.name

/-- One operand of `export`. -/
def exportStep (remove : Bool) : Step := fun env text =>
  let operand := ExportOperand.ofText text
  if Name.isValid operand.name.toList then .ok (exportOne remove env operand)
  else .error ("export: `" ++ text ++ "': not a valid identifier")

/-- `export [-n] [-p] [NAME[=VALUE] ...]` marks variables for utilities to see. -/
def exportNames : Change := fun env args =>
  match ExportRequest.read {} args with
  | .error letter => refuse env ("export: -" ++ String.singleton letter ++ ": invalid option") 2
  | .ok request =>
    if request.operands.isEmpty then ({ output := exportListing env }, env)
    else forEach (exportStep request.remove) env request.operands

/-! ## `unset` -/

/-- What `unset` takes away. -/
inductive UnsetMode where
  /-- A variable, or else a function. -/
  | either
  | variable
  | function
  deriving DecidableEq, Repr

/-- The mode and the names that arguments ask for, after those before them; the names are
backwards. The first argument that is no option is an error. -/
def readUnset (mode : UnsetMode) (names : List String) :
    List String → Except String (UnsetMode × List String)
  | [] => .ok (mode, names.reverse)
  | arg :: args =>
    if arg = "--" then .ok (mode, names.reverse ++ args)
    else if arg = "-v" then readUnset .variable names args
    else if arg = "-f" then readUnset .function names args
    else if isOption '-' arg then .error arg
    else readUnset mode (arg :: names) args

/-- One name of `unset`. A function may have any name. -/
def unsetStep (mode : UnsetMode) : Step := fun env name =>
  if mode = .function then .ok (env.removeFunction name)
  else if !Name.isValid name.toList then
    .error ("unset: `" ++ name ++ "': not a valid identifier")
  else if mode = .either ∧ !env.contains name then .ok (env.removeFunction name)
  else .ok (env.unset name)

/-- `unset [-v] [-f] [NAME ...]` takes away variables and functions. -/
def unset : Change := fun env args =>
  match readUnset .either [] args with
  | .error arg => refuse env ("unset: " ++ arg ++ ": invalid option") 2
  | .ok (mode, names) => forEach (unsetStep mode) env names

end Shell.Variables
