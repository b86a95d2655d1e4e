/-
Running builtins.

Most builtins are functions of their arguments and the environment, which are defined in modules
of their own; here they are given the environment they run in and their answers are written.
`read` takes text from standard input, `let` evaluates arithmetic, and `eval` runs a script in
the shell itself.
-/
import Shell.Builtin.Call
import Shell.Builtin.Control
import Shell.Builtin.Describe
import Shell.Builtin.Echo
import Shell.Builtin.Printf
import Shell.Builtin.Read
import Shell.Builtin.Test
import Shell.Builtin.Variables
import Shell.Script.Parser

set_option autoImplicit false

namespace Shell

open Shell.Text

namespace Exec

/-- Starts a utility in the streams and with the exported variables of the shell. -/
def start (utility : Utility) (args : List String) : Exec Nat := do
  let c ← context
  let env ← env
  lift (utility.start {
    args := args
    vars := .ofList env.exportedVariables
    input := c.input
    output := c.output
    errors := c.errors
    files := c.files })

/-- Makes a change to the environment and gives its answer. -/
def change (change : Environment → Answer × Environment) : Exec Outcome := do
  let (answer, after) := change (← env)
  modifyEnv fun _ => after
  answer.give

/-- What a name stands for in the state as it is. -/
def meanings : Exec (String → List Meaning) := do
  return Meaning.all (← env) (← context).spawner

end Exec

namespace Builtin

/-- `test` and `[`, as which it is called by `name`. No arguments make a condition that does not
hold. -/
def runTest (name : String) (args : List String) : Exec Outcome := do
  if args.isEmpty then return .status 1
  match Test.evaluate ⟨← Exec.env, (← Exec.context).files⟩ args with
  | .ok holds => return .status (if holds then 0 else 1)
  | .error mistake => (Answer.refusal (name ++ ": " ++ mistake.message) 2).give

/-- `[`, of which `]` is the last argument. -/
def runBracket (args : List String) : Exec Outcome :=
  if args.getLast? = some "]" then runTest "[" args.dropLast
  else (Answer.refusal "[: missing `]'" 2).give

/-- `read`. The arguments are looked at before anything is read. -/
def runRead (args : List String) : Exec Outcome := do
  match Read.readArgs {} args with
  | .error mistake => (Answer.refusal mistake.message mistake.status).give
  | .ok request =>
    let wanted : Request := if request.raw then .line else .continued
    let text ← Exec.lift (Action.read (← Exec.context).input wanted)
    let (line, ended) := Read.line request.raw text.toList
    Exec.modifyEnv fun env => Read.assign env request.names line
    return .status (Read.status ended)

/-- `eval`: the arguments, joined by blanks, as a script of the shell itself. -/
def runEval (run : Runner) (args : List String) : Exec Outcome :=
  let source := " ".intercalate args
  if (trim source.toList).isEmpty then return .status 0
  else
    match parse source with
    | .ok script => run script
    | .error e => (Answer.refusal ("eval: " ++ e.message) 2).give

/-- The values of arithmetic expressions, of which the last one counts. -/
def evaluateAll (value : Int64) : List String → Exec Int64
  | [] => return value
  | text :: texts => do evaluateAll (← Expansion.evaluate text) texts

/-- `let`: it succeeds if the last expression is not zero. -/
def runLet (args : List String) : Exec Outcome :=
  if args.isEmpty then (Answer.refusal "let: expression expected" 1).give
  else
    Exec.handleExpansion
      (do return .status (if (← evaluateAll 0 args) = 0 then 1 else 0))
      fun e => (Answer.refusal ("let: " ++ e.message) 1).give

/-- `printf`. -/
def runPrintf (args : List String) : Exec Outcome := do
  let c ← Exec.context
  match Printf.answer ⟨c.host.memory, c.output, c.captured⟩ (← Exec.env) args with
  | .error f => Exec.fault f
  | .ok (answer, after) =>
    Exec.modifyEnv fun _ => after
    answer.give

/-- A builtin that is neither `command` nor `builtin`; these two have been followed before. -/
def runOther (run : Runner) (which : Builtin) (args : List String) : Exec Outcome :=
  match which with
  | .colon => return .status 0
  | .succeed => return .status 0
  | .fail => return .status 1
  | .echo => Answer.give { output := Echo.output args }
  | .exit => Control.exit args
  | .return => Control.leaveFunction args
  | .break => Control.breakLoops args
  | .continue => Control.continueLoop args
  | .test => runTest "test" args
  | .bracket => runBracket args
  | .shift => Exec.change (Variables.shift · args)
  | .set => Exec.change (Variables.set · args)
  | .unset => Exec.change (Variables.unset · args)
  | .export => Exec.change (Variables.exportNames · args)
  | .eval => runEval run args
  | .read => runRead args
  | .let => runLet args
  | .printf => runPrintf args
  | .type => do (Describe.typeNames (← Exec.meanings) args).give
  | .command => return .status 0
  | .builtin => return .status 0

/-- Runs a builtin. -/
def run (run : Runner) (which : Builtin) (args : List String) : Exec Outcome :=
  match Call.follow which args with
  | .answer answer => answer.give
  | .describe verbose names => do (Describe.commandNames verbose (← Exec.meanings) names).give
  | .utility name args => do
    match (← Exec.context).spawner.find? name with
    | some utility => return .status (← Exec.start utility args)
    | none => (Answer.refusal (notFound name) 127).give
  | .builtin which args => runOther run which args

end Builtin

end Shell
