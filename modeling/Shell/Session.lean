/-
Sessions: scripts that run one after the other in one environment.

What a script assigns and defines is there for the next one. Each script has a run of its own,
with an input, two sinks for standard output and standard error, and a count of commands that
starts anew.

Function calls are calls of the host too. So before a run the host is asked for a stack that is deep enough for all
the calls that the limits allow, and there is no run if it refuses.
-/
import Shell.Execution
import Shell.Scheduler
import Shell.Utility

set_option autoImplicit false

namespace Shell

/-! ## Runs -/

/-- A run that has ended. -/
structure Completion where
  status : Except Abort Nat
  env : Environment
  output : String
  errors : String
  /-- What is left of standard input. -/
  input : Input

/-- The input that a run reads. -/
def standardInput : Nat := 0

/-- The sink of standard output. -/
def standardOutput : Output := .sink 0

/-- The sink of standard error. -/
def standardError : Output := .sink 1

/-- Runs a job as the first task of a machine. -/
def complete (job : Job Ending) (env : Environment) (input : Input) : Completion :=
  let world : World := { inputs := #[input], sinks := #[[], []] }
  let machine := (({ world := world } : Machine Ending).addTask { phase := .active job }).run Machine.maxTurns
  let ending : Ending :=
    match machine.result? 0 with
    | some (.ok ending) => ending
    | some (.error abort) => ⟨.error abort, env⟩
    | none => ⟨.error .cancelled, env⟩
  { status := ending.status
    env := ending.env
    output := machine.world.sinkText 0
    errors := machine.world.sinkText 1
    input := machine.world.input standardInput }

/-- Meets a request of an input by itself: the text, and the input after it. -/
def Input.take (input : Input) (request : Request) : String × Input :=
  let job : Job Ending :=
    .read standardInput ⟨request, false, []⟩ fun text =>
      .write standardOutput text fun _ => .finish ⟨.ok 0, {}⟩
  let completion := complete job {} input
  (completion.output, completion.input)

/-- Runs a utility by itself. -/
def Utility.complete (utility : Utility) (args : List String) (vars : Table String)
    (input : Input) (files : Files) : Completion :=
  let call : Invocation :=
    { args := args, vars := vars, input := standardInput, output := standardOutput,
      errors := standardError, files := files }
  Shell.complete ((utility.start call) fun r => .finish ⟨r, {}⟩) {} input

/-! ## Sessions -/

structure Session where
  limits : Limits := {}
  spawner : Spawner := [Utility.standard]
  /-- The name of the shell, which is `$0` and stands before its diagnostics. -/
  name : String := defaultName
  files : Files := {}
  /-- The variables at the start, all of them exported. -/
  vars : List (String × String) := []
  /-- The positional parameters at the start. -/
  args : List String := []
  host : Host := {}
  env : Environment := .initial vars args name host.process

namespace Session

/-- The session with the environment as it was at the start. -/
def reset (session : Session) : Session :=
  { session with env := .initial session.vars session.args session.name session.host.process }

/-- What code runs with in a session. -/
def context (session : Session) : Context :=
  { limits := session.limits
    spawner := session.spawner
    name := session.name
    files := session.files
    input := standardInput
    output := standardOutput
    errors := standardError
    host := session.host }

/-- Runs a script that has been parsed. -/
def runScript (session : Session) (script : Sequence) (input : Input) : Completion :=
  let job := Execution.script script session.context { env := session.env } fun r s =>
    .finish ⟨r, s.env⟩
  complete job session.env input

/-- The environment that a run leaves to the session. Its status becomes that of the last
command, unless the run had none. -/
def after (completion : Completion) : Environment :=
  match completion.status with
  | .ok status => { completion.env with status := status }
  | .error _ => completion.env

/-! ## The stack -/

/-- How many calls of the host one call of a function takes. -/
def framesPerCall : Nat := 40

/-- The depth of a stack is less than this. -/
def stackBound : Nat := Nat.pow 2 31

/-- The depth of the stack that the limits call for. -/
def stackDepth (session : Session) : Int :=
  session.host.stackLimit + session.limits.maxCallDepth * framesPerCall

/-- Why the host refuses a stack of the depth that the limits call for, if it does. -/
def stackFault? (session : Session) : Option Fault :=
  if (stackBound : Int) ≤ session.stackDepth ∨ session.stackDepth < -stackBound then some .stackTooDeep
  else if session.stackDepth < 1 then some .noStack
  else none

/-- A run that has not begun. -/
def refused (session : Session) (f : Fault) (input : Input) : Completion :=
  { status := .error (.fault f), env := session.env, output := "", errors := "", input := input }

/-- Runs a script that has been parsed, if the host has a stack for it. -/
def run (session : Session) (script : Sequence) (input : Input) : Completion :=
  match session.stackFault? with
  | some f => session.refused f input
  | none => session.runScript script input

/-- Runs a script: the run and the session after it. Nothing runs if the script cannot be
parsed. -/
def exec (session : Session) (source : String) (input : Input) :
    Except ScriptError (Completion × Session) := do
  let script ← parse source
  let completion := session.run script input
  return (completion, { session with env := after completion })

end Session

end Shell
