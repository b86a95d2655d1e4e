/-
What runs in a shell: actions with a context and a state.

The context does not change while code runs in one environment: the limits, the utilities
that can be started, and the three streams. The state is the environment with what goes with
it: the depth of loops, the status of the last command substitution, and the environments
around.

The state survives an abort. So code can be left early and still undo what it has done, which
`ensure` is for, and a session has the environment that a failed run left behind.
-/
import Shell.Environment
import Shell.Files
import Shell.Job

set_option autoImplicit false

namespace Shell

/-- The limits that keep scripts bounded. -/
structure Limits where
  /-- How deep function calls may be nested. -/
  maxCallDepth : Int := 50
  /-- How many and-or lists may be started in one run. -/
  maxCommandCount : Int := 100000
  /-- How many times one loop may go around. -/
  maxLoopIterations : Int := 100000
  /-- The capacity of the pipes between the stages of a pipeline. -/
  pipeCapacity : Int := 65536
  deriving DecidableEq, Repr

/-- How a task of the shell ends: with a status or an abort, and with an environment. -/
structure Ending where
  status : Except Abort Nat
  env : Environment

/-! ## Utilities -/

/-- What a utility is started with. -/
structure Invocation where
  args : List String
  /-- The exported variables. -/
  vars : Table String
  input : Nat
  output : Output
  errors : Output
  files : Files

/-- What a utility answers: text that is still to be written, and a status of which the low
eight bits count. -/
structure Reply where
  output : String := ""
  errors : String := ""
  status : Int := 0
  deriving DecidableEq, Repr

/-- A program that runs inside the shell. -/
abbrev Utility := Invocation → Action Ending Reply

/-- Where utilities are looked up: in tables, of which the first that has a name wins. -/
abbrev Spawner := List (Table Utility)

/-- The utility of a name. -/
def Spawner.find? (spawner : Spawner) (name : String) : Option Utility :=
  spawner.findSome? fun registry => registry.get? name

/-- The low eight bits of a number. -/
def byte (n : Int) : Nat := (n % 256).toNat

/-- Writes text, unless there is none. -/
def Action.writeText {ρ : Type} (output : Output) (text : String) : Action ρ Unit :=
  if text.isEmpty then pure () else Action.write output text

/-- Runs a utility, writes what it leaves to be written, and returns its status. -/
def Utility.start (utility : Utility) (call : Invocation) : Action Ending Nat := do
  let reply ← utility call
  Action.writeText call.output reply.output
  Action.writeText call.errors reply.errors
  return byte reply.status

/-! ## Context and state -/

/-- What a shell has from the host that it runs on. -/
structure Host where
  /-- The number of its process. -/
  process : Nat := 1
  /-- The widest field that there is memory for. -/
  memory : Nat := 4294967296
  /-- How deep the stack may be when a run starts. -/
  stackLimit : Nat := 1000
  deriving DecidableEq, Repr

structure Context where
  limits : Limits
  spawner : Spawner
  /-- The name of the shell in diagnostics. -/
  name : String
  files : Files
  input : Nat
  output : Output
  errors : Output
  /-- Whether the output becomes the text of a command substitution. -/
  captured : Bool := false
  host : Host := {}

/-- The context of a command substitution, which writes to a sink of its own. -/
def Context.capturing (c : Context) (sink : Nat) : Context := { c with output := .sink sink, captured := true }

structure State where
  env : Environment
  /-- The environments that arithmetic assignments reach besides `env`, the nearest first:
  those around a command substitution. -/
  outer : List Environment := []
  /-- How many loops are around. -/
  loopDepth : Nat := 0
  /-- The status of the last command substitution of an assignment without a command. -/
  substitution : Option Nat := none

/-- Code that runs in a shell. -/
def Exec (α : Type) :=
  Context → State → (Except Abort α → State → Job Ending) → Job Ending

namespace Exec

variable {α β : Type}

instance : Monad Exec where
  pure a := fun _ s next => next (.ok a) s
  bind x f := fun c s next =>
    x c s fun
      | .ok a, s => f a c s next
      | .error abort, s => next (.error abort) s

protected theorem bind_pure (x : Exec α) : x >>= pure = x := by
  funext c s next
  exact congrArg (x c s) (funext fun r => funext fun s => by cases r <;> rfl)

protected theorem bind_assoc {γ : Type} (x : Exec α) (f : α → Exec β) (g : β → Exec γ) :
    x >>= f >>= g = x >>= fun a => f a >>= g := by
  funext c s next
  exact congrArg (x c s) (funext fun r => funext fun s => by cases r <;> rfl)

def context : Exec Context := fun c s next => next (.ok c) s

def get : Exec State := fun _ s next => next (.ok s) s

def modify (f : State → State) : Exec Unit := fun _ s next => next (.ok ()) (f s)

def env : Exec Environment := return (← get).env

def modifyEnv (f : Environment → Environment) : Exec Unit :=
  modify fun s => { s with env := f s.env }

/-- Leaves the code that runs. -/
def abort (a : Abort) : Exec α := fun _ s next => next (.error a) s

def fault (f : Fault) : Exec α := abort (.fault f)

/-- Handles an abort of `x`, in the state that it left. -/
def handle (x : Exec α) (f : Abort → Exec α) : Exec α := fun c s next =>
  x c s fun
    | .ok a, s => next (.ok a) s
    | .error abort, s => f abort c s next

/-- Handles an expansion error of `x`. -/
def handleExpansion (x : Exec α) (f : ExpansionError → Exec α) : Exec α :=
  x.handle fun
    | .expansion e => f e
    | a => abort a

/-- The result of `x`, or its expansion error. -/
def attempt (x : Exec α) : Exec (Except ExpansionError α) :=
  handleExpansion (return .ok (← x)) fun e => return .error e

/-- Changes the state after `x`, however `x` ends. -/
def ensure (x : Exec α) (f : State → State) : Exec α := fun c s next =>
  x c s fun r s => next r (f s)

/-- An action as code. -/
def lift (action : Action Ending α) : Exec α := fun _ s next => action fun r => next r s

/-- Writes text to standard output, unless there is none. -/
def writeOutput (text : String) : Exec Unit := do
  lift (Action.writeText (← context).output text)

/-- Writes text to standard error, unless there is none. -/
def writeErrors (text : String) : Exec Unit := do
  lift (Action.writeText (← context).errors text)

/-- Writes a diagnostic. -/
def diagnose (message : String) : Exec Unit := do
  writeErrors ((← context).name ++ ": " ++ message ++ "\n")

/-- Counts an and-or list and returns their number in the whole run. -/
def count : Exec Nat := lift (Action.node .count)

end Exec

end Shell
