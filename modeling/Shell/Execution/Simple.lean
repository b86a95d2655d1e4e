/-
Simple commands: assignments, and commands with a name.

Without a name, assignments stay. Before a name they hold for the time of the command alone:
the words of the command are expanded and the command runs with the new values, and afterwards
the old ones are restored, however the command ends.
-/
import Shell.Builtin.Run

set_option autoImplicit false

namespace Shell.Execution

/-- The status of a command that stands for nothing. -/
def notFoundStatus : Nat := 127

/-! ## Assignments -/

/-- The value that an assignment gives its variable. -/
def assignedValue (run : Runner) (a : Assignment) : Exec String := do
  let value ← Expansion.wordText run a.value
  if a.append then return (((← Exec.env).get? a.name).getD "") ++ value
  return value

/-- Assigns one value after the other. -/
def assignAll (run : Runner) : List Assignment → Exec Unit
  | [] => return
  | a :: rest => do
    let value ← assignedValue run a
    Exec.modifyEnv fun env => env.set a.name value
    assignAll run rest

/-- The values of names with one name given another value; a name keeps its place. -/
def replaceValue (name value : String) : List (String × String) → List (String × String)
  | [] => [(name, value)]
  | (n, v) :: rest => if n = name then (name, value) :: rest else (n, v) :: replaceValue name value rest

/-- The values that assignments give their names for the time of a command, after those of the
assignments before them. The values all start from the environment as it is. -/
def temporaryValues (run : Runner) (values : List (String × String)) :
    List Assignment → Exec (List (String × String))
  | [] => return values
  | a :: rest => do
    let value ← assignedValue run a
    temporaryValues run (replaceValue a.name value values) rest

/-- A statement of assignments alone. Its status is that of the last command substitution in
it. -/
def assignOnly (run : Runner) (assignments : List Assignment) : Exec Outcome := do
  Exec.modify fun s => { s with substitution := none }
  match ← Exec.attempt (assignAll run assignments) with
  | .ok () => return .status ((← Exec.get).substitution.getD 0)
  | .error e =>
    Exec.diagnose e.message
    return .status 1

/-! ## Commands -/

/-- Calls a function: its body runs in a frame of its own and with no loop around it. -/
def callFunction (run : Runner) (name : String) (body : Sequence) (args : List String) :
    Exec Nat := do
  let limit := (← Exec.context).limits.maxCallDepth
  let before ← Exec.get
  if limit ≤ before.env.callDepth then Exec.abort (.limit (.callDepth limit))
  Exec.modify fun s =>
    { s with
      env := { s.env.pushFrame ⟨args, some name⟩ with callDepth := s.env.callDepth + 1 }
      loopDepth := 0 }
  let outcome ← (run body).ensure fun s =>
    { s with env := s.env.leaveCall, loopDepth := before.loopDepth }
  return outcome.toStatus

/-- Runs the command that fields make: nothing, or a name and its arguments. -/
def runFields (run : Runner) : List String → Exec Outcome
  | [] => return .status 0
  | name :: args => do
    match Meaning.resolve? (← Exec.env) (← Exec.context).spawner name with
    | some (.builtin which) => which.run run args
    | some (.function body) => return .status (← callFunction run name body args)
    | some (.utility utility) => return .status (← Exec.start utility args)
    | some (.keyword _) | none =>
      Exec.diagnose (notFound name)
      return .status notFoundStatus

/-- Runs `x` with some variables set and exported for its time. -/
def withTemporary {α : Type} (values : List (String × String)) (x : Exec α) : Exec α := do
  let (env, saved) := (← Exec.env).applyTemporary values
  Exec.modifyEnv fun _ => env
  x.ensure fun s => { s with env := s.env.restoreTemporary saved }

/-- A command with a name, and with assignments before it. -/
def runNamed (run : Runner) (words : List Word) (assignments : List Assignment) :
    Exec Outcome := do
  match ← Exec.attempt (temporaryValues run [] assignments) with
  | .error e =>
    Exec.diagnose e.message
    return .status 1
  | .ok values =>
    withTemporary values do
      match ← Exec.attempt (Expansion.fields run words) with
      | .error e =>
        Exec.diagnose e.message
        return .status 1
      | .ok fields => runFields run fields

/-- Runs a simple command. -/
def simple (run : Runner) (name : Option Word) (args : List Word)
    (assignments : List Assignment) : Exec Outcome :=
  match name with
  | some word => runNamed run (word :: args) assignments
  | none => assignOnly run assignments

end Shell.Execution
