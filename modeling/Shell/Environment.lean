/-
The environment that commands run in: variables, which of them are exported,
functions, positional parameters, and the status of the last command.

Variables are dynamically scoped: a function reads and writes the table of its
caller. Only the positional parameters belong to a call, so they form a stack with a
frame for the script at the bottom, which is never taken away.
-/
import Shell.Script
import Shell.Table

set_option autoImplicit false

namespace Shell

/-- The positional parameters of the script or of one function call. -/
structure Frame where
  args : List String
  /-- The function that was called. -/
  function : Option String := none
  deriving Repr, DecidableEq, Inhabited

/-- What is restored of one name after a command with assignments before it. -/
structure Restore where
  name : String
  value : Option String
  exported : Bool
  deriving Repr, DecidableEq

/-- The name of a shell that is not given one. -/
def defaultName : String := "minish"

structure Environment where
  vars : Table String := ∅
  /-- The names that are exported. They need not have a value. -/
  exported : Table Unit := ∅
  functions : Table Sequence := ∅
  /-- The frame of the innermost call. -/
  frame : Frame := ⟨[], none⟩
  /-- The frames below it, the innermost first. -/
  callers : List Frame := []
  /-- `$0`. -/
  scriptName : String := defaultName
  /-- `$$`, the number of the process that the shell runs in. -/
  process : Nat := 1
  /-- `$?`. -/
  status : Nat := 0
  callDepth : Nat := 0
  deriving Inhabited

namespace Environment

/-- An environment with some variables, all of them exported, and positional
parameters. -/
def initial (vars : List (String × String)) (args : List String) (name : String)
    (process : Nat := 1) : Environment :=
  { vars := .ofList vars
    exported := .ofList (vars.map fun v => (v.1, ()))
    frame := ⟨args, none⟩
    scriptName := name
    process := process }

/-! ## Variables -/

def get? (env : Environment) (name : String) : Option String := env.vars.get? name

def set (env : Environment) (name value : String) : Environment :=
  { env with vars := env.vars.insert name value }

/-- Takes away a variable and its export mark. -/
def unset (env : Environment) (name : String) : Environment :=
  { env with vars := env.vars.erase name, exported := env.exported.erase name }

def contains (env : Environment) (name : String) : Bool := env.vars.contains name

/-! ## Exports -/

def addExport (env : Environment) (name : String) : Environment :=
  { env with exported := env.exported.insert name () }

def removeExport (env : Environment) (name : String) : Environment :=
  { env with exported := env.exported.erase name }

/-- The exported names that have a value, with their values. -/
def exportedVariables (env : Environment) : List (String × String) :=
  env.exported.keys.filterMap fun name => (env.get? name).map (name, ·)

/-- Sets and exports one variable for the time of a command. -/
def override (env : Environment) (name value : String) : Environment :=
  (env.set name value).addExport name

/-- What has to be restored of a name. -/
def saved (env : Environment) (name : String) : Restore :=
  ⟨name, env.get? name, env.exported.contains name⟩

/-- Restores one name. -/
def restore (env : Environment) (r : Restore) : Environment :=
  let env := match r.value with
    | some value => env.set r.name value
    | none => { env with vars := env.vars.erase r.name }
  if r.exported then env else env.removeExport r.name

/-- Sets and exports variables for the time of a command, and says what is to be
restored after it, the last one first. -/
def applyTemporary (env : Environment) (values : List (String × String)) :
    Environment × List Restore :=
  values.foldl (fun (env, saved) (name, value) => (env.override name value, env.saved name :: saved))
    (env, [])

def restoreTemporary (env : Environment) (saved : List Restore) : Environment :=
  saved.foldl restore env

/-! ## Positional parameters -/

def args (env : Environment) : List String := env.frame.args

def setArgs (env : Environment) (args : List String) : Environment :=
  { env with frame := { env.frame with args := args } }

/-- Drops the first `count` positional parameters; none if there are not so many. -/
def shift? (env : Environment) (count : Int) : Option Environment :=
  if count < 0 ∨ env.args.length < count then none
  else some (env.setArgs (env.args.drop count.toNat))

def pushFrame (env : Environment) (frame : Frame) : Environment :=
  { env with frame := frame, callers := env.frame :: env.callers }

/-- Takes away the innermost frame; none if it is that of the script. -/
def popFrame? (env : Environment) : Option (Frame × Environment) :=
  match env.callers with
  | [] => none
  | caller :: callers => some (env.frame, { env with frame := caller, callers := callers })

/-- The environment after a function call: without its frame, and one call less deep. -/
def leaveCall (env : Environment) : Environment :=
  match env.popFrame? with
  | some (_, env) => { env with callDepth := env.callDepth - 1 }
  | none => env

/-- The number of frames. -/
def frameCount (env : Environment) : Nat := env.callers.length + 1

/-! ## Functions -/

def defineFunction (env : Environment) (name : String) (body : Sequence) : Environment :=
  { env with functions := env.functions.insert name body }

def function? (env : Environment) (name : String) : Option Sequence := env.functions.get? name

def removeFunction (env : Environment) (name : String) : Environment :=
  { env with functions := env.functions.erase name }

/-! ## Forks -/

/-- The environment of a subshell, a pipeline stage or a command substitution. It
starts with what its parent has, apart from the frames of the callers, and shares
nothing with it. -/
def fork (env : Environment) : Environment := { env with callers := [] }

end Environment

end Shell
