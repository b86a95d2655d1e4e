/-
Running scripts.

A sequence runs its and-or lists one after the other until one comes to a signal. Every and-or
list that starts is counted, and a run that starts more of them than its limit allows fails.

The count is also why running ends. All code that is not part of the and-or list itself, such
as the bodies of loops and functions, the script of `eval` and command substitutions, is
sequences again, and those are run with a budget of and-or lists that is one less. As the
budget starts at the limit, and the lists around one are all counted before it, the count
reaches the limit before the budget is used up.

Each stage of a pipeline is a task of its own and runs in a fork, with the pipe from the stage before it
and the pipe to the stage after it. The first one reads what the pipeline reads, and the last one writes
where the pipeline writes. The status of the pipeline is that of its last stage.
-/
import Shell.Execution.Loop
import Shell.Execution.Simple

set_option autoImplicit false

namespace Shell.Execution

/-- The status of a stage that was stopped because nobody read what it wrote. -/
def brokenPipeStatus : Nat := 141

/-- The end of a stage. -/
def endStage (r : Except Abort Nat) (s : State) : Job Ending :=
  match r with
  | .ok status => .finish ⟨.ok status, s.env⟩
  | .error .brokenPipe => .finish ⟨.ok brokenPipeStatus, s.env⟩
  | .error abort => .fail abort

/-- The job of a stage. -/
def stageJob (c : Context) (s : State) (x : Exec Outcome) (input : Nat) (output : Output) :
    Job Ending :=
  Exec.isolate false (fun c => { c with input := input, output := output }) x c s endStage

/-- Runs codes at the same time as the stages of a pipeline, and returns the status of the last
one. -/
def stages (codes : List (Exec Outcome)) : Exec Nat := fun c s next =>
  if c.limits.pipeCapacity < 1 then next (.error (.fault .noCapacity)) s
  else
    .pipeline codes.length c.limits.pipeCapacity.toNat c.input c.output
      (fun index input output =>
        stageJob c s (codes.getD index (return .status 0)) input output)
      fun
        | .ok ending => next ending.status s
        | .error abort => next (.error abort) s

/-- Runs a command, with `run` for the sequences in it. -/
def command (run : Runner) : Command → Exec Outcome
  | .simple _ name args assignments => simple run name args assignments
  | .choice _ condition body branches otherwise =>
    choose run otherwise (⟨condition, body⟩ :: branches)
  | .loop _ kind condition body => loop run kind condition body
  | .each _ name words body => each run name words body
  | .group _ body => run body
  | .subshell _ body => return .status (← Exec.isolate false id (run body))
  | .function _ name body => do
    Exec.modifyEnv fun env => env.defineFunction name body
    return .status 0
  | .arithmetic _ expression => do
    match ← Exec.attempt (Expansion.evaluateWord run expression) with
    | .ok value => return .status (if value = 0 then 1 else 0)
    | .error e =>
      Exec.diagnose e.message
      return .status 1

/-- Runs the only command of a pipeline. After `!`, `exit` only gives the command its
status. -/
def single (run : Runner) (negated : Bool) (c : Command) : Exec Outcome :=
  (command run c).handle fun
    | .exit status => if negated then return .status status else Exec.abort (.exit status)
    | a => Exec.abort a

/-- The status of a pipeline of which the last stage has the given one. -/
def negate (negated : Bool) (status : Nat) : Nat :=
  if negated then if status = 0 then 1 else 0 else status

/-- Runs a pipeline and records its status. A signal is passed on and records nothing. -/
def pipeline (run : Runner) (p : Pipeline) : Exec Outcome := do
  let outcome ←
    if p.rest.isEmpty then single run p.negated p.first
    else Outcome.status <$> stages ((p.first :: p.rest).map (command run))
  match outcome with
  | .status code =>
    let status := negate p.negated code
    Exec.modifyEnv fun env => { env with status := status }
    return .status status
  | signal => return signal

/-- Whether a pipeline runs after a status. -/
def isTaken (connective : Connective) (status : Nat) : Bool :=
  match connective with
  | .and => status == 0
  | .or => status != 0

/-- Runs the further pipelines of an and-or list that has come to `outcome`. -/
def joined (run : Runner) : Outcome → List Joined → Exec Outcome
  | outcome, [] => return outcome
  | .status status, next :: rest => do
    if isTaken next.connective status then joined run (← pipeline run next.pipeline) rest
    else joined run (.status status) rest
  | signal, _ => return signal

/-- Runs an and-or list. -/
def andOr (run : Runner) (list : AndOrList) : Exec Outcome := do
  joined run (← pipeline run list.first) list.rest

/-- Fails because too many and-or lists have been started. -/
def tooManyCommands {α : Type} : Exec α := do
  Exec.abort (.limit (.commands (← Exec.context).limits.maxCommandCount))

/-- Counts an and-or list, and fails if that is one too many. -/
def countCommand : Exec Unit := do
  if (← Exec.context).limits.maxCommandCount < (← Exec.count) then tooManyCommands

/-- Runs statements one after the other, each by `one`, after statements that came to
`status`. -/
def statements (one : AndOrList → Exec Outcome) : (status : Nat) → List AndOrList → Exec Outcome
  | status, [] => return .status status
  | _, list :: rest => do
    match ← one list with
    | .status status => statements one status rest
    | signal => return signal

/-- Runs a sequence with a budget of and-or lists that can be inside each other. -/
def sequence : (budget : Nat) → Runner
  | 0 => fun s => statements (fun _ => do countCommand; tooManyCommands) 0 s.statements
  | budget + 1 => fun s =>
    statements (fun list => do countCommand; andOr (sequence budget) list) 0 s.statements

/-- Runs a sequence. -/
def run : Runner := fun s => do
  sequence (← Exec.context).limits.maxCommandCount.toNat s

/-- Runs a whole script. `exit` ends it with a status; a limit that is reached is reported, and
ends it with a status of its own. -/
def script (s : Sequence) : Exec Nat :=
  (do return (← run s).toStatus : Exec Nat).handle fun
    | .exit status => return status
    | .limit e => do
      Exec.diagnose e.message
      return 126
    | a => Exec.abort a

end Shell.Execution
