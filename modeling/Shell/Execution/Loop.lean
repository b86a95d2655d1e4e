/-
Choices and loops.

The code of a loop runs with one more loop around it. A signal that reaches a loop is for it if
it is for one level; otherwise the loop passes it on for one level less. A round is counted when
it starts, and a loop that has gone around as often as the limit allows fails at the start of
the next round.
-/
import Shell.Expansion

set_option autoImplicit false

namespace Shell.Execution

/-- Runs the code of the first branch of which the condition succeeds, or else `otherwise`. -/
def choose (run : Runner) (otherwise : Option Sequence) : List Branch → Exec Outcome
  | [] =>
    match otherwise with
    | some body => run body
    | none => return .status 0
  | branch :: branches => do
    match ← run branch.condition with
    | .status 0 => run branch.body
    | .status _ => choose run otherwise branches
    | signal => return signal

/-- What an outcome of the code in a loop is to the loop. -/
inductive Reaction where
  /-- The code has come to a status. -/
  | status (status : Nat)
  /-- The loop ends. -/
  | stop
  /-- The loop goes on with the next round. -/
  | next
  /-- The loop ends with this outcome. -/
  | pass (outcome : Outcome)
  deriving DecidableEq, Repr

/-- What an outcome of the code in a loop is to the loop. -/
def Reaction.ofOutcome : Outcome → Reaction
  | .status code => .status code
  | .returned code => .pass (.returned code)
  | .broken levels => if 1 < levels then .pass (.broken (levels - 1)) else .stop
  | .continued levels => if 1 < levels then .pass (.continued (levels - 1)) else .next

/-- Whether the status of a condition lets a loop go around. -/
def goesOn (kind : LoopKind) (status : Nat) : Bool :=
  match kind with
  | .while => status == 0
  | .until => status != 0

def kindName : LoopKind → String
  | .while => "while"
  | .until => "until"

/-- Fails because a loop has gone around as often as it may. -/
def tooManyRounds {α : Type} (loop : String) : Exec α := do
  Exec.abort (.limit (.iterations loop (← Exec.context).limits.maxLoopIterations))

/-- The rounds of a loop with a condition, of which at most `left` may still start. `status` is
that of the last round. -/
def rounds (run : Runner) (kind : LoopKind) (condition body : Sequence) :
    (left : Nat) → (status : Nat) → Exec Outcome
  | 0, _ => tooManyRounds (kindName kind)
  | left + 1, status => do
    match Reaction.ofOutcome (← run condition) with
    | .pass outcome => return outcome
    | .stop => return .status status
    | .next => rounds run kind condition body left status
    | .status code =>
      if goesOn kind code then
        match Reaction.ofOutcome (← run body) with
        | .pass outcome => return outcome
        | .stop => return .status 0
        | .next => rounds run kind condition body left 0
        | .status code => rounds run kind condition body left code
      else return .status status

/-- The rounds of a loop over words, of which at most `left` may still start. `status` is that
of the last round. -/
def roundsOver (run : Runner) (name : String) (body : Sequence) :
    (words : List String) → (left : Nat) → (status : Nat) → Exec Outcome
  | [], _, status => return .status status
  | _ :: _, 0, _ => tooManyRounds "for"
  | word :: words, left + 1, _ => do
    Exec.modifyEnv fun env => env.set name word
    match Reaction.ofOutcome (← run body) with
    | .pass outcome => return outcome
    | .stop => return .status 0
    | .next => roundsOver run name body words left 0
    | .status code => roundsOver run name body words left code

/-- Runs `x` with one more loop around it. -/
def inLoop {α : Type} (x : Exec α) : Exec α := do
  Exec.modify fun s => { s with loopDepth := s.loopDepth + 1 }
  x.ensure fun s => { s with loopDepth := s.loopDepth - 1 }

/-- How many rounds a loop may have. -/
def maxRounds : Exec Nat := do
  return (← Exec.context).limits.maxLoopIterations.toNat

/-- Runs a loop with a condition. -/
def loop (run : Runner) (kind : LoopKind) (condition body : Sequence) : Exec Outcome := do
  inLoop (rounds run kind condition body (← maxRounds) 0)

/-- Runs a loop over words, which are those given or the positional parameters. -/
def each (run : Runner) (name : String) (words : Option (List Word)) (body : Sequence) :
    Exec Outcome := do
  let go (values : List String) : Exec Outcome := do
    inLoop (roundsOver run name body values (← maxRounds) 0)
  match words with
  | none => go (← Exec.env).args
  | some words =>
    match ← Exec.attempt (Expansion.fields run words) with
    | .ok values => go values
    | .error e =>
      Exec.diagnose e.message
      return .status 1

end Shell.Execution
