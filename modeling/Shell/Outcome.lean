/-
What running code comes to: a status, or a signal to the code around it.

`return` is meant for the nearest function call, `break` and `continue` for a number of
loops. A fork stops all signals: whatever runs in a subshell, a pipeline stage or a command
substitution comes to a status.
-/
import Shell.Exec

set_option autoImplicit false

namespace Shell

inductive Outcome where
  | status (status : Nat)
  /-- Leave the function with a status. -/
  | returned (status : Nat)
  /-- Leave so many loops. -/
  | broken (levels : Nat)
  /-- Leave all of so many loops but the outermost, and go on with that one. -/
  | continued (levels : Nat)
  deriving DecidableEq, Repr

namespace Outcome

/-- The status of an outcome that nothing is left to react to. -/
def toStatus : Outcome → Nat
  | status code => code
  | returned code => code
  | broken _ => 0
  | continued _ => 0

end Outcome

/-- Code that comes to an outcome when it runs. -/
abbrev Runner := Sequence → Exec Outcome

namespace Exec

/-- The state in which a fork starts. -/
def forked (s : State) (shareArithmetic : Bool) : State :=
  { env := s.env.fork
    outer := if shareArithmetic then s.env :: s.outer else []
    loopDepth := s.loopDepth }

/-- The state after a fork: that before it, apart from what arithmetic has assigned. -/
def rejoined (s after : State) (shareArithmetic : Bool) : State :=
  if shareArithmetic then
    match after.outer with
    | env :: outer => { s with env := env, outer := outer }
    | [] => s
  else s

/-- Runs code in a fork and returns its status, which `exit` gives too. -/
def isolate (shareArithmetic : Bool) (change : Context → Context) (x : Exec Outcome) : Exec Nat :=
  fun c s next =>
    x (change c) (forked s shareArithmetic) fun r after =>
      let s := rejoined s after shareArithmetic
      match r with
      | .ok outcome => next (.ok outcome.toStatus) s
      | .error (.exit status) => next (.ok status) s
      | .error abort => next (.error abort) s

end Exec

end Shell
