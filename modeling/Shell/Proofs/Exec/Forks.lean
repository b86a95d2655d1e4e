/-
Forks.

A subshell and a stage of a pipeline run in a fork that shares nothing with its parent: when they have
ended, however that was, the state of the parent is the one before them. The fork of a command
substitution shares its arithmetic. So there is a list of assignments after which the parent has every
variable on it with its last value, and nothing else of the parent is different, but for the status that
the substitution gives. The list is that of `Exec.Assigns`: arithmetic in the fork itself puts assignments
there, and so do substitutions directly in it, whereas subshells and stages in it do not, and neither
does any other way to assign.
-/
import Shell.Proofs.Exec.Utilities
import Shell.Session

set_option autoImplicit false

namespace Shell

open Execution

variable {c : Context} {s : State}

/-! ## 1. Environments -/

/-- An environment after the assignments of a list and with another status: each variable has the last
value that it was given, or the one it had, and all else is as before. -/
structure Environment.Written (env : Environment) (log : List (String × String)) (after : Environment) :
    Prop where
  get? : ∀ name, after.get? name = (lastValue? log name).or (env.get? name)
  rest : after = { env with vars := after.vars, status := after.status }

/-- The status is not looked at. -/
theorem Environment.Written.withStatus {env after : Environment} {log : List (String × String)}
    (h : env.Written log after) (status : Nat) : env.Written log { after with status := status } :=
  ⟨h.get?, congrArg (fun e : Environment => { e with status := status }) h.rest⟩

end Shell
