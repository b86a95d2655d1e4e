/-
What arithmetic assigns in the environments around.

A command substitution shares its arithmetic with the environment that it was forked from, and that one
with its own parent if it is a substitution too. So environments stand in chains, each of which is cut
by a subshell or by a stage of a pipeline. `x.Assigns c s log r s'` says of a run of code which
assignments have gone to the environments around: those of arithmetic in its own environment and in
substitutions directly below it, in their order. Subshells and stages below it are left out, and so
are variables that are assigned in another way.

The relation follows how code is put together, with one rule for each way. What comes of it is one fact
about the states before and after (`Assigns.outer_eq`): every environment around has had the assignments
of the list, and nothing else has happened to it.
-/
import Shell.Execution
import Shell.Expansion
import Shell.Proofs.Arithmetic.Assigning

set_option autoImplicit false

namespace Shell

/-! ## 1. Assignments -/

namespace Environment

/-- An environment after assignments, in their order. -/
def setAll (env : Environment) (log : List (String × String)) : Environment :=
  log.foldl (fun env entry => env.set entry.1 entry.2) env

/-- The last value that a name is given. -/
def lastValue? (log : List (String × String)) (name : String) : Option String :=
  (log.reverse.find? fun entry => entry.1 = name).map Prod.snd

end Environment

namespace Expansion

/-- The assignments that the arithmetic expression in a text makes. -/
def assignments (text : String) (s : State) : List (String × String) :=
  Arithmetic.assignments store text.toList s

end Expansion

/-! ## 2. Runs -/

namespace Exec

/-- What is left of the end of code in a fork. -/
def settle : Except Abort Outcome → Except Abort Nat
  | .ok outcome => .ok outcome.toStatus
  | .error (.exit status) => .ok status
  | .error abort => .error abort

/-- Code that starts in a state can come to a result and another state after the assignments of the
list have gone to the environments around. -/
inductive Assigns : {α : Type} → Exec α → Context → State → List (String × String) →
    Except Abort α → State → Prop where
  /-- One step that leaves the environments around alone. -/
  | step {α : Type} {f : State → Except Abort α × State} {c : Context} {s : State}
      (h : ∀ s, (f s).2.outer = s.outer) :
      Assigns (fun _ s next => next (f s).1 (f s).2) c s [] (f s).1 (f s).2
  | context {c : Context} {s : State} : Assigns Exec.context c s [] (.ok c) s
  /-- An action can have any result, and knows nothing of the state. -/
  | lift {α : Type} {action : Action Ending α} {c : Context} {s : State} {r : Except Abort α} :
      Assigns (Exec.lift action) c s [] r s
  | evaluate {text : String} {c : Context} {s : State} {r : Except Abort Int64} :
      Assigns (Expansion.evaluate text) c s (Expansion.assignments text s) r
        (Expansion.store.assignAll s (Expansion.assignments text s))
  | bind_ok {α β : Type} {x : Exec α} {f : α → Exec β} {c : Context} {s s₁ s' : State}
      {log log' : List (String × String)} {a : α} {r : Except Abort β}
      (hx : Assigns x c s log (.ok a) s₁) (hf : Assigns (f a) c s₁ log' r s') :
      Assigns (x >>= f) c s (log ++ log') r s'
  | bind_error {α β : Type} {x : Exec α} {f : α → Exec β} {c : Context} {s s' : State}
      {log : List (String × String)} {abort : Abort} (hx : Assigns x c s log (.error abort) s') :
      Assigns (x >>= f) c s log (.error abort) s'
  | handle_ok {α : Type} {x : Exec α} {f : Abort → Exec α} {c : Context} {s s' : State}
      {log : List (String × String)} {a : α} (hx : Assigns x c s log (.ok a) s') :
      Assigns (x.handle f) c s log (.ok a) s'
  | handle_error {α : Type} {x : Exec α} {f : Abort → Exec α} {c : Context} {s s₁ s' : State}
      {log log' : List (String × String)} {abort : Abort} {r : Except Abort α}
      (hx : Assigns x c s log (.error abort) s₁) (hf : Assigns (f abort) c s₁ log' r s') :
      Assigns (x.handle f) c s (log ++ log') r s'
  | ensure {α : Type} {x : Exec α} {f : State → State} {c : Context} {s s' : State}
      {log : List (String × String)} {r : Except Abort α} (h : ∀ s, (f s).outer = s.outer)
      (hx : Assigns x c s log r s') : Assigns (x.ensure f) c s log r (f s')
  /-- What a substitution assigns goes to the environment that it was forked from, and to those
  around it. -/
  | share {x : Exec Outcome} {change : Context → Context} {c : Context} {s after : State}
      {log : List (String × String)} {r : Except Abort Outcome}
      (hx : Assigns x (change c) (forked s true) log r after) :
      Assigns (isolate true change x) c s log (settle r) (rejoined s after true)
  /-- What a subshell does stays in it. -/
  | apart {x : Exec Outcome} {change : Context → Context} {c : Context} {s : State}
      {r : Except Abort Nat} : Assigns (isolate false change x) c s [] r s
  | stages {codes : List (Exec Outcome)} {c : Context} {s : State} {r : Except Abort Nat} :
      Assigns (Execution.stages codes) c s [] r s

end Exec

end Shell
