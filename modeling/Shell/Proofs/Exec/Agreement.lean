/-
Code that keeps a property of environments.

That code keeps a property of environments is said by what can follow it: if what follows does not care
for environments without the property, then neither does the code together with what follows
(`Exec.Agrees`). Such a statement holds of every way to put code together if it holds of the parts, and it is an
equation of jobs. So it also says that one piece of code may stand for another where the two differ in such
environments only: checks that look for the property may be put anywhere, and never find it missing.

The environments of a state are the one that runs, and those around it that arithmetic assigns in.
-/
import Shell.Execution

set_option autoImplicit false

namespace Shell

/-! ## 1. States -/

/-- All environments of a state have a property. -/
structure State.All (P : Environment → Prop) (s : State) : Prop where
  env : P s.env
  outer : ∀ env ∈ s.outer, P env

section

variable {P : Environment → Prop} {s after : State}

/-- The environments around the one that runs are not touched. -/
theorem State.All.withEnv (h : s.All P) {env : Environment} (he : P env) : { s with env := env }.All P :=
  ⟨he, h.outer⟩

/-- A fork starts with the environments of its parent. -/
theorem State.All.forked (hfork : ∀ env, P env → P env.fork) (h : s.All P) (shareArithmetic : Bool) :
    (Exec.forked s shareArithmetic).All P := by
  refine ⟨hfork _ h.env, fun env he => ?_⟩
  cases shareArithmetic with
  | false => cases he
  | true =>
    rcases List.mem_cons.mp he with rfl | he
    · exact h.env
    · exact h.outer env he

/-- A parent goes on with its own environments, or with what its fork has made of them. -/
theorem State.All.rejoined (h : s.All P) (ha : after.All P) (shareArithmetic : Bool) :
    (Exec.rejoined s after shareArithmetic).All P := by
  cases shareArithmetic with
  | false => exact h
  | true =>
    unfold Exec.rejoined
    cases ho : after.outer with
    | nil => exact h
    | cons env outer =>
      have hall := ha.outer
      rw [ho] at hall
      exact ⟨hall env List.mem_cons_self, fun e he => hall e (List.mem_cons_of_mem _ he)⟩

end

/-! ## 2. Code put together

Code is compared by what it becomes for a continuation. So there is one rule for each way in which code is put
together, and a proof about a command follows its text. -/

namespace Exec

variable {P : Environment → Prop} {α β : Type} {V : α → Prop} {W : β → Prop}

/-- Two pieces of code become the same job in every state of the kind, if what follows them does for all
states of the kind, and for all values of `V`. -/
def Agrees (P : Environment → Prop) (V : α → Prop) (x x' : Exec α) : Prop :=
  ∀ (c : Context) (s : State) (next next' : Except Abort α → State → Job Ending), s.All P →
    (∀ r s', s'.All P → (∀ a, r = .ok a → V a) → next r s' = next' r s') → x c s next = x' c s next'

/-- A value that is known says nothing of environments. -/
theorem agrees_pure {a : α} (h : V a) : Agrees P V (pure a) (pure a) :=
  fun _ _ _ _ hs hn => hn _ _ hs fun _ hb => Except.ok.inj hb ▸ h

/-- Code that ends the run does not look at what follows. -/
theorem agrees_abort {abort : Abort} : Agrees P V (Exec.abort abort) (Exec.abort abort) :=
  fun _ _ _ _ hs hn => hn _ _ hs nofun

/-- The context says nothing of environments. -/
theorem agrees_context : Agrees P (fun _ => True) context context :=
  fun _ _ _ _ hs hn => hn _ _ hs fun _ _ => trivial

/-- The state that is told has the property in all of its environments. -/
theorem agrees_get : Agrees P (State.All P) get get :=
  fun _ _ _ _ hs hn => hn _ _ hs fun _ hb => Except.ok.inj hb ▸ hs

/-- A change of the state that keeps the property. -/
theorem agrees_modify {f : State → State} (h : ∀ s, s.All P → (f s).All P) :
    Agrees P (fun _ => True) (modify f) (modify f) :=
  fun _ _ _ _ hs hn => hn _ _ (h _ hs) fun _ _ => trivial

/-- A change of the environment that runs. -/
theorem agrees_modifyEnv {f : Environment → Environment} (h : ∀ env, P env → P (f env)) :
    Agrees P (fun _ => True) (modifyEnv f) (modifyEnv f) :=
  agrees_modify fun _ hs => hs.withEnv (h _ hs.env)

/-- Whatever an action does, it leaves the state alone. -/
theorem agrees_lift (action : Action Ending α) : Agrees P (fun _ => True) (lift action) (lift action) :=
  fun _ _ _ _ hs hn => congrArg action (funext fun r => hn r _ hs fun _ _ => trivial)

/-- **One piece of code after another.** What follows the first is the second, which agrees where the property
holds, and so the first may be taken by its own agreement. -/
theorem Agrees.bind {x x' : Exec α} {f f' : α → Exec β} (h : Agrees P V x x')
    (hf : ∀ a, V a → Agrees P W (f a) (f' a)) : Agrees P W (x >>= f) (x' >>= f') := by
  intro c s next next' hs hn
  refine h c s _ _ hs fun r s₁ hs₁ hr => ?_
  cases r with
  | ok a => exact hf a (hr a rfl) c s₁ next next' hs₁ hn
  | error abort => exact hn _ _ hs₁ nofun

/-- A value that is computed from another. -/
theorem Agrees.map {x x' : Exec α} {f : α → β} (h : Agrees P V x x') (hf : ∀ a, V a → W (f a)) :
    Agrees P W (f <$> x) (f <$> x') :=
  h.bind fun a ha => agrees_pure (hf a ha)

/-- Both branches agree, each where it is taken. -/
theorem Agrees.ite {p : Prop} [Decidable p] {x x' y y' : Exec α} (hx : p → Agrees P V x x')
    (hy : ¬ p → Agrees P V y y') : Agrees P V (if p then x else y) (if p then x' else y') := by
  split
  · next h => exact hx h
  · next h => exact hy h

/-- Both the code and what handles its aborts agree. -/
theorem Agrees.handle {x x' : Exec α} {f f' : Abort → Exec α} (h : Agrees P V x x')
    (hf : ∀ abort, Agrees P V (f abort) (f' abort)) : Agrees P V (x.handle f) (x'.handle f') := by
  intro c s next next' hs hn
  refine h c s _ _ hs fun r s₁ hs₁ hr => ?_
  cases r with
  | ok a => exact hn _ _ hs₁ hr
  | error abort => exact hf abort c s₁ next next' hs₁ hn

/-- Only an expansion error becomes a value. -/
theorem Agrees.handleExpansion {x x' : Exec α} {f f' : ExpansionError → Exec α} (h : Agrees P V x x')
    (hf : ∀ e, Agrees P V (f e) (f' e)) : Agrees P V (x.handleExpansion f) (x'.handleExpansion f') := by
  refine h.handle fun abort => ?_
  cases abort with
  | expansion e => exact hf e
  | exit _ | limit _ | brokenPipe | fault _ | cancelled => exact agrees_abort

/-- An abort that becomes a value says nothing of environments. -/
theorem Agrees.attempt {x x' : Exec α} (h : Agrees P V x x') :
    Agrees P (fun r => ∀ a, r = .ok a → V a) x.attempt x'.attempt := by
  have hok : Agrees P (fun r => ∀ a, r = .ok a → V a) (do return Except.ok (← x) : Exec (Except ExpansionError α))
      (do return Except.ok (← x') : Exec (Except ExpansionError α)) :=
    h.bind fun a ha => agrees_pure fun _ hb => Except.ok.inj hb ▸ ha
  exact hok.handleExpansion fun e => agrees_pure nofun

/-- A last change that keeps the property, however the code ends. -/
theorem Agrees.ensure {x x' : Exec α} {f : State → State} (h : Agrees P V x x')
    (hf : ∀ s, s.All P → (f s).All P) : Agrees P V (x.ensure f) (x'.ensure f) :=
  fun c s _ _ hs hn => h c s _ _ hs fun r s' hs' hr => hn r (f s') (hf s' hs') hr

/-- The environment that runs is told, and has the property. -/
theorem agrees_env : Agrees P P env env :=
  agrees_get.bind fun _ hs => agrees_pure hs.env

/-! ## 3. Streams -/

/-- What is written does not depend on environments. -/
theorem agrees_writeOutput (text : String) : Agrees P (fun _ => True) (writeOutput text) (writeOutput text) :=
  agrees_context.bind fun _ _ => agrees_lift _

/-- Nor does what is written to the errors. -/
theorem agrees_writeErrors (text : String) : Agrees P (fun _ => True) (writeErrors text) (writeErrors text) :=
  agrees_context.bind fun _ _ => agrees_lift _

/-- A diagnosis is a line of errors. -/
theorem agrees_diagnose (message : String) : Agrees P (fun _ => True) (diagnose message) (diagnose message) :=
  agrees_context.bind fun _ _ => agrees_writeErrors _

/-- A diagnostic and an outcome. -/
theorem agrees_diagnosed (message : String) (outcome : Outcome) :
    Agrees P (fun _ => True) (do diagnose message; return outcome) (do diagnose message; return outcome) :=
  (agrees_diagnose message).bind fun _ _ => agrees_pure trivial

/-! ## 4. Forks

A fork starts with copies of the environments of its parent, and these have the property. What comes back are the
environments that share its arithmetic, and they still have it. -/

/-- **A fork** has a copy of the environment, and the copies have the property too. What the fork leaves behind is
not looked at. -/
theorem Agrees.isolate (hfork : ∀ env, P env → P env.fork) {shareArithmetic : Bool}
    {change : Context → Context} {x x' : Exec Outcome} {V : Outcome → Prop} (h : Agrees P V x x') :
    Agrees P (fun _ => True) (Exec.isolate shareArithmetic change x)
      (Exec.isolate shareArithmetic change x') := by
  intro c s next next' hs hn
  unfold Exec.isolate
  refine h _ _ _ _ (hs.forked hfork _) fun r after ha _ => ?_
  have hafter := hs.rejoined ha shareArithmetic
  cases r with
  | ok outcome => exact hn _ _ hafter fun _ _ => trivial
  | error abort => cases abort <;> exact hn _ _ hafter fun _ _ => trivial

/-- The stages of a pipeline run in forks, which leave nothing but their statuses. -/
theorem agrees_stages (hfork : ∀ env, P env → P env.fork) {ι : Type} {f f' : ι → Exec Outcome} (l : List ι)
    {V : Outcome → Prop} (h : ∀ a ∈ l, Agrees P V (f a) (f' a)) :
    Agrees P (fun _ => True) (Execution.stages (l.map f)) (Execution.stages (l.map f')) := by
  intro c s next next' hs hn
  -- A stage starts in a fork of the state, and nothing but its ending comes back.
  have hjob (index input : Nat) (output : Output) :
      Execution.stageJob c s ((l.map f).getD index (return .status 0)) input output =
        Execution.stageJob c s ((l.map f').getD index (return .status 0)) input output := by
    rw [List.getD_eq_getElem?_getD, List.getD_eq_getElem?_getD, List.getElem?_map, List.getElem?_map]
    cases ha : l[index]? with
    | none => rfl
    | some a => exact (h a (List.mem_of_getElem? ha)).isolate hfork c s _ _ hs fun _ _ _ _ => rfl
  unfold Execution.stages
  simp only [List.length_map, hjob]
  split
  · exact hn _ _ hs fun _ _ => trivial
  · refine congrArg _ (funext fun r => ?_)
    cases r with
    | ok ending => exact hn _ _ hs fun _ _ => trivial
    | error abort => exact hn _ _ hs fun _ _ => trivial

end Exec

end Shell
