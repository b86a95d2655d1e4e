/-
Two runs of the same code, side by side.

Whatever is proved of the executor as a whole goes along all of its constructs, and does so in the same
way each time: the states of the code stay at their depth and have statuses of a kind, its results are of
a kind, and the jobs that it becomes are related in some way that all operations keep to. So this is said
once. A `Comparison` is a relation between jobs with what it has to keep to, and `K.Related k c d E V x x'`
says that two pieces of code become related jobs in every state of the depth `d`, if whatever follows
them does. It need only do so for results of `E` and `V`, and states that are again of the depth `d`.

Two runs may have different limits and different runners, and they may be the same run. A relation that
ignores its second job makes a statement about one run of it; the ends of jobs are such a relation.
A lenient comparison asks nothing any more of the second run when the first has come to a limit or a
fault: nothing but the end of the whole run deals with these (`Abort.IsFinal`).

This module has one lemma for each way of putting code together; those that follow go along the words,
the builtins and the commands with them. Of a runner all that is known is that it is related to the
other (`Comparison.Runs`), and of what code does to the environments around it there is always a list of
assignments (`Exec.Assigns`).
-/
import Shell.Proofs.Exec.Chains
import Shell.Proofs.Exec.Depth

set_option autoImplicit false

namespace Shell

/-! ## 1. Statuses -/

/-- The statuses of an environment, of those around it, and of the last substitution are of a kind. -/
structure State.Good (good : Nat → Prop) (s : State) : Prop where
  env : good s.env.status
  outer : ∀ env ∈ s.outer, good env.status
  substitution : ∀ status, s.substitution = some status → good status

/-- The status that code leaves with is of a kind. -/
def Abort.Good (good : Nat → Prop) : Abort → Prop
  | .exit status => good status
  | .limit _ | .expansion _ | .brokenPipe | .fault _ | .cancelled => True

/-- What no code deals with but the end of the whole run: a limit or a fault. -/
def Abort.IsFinal : Abort → Prop
  | .limit _ | .fault _ => True
  | .exit _ | .expansion _ | .brokenPipe | .cancelled => False

/-- What passes on limits and faults passes on all that only the end of the run deals with. -/
theorem Exec.eq_abort {α : Type} {f : Abort → Exec α} (hl : ∀ e, f (.limit e) = abort (.limit e))
    (hf : ∀ e, f (.fault e) = abort (.fault e)) (a : Abort) (h : a.IsFinal) : f a = abort a := by
  cases a with
  | limit e => exact hl e
  | fault e => exact hf e
  | exit _ | expansion _ | brokenPipe | cancelled => exact h.elim

/-- The status of an outcome is of a kind. -/
def Outcome.Good (good : Nat → Prop) : Outcome → Prop
  | .status code | .returned code => good code
  | .broken _ | .continued _ => True

/-- What code at a depth may come to. -/
def Outcome.May (good : Nat → Prop) (d : Depth) (outcome : Outcome) : Prop :=
  outcome.Fits d ∧ outcome.Good good

/-- With another environment that has a good status, the statuses are good. -/
theorem State.Good.withEnv {good : Nat → Prop} {s : State} (h : s.Good good) {env : Environment}
    (he : good env.status) : { s with env := env }.Good good :=
  ⟨he, h.outer, h.substitution⟩

/-- How a stage ends: with a status of a kind, or with a limit or a fault. -/
def StageResult (limits : Limits) (good : Nat → Prop) (r : Except Abort Ending) : Prop :=
  StageEnd limits r ∧ ∀ ending status, r = .ok ending → ending.status = .ok status → good status

/-- A stage that fails comes to what only the end of the run deals with. -/
theorem StageResult.isFinal {limits : Limits} {good : Nat → Prop} {abort : Abort}
    (h : StageResult limits good (.error abort)) : abort.IsFinal := by
  cases abort with
  | limit _ | fault _ => trivial
  | exit _ | expansion _ | brokenPipe | cancelled => exact h.1

/-- The context with other limits. -/
def Context.within (c : Context) (limits : Limits) : Context := { c with limits := limits }

@[simp] theorem Context.within_spawner (c : Context) (limits : Limits) : (c.within limits).spawner = c.spawner := rfl

@[simp] theorem Context.within_files (c : Context) (limits : Limits) : (c.within limits).files = c.files := rfl

/-- A run with the same limits need not be lenient. -/
theorem Limits.same (limits : Limits) (lenient : Prop) : limits = limits ∨ lenient := .inl rfl

/-- The second limits let a run go as far as the first ones. -/
structure Limits.Below (limits limits' : Limits) : Prop where
  callDepth : limits.maxCallDepth ≤ limits'.maxCallDepth
  commandCount : limits.maxCommandCount ≤ limits'.maxCommandCount
  loopIterations : limits.maxLoopIterations ≤ limits'.maxLoopIterations
  pipeCapacity : limits'.pipeCapacity = limits.pipeCapacity

/-! ## 2. Comparisons

Relations between jobs are left open: a comparison is given by the operations that the jobs are to go together for.
So one pass over the executor serves for runs with other limits, with other runners, and for one run compared with
itself. -/

/-- A relation between the jobs of two runs that all operations keep to. -/
structure Comparison where
  limits : Limits
  limits' : Limits
  /-- Whether nothing is asked of the second run when the first has come to a limit or a fault. -/
  lenient : Prop
  /-- Whether it is known that the number of lists goes up when it is told. -/
  counting : Prop
  /-- What statuses are like. -/
  good : Nat → Prop
  /-- At which depths code runs. -/
  Deep : Depth → Prop
  /-- Where code can run; what utilities there are does not depend on the streams. -/
  Sound : Context → Prop
  /-- What is known of a task: what it reads and writes, or how it may end. -/
  Task : Type
  /-- The task can run code in the context. -/
  Serves : Task → Context → Prop
  /-- A stage with these ends. -/
  stage : Nat → Output → Task
  /-- Jobs of a task that go together, when so many and-or lists have been counted at least. -/
  Together : Task → Nat → Job Ending → Job Ending → Prop
  below : limits.Below limits'
  strict : limits' = limits ∨ lenient
  byte : ∀ n < 256, good n
  deep_loop : ∀ {d : Depth}, Deep d → Deep d.inLoop
  deep_fork : ∀ {d : Depth} (shareArithmetic : Bool), Deep d → Deep (d.forked shareArithmetic)
  deep_call : ∀ {d : Depth} (frame : Frame), Deep d → (d.calls.1 : Int) < limits.maxCallDepth →
    Deep (d.inCall frame)
  limits_eq : ∀ {c : Context}, Sound c → c.limits = limits
  sound_streams : ∀ {c : Context} (input : Nat) (output : Output), Sound c →
    Sound { c with input := input, output := output }
  sound_capturing : ∀ {c : Context} (index : Nat), Sound c → Sound (c.capturing index)
  serves_capturing : ∀ {t : Task} {c : Context} (index : Nat), Serves t c → Serves t (c.capturing index)
  serves_stage : ∀ {t : Task} {c : Context} (input : Nat) (output : Output), Serves t c →
    Serves (stage input output) { c with input := input, output := output }
  mono : ∀ {t : Task} {k j : Nat} {job job' : Job Ending}, k ≤ j → Together t k job job' →
    Together t j job job'
  read : ∀ {t : Task} {c : Context} {k : Nat} {wanted : Wanted} {next next' : String → Job Ending},
    Serves t c → (∀ text, Together t k (next text) (next' text)) →
      Together t k (.read c.input wanted next) (.read c.input wanted next')
  write : ∀ {t : Task} {c : Context} {k : Nat} {output : Output} {text : String}
    {next next' : Option Abort → Job Ending}, Serves t c → output = c.output ∨ output = c.errors →
      Together t k (next none) (next' none) →
      (∀ abort, output.Refuses abort → Together t k (next (some abort)) (next' (some abort))) →
      Together t k (.write output text next) (.write output text next')
  count : ∀ {t : Task} {k : Nat} {next next' : Nat → Job Ending},
    (∀ n, (counting → k < n) → Together t (max k n) (next n) (next' n)) →
      Together t k (.count next) (.count next')
  openSink : ∀ {t : Task} {k : Nat} {next next' : Nat → Job Ending},
    (∀ index, Together t k (next index) (next' index)) →
      Together t k (.openSink next) (.openSink next')
  sinkText : ∀ {t : Task} {k index : Nat} {next next' : String → Job Ending},
    (∀ text, Together t k (next text) (next' text)) →
      Together t k (.sinkText index next) (.sinkText index next')
  utility : ∀ {t : Task} {c : Context} {k : Nat} {name : String} {utility : Utility}
    {call : Invocation} {next next' : Except Abort Reply → Job Ending}, Sound c → Serves t c →
      c.spawner.find? name = some utility → call.input = c.input → call.output = c.output →
      call.errors = c.errors → (∀ reply, Together t k (next (.ok reply)) (next' (.ok reply))) →
      (∀ abort, call.Stops abort → Together t k (next (.error abort)) (next' (.error abort))) →
      Together t k (utility call next) (utility call next')
  pipeline : ∀ {t : Task} {c : Context} {k stages capacity : Nat}
    {body body' : Nat → Nat → Output → Job Ending} {next next' : Except Abort Ending → Job Ending},
      Serves t c → 1 ≤ stages → 1 ≤ capacity →
      (∀ index input output,
        Together (stage input output) k (body index input output) (body' index input output)) →
      (∀ r, StageResult limits good r → Together t k (next r) (next' r)) →
      (lenient → ∀ abort job, abort.IsFinal → Together t k (next (.error abort)) job) →
      Together t k (.pipeline stages capacity c.input c.output body next)
        (.pipeline stages capacity c.input c.output body' next')
  finish : ∀ {k input : Nat} {output : Output} {ending : Ending},
    StageResult limits good (.ok ending) →
      Together (stage input output) k (.finish ending) (.finish ending)
  fail : ∀ {k input : Nat} {output : Output} {abort : Abort},
    StageResult limits good (.error abort) →
      Together (stage input output) k (.fail abort) (.fail abort)
  pardon : ∀ {k input : Nat} {output : Output} {abort : Abort} {job : Job Ending}, lenient →
    abort.IsFinal → Together (stage input output) k (.fail abort) job

namespace Comparison

variable {K : Comparison} {k : Nat} {c : Context} {d : Depth} {E : Abort → Prop} {α β : Type}

/-- A state of a depth, with statuses of the kind. -/
structure At (K : Comparison) (d : Depth) (s : State) : Prop where
  depth : s.depth = d
  good : s.Good K.good

/-- An environment of a depth, with a status of the kind. -/
structure Holds (K : Comparison) (d : Depth) (env : Environment) : Prop where
  calls : env.calls = d.calls
  good : K.good env.status

/-- A result with a value of `V` or an abort of `E`. -/
def Meets (K : Comparison) (E : Abort → Prop) (V : α → Prop) : Except Abort α → Prop
  | .ok a => V a
  | .error abort => E abort ∧ abort.Good K.good

/-- Two pieces of code become jobs that go together, if what follows them does for all results of `E`
and `V` and all states of the depth. -/
def Related (K : Comparison) (k : Nat) (c : Context) (d : Depth) (E : Abort → Prop) (V : α → Prop)
    (x x' : Exec α) : Prop :=
  K.Sound c → K.Deep d → ∀ (t : K.Task) (s : State) (j : Nat)
    (next next' : Except Abort α → State → Job Ending), K.Serves t c → K.At d s → k ≤ j →
      (∀ r s' log, K.At d s' → K.Meets E V r → x.Assigns c s log r s' →
        K.Together t j (next r s') (next' r s')) →
      (K.lenient → ∀ abort s' job, abort.IsFinal → K.Together t j (next (.error abort) s') job) →
      K.Together t j (x c s next) (x' (c.within K.limits') s next')

/-- Two runners that run every sequence alike. -/
def Runs (K : Comparison) (k : Nat) (run run' : Runner) : Prop :=
  ∀ c d body, K.Related k c d c.Stops (Outcome.May K.good d) (run body) (run' body)

/-- The environment of a state at some depth has that depth. -/
theorem At.holds {s : State} (h : K.At d s) : K.Holds d s.env :=
  ⟨congrArg Depth.calls h.depth, h.good.env⟩

/-- With another environment of the same depth, the state is at it. -/
theorem At.withEnv {s : State} (h : K.At d s) {env : Environment} (he : K.Holds d env) :
    K.At d { s with env := env } :=
  ⟨by rw [s.depth_withEnv (he.calls.trans h.holds.calls.symm), h.depth], h.good.withEnv he.good⟩

/-! ## 3. Code put together

One rule for each way in which code is put together. A limit is where the two runs may part, and only in a lenient
comparison, in which nothing more is asked of the second one. -/

/-- One step that leaves the environments around alone. -/
theorem related_step {V : α → Prop} {f : State → Except Abort α × State}
    (ho : ∀ s, (f s).2.outer = s.outer)
    (h : ∀ s, K.At d s → K.At d (f s).2 ∧ K.Meets E V (f s).1) :
    K.Related k c d E V (fun _ s next => next (f s).1 (f s).2)
      (fun _ s next => next (f s).1 (f s).2) :=
  fun _ _ _ s _ _ _ _ hs _ hn _ => hn _ _ _ (h s hs).1 (h s hs).2 (.step ho)

/-- A value that is known. -/
theorem related_pure {a : α} {V : α → Prop} (h : V a) :
    K.Related k c d E V (pure a) (pure a) :=
  related_step (f := fun s => (.ok a, s)) (fun _ => rfl) fun _ hs => ⟨hs, h⟩

/-- An abort that is expected, with a good status if it has one. -/
theorem related_abort {abort : Abort} {V : α → Prop} (h : E abort) (hg : abort.Good K.good) :
    K.Related k c d E V (Exec.abort abort) (Exec.abort abort) :=
  related_step (f := fun s => (.error abort, s)) (fun _ => rfl) fun _ hs => ⟨hs, h, hg⟩

/-- What comes to a limit may be compared with anything, if the comparison is lenient. -/
theorem related_pardon {e : LimitError} {V : α → Prop} {x' : Exec α} (h : K.lenient) :
    K.Related k c d E V (Exec.abort (.limit e)) x' :=
  fun _ _ _ _ _ _ _ _ _ _ _ hl => hl h _ _ _ trivial

/-- The state that is told is of the depth. -/
theorem related_get : K.Related k c d E (K.At d) Exec.get Exec.get :=
  related_step (f := fun s => (.ok s, s)) (fun _ => rfl) fun _ hs => ⟨hs, hs⟩

/-- A change of the state that leaves it at its depth, and the environments around it alone. -/
theorem related_modify {f : State → State} (ho : ∀ s, (f s).outer = s.outer)
    (h : ∀ s, K.At d s → K.At d (f s)) :
    K.Related k c d E (fun _ => True) (Exec.modify f) (Exec.modify f) :=
  related_step (f := fun s => (.ok (), f s)) ho fun s hs => ⟨h s hs, trivial⟩

/-- A change of the environment that leaves it at its depth. -/
theorem related_modifyEnv {f : Environment → Environment} (h : ∀ env, K.Holds d env → K.Holds d (f env)) :
    K.Related k c d E (fun _ => True) (Exec.modifyEnv f) (Exec.modifyEnv f) :=
  related_modify (fun _ => rfl) fun _ hs => hs.withEnv (h _ hs.holds)

/-- More results may be expected. -/
theorem Related.mono {x x' : Exec α} {E' : Abort → Prop} {V W : α → Prop}
    (h : K.Related k c d E V x x') (he : ∀ abort, E abort → E' abort) (hv : ∀ a, V a → W a) :
    K.Related k c d E' W x x' := by
  intro hc hd t s j next next' ht hs hj hn hl
  refine h hc hd t s j next next' ht hs hj (fun r s' log hs' hr hx => hn r s' log hs' ?_ hx) hl
  cases r with
  | ok a => exact hv a hr
  | error abort => exact ⟨he abort hr.1, hr.2⟩

/-- **One piece of code after another.** The second is what follows the first, so it is what the first is related
before. -/
theorem Related.bind {x x' : Exec α} {f f' : α → Exec β} {V : α → Prop} {W : β → Prop}
    (h : K.Related k c d E V x x') (hf : ∀ a, V a → K.Related k c d E W (f a) (f' a)) :
    K.Related k c d E W (x >>= f) (x' >>= f') := by
  intro hc hd t s j next next' ht hs hj hn hl
  refine h hc hd t s j _ _ ht hs hj (fun r s₁ log hs₁ hr hx => ?_) hl
  cases r with
  | ok a =>
    exact hf a hr hc hd t s₁ j next next' ht hs₁ hj
      (fun r' s' log' hs' hr' hx' => hn r' s' (log ++ log') hs' hr' (.bind_ok hx hx')) hl
  | error abort => exact hn _ s₁ log hs₁ hr (.bind_error hx)

/-- A value computed from another. -/
theorem Related.map {x x' : Exec α} {f : α → β} {V : α → Prop} {W : β → Prop}
    (h : K.Related k c d E V x x') (hf : ∀ a, V a → W (f a)) :
    K.Related k c d E W (f <$> x) (f <$> x') :=
  h.bind fun a ha => related_pure (hf a ha)

/-- Both branches are related, each where it is taken. -/
theorem Related.ite {p : Prop} [Decidable p] {x x' y y' : Exec α} {V : α → Prop}
    (hx : p → K.Related k c d E V x x') (hy : ¬ p → K.Related k c d E V y y') :
    K.Related k c d E V (if p then x else y) (if p then x' else y') := by
  split
  · next h => exact hx h
  · next h => exact hy h

/-- The environment that is told is of the depth. -/
theorem related_env : K.Related k c d E (K.Holds d) Exec.env Exec.env :=
  related_get.bind fun _ hs => related_pure hs.holds

/-- The two contexts differ in their limits. -/
theorem related_context {f f' : Context → Exec β} {V : β → Prop}
    (h : K.Related k c d E V (f c) (f' (c.within K.limits'))) :
    K.Related k c d E V (Exec.context >>= f) (Exec.context >>= f') :=
  fun hc hd t s j next next' ht hs hj hn hl =>
    h hc hd t s j next next' ht hs hj
      (fun r s' log hs' hr hx => hn r s' log hs' hr (.bind_ok .context hx)) hl

/-- A run that comes to a limit says which. -/
theorem related_limit (f : Limits → LimitError) {V : α → Prop} (he : E (.limit (f c.limits))) :
    K.Related k c d E V (Exec.context >>= fun c => Exec.abort (.limit (f c.limits)))
      (Exec.context >>= fun c => Exec.abort (.limit (f c.limits))) := by
  refine related_context ?_
  rcases K.strict with heq | hl
  · intro hc
    have hlimits : (c.within K.limits').limits = c.limits := heq.trans (K.limits_eq hc).symm
    rw [hlimits]
    exact related_abort he trivial hc
  · exact related_pardon hl

/-- **What handles aborts** deals with those that are expected. In a lenient comparison it must pass on what is
final, since the second run need not come to it. -/
theorem Related.handle {x x' : Exec α} {f f' : Abort → Exec α} {E' : Abort → Prop} {V : α → Prop}
    (h : K.Related k c d E' V x x')
    (hf : ∀ abort, E' abort → abort.Good K.good → K.Related k c d E V (f abort) (f' abort))
    (hfinal : K.lenient → ∀ abort, abort.IsFinal → f abort = Exec.abort abort) :
    K.Related k c d E V (x.handle f) (x'.handle f') := by
  intro hc hd t s j next next' ht hs hj hn hl
  refine h hc hd t s j _ _ ht hs hj (fun r s₁ log hs₁ hr hx => ?_) fun hlenient abort s' job ha => ?_
  -- A value goes past the handler. An abort is handled on both sides, and what is assigned there comes after what
  -- the body has assigned.
  · cases r with
    | ok a => exact hn _ s₁ log hs₁ hr (.handle_ok hx)
    | error abort =>
      exact hf abort hr.1 hr.2 hc hd t s₁ j next next' ht hs₁ hj
        (fun r' s' log' hs' hr' hx' => hn r' s' (log ++ log') hs' hr' (.handle_error hx hx')) hl
  · simp only [hfinal hlenient abort ha]
    exact hl hlenient abort s' job ha

/-- An expansion error becomes a value, and nothing else does. -/
theorem Related.attempt {x x' : Exec α} {V : α → Prop} (h : K.Related k c d c.Spoils V x x') :
    K.Related k c d c.Stops (fun r => ∀ a, r = .ok a → V a) x.attempt x'.attempt := by
  -- A value that is there is marked as such before the handler is put around it.
  have hok : K.Related k c d c.Spoils (fun r => ∀ a, r = .ok a → V a)
      (do return Except.ok (← x) : Exec (Except ExpansionError α))
      (do return Except.ok (← x') : Exec (Except ExpansionError α)) := by
    refine h.bind fun a ha => related_pure fun b hb => ?_
    obtain rfl := Except.ok.inj hb
    exact ha
  refine hok.handle (fun abort ha _ => ?_) fun _ => Exec.eq_abort (fun _ => rfl) fun _ => rfl
  cases abort with
  | expansion e => exact related_pure fun a hb => by cases hb
  | exit _ => exact ha.elim
  | limit _ => exact related_abort trivial trivial
  | brokenPipe =>
    exact related_abort (Context.stops_of_spoils ha fun _ he => by cases he) trivial
  | fault _ => exact related_abort ha trivial
  | cancelled => exact ha.elim

/-- Code at another depth, which is entered before it and left after it, however it ends. -/
theorem related_scope {x x' : Exec α} {V : α → Prop} {enter leave : State → State}
    (hinto : ∀ s, (enter s).outer = s.outer) (hout : ∀ s, (leave s).outer = s.outer)
    (h : ∀ s, K.At d s → ∃ d', K.At d' (enter s) ∧ (K.Deep d → K.Deep d') ∧
      (∀ s', K.At d' s' → K.At d (leave s')) ∧ K.Related k c d' E V x x') :
    K.Related k c d E V (Exec.modify enter >>= fun _ => x.ensure leave)
      (Exec.modify enter >>= fun _ => x'.ensure leave) := by
  intro hc hd t s j next next' ht hs hj hn hl
  -- The state inside is one of the comparison at the depth that it has there, and leaving brings the old depth
  -- back.
  obtain ⟨d', hs₁, hdeep, hleave, hx⟩ := h s hs
  have henter : (Exec.modify enter).Assigns c s [] (.ok ()) (enter s) :=
    .step (f := fun s => (.ok (), enter s)) hinto
  exact hx hc (hdeep hd) t (enter s) j _ _ ht hs₁ hj
    (fun r s' log hs' hr hx => hn r (leave s') log (hleave s' hs') hr
      (.bind_ok henter (.ensure hout hx)))
    fun hlenient abort s' job => hl hlenient abort (leave s') job

/-- An action, of which the results are known and not what it does. -/
theorem related_lift {x x' : Action Ending α} {V : α → Prop}
    (h : K.Sound c → ∀ (t : K.Task) (j : Nat) (next next' : Except Abort α → Job Ending),
      K.Serves t c → k ≤ j → (∀ r, K.Meets E V r → K.Together t j (next r) (next' r)) →
        K.Together t j (x next) (x' next')) :
    K.Related k c d E V (Exec.lift x) (Exec.lift x') :=
  fun hc _ t s j next next' ht hs hj hn _ =>
    h hc t j (fun r => next r s) (fun r => next' r s) ht hj fun r hr => hn r s [] hs hr .lift

/-- Counting a list: then more lists have been counted. -/
theorem related_count {f f' : Nat → Exec β} {V : β → Prop}
    (h : ∀ n, (K.counting → k < n) → K.Related (max k n) c d E V (f n) (f' n)) :
    K.Related k c d E V (Exec.count >>= f) (Exec.count >>= f') := by
  intro hc hd t s j next next' ht hs hj hn hl
  refine K.count fun n hlt => ?_
  have hle : j ≤ max j n := Nat.le_max_left j n
  refine h n (fun hk => Nat.lt_of_le_of_lt hj (hlt hk)) hc hd t s (max j n) next next' ht hs
    (by omega) ?_ fun hlenient abort s' job ha => K.mono hle (hl hlenient abort s' job ha)
  exact fun r s' log hs' hr hx => K.mono hle (hn r s' log hs' hr (.bind_ok .lift hx))

/-! ## 4. Forks

A fork runs at a depth of its own. What comes back to the parent is the list of what its arithmetic has assigned,
and this leaves the parent at the depth that it had. -/

/-- The fork of a state is at the depth of the fork. -/
theorem At.forked {s : State} (h : K.At d s) (shareArithmetic : Bool) :
    K.At (d.forked shareArithmetic) (Exec.forked s shareArithmetic) := by
  refine ⟨by rw [Exec.depth_forked, h.depth], h.good.env, fun env he => ?_, nofun⟩
  cases shareArithmetic with
  | false => cases he
  | true =>
    rcases List.mem_cons.mp he with rfl | he
    · exact h.good.env
    · exact h.good.outer env he

/-- After a fork its parent is at the depth that it had: arithmetic in the fork has set variables, and nothing else
is kept. -/
theorem At.rejoined {s after : State} (h : K.At d s) {shareArithmetic : Bool}
    (ha : K.At (d.forked shareArithmetic) after) : K.At d (Exec.rejoined s after shareArithmetic) := by
  refine ⟨?_, ?_⟩
  · rw [Exec.depth_rejoined (by rw [ha.depth, h.depth]), h.depth]
  · cases shareArithmetic with
    | false => exact h.good
    | true =>
      unfold Exec.rejoined
      -- If arithmetic is shared, the environment around the fork takes the place of that before it.
      cases ho : after.outer with
      | nil => exact h.good
      | cons env outer =>
        have hall := ha.good.outer
        rw [ho] at hall
        exact ⟨hall env List.mem_cons_self, fun e he => hall e (List.mem_cons_of_mem _ he),
          h.good.substitution⟩

/-- The assignments of a fork that shares its arithmetic are those of its code, and any other fork has
none. -/
theorem exists_assigns_isolate {shareArithmetic : Bool} {change : Context → Context} {x : Exec Outcome}
    {s after : State} {log : List (String × String)} {r : Except Abort Outcome}
    (h : x.Assigns (change c) (Exec.forked s shareArithmetic) log r after) :
    ∃ log, (Exec.isolate shareArithmetic change x).Assigns c s log (Exec.settle r)
      (Exec.rejoined s after shareArithmetic) := by
  cases shareArithmetic with
  | false => exact ⟨[], .apart⟩
  | true => exact ⟨log, .share h⟩

/-- A fork keeps the depth, and only `exit` does not leave it. The task that runs its code is one for
the changed context. -/
theorem Related.fork {shareArithmetic : Bool} {change : Context → Context} {x x' : Exec Outcome}
    {E' : Abort → Prop} {V : Outcome → Prop} {W : Nat → Prop}
    (h : K.Related k (change c) (d.forked shareArithmetic) E' V x x')
    (hchange : change (c.within K.limits') = (change c).within K.limits')
    (he : ∀ abort, E' abort → (∀ status, abort ≠ .exit status) → E abort)
    (hv : ∀ outcome, V outcome → W outcome.toStatus)
    (hexit : ∀ status, E' (.exit status) → K.good status → W status)
    (hc : K.Sound (change c)) (hd : K.Deep d) {t : K.Task} {s : State} {j : Nat}
    {next next' : Except Abort Nat → State → Job Ending} (ht : K.Serves t (change c))
    (hs : K.At d s) (hj : k ≤ j)
    (hn : ∀ r s' log, K.At d s' → K.Meets E W r →
      (Exec.isolate shareArithmetic change x).Assigns c s log r s' →
      K.Together t j (next r s') (next' r s'))
    (hl : K.lenient → ∀ abort s' job, abort.IsFinal → K.Together t j (next (.error abort) s') job) :
    K.Together t j (Exec.isolate shareArithmetic change x c s next)
      (Exec.isolate shareArithmetic change x' (c.within K.limits') s next') := by
  unfold Exec.isolate
  rw [hchange]
  refine h hc (K.deep_fork _ hd) t _ j _ _ ht (hs.forked _) hj (fun r after log ha hr hx => ?_)
    fun hlenient abort s' job ha => ?_
  · have hafter := hs.rejoined ha
    obtain ⟨log', hx'⟩ := exists_assigns_isolate hx
    cases r with
    | ok outcome => exact hn _ _ log' hafter (hv outcome hr) hx'
    | error abort =>
      -- Leaving the shell ends the fork with a status. What else stops the fork stops the command that holds it.
      cases abort with
      | exit status => exact hn _ _ log' hafter (hexit status hr.1 hr.2) hx'
      | limit e => exact hn _ _ log' hafter ⟨he _ hr.1 fun _ h => (by cases h), hr.2⟩ hx'
      | expansion e => exact hn _ _ log' hafter ⟨he _ hr.1 fun _ h => (by cases h), hr.2⟩ hx'
      | brokenPipe => exact hn _ _ log' hafter ⟨he _ hr.1 fun _ h => (by cases h), hr.2⟩ hx'
      | fault f => exact hn _ _ log' hafter ⟨he _ hr.1 fun _ h => (by cases h), hr.2⟩ hx'
      | cancelled => exact hn _ _ log' hafter ⟨he _ hr.1 fun _ h => (by cases h), hr.2⟩ hx'
  -- An abort that is final is still final outside of the fork.
  · cases abort with
    | limit e => exact hl hlenient _ _ job ha
    | fault f => exact hl hlenient _ _ job ha
    | exit _ | expansion _ | brokenPipe | cancelled => exact ha.elim

/-- A fork that runs in the task of its parent. -/
theorem Related.isolate {shareArithmetic : Bool} {change : Context → Context} {x x' : Exec Outcome}
    {E' : Abort → Prop} {V : Outcome → Prop} {W : Nat → Prop}
    (h : K.Related k (change c) (d.forked shareArithmetic) E' V x x')
    (hchange : change (c.within K.limits') = (change c).within K.limits')
    (hc : K.Sound c → K.Sound (change c)) (ht : ∀ t, K.Serves t c → K.Serves t (change c))
    (he : ∀ abort, E' abort → (∀ status, abort ≠ .exit status) → E abort)
    (hv : ∀ outcome, V outcome → W outcome.toStatus)
    (hexit : ∀ status, E' (.exit status) → K.good status → W status) :
    K.Related k c d E W (Exec.isolate shareArithmetic change x)
      (Exec.isolate shareArithmetic change x') :=
  fun hc' hd t _ _ _ _ ht' hs hj hn hl =>
    h.fork hchange he hv hexit (hc hc') hd (ht t ht') hs hj hn hl

/-- The status of an outcome that code may come to. -/
theorem good_toStatus {outcome : Outcome} (h : outcome.Good K.good) : K.good outcome.toStatus := by
  cases outcome with
  | status | returned => exact h
  | broken | continued => exact K.byte 0 (by omega)

/-! ## 5. Streams -/

/-- What a refused write to one of the two outputs comes to has no status. -/
theorem good_of_refuses {output : Output} {abort : Abort} (h : output.Refuses abort) :
    abort.Good K.good := by
  cases output with
  | sink _ => exact h.elim
  | pipe _ => rcases h with rfl | rfl <;> trivial

/-- Writing to standard output or standard error. -/
theorem together_writeText {t : K.Task} {j : Nat} {output : Output} (text : String)
    {next next' : Except Abort Unit → Job Ending} (ht : K.Serves t c)
    (ho : output = c.output ∨ output = c.errors) (h : K.Together t j (next (.ok ())) (next' (.ok ())))
    (hr : ∀ abort, output.Refuses abort → K.Together t j (next (.error abort)) (next' (.error abort))) :
    K.Together t j (Action.writeText output text next) (Action.writeText output text next') := by
  unfold Action.writeText
  split
  · exact h
  · exact K.write ht ho h hr

/-- Text is written to an output of the context, which may refuse it. -/
theorem related_write {output : Output} (text : String) (ho : output = c.output ∨ output = c.errors)
    (he : ∀ abort, output.Refuses abort → E abort) :
    K.Related k c d E (fun _ => True) (Exec.lift (Action.writeText output text))
      (Exec.lift (Action.writeText output text)) :=
  related_lift fun _ _ _ _ _ ht _ hn => together_writeText text ht ho (hn (.ok ()) trivial)
    fun abort ha => hn (.error abort) ⟨he abort ha, good_of_refuses ha⟩

/-- Text for the output of the context. -/
theorem related_writeOutput (text : String) :
    K.Related k c d c.Stops (fun _ => True) (Exec.writeOutput text) (Exec.writeOutput text) :=
  related_context (related_write text (.inl rfl) fun _ => Context.stops_of_refuses (.inl rfl))

/-- Text for the errors of the context. -/
theorem related_writeErrors (text : String) (he : ∀ abort, c.errors.Refuses abort → E abort) :
    K.Related k c d E (fun _ => True) (Exec.writeErrors text) (Exec.writeErrors text) :=
  related_context (related_write text (.inr rfl) he)

/-- A diagnosis where refusals are expected. -/
theorem related_diagnose_of_refuses (message : String) (he : ∀ abort, c.errors.Refuses abort → E abort) :
    K.Related k c d E (fun _ => True) (Exec.diagnose message) (Exec.diagnose message) :=
  related_context (related_writeErrors _ he)

/-- A diagnosis, which may be refused as any text. -/
theorem related_diagnose (message : String) :
    K.Related k c d c.Stops (fun _ => True) (Exec.diagnose message) (Exec.diagnose message) :=
  related_diagnose_of_refuses message fun _ => Context.stops_of_refuses (.inr rfl)

/-- What is read is any text, so what follows must be related for all. -/
theorem related_read (request : Request) {f f' : String → Exec β} {V : β → Prop}
    (h : ∀ text, K.Related k c d E V (f text) (f' text)) :
    K.Related k c d E V (Exec.lift (Action.read c.input request) >>= f)
      (Exec.lift (Action.read c.input request) >>= f') := by
  refine Related.bind (V := fun _ => True) (related_lift fun _ t j next next' ht _ hn => ?_)
    fun text _ => h text
  exact K.read ht fun text => hn (.ok text) trivial

/-- The number of a new sink is any number. -/
theorem related_openSink :
    K.Related k c d E (fun _ => True) (Exec.lift (Action.node .openSink))
      (Exec.lift (Action.node .openSink)) :=
  related_lift fun _ _ _ _ _ _ _ hn => K.openSink fun index => hn (.ok index) trivial

/-- The text of a sink is any text. -/
theorem related_sinkText (index : Nat) :
    K.Related k c d E (fun _ => True) (Exec.lift (Action.node (.sinkText index)))
      (Exec.lift (Action.node (.sinkText index))) :=
  related_lift fun _ _ _ _ _ _ _ hn => K.sinkText fun text => hn (.ok text) trivial

end Comparison

end Shell
