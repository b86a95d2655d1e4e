/-
Watched runs.

What holds at every point of a run, in every environment, can be said by a run that looks: around each
and-or list it checks the state, and it sounds an alarm if something is wrong there. If nothing ever is,
whatever the alarm does, then the run with the checks is the run without them. So such a statement is
an equation of two runs (`Session.runBy_checked`), and it is proved by comparing them: the jobs of both are
alike (`Comparison.alike`), and machines cannot tell them apart.

The same comparison shows that the budget of the executor does not matter, as long as it is not less than
the limit of lists (`Session.runBy_sequence`): what the budget cuts off the counter has cut off before.
-/
import Shell.Proofs.Exec.Recording
import Shell.Proofs.Exec.Utilities
import Shell.Proofs.Machine.Like
import Shell.Session

set_option autoImplicit false

namespace Shell

/-! ## 1. Runs that go alike

Here the comparison of code is that of jobs which go alike turn by turn. -/

/-- Depths that code does not leave for others. -/
structure Depth.Closed (limits : Limits) (Deep : Depth → Prop) : Prop where
  loop : ∀ {d : Depth}, Deep d → Deep d.inLoop
  fork : ∀ {d : Depth} (shareArithmetic : Bool), Deep d → Deep (d.forked shareArithmetic)
  call : ∀ {d : Depth} (frame : Frame), Deep d → (d.calls.1 : Int) < limits.maxCallDepth →
    Deep (d.inCall frame)

/-- Nothing is asked of depths. -/
theorem Depth.closed_anyhow (limits : Limits) : Closed limits fun _ => True :=
  ⟨id, fun _ => id, fun _ hd _ => hd⟩

/-- Limits are no smaller than themselves. -/
theorem Limits.Below.refl (limits : Limits) : limits.Below limits :=
  ⟨Int.le_refl _, Int.le_refl _, Int.le_refl _, rfl⟩

/-- What is alike a job that ends well and one that fails can only fail. -/
theorem Job.Like.fails {ρ : Type} {lenient : Prop} {S : Except Abort ρ → Prop} {k : Nat} {job : Job ρ}
    {result : ρ} {abort : Abort} (hfinish : job.Like lenient S k (.finish result))
    (hfail : job.Like lenient S k (.fail abort)) : job.Fails S := by
  cases hfinish with
  | finish =>
    cases hfail with
    | pardon _ h => exact h
  | pardon _ h => exact h

/-- A proper context has the limits of its session. -/
theorem Context.Proper.limits_eq {limits : Limits} {c : Context} (h : c.limits = limits ∧ c.Proper) :
    c.limits = limits :=
  h.1

/-- What can be started, and within which limits, does not depend on the streams. -/
theorem Context.Proper.streams {limits : Limits} {c : Context} (input : Nat) (output : Output)
    (h : c.limits = limits ∧ c.Proper) :
    { c with input := input, output := output }.limits = limits ∧
      Context.Proper { c with input := input, output := output } :=
  h

/-- Nor does it depend on what becomes of the output. -/
theorem Context.Proper.capturing {limits : Limits} {c : Context} (index : Nat)
    (h : c.limits = limits ∧ c.Proper) :
    (c.capturing index).limits = limits ∧ (c.capturing index).Proper :=
  h

/-- The jobs of two runs are alike, at depths that are closed. If the limits of the second run may be
larger, nothing is asked of it when the first one has come to a limit. -/
def Comparison.alikeWithin {limits limits' : Limits} (lenient : Prop) (below : limits.Below limits')
    (strict : limits' = limits ∨ lenient) (good : Nat → Prop) (byte : ∀ n < 256, good n)
    (Deep : Depth → Prop) (closed : Depth.Closed limits Deep) : Comparison where
  limits := limits
  limits' := limits'
  lenient := lenient
  counting := True
  good := good
  Deep := Deep
  Sound c := c.limits = limits ∧ c.Proper
  Task := Unit
  Serves _ _ := True
  stage _ _ := ()
  Together _ k job job' := job.Like lenient (StageResult limits good) k job'
  below := below
  strict := strict
  byte := byte
  deep_loop := closed.loop
  deep_fork := closed.fork
  deep_call := closed.call
  limits_eq := @Context.Proper.limits_eq limits
  sound_streams := @Context.Proper.streams limits
  sound_capturing := @Context.Proper.capturing limits
  serves_capturing _ := id
  serves_stage _ _ := id
  mono hk h := h.later hk
  read _ := .read
  write _ _ h hr := .write h hr
  count h := .count fun n hn => by
    have hnext := h n fun _ => hn
    rwa [Nat.max_eq_right (Nat.le_of_lt hn)] at hnext
  openSink := .openSink
  sinkText := .sinkText
  utility hc _ hf _ _ _ h hr := (hc.2 _ _ hf _).together
    ⟨fun _ _ _ h => .read h, fun _ _ _ _ _ h hr => .write h hr, fun _ _ _ _ h hr => .copy h hr⟩
    _ _ h hr
  pipeline _ _ _ hs h hl := .pipeline hs h fun hlenient abort ha =>
    (hl hlenient abort (.finish ⟨.ok 0, {}⟩) ha.isFinal).fails (hl hlenient abort (.fail abort) ha.isFinal)
  finish _ := .finish
  fail _ := .fail
  pardon hlenient _ := .pardon hlenient (.fail ⟨_, rfl⟩)

/-- The jobs of two runs with the same limits are alike. -/
def Comparison.alike (limits : Limits) (good : Nat → Prop) (byte : ∀ n < 256, good n)
    (Deep : Depth → Prop) (closed : Depth.Closed limits Deep) : Comparison :=
  alikeWithin False (.refl limits) (limits.same False) good byte Deep closed

/-- A proper context is sound whatever is asked of statuses. -/
theorem Context.Proper.ends {c : Context} (h : c.Proper) (good : Nat → Prop)
    (byte : ∀ n < 256, good n) : (Comparison.ends c.limits good byte).Sound c :=
  ⟨rfl, fun name utility hf => (h name utility hf).soundFor _⟩

/-! ## 2. Scripts -/

namespace Execution

/-- The runner of a script takes the limit of lists for its budget. -/
theorem runs_run {K : Comparison} {k : Nat} (runner : Nat → Runner)
    (h : K.Runs k (sequence K.limits.maxCommandCount.toNat)
      (runner K.limits'.maxCommandCount.toNat)) :
    K.Runs k run (fun s => do runner (← Exec.context).limits.maxCommandCount.toNat s) := by
  intro c d body hc
  have hbody : K.Comes k c d (sequence c.limits.maxCommandCount.toNat body)
      (runner K.limits'.maxCommandCount.toNat body) := by
    rw [K.limits_eq hc]
    exact h c d body
  have hrun : K.Comes k c d (Exec.context >>= fun c => sequence c.limits.maxCommandCount.toNat body)
      (Exec.context >>= fun c => runner c.limits.maxCommandCount.toNat body) :=
    Comparison.related_context hbody
  exact hrun hc

/-- Runs a whole script as `script` does, with another runner for its sequences. -/
def scriptBy (run : Runner) (s : Sequence) : Exec Nat :=
  (do return (← run s).toStatus : Exec Nat).handle fun
    | .exit status => return status
    | .limit e => do
      Exec.diagnose e.message
      return 126
    | a => Exec.abort a

/-- A script with its runner's sequences does what they do, but for its last words. -/
theorem related_scriptBy {K : Comparison} (hl : ¬ K.lenient) {k : Nat} {c : Context} {d : Depth}
    {run run' : Runner} (hrun : K.Runs k run run') (s : Sequence) :
    K.Related k c d (fun _ => True) K.good (scriptBy run s) (scriptBy run' s) := by
  have hbody : K.Related k c d c.Stops K.good (do return (← run s).toStatus : Exec Nat)
      (do return (← run' s).toStatus : Exec Nat) :=
    (hrun c d s).bind fun outcome ho => Comparison.related_pure (Comparison.good_toStatus ho.2)
  refine hbody.handle (fun abort ha hg => ?_) fun h => absurd h hl
  cases abort with
  | exit status => exact Comparison.related_pure hg
  | limit e =>
    exact (Comparison.related_diagnose_of_refuses _ fun _ _ => trivial).bind fun _ _ =>
      Comparison.related_pure (K.byte 126 (by decide))
  | expansion _ | brokenPipe | fault _ | cancelled => exact Comparison.related_abort trivial trivial

end Execution

/-! ## 3. Sessions

A session runs the job of a script in a machine of its own. Jobs that are alike have the same runs there, so what is
shown of code carries over to what a session comes to. -/

namespace Session

/-- Runs a script as `runScript` does, with another runner for its sequences. -/
def runBy (session : Session) (run : Runner) (script : Sequence) (input : Input) : Completion :=
  complete (Execution.scriptBy run script session.context { env := session.env } fun r s =>
    .finish ⟨r, s.env⟩) session.env input

/-- What a session starts with is nothing but its environment. -/
theorem at_start (session : Session) {K : Comparison} (hg : K.good session.env.status) :
    K.At ⟨0, session.env.calls, []⟩ { env := session.env } :=
  ⟨rfl, hg, nofun, nofun⟩

end Session

/-- What a job comes to when it is run by itself is one of its ends, or nothing. -/
theorem complete_ends {S R : Except Abort Ending → Prop} {job : Job Ending} (h : job.Ends S R)
    (env : Environment) (input : Input) :
    (∃ ending, R (.ok ending) ∧ (complete job env input).status = ending.status ∧
      (complete job env input).env = ending.env) ∨
    (complete job env input).env = env ∧ ∃ abort, (complete job env input).status = .error abort := by
  unfold complete
  simp only
  cases hr : (Machine.run Machine.maxTurns (({ world := { inputs := #[input], sinks := #[[], []] } } :
      Machine Ending).addTask { phase := .active job })).result? 0 with
  | none => exact .inr ⟨rfl, _, rfl⟩
  | some result =>
    cases result with
    | ok ending => exact .inl ⟨ending, Machine.result_run h rfl hr, rfl, rfl⟩
    | error abort => exact .inr ⟨rfl, _, rfl⟩

/-- Jobs that are alike come to the same. In a lenient comparison they do if the first one comes to a
status. -/
theorem complete_like {lenient : Prop} {S R : Except Abort Ending → Prop} {job job' : Job Ending}
    (hj : job.Ends S R) (h : job.Like lenient S 0 job') (env : Environment) (input : Input)
    (hstatus : lenient → ∃ status, (complete job env input).status = .ok status) :
    complete job' env input = complete job env input := by
  -- A run that is compared leniently has come to a status, so that its task has ended.
  have hended (hlenient : lenient) : ∃ ending,
      ((({ world := { inputs := #[input], sinks := #[[], []] } } : Machine Ending).addTask
        { phase := .active job }).run Machine.maxTurns).result? 0 = some (.ok ending) := by
    obtain ⟨status, hs⟩ := hstatus hlenient
    unfold complete at hs
    simp only at hs
    split at hs
    · next ending hr => exact ⟨ending, hr⟩
    · cases hs
    · cases hs
  obtain ⟨hworld, hresult⟩ := Machine.like_run hj h (w := { inputs := #[input], sinks := #[[], []] }) rfl
    Machine.maxTurns hended
  unfold complete
  simp only
  rw [hworld, hresult]

namespace Session

variable {session : Session}

/-- All ends of a script are at the depth of the session and of the kind. -/
theorem ends_script (good : Nat → Prop) (byte : ∀ n < 256, good n) (hc : session.context.Proper)
    (hg : good session.env.status) (script : Sequence) :
    (Execution.script script session.context { env := session.env } fun r s => .finish ⟨r, s.env⟩).Ends
      (StageResult session.limits good) fun
        | .ok ending => ending.env.calls = session.env.calls ∧ good ending.env.status ∧
          ∀ status, ending.status = .ok status → good status
        | .error _ => False := by
  let K := Comparison.ends session.limits good byte
  have hrun : K.Runs 0 Execution.run Execution.run :=
    Execution.runs_run (K := K) Execution.sequence (Execution.runs_self _)
  have hscript := Execution.related_scriptBy (c := session.context)
    (d := ⟨0, session.env.calls, []⟩) (K := K) id hrun script
  refine hscript (hc.ends good byte) trivial _ _ 0 _ (fun r s => .finish ⟨r, s.env⟩) trivial
    (session.at_start hg) (Nat.le_refl 0) (fun r s _ hs hr _ => .finish ?_) False.elim
  refine ⟨hs.holds.calls, hs.good.env, fun status hstatus => ?_⟩
  -- The status is that of the result, and so it is good.
  subst hstatus
  exact hr

/-- **A runner that goes like the executor runs every script of a session alike.** -/
theorem runBy_eq (good : Nat → Prop) (byte : ∀ n < 256, good n) {Deep : Depth → Prop}
    (closed : Depth.Closed session.limits Deep) (hc : session.context.Proper)
    (hg : good session.env.status) (hd : Deep ⟨0, session.env.calls, []⟩) {run : Runner}
    (hrun : (Comparison.alike session.limits good byte Deep closed).Runs 0 Execution.run run)
    (script : Sequence) (input : Input) :
    session.runBy run script input = session.runScript script input := by
  have hlike := Execution.related_scriptBy (c := session.context) (d := ⟨0, session.env.calls, []⟩)
    id hrun script
  refine complete_like (session.ends_script good byte hc hg script) ?_ session.env input False.elim
  exact hlike ⟨rfl, hc⟩ hd () _ 0 _ (fun r s => .finish ⟨r, s.env⟩)
    trivial (session.at_start hg) (Nat.le_refl 0) (fun _ _ _ _ _ _ => .finish) False.elim

/-- **The budget does not matter** if it is not less than the limit of lists. -/
theorem runBy_sequence (hc : session.context.Proper) {budget : Nat}
    (hbudget : session.limits.maxCommandCount ≤ budget) (script : Sequence) (input : Input) :
    session.runBy (Execution.sequence budget) script input = session.runScript script input := by
  let K := Comparison.alike session.limits (fun _ => True) (fun _ _ => trivial) (fun _ => True)
    (Depth.closed_anyhow _)
  -- Both budgets allow more commands than the limit does.
  have hbudgets : Execution.Budgets K 0 session.limits.maxCommandCount.toNat budget := by
    refine .inr (.inl ⟨trivial, ?_, ?_⟩)
    · show session.limits.maxCommandCount ≤ ((0 : Nat) : Int) + session.limits.maxCommandCount.toNat
      omega
    · show session.limits.maxCommandCount ≤ ((0 : Nat) : Int) + budget
      omega
  have hrun : K.Runs 0 Execution.run (Execution.sequence budget) :=
    Execution.runs_run (K := K) (fun _ => Execution.sequence budget)
      (Execution.runs_sequence hbudgets)
  exact runBy_eq _ _ (Depth.closed_anyhow _) hc trivial trivial hrun script input

end Session

/-! ## 4. Checks

A check adds something to the code that does nothing, unless it fails. If it never fails, the run with it and the
run without it go alike. -/

/-- Nothing happens if a check is right, and otherwise there is an alarm. -/
def Exec.check (right : Bool) (alarm : Exec Unit) : Exec Unit := if right then pure () else alarm

/-- Code with checks before and after it: of the state before, and of that state together with the one
after it and the outcome. -/
def Exec.checked (before : State → Bool) (after : State → State → Outcome → Bool) (alarm : Exec Unit)
    (x : Exec Outcome) : Exec Outcome := do
  let s ← Exec.get
  Exec.check (before s) alarm
  let outcome ← x
  Exec.check (after s (← Exec.get) outcome) alarm
  return outcome

namespace Execution

/-- Runs a sequence as `sequence` does, with something around each list that has been counted. -/
def sequenceAround (around : Exec Outcome → Exec Outcome) : (budget : Nat) → Runner
  | 0 => fun s => statements (fun _ => do countCommand; tooManyCommands) 0 s.statements
  | budget + 1 => fun s =>
    statements (fun list => do countCommand; around (andOr (sequenceAround around budget) list)) 0
      s.statements

/-- Runs a sequence as `run` does, with something around each list that has been counted. -/
def runAround (around : Exec Outcome → Exec Outcome) : Runner := fun s => do
  sequenceAround around (← Exec.context).limits.maxCommandCount.toNat s

variable {K : Comparison} {k : Nat} {c : Context} {d : Depth}

/-- What makes no difference to a list makes none to sequences. -/
theorem runs_sequenceAround {around : Exec Outcome → Exec Outcome}
    (h : ∀ k c d run run' list, K.Runs k run run' →
      K.Comes k c d (andOr run list) (around (andOr run' list))) (budget : Nat) :
    K.Runs k (sequence budget) (sequenceAround around budget) := by
  induction budget generalizing k with
  | zero =>
    exact fun c d body => related_statements
      (fun _ => related_countCommand fun _ _ _ => related_tooManyCommands)
      (K.byte 0 (by decide)) body.statements
  | succ budget ih =>
    exact fun c d body => related_statements
      (fun list => related_countCommand fun n _ _ => h _ _ _ _ _ list ih)
      (K.byte 0 (by decide)) body.statements

end Execution

/-- Checks that do not fail make no difference. -/
theorem Comparison.comes_checked {K : Comparison} {k : Nat} {c : Context} {d : Depth}
    {before : State → Bool} {after : State → State → Outcome → Bool}
    (hb : ∀ d s, K.Deep d → K.At d s → before s = true)
    (ha : ∀ d s s' outcome, K.Deep d → K.At d s → K.At d s' → outcome.Recorded K.good d s' →
      after s s' outcome = true) (alarm : Exec Unit) {x x' : Exec Outcome}
    (h : K.Leads k c d c.Stops (fun _ => True) (Outcome.Recorded K.good d) x x') :
    K.Comes k c d x (Exec.checked before after alarm x') := by
  intro hc hd t s j next next' ht hs hj hn hl
  have hbefore : Exec.check (before s) alarm = pure () := if_pos (hb d s hd hs)
  show K.Together t j (x c s next) ((Exec.check (before s) alarm >>= fun _ => x' >>= fun outcome =>
    Exec.get >>= fun s' => Exec.check (after s s' outcome) alarm >>= fun _ => pure outcome)
      (c.within K.limits') s next')
  rw [hbefore]
  refine h hc hd t s j next _ ht hs trivial hj (fun outcome s' log hs' ho hx => ?_)
    (fun abort s' log hs' he hg hx => hn _ s' log hs' ⟨he, hg⟩ hx) hl
  -- What is checked after the statement holds as well, so the alarm is not raised.
  have hafter : Exec.check (after s s' outcome) alarm = pure () := if_pos (ha d s s' outcome hd hs hs' ho)
  show K.Together t j (next (.ok outcome) s')
    ((Exec.check (after s s' outcome) alarm >>= fun _ => pure outcome) (c.within K.limits') s' next')
  rw [hafter]
  exact hn (.ok outcome) s' log hs' ho.1 hx

namespace Session

variable {session : Session}

/-- **A run with checks that cannot fail is the run without them**, whatever the alarm is. -/
theorem runBy_checked (good : Nat → Prop) (byte : ∀ n < 256, good n) {Deep : Depth → Prop}
    (closed : Depth.Closed session.limits Deep) (hc : session.context.Proper)
    (hg : good session.env.status)
    (hd : Deep ⟨0, session.env.calls, []⟩) {before : State → Bool}
    {after : State → State → Outcome → Bool}
    (hb : ∀ s, Deep s.depth → s.Good good → before s = true)
    (ha : ∀ s s' outcome, Deep s.depth → s'.depth = s.depth → s.Good good → s'.Good good →
      outcome.Recorded good s.depth s' → after s s' outcome = true)
    (alarm : Exec Unit) (script : Sequence) (input : Input) :
    session.runBy (Execution.runAround (Exec.checked before after alarm)) script input =
      session.runScript script input := by
  let K := Comparison.alike session.limits good byte Deep closed
  refine runBy_eq good byte closed hc hg hd ?_ script input
  refine Execution.runs_run (K := K) (Execution.sequenceAround (Exec.checked before after alarm))
    (Execution.runs_sequenceAround (fun k c d run run' list hrun => ?_) _)
  refine Comparison.comes_checked (fun d s hd hs => ?_) (fun d s s' outcome hd hs hs' ho => ?_) alarm
    (Execution.leads_andOr hrun list _)
  · obtain rfl := hs.depth
    exact hb s hd hs.good
  · obtain rfl := hs.depth
    exact ha s s' outcome hd hs'.depth hs.good hs'.good ho

end Session

end Shell
