/-
How deep code is.

While code runs it may enter loops and calls, but it leaves as many as it entered: the number of
loops around, the number of calls and the frames of the callers are after it what they were before,
however it ends. `Depth` is what is the same. The environments around a command substitution keep
their calls too, although arithmetic may assign in them.

`x.Keeps c d E V` says of code that it keeps the depth `d`, that its aborts are among `E`, and that
its values are among `V`. As the depth is the same at every point, what is known of it at the
beginning (such as how many loops a signal can be for) is known at the end.

Code runs into what follows it, and what it ensures is said from there: `x.Ensures c s Q` means
that whatever follows `x` need only deal with the results and states of `Q`. More exactly, if all
ends of what follows are among `R` for every result and state of `Q`, then so are all ends of `x`
with what follows it. This is a weakest precondition, and each way to compose code has one rule.

Of the stages of pipelines it is known how they end (`StageEnd`): a stage comes to a status, unless
a limit or a fault stops it. The one thing to check is `isolate`, where the state splits in two and
the fork may have assigned in the environments around it.
-/
import Shell.Execution
import Shell.Proofs.Job.Ends

set_option autoImplicit false

namespace Shell

/-! ## 1. Actions and code

`Ensures` is said of what follows: to know something of code with any continuation, the continuation need only be
considered for results that can come up. -/

/-- How a stage of a pipeline ends: with a status, or with a limit or a fault. -/
def StageEnd (limits : Limits) : Except Abort Ending → Prop
  | .ok ending => ∃ status, ending.status = .ok status
  | .error (.limit _) => True
  | .error (.fault f) => f = .noCapacity → limits.pipeCapacity < 1
  | .error _ => False

/-- A stage has an ending, and something holds of it. -/
def EndsIn (P : Ending → Prop) : Except Abort Ending → Prop
  | .ok ending => P ending
  | .error _ => False

/-- Whatever follows an action need only deal with the results of `Q`. -/
def Action.Ensures {α : Type} (x : Action Ending α) (limits : Limits)
    (Q : Except Abort α → Prop) : Prop :=
  ∀ (next : Except Abort α → Job Ending) (R : Except Abort Ending → Prop),
    (∀ r, Q r → (next r).Ends (StageEnd limits) R) → (x next).Ends (StageEnd limits) R

/-- Whatever follows code need only deal with the results and states of `Q`. -/
def Exec.Ensures {α : Type} (x : Exec α) (c : Context) (s : State)
    (Q : Except Abort α → State → Prop) : Prop :=
  ∀ (next : Except Abort α → State → Job Ending) (R : Except Abort Ending → Prop),
    (∀ r s', Q r s' → (next r s').Ends (StageEnd c.limits) R) →
      (x c s next).Ends (StageEnd c.limits) R

namespace Action

variable {α β : Type} {limits : Limits}

theorem ensures_pure {a : α} {Q : Except Abort α → Prop} (h : Q (.ok a)) :
    (pure a : Action Ending α).Ensures limits Q :=
  fun _ _ hn => hn _ h

theorem Ensures.mono {x : Action Ending α} {Q Q' : Except Abort α → Prop}
    (h : x.Ensures limits Q) (hq : ∀ r, Q r → Q' r) : x.Ensures limits Q' :=
  fun next R hn => h next R fun r hr => hn r (hq r hr)

variable {Q : Except Abort Unit → Prop}

theorem ensures_write {output : Output} {text : String} (h : Q (.ok ()))
    (hr : ∀ abort, output.Refuses abort → Q (.error abort)) :
    (write output text).Ensures limits Q :=
  fun _ _ hn => .write (hn _ h) fun abort ha => hn _ (hr abort ha)

/-- No text is no write. -/
theorem ensures_writeText {output : Output} {text : String} (h : Q (.ok ()))
    (hr : ∀ abort, output.Refuses abort → Q (.error abort)) :
    (writeText output text : Action Ending Unit).Ensures limits Q := by
  unfold writeText
  split
  · exact ensures_pure h
  · exact ensures_write h hr

end Action

namespace Exec

variable {α β : Type} {c : Context} {s : State}

/-! ## 2. Rules -/

theorem Ensures.mono {x : Exec α} {Q Q' : Except Abort α → State → Prop}
    (h : x.Ensures c s Q) (hq : ∀ r s', Q r s' → Q' r s') : x.Ensures c s Q' :=
  fun next R hn => h next R fun r s' hr => hn r s' (hq r s' hr)

theorem ensures_pure {a : α} {Q : Except Abort α → State → Prop} (h : Q (.ok a) s) :
    (pure a : Exec α).Ensures c s Q :=
  fun _ _ hn => hn _ _ h

/-- One piece of code after another: the first ensures that the second ensures what is asked. -/
theorem ensures_bind {x : Exec α} {f : α → Exec β} {Q : Except Abort β → State → Prop}
    (h : x.Ensures c s fun
      | .ok a, s' => (f a).Ensures c s' Q
      | .error abort, s' => Q (.error abort) s') :
    (x >>= f).Ensures c s Q := by
  intro next R hn
  refine h _ R fun r s' hr => ?_
  cases r with
  | ok a => exact hr next R hn
  | error abort => exact hn _ _ hr

theorem ensures_abort {a : Abort} {Q : Except Abort α → State → Prop} (h : Q (.error a) s) :
    (abort a : Exec α).Ensures c s Q :=
  fun _ _ hn => hn _ _ h

theorem ensures_context {Q : Except Abort Context → State → Prop} (h : Q (.ok c) s) :
    context.Ensures c s Q :=
  fun _ _ hn => hn _ _ h

/-- What handles aborts ensures what is asked where there is one. -/
theorem ensures_handle {x : Exec α} {f : Abort → Exec α} {Q : Except Abort α → State → Prop}
    (h : x.Ensures c s fun
      | .ok a, s' => Q (.ok a) s'
      | .error abort, s' => (f abort).Ensures c s' Q) :
    (x.handle f).Ensures c s Q := by
  intro next R hn
  refine h _ R fun r s' hr => ?_
  cases r with
  | ok a => exact hn _ _ hr
  | error abort => exact hr next R hn

theorem ensures_ensure {x : Exec α} {f : State → State} {Q : Except Abort α → State → Prop}
    (h : x.Ensures c s fun r s' => Q r (f s')) : (x.ensure f).Ensures c s Q :=
  fun _ R hn => h _ R fun r s' hr => hn r (f s') hr

theorem ensures_lift {x : Action Ending α} {Q : Except Abort α → State → Prop}
    (h : x.Ensures c.limits fun r => Q r s) : (lift x).Ensures c s Q :=
  fun _ R hn => h _ R fun r hr => hn r s hr

/-- What is left of the ends of code in a fork. -/
def Leaves (R : Except Abort Nat → State → Prop) (s : State) (shareArithmetic : Bool) :
    Except Abort Outcome → State → Prop
  | .ok outcome, after => R (.ok outcome.toStatus) (rejoined s after shareArithmetic)
  | .error (.exit status), after => R (.ok status) (rejoined s after shareArithmetic)
  | .error abort, after => R (.error abort) (rejoined s after shareArithmetic)

/-- **A fork.** It ends in a state of its own, and what is asked holds of the parent after that. -/
theorem ensures_isolate {shareArithmetic : Bool} {change : Context → Context} {x : Exec Outcome}
    {Q : Except Abort Nat → State → Prop} (hc : (change c).limits = c.limits)
    (h : x.Ensures (change c) (forked s shareArithmetic) (Leaves Q s shareArithmetic)) :
    (isolate shareArithmetic change x).Ensures c s Q := by
  intro next R hn
  unfold Ensures at h
  rw [hc] at h
  refine h _ R fun r after hr => ?_
  cases r with
  | ok outcome => exact hn _ _ hr
  | error abort => cases abort <;> exact hn _ _ hr

end Exec

/-! ## 3. Depth

A signal is for loops that are around, or for a call. So what code may come to depends on how many of them there
are, and code may change nothing about those. -/

/-- The calls that an environment is in: their number, and the frames of the callers. -/
def Environment.calls (env : Environment) : Nat × List Frame := (env.callDepth, env.callers)

/-- The loops, the calls, and the calls of the environments around. -/
structure Depth where
  loops : Nat
  calls : Nat × List Frame
  around : List (Nat × List Frame)
  deriving DecidableEq

/-- The depth that a state is at. -/
def State.depth (s : State) : Depth := ⟨s.loopDepth, s.env.calls, s.outer.map Environment.calls⟩

/-- The depth at which a fork starts. -/
def Depth.forked (d : Depth) (shareArithmetic : Bool) : Depth :=
  ⟨d.loops, (d.calls.1, []), if shareArithmetic then d.calls :: d.around else []⟩

/-- The depth inside a loop. -/
def Depth.inLoop (d : Depth) : Depth := { d with loops := d.loops + 1 }

/-- The depth inside a call that is made in a frame. -/
def Depth.inCall (d : Depth) (frame : Frame) : Depth :=
  ⟨0, (d.calls.1 + 1, frame :: d.calls.2), d.around⟩

/-- An environment with as many calls is at the same depth. -/
theorem State.depth_withEnv (s : State) {env : Environment} (h : env.calls = s.env.calls) :
    { s with env := env }.depth = s.depth := by
  unfold depth
  rw [h]

namespace Exec

/-- The depth of a fork depends on that of its parent alone. -/
theorem depth_forked (s : State) (shareArithmetic : Bool) :
    (forked s shareArithmetic).depth = s.depth.forked shareArithmetic := by
  cases shareArithmetic <;> rfl

/-- After a fork the state is as deep as before it. -/
theorem depth_rejoined {s after : State} {shareArithmetic : Bool}
    (h : after.depth = s.depth.forked shareArithmetic) :
    (rejoined s after shareArithmetic).depth = s.depth := by
  cases shareArithmetic with
  | false => rfl
  | true =>
    have houter : after.outer.map Environment.calls = s.env.calls :: s.outer.map Environment.calls :=
      congrArg Depth.around h
    unfold rejoined
    -- The nearest environment around the fork is the one it was forked from.
    cases ho : after.outer with
    | nil => rfl
    | cons env outer =>
      rw [ho, List.map_cons, List.cons.injEq] at houter
      obtain ⟨henv, hrest⟩ := houter
      show State.depth { s with env := env, outer := outer } = s.depth
      simp only [State.depth, henv, hrest]

end Exec

/-! ## 4. Outcomes and aborts

Not all code can be stopped in all ways. Writes are refused by pipes, expansions fail where there are words, and a
utility is stopped by what it does itself. -/

/-- What code at a depth may come to: a signal is for loops that are around, or for a call. -/
def Outcome.Fits (d : Depth) : Outcome → Prop
  | .status _ => True
  | .returned _ => 0 < d.calls.1
  | .broken levels | .continued levels => 1 ≤ levels ∧ levels ≤ d.loops

/-- What can stop a utility: a refused write to one of its outputs, or a fault of its own. -/
def Invocation.Stops (call : Invocation) (abort : Abort) : Prop :=
  call.output.Refuses abort ∨ call.errors.Refuses abort ∨ ∃ f, abort = .fault f ∧ f ≠ .noCapacity

namespace Context

/-- What can stop code that runs in a context. A write is refused by a pipe alone. -/
def Stops (c : Context) : Abort → Prop
  | .exit _ | .limit _ => True
  | .fault f => f = .noCapacity → c.limits.pipeCapacity < 1
  | .brokenPipe => ∃ p, c.output = .pipe p ∨ c.errors = .pipe p
  | .expansion _ | .cancelled => False

/-- What can stop an expansion: it does not write to standard output, and only ends forks. -/
def Spoils (c : Context) : Abort → Prop
  | .expansion _ | .limit _ => True
  | .fault f => f = .noCapacity → c.limits.pipeCapacity < 1
  | .brokenPipe => ∃ p, c.errors = .pipe p
  | .exit _ | .cancelled => False

/-- What may come to an end of the words, other than by a failure of an expansion, stops the run. -/
theorem stops_of_spoils {c : Context} {abort : Abort} (h : c.Spoils abort)
    (hn : ∀ e, abort ≠ .expansion e) : c.Stops abort := by
  cases abort with
  | brokenPipe =>
    obtain ⟨p, hp⟩ := h
    exact ⟨p, .inr hp⟩
  | expansion e => exact absurd rfl (hn e)
  | exit _ => trivial
  | limit _ => trivial
  | fault _ => exact h
  | cancelled => exact h

/-- What a refused write to one of the two outputs comes to. -/
theorem stops_of_refuses {c : Context} {output : Output} {abort : Abort}
    (ho : output = c.output ∨ output = c.errors) (h : output.Refuses abort) : c.Stops abort := by
  cases output with
  | sink _ => exact h.elim
  | pipe p =>
    rcases h with rfl | rfl
    · exact ⟨p, ho.imp Eq.symm Eq.symm⟩
    · intro he
      cases he

end Context

namespace Exec

/-! ## 5. Code that keeps its depth -/

variable {α β : Type} {c : Context} {d : Depth} {E : Abort → Prop}

/-- Code that keeps the depth `d`, whose aborts are among `E` and whose values are among `V`. -/
def Keeps (x : Exec α) (c : Context) (d : Depth) (E : Abort → Prop) (V : α → Prop) : Prop :=
  ∀ s, s.depth = d → x.Ensures c s fun
    | .ok a, s' => s'.depth = d ∧ V a
    | .error abort, s' => s'.depth = d ∧ E abort

/-- More may be expected of aborts and values. -/
theorem Keeps.mono {x : Exec α} {E' : Abort → Prop} {V V' : α → Prop} (h : x.Keeps c d E V)
    (he : ∀ abort, E abort → E' abort) (hv : ∀ a, V a → V' a) : x.Keeps c d E' V' := by
  refine fun s hs => (h s hs).mono fun r s' hr => ?_
  cases r with
  | ok a => exact ⟨hr.1, hv a hr.2⟩
  | error abort => exact ⟨hr.1, he abort hr.2⟩

/-- A value that is known keeps everything. -/
theorem keeps_pure {a : α} {V : α → Prop} (h : V a) : (pure a : Exec α).Keeps c d E V :=
  fun _ hs => ensures_pure ⟨hs, h⟩

/-- One piece of code after another, both of which keep the depth. -/
theorem Keeps.bind {x : Exec α} {f : α → Exec β} {V : α → Prop} {V' : β → Prop}
    (h : x.Keeps c d E V) (hf : ∀ a, V a → (f a).Keeps c d E V') : (x >>= f).Keeps c d E V' := by
  refine fun s hs => ensures_bind ((h s hs).mono fun r s' hr => ?_)
  cases r with
  | ok a => exact hf a hr.2 s' hr.1
  | error abort => exact hr

/-- An abort that is expected. -/
theorem keeps_abort {a : Abort} {V : α → Prop} (h : E a) : (abort a : Exec α).Keeps c d E V :=
  fun _ hs => ensures_abort ⟨hs, h⟩

/-- The context is the one that the code runs in. -/
theorem keeps_context : context.Keeps c d E (· = c) :=
  fun _ hs => ensures_context ⟨hs, rfl⟩

/-- What handles aborts keeps the depth as well, and so the aborts may be others. -/
theorem Keeps.handle {x : Exec α} {f : Abort → Exec α} {E' : Abort → Prop} {V : α → Prop}
    (h : x.Keeps c d E' V) (hf : ∀ abort, E' abort → (f abort).Keeps c d E V) :
    (x.handle f).Keeps c d E V := by
  refine fun s hs => ensures_handle ((h s hs).mono fun r s' hr => ?_)
  cases r with
  | ok a => exact hr
  | error abort => exact hf abort hr.2 s' hr.1

/-- An action does not see the state, so it keeps the depth. -/
theorem keeps_lift {x : Action Ending α} {V : α → Prop}
    (h : x.Ensures c.limits fun
      | .ok a => V a
      | .error abort => E abort) : (lift x).Keeps c d E V := by
  refine fun s hs => ensures_lift (h.mono fun r hr => ?_)
  cases r with
  | ok a => exact ⟨hs, hr⟩
  | error abort => exact ⟨hs, hr⟩

/-- A fork keeps the depth, and only `exit` does not leave it. -/
theorem Keeps.isolate {shareArithmetic : Bool} {change : Context → Context} {x : Exec Outcome}
    {E' : Abort → Prop} {V : Outcome → Prop} {V' : Nat → Prop}
    (h : x.Keeps (change c) (d.forked shareArithmetic) E' V) (hc : (change c).limits = c.limits)
    (he : ∀ abort, E' abort → (∀ status, abort ≠ .exit status) → E abort)
    (hv : ∀ outcome, V outcome → V' outcome.toStatus)
    (hexit : ∀ status, E' (.exit status) → V' status) :
    (isolate shareArithmetic change x).Keeps c d E V' := by
  intro s hs
  have hd : (forked s shareArithmetic).depth = d.forked shareArithmetic := by
    rw [depth_forked, hs]
  refine ensures_isolate hc ((h _ hd).mono fun r after hr => ?_)
  -- The fork has its own depth, and rejoining brings the one before it back.
  have hdepth : after.depth = d.forked shareArithmetic → (rejoined s after shareArithmetic).depth = d := by
    intro ha
    rw [depth_rejoined (ha.trans (by rw [hs])), hs]
  cases r with
  | ok outcome => exact ⟨hdepth hr.1, hv outcome hr.2⟩
  | error abort =>
    cases abort with
    | exit status => exact ⟨hdepth hr.1, hexit status hr.2⟩
    | limit e => exact ⟨hdepth hr.1, he _ hr.2 fun _ h => by cases h⟩
    | expansion e => exact ⟨hdepth hr.1, he _ hr.2 fun _ h => by cases h⟩
    | brokenPipe => exact ⟨hdepth hr.1, he _ hr.2 fun _ h => by cases h⟩
    | fault f => exact ⟨hdepth hr.1, he _ hr.2 fun _ h => by cases h⟩
    | cancelled => exact ⟨hdepth hr.1, he _ hr.2 fun _ h => by cases h⟩

/-! ## 6. Output -/

/-- Nothing stops a diagnostic but what standard error refuses. -/
theorem keeps_diagnose_of_refuses (message : String) (h : ∀ a, c.errors.Refuses a → E a) :
    (diagnose message).Keeps c d E fun _ => True := by
  refine keeps_context.bind fun _ _ => keeps_context.bind fun c' hc => keeps_lift ?_
  subst hc
  exact Action.ensures_writeText trivial h

end Exec

end Shell
