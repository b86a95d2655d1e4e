/-
Runs that stay within their limits.

A limit that is reached ends the run: nothing on the way up deals with it, and the shell reports it and
comes to status 126. As a script can come to this status by itself, staying within the limits is said of a run that
does not report (`Session.StaysWithin`). It is the run of the shell but for that.

Such a run is compared with one whose limits are no smaller (`Limits.Below`). The comparison is lenient:
the second run may do as it likes once the first has come to a limit. So it has to be shown that the
first one then cannot come to a status, and this is so in machines as well, where stages run while others
fail. What is left is that the limits play no other part: all steps of the one run are steps of the other.

There is one other part that they do play. The stack that a host is asked for grows with the number of calls that are
allowed, and a session does not begin to run if it is refused.
-/
import Shell.Proofs.Exec.Runs
import Shell.Proofs.Exec.Watched
import Shell.Proofs.Script.Lines

set_option autoImplicit false

namespace Shell

/-! ## 1. Scripts without reports

A script that comes to a limit reports it and ends with a status, so a status alone does not tell whether a limit
was reached. Without the report it does. -/

namespace Execution

/-- Reports a limit that has been reached. -/
def reportLimit : Abort → Exec Nat
  | .limit e => do
    Exec.diagnose e.message
    return 126
  | a => Exec.abort a

/-- Runs a whole script as `script` does, but ends with a limit that is reached. -/
def unreported (s : Sequence) : Exec Nat :=
  (do return (← run s).toStatus : Exec Nat).handle fun
    | .exit status => return status
    | a => Exec.abort a

/-- What handles what is left over handles it in the handler as well. -/
theorem handle_handle {α : Type} (x : Exec α) (f g : Abort → Exec α) :
    (x.handle f).handle g = x.handle fun a => (f a).handle g := by
  funext c s next
  refine congrArg (x c s) (funext fun r => ?_)
  cases r <;> rfl

/-- A script is the run that does not report, and the report. -/
theorem script_eq_handle (s : Sequence) : script s = (unreported s).handle reportLimit := by
  unfold script unreported
  rw [handle_handle]
  refine congrArg (Exec.handle _) (funext fun a => ?_)
  cases a <;> rfl

variable {K : Comparison} {k : Nat} {c : Context} {d : Depth}

/-- Without the report a script does nothing but what its sequence does. -/
theorem related_unreported (hrun : K.Runs k run run) (s : Sequence) :
    K.Related k c d (fun _ => True) K.good (unreported s) (unreported s) := by
  have hbody : K.Related k c d c.Stops K.good (do return (← run s).toStatus : Exec Nat)
      (do return (← run s).toStatus : Exec Nat) :=
    (hrun c d s).bind fun outcome ho => Comparison.related_pure (Comparison.good_toStatus ho.2)
  refine hbody.handle (fun abort _ hg => ?_) fun _ => Exec.eq_abort (fun _ => rfl) fun _ => rfl
  cases abort with
  | exit status => exact Comparison.related_pure hg
  | limit _ | expansion _ | brokenPipe | fault _ | cancelled =>
    exact Comparison.related_abort trivial trivial

/-- A lenient comparison does not see the report of the second run. -/
theorem related_reported (hl : K.lenient) {x x' : Exec Nat}
    (h : K.Related k c d (fun _ => True) K.good x x') :
    K.Related k c d (fun _ => True) K.good x (x'.handle reportLimit) := by
  have hx : x = x.handle Exec.abort := by
    funext c s next
    refine congrArg (x c s) (funext fun r => ?_)
    cases r <;> rfl
  rw [hx]
  refine h.handle (fun abort _ hg => ?_) fun _ _ _ => rfl
  -- A limit is all that is reported, and after it the comparison asks for nothing.
  cases abort with
  | limit e => exact Comparison.related_pardon hl
  | exit _ | expansion _ | brokenPipe | fault _ | cancelled =>
    exact Comparison.related_abort trivial hg

end Execution

/-! ## 2. Sessions

With larger limits the run goes alike up to where the first one would come to a limit, and by assumption it does
not. But the session asks for a stack before the run begins, and that depends on the limit of calls and not on the
script. -/

namespace Session

/-- The job of a script that does not report. -/
def unreportedJob (session : Session) (script : Sequence) : Job Ending :=
  Execution.unreported script session.context { env := session.env } fun r s =>
    match r with
    | .ok status => .finish ⟨.ok status, s.env⟩
    | .error abort => .fail abort

/-- What a script comes to if limits are not reported: a status, or what has stopped it. -/
def unreported (session : Session) (script : Sequence) (input : Input) : Completion :=
  complete (session.unreportedJob script) session.env input

/-- The run of a script comes to a status, and to no limit on the way; so it has begun, with a stack for its limits. -/
def StaysWithin (session : Session) (script : Sequence) (input : Input) : Prop :=
  session.stackFault? = none ∧ ∃ status, (session.unreported script input).status = .ok status

/-- The session with other limits. -/
def withLimits (session : Session) (limits : Limits) : Session := { session with limits := limits }

variable {session : Session} {limits : Limits}

/-- **A run that stays within its limits does not depend on them**: with limits that are no smaller the
shell comes to the same. -/
theorem runScript_eq_unreported (hc : session.context.Proper) (hlimits : session.limits.Below limits)
    {script : Sequence} {input : Input} (h : ∃ status, (session.unreported script input).status = .ok status) :
    (session.withLimits limits).runScript script input = session.unreported script input := by
  let good : Nat → Prop := fun _ => True
  have byte : ∀ n < 256, good n := fun _ _ => trivial
  let d : Depth := ⟨0, session.env.calls, []⟩
  -- The run under its own limits is one that ends.
  have hends : (session.unreportedJob script).Ends (StageResult session.limits good)
      fun _ => True := by
    let K := Comparison.ends session.limits good byte
    have hrun : K.Runs 0 Execution.run Execution.run :=
      Execution.runs_run Execution.sequence (Execution.runs_self _)
    refine Execution.related_unreported (d := d) hrun script (hc.ends good byte) trivial _ _ 0 _
      (fun r s => .finish ⟨r, s.env⟩) trivial (session.at_start trivial) (Nat.le_refl 0)
      (fun r s _ _ _ _ => ?_) False.elim
    cases r with
    | ok status => exact .finish trivial
    | error abort => exact .fail trivial
  -- The run under the larger ones is like it as long as the first has met no limit.
  have hlike : (session.unreportedJob script).Like True (StageResult session.limits good) 0
      (Execution.script script (session.withLimits limits).context { env := session.env } fun r s =>
        .finish ⟨r, s.env⟩) := by
    let K := Comparison.alikeWithin True hlimits (.inr trivial) good byte (fun _ => True)
      (Depth.closed_anyhow _)
    have hrun : K.Runs 0 Execution.run Execution.run :=
      Execution.runs_run Execution.sequence (Execution.runs_sequence
        (.inr (.inr ⟨trivial, Int.toNat_le_toNat hlimits.commandCount⟩)))
    rw [Execution.script_eq_handle]
    have hrelated := Execution.related_reported (K := K) trivial
      (Execution.related_unreported (c := session.context) (d := d) hrun script)
    refine hrelated ⟨rfl, hc⟩ trivial () _ 0 _ (fun r s => .finish ⟨r, s.env⟩) trivial
      (session.at_start trivial) (Nat.le_refl 0) (fun r s _ _ _ _ => ?_)
      fun _ _ _ _ _ => .pardon trivial (.fail ⟨_, rfl⟩)
    cases r with
    | ok status => exact .finish
    | error abort => exact .pardon trivial (.fail ⟨_, rfl⟩)
  exact complete_like hends hlike session.env input fun _ => h

/-- Limits that are no smaller need a stack that is no less deep, so that the host can only find it too deep. -/
theorem stackFault?_withLimits (hlimits : session.limits.Below limits) (h : session.stackFault? = none) :
    (session.withLimits limits).stackFault? =
      if (session.withLimits limits).stackDepth < stackBound then none else some .stackTooDeep := by
  have hle : session.stackDepth ≤ (session.withLimits limits).stackDepth := by
    have hcalls := Int.mul_le_mul_of_nonneg_right hlimits.callDepth (Int.natCast_nonneg framesPerCall)
    exact Int.add_le_add_left hcalls _
  have hpos := ((stackFault?_eq_none_iff session).mp h).1
  split
  · next hlt => exact (stackFault?_eq_none_iff _).mpr ⟨Int.le_trans hpos hle, hlt⟩
  · next hlt => exact (stackFault?_eq_some_iff _).mpr (.inl ⟨rfl, .inl (Int.not_lt.mp hlt)⟩)

/-- **Limits only ever abort, but for the stack that is asked for all their calls.** If a script that can be parsed
stays within the limits of a session, the session with limits that are no smaller, and the same capacity of pipes, comes
to the same status, output and diagnostics, and leaves the same environment, as long as the host can be asked for a stack
that is deep enough. If it cannot, the second session does not begin to run, and is as it was. -/
theorem exec_withLimits (hc : session.context.Proper) (hlimits : session.limits.Below limits)
    {source : String} {script : Sequence} (hparse : parse source = .ok script) {input : Input}
    (h : session.StaysWithin script input) :
    ∃ completion status, completion.status = .ok status ∧
      session.exec source input =
        .ok (completion, { session with env := after completion }) ∧
      (session.withLimits limits).exec source input =
        .ok (if (session.withLimits limits).stackDepth < stackBound then
            (completion, { session.withLimits limits with env := after completion })
          else ((session.withLimits limits).refused .stackTooDeep input, session.withLimits limits)) := by
  obtain ⟨hstack, status, hstatus⟩ := h
  have hfault := stackFault?_withLimits hlimits hstack
  refine ⟨session.unreported script input, status, hstatus, ?_, ?_⟩
  · rw [exec_of_stack hparse hstack, ← runScript_eq_unreported hc (.refl _) ⟨status, hstatus⟩]
    rfl
  -- The stack is refused only where the depth is too large for it.
  · split
    · next hlt =>
      rw [if_pos hlt] at hfault
      rw [exec_of_stack hparse hfault, runScript_eq_unreported hc hlimits ⟨status, hstatus⟩]
    · next hlt =>
      rw [if_neg hlt] at hfault
      exact exec_of_stackFault hparse hfault

/-- A run that does not stop stays within its limits, if the host has a stack for them. -/
theorem staysWithin_of_abort? {script : Sequence} {input : Input} (hstack : session.stackFault? = none)
    (h : (session.unreported script input).abort? = none) : session.StaysWithin script input := by
  refine ⟨hstack, ?_⟩
  unfold Completion.abort? at h
  cases hstatus : (session.unreported script input).status with
  | ok status => exact ⟨status, rfl⟩
  | error abort =>
    rw [hstatus] at h
    cases h

/-- A session in which one call and three lists are all there can be. -/
def tight : Session :=
  { limits := { maxCallDepth := 1, maxCommandCount := 3, maxLoopIterations := 0 } }

/-- `f() { echo $?; }; f`. -/
def tightSource : String := "f() \x7b echo $?; \x7d; f"

/-- The script in this source: a function, and a call of it. -/
def tightScript : Sequence :=
  ⟨[⟨⟨false, .function 1 "f" ⟨[plainStatement "echo" [.parameter "?"]]⟩, []⟩, []⟩,
    plainStatement "f" []]⟩

/-- A script that uses up its limits does the same with the default ones. -/
theorem tightScript_withLimits :
    tight.context.Proper ∧ tight.limits.Below {} ∧ parse tightSource = .ok tightScript ∧
      tight.StaysWithin tightScript (.ofText "") ∧
      ∃ completion status, completion.status = .ok status ∧
        tight.exec tightSource (.ofText "") =
          .ok (completion, { tight with env := after completion }) ∧
        (tight.withLimits {}).exec tightSource (.ofText "") =
          .ok (completion, { tight.withLimits {} with env := after completion }) := by
  have hproper : tight.context.Proper := Context.proper_of_standard rfl
  have hbelow : tight.limits.Below {} := by
    constructor <;> decide
  have hparse : parse tightSource = .ok tightScript := by
    rw [parse, parseFrom_eq_parseWithin]
    cbv
  have hwithin : tight.StaysWithin tightScript (.ofText "") :=
    staysWithin_of_abort? (by decide) (by decide +kernel)
  have hdepth : (tight.withLimits {}).stackDepth < stackBound := by decide
  obtain ⟨completion, status, hstatus, hexec, hwith⟩ := exec_withLimits hproper hbelow hparse hwithin
  rw [if_pos hdepth] at hwith
  exact ⟨hproper, hbelow, hparse, hwithin, completion, status, hstatus, hexec, hwith⟩

/-- The default limits, but for calls that are nested so deep that no host has a stack for them. -/
def deepLimits : Limits := { maxCallDepth := 100000000 }

/-- `echo a` calls nothing and needs no more than the default limits, but is not run with larger ones. -/
theorem deepLimits_refused :
    ({} : Session).limits.Below deepLimits ∧ parse "echo a" = .ok (oneCommand "echo" (.literal "a")) ∧
      ({} : Session).StaysWithin (oneCommand "echo" (.literal "a")) (.ofText "") ∧
      (({} : Session).runScript (oneCommand "echo" (.literal "a")) (.ofText "")).output = "a\n" ∧
      (({} : Session).withLimits deepLimits).exec "echo a" (.ofText "") =
        .ok ((({} : Session).withLimits deepLimits).refused .stackTooDeep (.ofText ""),
          ({} : Session).withLimits deepLimits) := by
  have hparse : parse "echo a" = .ok (oneCommand "echo" (.literal "a")) := by
    rw [parse, parseFrom_eq_parseWithin]
    cbv
  have hbelow : ({} : Session).limits.Below deepLimits := by
    constructor <;> decide
  exact ⟨hbelow, hparse, staysWithin_of_abort? (by decide) (by decide +kernel), by decide +kernel,
    exec_of_stackFault hparse (by decide)⟩

end Session

end Shell
