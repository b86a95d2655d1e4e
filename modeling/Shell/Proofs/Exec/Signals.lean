/-
Signals and their scope.

`return` is meant for a call, `break` and `continue` for loops, and a signal that came further than
that would end code it does not belong to. It does not: whatever node runs, in whatever state, its
signals are for calls and loops that are around (`Outcome.Scoped`), and the number of loops and calls is
after it what it was before, however it ends. A function body and a script have no loop around them,
and a fork stops all signals. Inside loops, `break` ends exactly as many as it is told to, or all
there are.

The first statements follow from what code keeps, at the depth it starts at; the last is the way of
the signal through the surroundings of the command.
-/
import Shell.Proofs.Exec.Surroundings
import Shell.Proofs.Exec.Utilities
import Shell.Session

set_option autoImplicit false

namespace Shell

open Execution

variable {c : Context} {s : State}

/-! ## 1. Scopes

`break` and `continue` tell how many loops they are for, and `return` is for one call. What is shown of code is that
there are as many loops around, and a call. -/

/-- What code that starts in `s` may come to: its signals are for loops and calls that are around. -/
def Outcome.Scoped (s : State) : Outcome → Prop
  | .status _ => True
  | .returned _ => 0 < s.env.callDepth
  | .broken levels | .continued levels => 1 ≤ levels ∧ levels ≤ s.loopDepth

/-- The end of code that starts in `s`: as many loops and calls are around as before, and an outcome is
within the scope. -/
def State.Returns (s : State) (r : Except Abort Outcome) (after : State) : Prop :=
  after.loopDepth = s.loopDepth ∧ after.env.callDepth = s.env.callDepth ∧
    ∀ outcome, r = .ok outcome → outcome.Scoped s

/-- Code that keeps its depth leaves as many loops and calls as there were, and its signals are for these. -/
theorem Exec.Keeps.returns {x : Exec Outcome} {E : Abort → Prop}
    (h : x.Keeps c s.depth E (Outcome.Fits s.depth)) : x.Ensures c s s.Returns := by
  refine (h s rfl).mono fun r after hr => ?_
  cases r with
  | ok outcome =>
    refine ⟨congrArg Depth.loops hr.1, congrArg (fun d => d.calls.1) hr.1, fun o ho => ?_⟩
    obtain rfl := Except.ok.inj ho
    cases outcome <;> exact hr.2
  | error abort =>
    refine ⟨congrArg Depth.loops hr.1, congrArg (fun d => d.calls.1) hr.1, fun o ho => ?_⟩
    cases ho

/-- Where no loop is around, code comes to a status or returns. -/
theorem Exec.Keeps.ensures_status {x : Exec Outcome} {E : Abort → Prop}
    (h : x.Keeps c s.depth E (Outcome.Fits s.depth)) (hs : s.loopDepth = 0) :
    x.Ensures c s fun r _ => ∀ outcome, r = .ok outcome →
      ∃ status, outcome = .status status ∨ outcome = .returned status ∧ 0 < s.env.callDepth := by
  refine h.returns.mono fun r after hr outcome ho => ?_
  have hscope := hr.2.2 outcome ho
  cases outcome with
  | status status => exact ⟨status, .inl rfl⟩
  | returned status => exact ⟨status, .inr ⟨rfl, hscope⟩⟩
  | broken levels | continued levels =>
    have hle : levels ≤ s.loopDepth := hscope.2
    exact absurd hscope.1 (by omega)

/-- A call runs the body of the function between entering and leaving. -/
theorem callFunction_eq (run : Runner) (name : String) (body : Sequence) (args : List String)
    (h : (s.env.callDepth : Int) < c.limits.maxCallDepth) :
    callFunction run name body args c s =
      (do return (← (run body).ensure s.leaveCall).toStatus : Exec Nat) c
        (s.enterCall ⟨args, some name⟩) := by
  funext next
  have hle : ¬ c.limits.maxCallDepth ≤ s.env.callDepth := by omega
  show (if c.limits.maxCallDepth ≤ s.env.callDepth then _ else _ : Exec Nat) c s next = _
  rw [if_neg hle]
  rfl

/-- Where there are too many calls already, none is made. -/
theorem callFunction_of_le (run : Runner) (name : String) (body : Sequence) (args : List String)
    (h : c.limits.maxCallDepth ≤ (s.env.callDepth : Int)) :
    callFunction run name body args c s =
      (Exec.abort (.limit (.callDepth c.limits.maxCallDepth)) : Exec Nat) c s := by
  funext next
  show (if c.limits.maxCallDepth ≤ s.env.callDepth then _ else _ : Exec Nat) c s next = _
  rw [if_pos h]
  rfl

/-- The aborts that stop a fork: no `exit`, and no expansion error. -/
def Abort.StopsFork : Abort → Prop
  | .limit _ | .brokenPipe | .fault _ => True
  | .exit _ | .expansion _ | .cancelled => False

/-- A fork of which the code keeps its depth comes to a status, or is stopped. -/
theorem Exec.Keeps.ensures_isolate {x : Exec Outcome} {shareArithmetic : Bool}
    {change : Context → Context} (hlimits : (change c).limits = c.limits)
    (h : x.Keeps (change c) (s.depth.forked shareArithmetic) (change c).Stops
      (Outcome.Fits (s.depth.forked shareArithmetic))) :
    (Exec.isolate shareArithmetic change x).Ensures c s fun r after =>
      after.loopDepth = s.loopDepth ∧
        ((∃ status, r = .ok status) ∨ ∃ abort, r = .error abort ∧ abort.StopsFork) := by
  have hfork : (Exec.isolate shareArithmetic change x).Keeps c s.depth Abort.StopsFork
      fun _ => True := by
    refine h.isolate hlimits (fun abort ha hn => ?_) (fun _ _ => trivial) fun _ _ => trivial
    -- `exit` does not leave a fork: it becomes its status.
    cases abort with
    | exit status => exact absurd rfl (hn status)
    | limit _ | brokenPipe | fault _ => trivial
    | expansion _ | cancelled => exact ha.elim
  refine (hfork s rfl).mono fun r after hr => ?_
  cases r with
  | ok status => exact ⟨congrArg Depth.loops hr.1, .inl ⟨status, rfl⟩⟩
  | error abort => exact ⟨congrArg Depth.loops hr.1, .inr ⟨abort, rfl, hr.2⟩⟩

/-! ## 2. Leaving loops

What `break` does is an equation between code in its surroundings and what runs after the loops that are left. So it
also says what is not run: everything else in those loops. -/

open Surrounding

/-- Inside loops, `break` is a signal for as many as it is told, but no more than there are. -/
theorem Control.breakLoops_eq {args : List String} {levels : Nat}
    (h : readLevels "break" args = .ok levels) (hs : 0 < s.loopDepth) :
    breakLoops args c s = (return .broken (min levels s.loopDepth) : Exec Outcome) c s := by
  funext next
  unfold breakLoops signalLoops
  rw [h]
  show (if s.loopDepth = 0 then _ else _ : Exec Outcome) c s next = _
  rw [if_neg (Nat.ne_of_gt hs)]

/-- `x` in the surroundings `fs` ends the innermost loops of them, `levels` loops or all there are,
and nothing else of them runs. If that is enough levels, what runs next is what stands around the last
loop ended; otherwise the levels that are left go on outwards. There are as many loops fewer around as have ended. -/
def Surrounding.Unwinds (fs : List Surrounding) (levels : Nat) (c : Context) (s : State)
    (x : Exec Outcome) : Prop :=
  (min levels s.loopDepth ≤ loops fs → ∃ inner loop outer, fs = inner ++ loop :: outer ∧
    loop.isLoop = true ∧ loops inner + 1 = min levels (loops fs) ∧
    (leaveAll (inner ++ [loop]) s).loopDepth = s.loopDepth - min levels (loops fs) ∧
    plug fs x c s = plug outer (return .status loop.endStatus) c (leaveAll (inner ++ [loop]) s)) ∧
  (loops fs < min levels s.loopDepth → (leaveAll fs s).loopDepth = s.loopDepth - loops fs ∧
    plug fs x c s =
      (return .broken (min levels s.loopDepth - loops fs) : Exec Outcome) c (leaveAll fs s))

/-- **`break` inside of loops** ends as many as it is told to, or all that there are. -/
theorem Surrounding.unwinds_breakLoops {args : List String} {levels : Nat}
    (h : Control.readLevels "break" args = .ok levels) {fs : List Surrounding}
    (hone : 1 ≤ loops fs) (hs : loops fs ≤ s.loopDepth) :
    Unwinds fs levels c s (Control.breakLoops args) := by
  have hbreak := plug_congr fs (Control.breakLoops_eq (c := c) h (by omega : 0 < s.loopDepth))
  -- The levels asked for are cut to the loops there are, and at least one is left.
  have hlevels := Control.one_le_of_readLevels h
  refine ⟨fun hle => ?_, fun hlt => ⟨loopDepth_leaveAll fs s, hbreak.trans (plug_broken_of_lt fs hlt s)⟩⟩
  obtain ⟨inner, loop, outer, hfs, hloop, hcount, hplug⟩ :=
    plug_broken (c := c) fs (by omega : 1 ≤ min levels s.loopDepth) hle s
  -- The loop that is ended is the last of those that are left.
  have hended : loops (inner ++ [loop]) = loops inner + 1 := by
    rw [loops, List.countP_append, ← loops, ← loops, loops_cons_of_isLoop hloop]
    rfl
  refine ⟨inner, loop, outer, hfs, hloop, by omega, ?_, hbreak.trans hplug⟩
  rw [loopDepth_leaveAll, hended]
  omega

/-! ## 3. The scope of signals -/

/-- **Signals stay in their scope.** Whatever node runs in whatever state, its signals are for what
is around, and afterwards as much is around as before. So the body of a function comes to a status or
returns, a script returns only inside a call, and a fork comes to a status unless it is stopped. In
loops, `break` ends the innermost ones, as many as it is told or all there are, also as
`command break` and `builtin break`; and the surroundings in which it does so are those in which the constructs run
their parts. -/
theorem Execution.signals_scoped (hc : c.Sound) (budget : Nat) (s : State) :
    (∀ node : Node, (node.exec budget).Ensures c s s.Returns) ∧
    (∀ name body args,
      ((s.env.callDepth : Int) < c.limits.maxCallDepth →
        callFunction (sequence budget) name body args c s =
          (do return (← (sequence budget body).ensure s.leaveCall).toStatus : Exec Nat) c
            (s.enterCall ⟨args, some name⟩)) ∧
      (sequence budget body).Ensures c (s.enterCall ⟨args, some name⟩) fun r _ =>
        ∀ outcome, r = .ok outcome →
          ∃ status, outcome = .status status ∨ outcome = .returned status) ∧
    (∀ body, s.loopDepth = 0 → (run body).Ensures c s fun r _ => ∀ outcome, r = .ok outcome →
      ∃ status, outcome = .status status ∨ outcome = .returned status ∧ 0 < s.env.callDepth) ∧
    (∀ shareArithmetic change, (change c).limits = c.limits → (change c).spawner = c.spawner →
      ∀ node : Node, (Exec.isolate shareArithmetic change (node.exec budget)).Ensures c s
        fun r after => after.loopDepth = s.loopDepth ∧
          ((∃ status, r = .ok status) ∨ ∃ abort, r = .error abort ∧ abort.StopsFork)) ∧
    Frames (sequence budget) ∧
    ∀ which words args levels, Call.follow which words = .builtin .break args →
      Control.readLevels "break" args = .ok levels →
      ∀ fs : List Surrounding, 1 ≤ loops fs → loops fs ≤ s.loopDepth →
        Unwinds fs levels c s (which.run (sequence budget) words) := by
  refine ⟨fun node => (node.keeps_exec hc _ budget).returns,
    fun name body args => ⟨callFunction_eq _ name body args, ?_⟩,
    fun body hs => Exec.Keeps.ensures_status (sound_run c s.depth body hc) hs,
    fun shareArithmetic change hlimits hspawner node =>
      Exec.Keeps.ensures_isolate hlimits (node.keeps_exec (hc.congr hlimits hspawner) _ budget), frames _,
    fun which words args levels hcall hlevels fs hone hdepth => ?_⟩
  -- Inside of the call no loop is open, so the body can end by a return at most.
  · have hstatus := Exec.Keeps.ensures_status
      (sound_sequence budget c (s.enterCall ⟨args, some name⟩).depth body hc) rfl
    refine hstatus.mono fun r after hr outcome ho => ?_
    obtain ⟨status, h⟩ := hr outcome ho
    exact ⟨status, h.imp id And.left⟩
  -- The builtin is found by its name, whatever the spawner is.
  · have hrun : which.run (sequence budget) words = Control.breakLoops args := by
      unfold Builtin.run
      rw [hcall]
      rfl
    rw [hrun]
    exact unwinds_breakLoops hlevels hone hdepth

/-- The body of a `while` loop in the condition of a choice in the body of a `for` loop. -/
def nestedLoops : List Surrounding :=
  [.sequence (andOr (sequence 1)) [], .body (sequence 1) .while ⟨[]⟩ ⟨[]⟩ 3, .pipeline true,
    .choice (sequence 1) ⟨[]⟩ [] none, .list (sequence 1) [], .each (sequence 1) "x" ⟨[]⟩ ["b"] 7]

/-- Two loops are all that `command break 5` ends there. -/
theorem nestedLoops_unwinds :
    ({} : Session).context.Sound ∧ Call.follow .command ["break", "5"] = .builtin .break ["5"] ∧
      Control.readLevels "break" ["5"] = .ok 5 ∧
      Unwinds nestedLoops 5 ({} : Session).context { env := {}, loopDepth := 2 }
        (Builtin.run (sequence 1) .command ["break", "5"]) := by
  have hsound : ({} : Session).context.Sound := Context.sound_of_standard rfl
  have hcall : Call.follow .command ["break", "5"] = .builtin .break ["5"] := by cbv
  have hfive : Text.readDecimal? "5".toList = some 5 := by decide +kernel
  have hlevels : Control.readLevels "break" ["5"] = .ok 5 := by
    unfold Control.readLevels
    simp only [hfive]
    rfl
  exact ⟨hsound, hcall, hlevels,
    (signals_scoped hsound 1 { env := {}, loopDepth := 2 }).2.2.2.2.2 .command ["break", "5"] ["5"] 5
      hcall hlevels nestedLoops (by decide) (by decide)⟩

end Shell
