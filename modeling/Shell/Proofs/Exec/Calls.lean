/-
Calls and their frames.

The number of calls that an environment is in, the frames of the callers and the number of loops are
kept in different places, are copied differently by forks, and change together: a call adds one frame and
one to the depth, sets the loops to none, and undoes all that however its body ends. So every node leaves
as many as it finds, the frame that a call takes away in the end is the one it has added, and a session
is in no call between its runs. In no environment of a run are there more calls than the limit allows.
-/
import Shell.Proofs.Exec.Runs
import Shell.Proofs.Exec.Signals
import Shell.Proofs.Exec.Watched

set_option autoImplicit false

namespace Shell

open Execution

variable {c : Context} {s : State}

/-! ## 1. Calls

A call puts a frame on those of the callers. Since its body keeps the depth, the frames below are those that were
there, and taking off one frame gives the caller what it had. -/

/-- What a call is run in: the frame of the caller, and the frames and loops around it. -/
def State.Calls (s after : State) : Prop := after.depth = s.depth ∧ after.env.frame = s.env.frame

/-- Whatever a node comes to, it leaves as many calls and loops as there were. -/
theorem Node.ensures_depth (hc : c.Sound) (budget : Nat) (node : Node) :
    (node.exec budget).Ensures c s fun _ after => after.depth = s.depth :=
  (Comparison.Related.ensures (k := 0) (node.comes budget) hc).mono fun _ _ h => h.1

/-- When the body of a function has ended, the frame of its call is the innermost one, and the frames
below it are those that the caller has. -/
theorem Execution.ensures_body (hc : c.Sound) (budget : Nat) (body : Sequence) (frame : Frame) :
    (sequence budget body).Ensures c (s.enterCall frame) fun _ after =>
      after.env.popFrame? = some (after.env.frame,
        { after.env with frame := s.env.frame, callers := s.env.callers }) := by
  refine ((Node.sequence body).ensures_depth hc budget).mono fun r after hd => ?_
  have hcallers : after.env.callers = s.env.frame :: s.env.callers :=
    congrArg (fun d : Depth => d.calls.2) hd
  unfold Environment.popFrame?
  rw [hcallers]

/-- A body that leaves as many calls as it has found leaves the caller as it was. -/
theorem State.calls_leaveCall {after : State} {frame : Frame}
    (hd : after.depth = (s.enterCall frame).depth) : s.Calls (s.leaveCall after) := by
  have hcallers : after.env.callers = s.env.frame :: s.env.callers :=
    congrArg (fun d : Depth => d.calls.2) hd
  refine ⟨?_, ?_⟩
  · -- Of the statuses nothing is asked.
    have hat : (Comparison.anyEnds {}).At (s.depth.inCall s.env.frame) after :=
      ⟨hd, trivial, fun _ _ => trivial, fun _ _ => trivial⟩
    exact (at_leaveCall (s.at_depth {}) hat).depth
  · show after.env.leaveCall.frame = s.env.frame
    rw [Environment.leaveCall_eq hcallers]

/-- **A call leaves everything of the caller as it found it**, however its body ends. -/
theorem Execution.ensures_callFunction (hc : c.Sound) (budget : Nat) (name : String) (body : Sequence)
    (args : List String) :
    (callFunction (sequence budget) name body args).Ensures c s fun _ after => s.Calls after := by
  intro next R hn
  by_cases hlimit : (s.env.callDepth : Int) < c.limits.maxCallDepth
  · rw [callFunction_eq _ name body args hlimit]
    have hbody : ((sequence budget body).ensure s.leaveCall).Ensures c (s.enterCall ⟨args, some name⟩)
        fun _ after => s.Calls after :=
      Exec.ensures_ensure (((Node.sequence body).ensures_depth hc budget).mono fun _ _ hd =>
        State.calls_leaveCall hd)
    refine Exec.ensures_bind (hbody.mono fun r after ha => ?_) next R hn
    cases r with
    | ok outcome => exact Exec.ensures_pure ha
    | error abort => exact ha
  · rw [callFunction_of_le _ name body args (by omega)]
    exact hn _ s ⟨rfl, rfl⟩

/-! ## 2. Sessions

What is true between any two commands of a run cannot be said of its result. It is said by a run with checks, which
would end in an alarm if a check failed and which is shown to be the same run. -/

/-- In a run with some limits no environment is in more calls than they allow, and it has a frame for
each of them at most, and one more. -/
def Depth.Nested (limits : Limits) (d : Depth) : Prop :=
  d.calls.1 ≤ limits.maxCallDepth.toNat ∧ d.calls.2.length ≤ d.calls.1

/-- The bound on calls stays where nothing is called, and a call is made below it only. -/
theorem Depth.closed_nested (limits : Limits) : Closed limits (Nested limits) where
  loop := id
  fork _ hd := ⟨hd.1, Nat.zero_le _⟩
  call {d} frame hd hlt := by
    refine ⟨?_, Nat.succ_le_succ hd.2⟩
    show d.calls.1 + 1 ≤ limits.maxCallDepth.toNat
    omega

/-- Whether an environment is in as many calls as limits allow, and has as many frames as that makes. -/
def Environment.isNested (limits : Limits) (env : Environment) : Bool :=
  env.callDepth ≤ limits.maxCallDepth.toNat && env.frameCount ≤ env.callDepth + 1

/-- Code that is checked for the calls around it: that they are within the limit, and that it leaves
them as it found them, the frames of the callers and the loops included. -/
def Exec.checkedCalls (limits : Limits) (alarm : Exec Unit) : Exec Outcome → Exec Outcome :=
  checked (fun s => s.env.isNested limits) (fun s after _ => after.depth = s.depth) alarm

namespace Session

variable {session : Session}

/-- A check for too many calls before each node never finds any, so the run is the same with it. -/
theorem runBy_checkedCalls (hc : session.context.Proper) (hcalls : session.env.calls = (0, []))
    (alarm : Exec Unit) (script : Sequence) (input : Input) :
    session.runBy (runAround (Exec.checkedCalls session.limits alarm)) script input =
      session.runScript script input := by
  refine runBy_checked (fun _ => True) (fun _ _ => trivial) (Depth.closed_nested session.limits) hc
    trivial ?_ (fun s hd _ => ?_) (fun s s' _ _ hd _ _ _ => ?_) alarm
    script input
  · rw [hcalls]
    exact ⟨Nat.zero_le _, Nat.le_refl _⟩
  · obtain ⟨hdepth, hframes⟩ := hd
    simp only [Environment.isNested, Bool.and_eq_true, decide_eq_true_eq]
    exact ⟨hdepth, Nat.succ_le_succ hframes⟩
  · exact decide_eq_true hd

/-- A run leaves as many calls as it has found. -/
theorem calls_runScript (hc : session.context.Proper) (script : Sequence) (input : Input) :
    (session.runScript script input).env.calls = session.env.calls := by
  have hends := session.ends_script (fun _ => True) (fun _ _ => trivial) hc trivial script
  rcases complete_ends hends session.env input with ⟨ending, hr, -, henv⟩ | ⟨henv, -⟩
  · exact (congrArg Environment.calls henv).trans hr.1
  · exact congrArg Environment.calls henv

/-- What a completion leaves for the next run is its environment. -/
theorem calls_after (completion : Completion) : (after completion).calls = completion.env.calls := by
  unfold after
  split <;> rfl

/-- **Calls are balanced.** A run can be checked around every list in every environment: there are never
more calls than the limit, nor more frames than calls but for one, and each list leaves the calls around
it as they were. So does every node in every state; a call also leaves the frame of the caller, it runs the
body with one more frame and one call more, and takes away the frame that it has added. A fork
starts with one frame, and in the same number of calls. A session that is in no call is in none after its
runs. -/
theorem calls_balanced (hc : session.context.Proper) (hcalls : session.env.calls = (0, [])) :
    (∀ alarm script input,
      session.runBy (runAround (Exec.checkedCalls session.limits alarm)) script input =
        session.runScript script input) ∧
    (∀ c : Context, c.spawner = session.spawner → ∀ budget s,
      (∀ node : Node, (node.exec budget).Ensures c s fun _ after => after.depth = s.depth) ∧
      (∀ name body args,
        ((s.env.callDepth : Int) < c.limits.maxCallDepth →
          callFunction (sequence budget) name body args c s =
            (do return (← (sequence budget body).ensure s.leaveCall).toStatus : Exec Nat) c
              (s.enterCall ⟨args, some name⟩)) ∧
        (callFunction (sequence budget) name body args).Ensures c s fun _ after => s.Calls after) ∧
      (∀ body frame, (s.enterCall frame).env.frameCount = s.env.frameCount + 1 ∧
        (s.enterCall frame).env.callDepth = s.env.callDepth + 1 ∧
        (sequence budget body).Ensures c (s.enterCall frame) fun _ after =>
          after.env.popFrame? = some (after.env.frame,
            { after.env with frame := s.env.frame, callers := s.env.callers })) ∧
      ∀ shareArithmetic, (Exec.forked s shareArithmetic).env.frameCount = 1 ∧
        (Exec.forked s shareArithmetic).env.callDepth = s.env.callDepth) ∧
    ∀ source input completion next, session.exec source input = .ok (completion, next) →
      next.env.calls = (0, []) := by
  -- The checks, then every node, call and fork, and then what a session is left with.
  refine ⟨runBy_checkedCalls hc hcalls, fun c hspawner budget s => ?_,
    fun source input completion next hexec => ?_⟩
  · have hproper : c.Proper := fun name utility hf =>
      hc name utility ((congrArg (·.find? name) hspawner).symm.trans hf)
    have hsound := hproper.sound
    exact ⟨fun node => node.ensures_depth hsound budget,
      fun name body args => ⟨callFunction_eq _ name body args,
        ensures_callFunction hsound budget name body args⟩,
      fun body frame => ⟨rfl, rfl, ensures_body hsound budget body frame⟩, fun _ => ⟨rfl, rfl⟩⟩
  · obtain ⟨f, -, rfl, rfl⟩ | ⟨script, -, -, rfl, rfl⟩ := exec_cases hexec
    · exact hcalls
    exact (calls_after _).trans ((calls_runScript hc script input).trans hcalls)

/-- `f() { shift; set -- a b; return 3; }; set -- x; f y z; echo $? $1`. -/
def callingScript : Sequence :=
  ⟨[⟨⟨false, .function 1 "f" ⟨[plainStatement "shift" [],
        plainStatement "set" [.literal "--", .literal "a", .literal "b"],
        plainStatement "return" [.literal "3"]]⟩, []⟩, []⟩,
    plainStatement "set" [.literal "--", .literal "x"],
    plainStatement "f" [.literal "y", .literal "z"],
    plainStatement "echo" [.parameter "?", .parameter "1"]]⟩

/-- The caller of a function that changes its own parameters still has those that it had. -/
theorem callingScript_balanced :
    ({} : Session).context.Proper ∧ ({} : Session).env.calls = (0, []) ∧
    (∀ alarm, ({} : Session).runBy (runAround (Exec.checkedCalls {} alarm)) callingScript (.ofText "") =
      ({} : Session).runScript callingScript (.ofText "")) ∧
    (({} : Session).runScript callingScript (.ofText "")).output = "3 x\n" := by
  have hproper : ({} : Session).context.Proper := Context.proper_of_standard rfl
  exact ⟨hproper, rfl, fun alarm => (calls_balanced hproper rfl).1 alarm _ _, by decide +kernel⟩

end Session

end Shell
