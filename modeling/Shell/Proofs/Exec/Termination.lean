/-
Every run ends.

Loops go round, functions call themselves and `eval` runs what it is given, so code comes back to sequences that do
not get smaller. What gets smaller is the number of lists that can still be counted: a sequence runs with a budget
of lists inside each other, and a budget that covers what can still be counted is as good as any larger one.
The job that a script becomes is a tree without infinite paths, and so each task has an end of its own. That a run
of many tasks ends, and none of them waits for ever, is what `Machine.Stands` is about. The count of lists is
shared by all tasks, and each list has a number of its own in it; so those that get past the check of
the count are no more than the limit (`Session.run_terminates`).

Code has three streams, and hands on no others: a stage of a pipeline is given the ends of its pipes,
a command substitution a sink, and a utility what the code has that starts it. So the job that a script
becomes reads the input of the session and writes its sinks, and so it is with each stage and its ends
(`Session.uses_script`). This is one more comparison that ignores its second run.
-/
import Shell.Proofs.Exec.Watched
import Shell.Proofs.Job.Uses
import Shell.Proofs.Exec.Runs
import Shell.Proofs.Machine.Deadlock
import Shell.Proofs.Machine.Telling

set_option autoImplicit false

namespace Shell

/-! ## 1. What scripts read and write -/

variable {S : Except Abort Ending → Prop} {input : Nat} {output : Output}

/-- A utility reads and writes what it is started with. -/
theorem Invocation.Makes.uses {call : Invocation} {α : Type} {x : Action Ending α} (h : call.Makes x)
    (hinput : call.input = input) (houtput : output.Covers call.output) (herrors : output.Covers call.errors)
    (next : Except Abort α → Job Ending) (hn : ∀ a, (next (.ok a)).Uses S input output)
    (hr : ∀ abort, call.Stops abort → (next (.error abort)).Uses S input output) :
    (x next).Uses S input output := by
  subst hinput
  induction h with
  | pure a => exact hn a
  | bind _ _ ihx ihf => exact ihx _ (fun a => ihf a next hn hr) hr
  | recover _ _ ihx ihf => exact ihx _ hn fun abort ha => ihf abort ha next hn hr
  | abort h => exact hr _ h
  | read request => exact .read hn
  | @write output text ho =>
    -- A command writes to its output or to its errors, and the pipes it may use cover both.
    rcases ho with rfl | rfl
    · exact .write houtput (hn ()) fun abort ha => hr abort (.inl ha)
    · exact .write herrors (hn ()) fun abort ha => hr abort (.inr (.inl ha))
  | copy => exact .copy houtput (.inl rfl) (fun _ => hn ()) fun abort ha => hr abort (.inl ha)
  | copyNumbered number => exact .copy houtput (.inr rfl) (fun _ => hn _) fun abort ha => hr abort (.inl ha)

/-- The streams of the jobs that code becomes. -/
def Comparison.users (limits : Limits) : Comparison where
  limits := limits
  limits' := limits
  lenient := False
  counting := False
  good _ := True
  Deep _ := True
  Sound c := c.limits = limits ∧ c.Proper
  Task := Nat × Output
  Serves t c := c.input = t.1 ∧ t.2.Covers c.output ∧ ∃ index, c.errors = .sink index
  stage input output := (input, output)
  Together t _ job _ := job.Uses (StageResult limits fun _ => True) t.1 t.2
  below := .refl limits
  strict := limits.same False
  byte _ _ := trivial
  deep_loop := id
  deep_fork _ := id
  deep_call _ hd _ := hd
  limits_eq := @Context.Proper.limits_eq limits
  sound_streams := @Context.Proper.streams limits
  sound_capturing := @Context.Proper.capturing limits
  serves_capturing index ht := ⟨ht.1, Output.covers_sink _ index, ht.2.2⟩
  serves_stage _ output ht := ⟨rfl, .refl output, ht.2.2⟩
  mono _ := id
  read := by
    rintro ⟨_, _⟩ c k wanted next next' ⟨rfl, -⟩ h
    exact .read h
  write := by
    rintro t c k output text next next' ⟨-, houtput, index, herrors⟩ ho h hr
    refine .write ?_ h hr
    rcases ho with rfl | rfl
    · exact houtput
    · exact herrors ▸ Output.covers_sink _ index
  count h := .count fun n => h n False.elim
  openSink := .openSink
  sinkText := .sinkText
  utility := by
    rintro t c k name utility call next next' hc ⟨hinput, houtput, index, herrors⟩ hf hi ho he h hr
    refine (hc.2 name utility hf call).uses (hi.trans hinput) (ho ▸ houtput) ?_ next h hr
    rw [he, herrors]
    exact Output.covers_sink _ index
  pipeline := by
    rintro ⟨_, _⟩ c k stages capacity body body' next next' ⟨rfl, houtput, -⟩ hs hc hstage h -
    exact .pipeline houtput hs hc hstage h
  finish _ := .finish
  fail _ := .fail
  pardon := False.elim

/-- **The job of a script reads the input of the session** and writes nothing but sinks. -/
theorem Session.uses_script {session : Session} (hc : session.context.Proper) (script : Sequence) :
    (Execution.script script session.context { env := session.env } fun r s => .finish ⟨r, s.env⟩).Uses
      (StageResult session.limits fun _ => True) standardInput standardOutput := by
  let K := Comparison.users session.limits
  have hrun : K.Runs 0 Execution.run Execution.run :=
    Execution.runs_run (K := K) Execution.sequence (Execution.runs_self _)
  have hscript := Execution.related_scriptBy (c := session.context)
    (d := ⟨0, session.env.calls, []⟩) (K := K) id hrun script
  have hserves : K.Serves (standardInput, standardOutput) session.context := ⟨rfl, .refl _, 1, rfl⟩
  exact hscript ⟨rfl, hc⟩ trivial _ _ 0 _ (fun r s => .finish ⟨r, s.env⟩) hserves
    (session.at_start trivial) (Nat.le_refl 0) (fun _ _ _ _ _ _ => .finish) False.elim

end Shell

namespace Shell

/-! ## 2. Every run ends -/

/-- A counted list goes on if its number is up to the limit. -/
theorem Execution.countCommand_then {α : Type} (x : Exec α) (c : Context) (s : State)
    (next : Except Abort α → State → Job Ending) :
    (countCommand >>= fun _ => x) c s next = .count fun n =>
      if (n : Int) ≤ c.limits.maxCommandCount then x c s next
      else next (.error (.limit (.commands c.limits.maxCommandCount))) s := by
  rw [countCommand_bind]
  show Job.count (fun n : Nat =>
    (if c.limits.maxCommandCount < n then tooManyCommands else x) c s next) = _
  refine congrArg Job.count (funext fun n => ?_)
  rcases Int.lt_or_le c.limits.maxCommandCount n with hlt | hle
  · rw [if_pos hlt, if_neg (Int.not_le.mpr hlt)]
    rfl
  · rw [if_neg (Int.not_lt.mpr hle), if_pos hle]

namespace Session

variable {session : Session}

/-- A session begins with one task, which reads the text and writes to sinks. -/
theorem begins_machine (session : Session) (script : Sequence) (text : String) :
    (session.machine script (.ofText text)).Begins
      (Execution.script script session.context { env := session.env } fun r s => .finish ⟨r, s.env⟩) where
  size := rfl
  task := rfl
  turn := World.mem_queue_push _ _
  asked := rfl
  channels := rfl
  inputs := Nat.one_pos
  supply i hi := by
    obtain rfl : i = 0 := Nat.lt_one_iff.mp hi
    rfl

/-- **The run of a script comes to a point at which all its tasks have ended**, and the first of them with an ending,
which is that of the script if no more turns are needed than a run has. -/
theorem exists_ended (hc : session.context.Proper) (script : Sequence) (text : String) :
    ∃ turns ending, ((session.machine script (.ofText text)).run turns).isQuiet = true ∧
      (∀ i, (((session.machine script (.ofText text)).run turns).result? i).isSome) ∧
      ((session.machine script (.ofText text)).run turns).result? 0 = some (.ok ending) ∧
      (turns ≤ Machine.maxTurns → (session.runScript script (.ofText text)).status = ending.status) := by
  have hends := session.ends_script (fun _ => True) (fun _ _ => trivial) hc trivial script
  have hsound : (session.machine script (.ofText text)).roster.Sound _ _ := Machine.sound_addTask hends rfl
  obtain ⟨turns, hquiet, hended⟩ :=
    ((session.begins_machine script text).stands hsound (uses_script hc script)).exists_ended
  obtain ⟨result, hresult⟩ := Option.isSome_iff_exists.mp (hended 0)
  -- The script has ended with an ending, since all that stops it is turned into a status or reported there.
  cases result with
  | error abort => exact (Machine.result_run hends rfl hresult).elim
  | ok ending =>
    refine ⟨turns, ending, hquiet, hended, hresult, fun hle => ?_⟩
    refine session.status_of_result ?_
    rw [Machine.run_of_isQuiet hquiet hle, hresult]

/-- When `k` lists have been counted, the budget covers what can still be counted: with any other one that
does, sequences do the same. -/
def Covers (session : Session) (k budget : Nat) : Prop :=
  ∀ budget' : Nat, session.limits.maxCommandCount ≤ (k + budget' : Nat) →
    (Comparison.alike session.limits (fun _ => True) (fun _ _ => trivial) (fun _ => True)
      (Depth.closed_anyhow _)).Runs k (Execution.sequence budget) (Execution.sequence budget')

/-- A budget covers a limit if both together are no less than it. -/
theorem covers_of_le {k budget : Nat} (h : session.limits.maxCommandCount ≤ (k + budget : Nat)) :
    session.Covers k budget :=
  fun _ h' => Execution.runs_sequence (.inr (.inl ⟨trivial, h, h'⟩))

/-- A run ends, and the limit of lists is kept in all of it. -/
structure Bounded (session : Session) (script : Sequence) (text : String) : Prop where
  /-- At some time nothing is left to do, and then all tasks have ended, the first one with the ending of the
  script. -/
  ends : ∃ turns ending, ((session.machine script (.ofText text)).run turns).isQuiet = true ∧
    (∀ i, (((session.machine script (.ofText text)).run turns).result? i).isSome) ∧
    ((session.machine script (.ofText text)).run turns).result? 0 = some (.ok ending) ∧
    (turns ≤ Machine.maxTurns → (session.runScript script (.ofText text)).status = ending.status)
  /-- Each list that is counted, in whichever task, has a number of its own. -/
  told : ∀ turns, (session.machine script (.ofText text)).told turns =
    numbers 0 ((session.machine script (.ofText text)).run turns).world.count
  /-- So no more of them than the limit have a number up to the limit. -/
  passed : ∀ turns, ((session.machine script (.ofText text)).told turns).countP
    (fun n : Nat => decide ((n : Int) ≤ session.limits.maxCommandCount)) ≤ session.limits.maxCommandCount.toNat
  /-- The run is not cut off by its budget, since any larger one does the same. -/
  budget : ∀ budget : Nat, session.limits.maxCommandCount ≤ budget →
    session.runBy (Execution.sequence budget) script (.ofText text) = session.runScript script (.ofText text)

/-- **Every run ends**, and no more lists get past the check of the count than the limit says, in all tasks
together. What gets smaller as code comes back to the same sequences is the number of lists that can still be counted:
a budget that covers it is enough. A list goes on if its number is up to the limit, and no two lists have
the same number. -/
theorem run_terminates (session : Session) (hc : session.context.Proper) :
    (∀ script text, session.Bounded script text) ∧
    (∀ k budget : Nat, session.limits.maxCommandCount ≤ (k + budget : Nat) → session.Covers k budget) ∧
    ∀ (x : Exec Outcome) (c : Context) (s : State) (next : Except Abort Outcome → State → Job Ending),
      (Execution.countCommand >>= fun _ => x) c s next = .count fun n =>
        if (n : Int) ≤ c.limits.maxCommandCount then x c s next
        else next (.error (.limit (.commands c.limits.maxCommandCount))) s := by
  refine ⟨fun script text => ?_, fun _ _ => covers_of_le, Execution.countCommand_then⟩
  have htold (turns : Nat) := ((session.machine script (.ofText text)).told_eq turns).2
  refine ⟨exists_ended hc script text, htold, fun turns => ?_, fun _ hb => runBy_sequence hc hb script _⟩
  rw [htold]
  exact countP_numbers_le _ _

/-- A loop that does not end by itself: `while true; do echo; done`. -/
def endless : Sequence :=
  ⟨[⟨⟨false, .loop 1 .while ⟨[plainStatement "true" []]⟩ ⟨[plainStatement "echo" []]⟩, []⟩, []⟩]⟩

/-- It ends with the limits that a session has if nothing is said. -/
theorem endless_terminates : ({} : Session).context.Proper ∧ ({} : Session).Bounded endless "" := by
  have hc : ({} : Session).context.Proper := Context.proper_of_standard rfl
  exact ⟨hc, (run_terminates {} hc).1 endless ""⟩

end Session

end Shell
