/-
How runs end.

A script that cannot be parsed is refused before anything runs. Any other has a run, and the run comes to
a status, or to a request that the shell has no answer to (a `Fault`): `exit`, limits, expansion errors
and broken pipes have all been dealt with by then, and no task is given up while the first one goes on.
What is left are the faults. A pipe without room is not among them if the capacity of pipes is positive.

Nor is there a run if the host has no stack for the calls that the limits allow. So what a session makes of a source
is one of three things (`Session.exec_cases`).
-/
import Shell.Proofs.Exec.Utilities
import Shell.Proofs.Machine.Results
import Shell.Session

set_option autoImplicit false

namespace Shell

/-! ## 1. Scripts -/

/-- What a script comes to: a status, or a fault. -/
def Comes (limits : Limits) : Except Abort Nat → Prop
  | .ok _ => True
  | .error (.fault f) => f = .noCapacity → limits.pipeCapacity < 1
  | .error _ => False

namespace Execution

/-- A script deals with `exit` and limits, and where its outputs are sinks no pipe is broken. -/
theorem ensures_script {c : Context} {s : State} (hc : c.Sound) (body : Sequence)
    {output errors : Nat} (ho : c.output = .sink output) (he : c.errors = .sink errors) :
    (script body).Ensures c s fun r _ => Comes c.limits r := by
  have hrun : (do return (← run body).toStatus : Exec Nat).Keeps c s.depth c.Stops fun _ => True :=
    (sound_run c s.depth body hc).bind fun _ _ => Exec.keeps_pure trivial
  have hscript : (script body).Keeps c s.depth (fun abort => Comes c.limits (.error abort))
      fun _ => True := by
    refine hrun.handle fun abort ha => ?_
    -- Of the aborts that reach the end of a script a limit is reported and `exit` gives a status. Pipes are not
    -- broken here: both outputs are sinks.
    cases abort with
    | exit status => exact Exec.keeps_pure trivial
    | limit e =>
      refine (Exec.keeps_diagnose_of_refuses _ fun a ha => ?_).bind fun _ _ => Exec.keeps_pure trivial
      rw [he] at ha
      exact ha.elim
    | expansion e => exact ha.elim
    | brokenPipe =>
      obtain ⟨p, hp | hp⟩ := ha
      · rw [ho] at hp
        cases hp
      · rw [he] at hp
        cases hp
    | fault f => exact Exec.keeps_abort ha
    | cancelled => exact ha.elim
  refine (hscript s rfl).mono fun r s' hr => ?_
  cases r with
  | ok status => trivial
  | error abort => exact hr.2

/-- A list is counted, and the run is stopped if it is one too many. -/
theorem advance_counted {c : Context} {s : State} (x : Exec Outcome) (next : Except Abort Outcome → State → Job Ending) (task : Nat)
    (w : World) :
    ((do countCommand; x : Exec Outcome) c s next).advance task w =
      ((if c.limits.maxCommandCount < ((w.count + 1 : Nat) : Int) then
        next (.error (.limit (.commands c.limits.maxCommandCount))) s
      else x c s next).advance task { w with count := w.count + 1 }) := by
  -- What is counted is compared with the limit in the same turn.
  let check (n : Nat) : Exec Unit := if c.limits.maxCommandCount < n then tooManyCommands else pure ()
  have hrun : ((do countCommand; x : Exec Outcome) c s next).advance task w =
      ((check (w.count + 1) >>= fun _ => x) c s next).advance task { w with count := w.count + 1 } := rfl
  rw [hrun]
  by_cases h : c.limits.maxCommandCount < ((w.count + 1 : Nat) : Int)
  · have hcheck : check (w.count + 1) = tooManyCommands := if_pos h
    rw [hcheck, if_pos h]
    rfl
  · have hcheck : check (w.count + 1) = pure () := if_neg h
    rw [hcheck, if_neg h]
    rfl

end Execution

/-! ## 2. Sessions -/

namespace Session

variable (session : Session)

/-- The machine in which the run of a script starts. -/
def machine (script : Sequence) (input : Input) : Machine Ending :=
  ({ world := { inputs := #[input], sinks := #[[], []] } } : Machine Ending).addTask
    { phase := .active (Execution.script script session.context { env := session.env } fun r s =>
        .finish ⟨r, s.env⟩) }

/-- Whether a run comes to its end in the turns that it has. -/
def Ends (script : Sequence) (input : Input) : Prop :=
  (((session.machine script input).run Machine.maxTurns).result? 0).isSome

/-- The status of a run is that of its ending. -/
theorem status_of_result {script : Sequence} {input : Input} {ending : Ending}
    (h : ((session.machine script input).run Machine.maxTurns).result? 0 = some (.ok ending)) :
    (session.runScript script input).status = ending.status := by
  unfold machine at h
  unfold runScript complete
  simp only
  rw [h]

/-- Whenever the first task of a run has ended, it has done so with a status or with a fault. -/
theorem comes_of_result (hc : session.context.Sound) {script : Sequence} {input : Input} {turns : Nat}
    {result : Except Abort Ending}
    (h : ((session.machine script input).run turns).result? 0 = some result) :
    ∃ ending, result = .ok ending ∧ Comes session.limits ending.status := by
  have hjob := Execution.ensures_script (s := { env := session.env }) hc script rfl rfl
    (fun r s => .finish ⟨r, s.env⟩)
    (EndsIn fun ending => Comes session.limits ending.status) fun r s hr => .finish hr
  let world : World := { inputs := #[input], sinks := #[[], []] }
  have hresult := Machine.result_run hjob (show world.reports = [] from rfl) h
  cases result with
  | ok ending => exact ⟨ending, rfl, hresult⟩
  | error abort => exact hresult.elim

/-- A run that ends comes to a status or to a fault. -/
theorem comes_runScript (hc : session.context.Sound) (script : Sequence) (input : Input)
    (h : session.Ends script input) :
    Comes session.limits (session.runScript script input).status := by
  obtain ⟨result, hr⟩ := Option.isSome_iff_exists.mp h
  obtain ⟨ending, rfl, hcomes⟩ := session.comes_of_result hc hr
  rw [session.status_of_result hr]
  exact hcomes

/-! ## 3. Stacks -/

/-- The host has two reasons to refuse a stack: its depth is no number that can be asked for, or it is one below which
nothing can run. -/
theorem stackFault?_eq_some_iff {f : Fault} : session.stackFault? = some f ↔
    (f = .stackTooDeep ∧ ((stackBound : Int) ≤ session.stackDepth ∨ session.stackDepth < -stackBound)) ∨
      (f = .noStack ∧ -(stackBound : Int) ≤ session.stackDepth ∧ session.stackDepth < 1) := by
  have hpos : (1 : Int) ≤ stackBound := by decide
  unfold stackFault?
  split
  · next hdeep =>
    -- The depth is too large, or it is small, but not so small that the sum is out of range.
    constructor
    · rintro ⟨⟩
      exact .inl ⟨rfl, hdeep⟩
    · rintro (⟨rfl, -⟩ | ⟨-, hlow, hlt⟩)
      · rfl
      · omega
  · next hdeep =>
    split
    · next hlt =>
      constructor
      · rintro ⟨⟩
        exact .inr ⟨rfl, by omega, hlt⟩
      · rintro (⟨-, h⟩ | ⟨rfl, -⟩)
        · exact absurd h hdeep
        · rfl
    · next hlt =>
      refine ⟨nofun, ?_⟩
      rintro (⟨-, h⟩ | ⟨-, -, h⟩)
      · exact absurd h hdeep
      · exact absurd h hlt

/-- The host has a stack for the calls if there is at least one frame and not too many. -/
theorem stackFault?_eq_none_iff :
    session.stackFault? = none ↔ 1 ≤ session.stackDepth ∧ session.stackDepth < stackBound := by
  have hpos : (1 : Int) ≤ stackBound := by decide
  -- Neither of the two faults says that the depth lies between their bounds.
  have hsome (f : Fault) := session.stackFault?_eq_some_iff (f := f)
  constructor
  · intro h
    have hdeep := mt (hsome .stackTooDeep).mpr (by simp [h])
    have hlow := mt (hsome .noStack).mpr (by simp [h])
    simp only [true_and, reduceCtorEq, false_and, or_false, false_or] at hdeep hlow
    omega
  · rintro ⟨hlow, hdeep⟩
    cases h : session.stackFault? with
    | none => rfl
    | some f =>
      obtain ⟨-, h⟩ | ⟨-, h⟩ := (hsome f).mp h <;> omega

/-- With a stack, a run is that of the script. -/
theorem run_of_stack (h : session.stackFault? = none) (script : Sequence) (input : Input) :
    session.run script input = session.runScript script input := by
  unfold run
  rw [h]

/-- Without one, nothing is run. -/
theorem run_of_stackFault {f : Fault} (h : session.stackFault? = some f) (script : Sequence) (input : Input) :
    session.run script input = session.refused f input := by
  unfold run
  rw [h]

/-! ## 4. Sources -/

section

variable {session : Session} {source : String} {input : Input}

/-- A source that cannot be parsed is refused. -/
theorem exec_of_error {error : ScriptError} (h : parse source = .error error) :
    session.exec source input = .error error := by
  rw [exec, h]
  rfl

/-- Any other is run, and the session keeps what the run leaves. -/
theorem exec_of_ok {script : Sequence} (h : parse source = .ok script) :
    session.exec source input = .ok (session.run script input,
      { session with env := after (session.run script input) }) := by
  rw [exec, h]
  rfl

/-- A source that can be parsed is run where there is a stack. -/
theorem exec_of_stack {script : Sequence} (h : parse source = .ok script) (hstack : session.stackFault? = none) :
    session.exec source input = .ok (session.runScript script input,
      { session with env := after (session.runScript script input) }) := by
  rw [exec_of_ok h, session.run_of_stack hstack]

/-- Where there is none, nothing of it is run. -/
theorem exec_of_stackFault {script : Sequence} {f : Fault} (h : parse source = .ok script)
    (hstack : session.stackFault? = some f) :
    session.exec source input = .ok (session.refused f input, session) := by
  rw [exec_of_ok h, session.run_of_stackFault hstack]
  rfl

/-- What a source has come to, if it could be parsed: the host has refused it a stack, which leaves the session as it
was, or it is what its script has come to. -/
theorem exec_cases {completion : Completion} {next : Session}
    (h : session.exec source input = .ok (completion, next)) :
    (∃ f, session.stackFault? = some f ∧ completion = session.refused f input ∧ next = session) ∨
      ∃ script, parse source = .ok script ∧ session.stackFault? = none ∧
        completion = session.runScript script input ∧ next = { session with env := after completion } := by
  -- A text that is no script is refused, so that nothing comes to completion.
  cases hp : parse source with
  | error e =>
    rw [exec_of_error hp] at h
    cases h
  | ok script =>
    cases hstack : session.stackFault? with
    | some f =>
      rw [exec_of_stackFault hp hstack] at h
      obtain ⟨rfl, rfl⟩ := Prod.mk.inj (Except.ok.inj h)
      exact .inl ⟨f, rfl, rfl, rfl⟩
    | none =>
      rw [exec_of_stack hp hstack] at h
      obtain ⟨rfl, rfl⟩ := Prod.mk.inj (Except.ok.inj h)
      exact .inr ⟨script, rfl, rfl, rfl, rfl⟩

end

end Session

/-- The abort of a run that has stopped. -/
def Completion.abort? (completion : Completion) : Option Abort :=
  match completion.status with
  | .ok _ => none
  | .error abort => some abort

/-- A command without assignments as a statement. -/
def plainStatement (name : String) (args : List WordPart) : AndOrList :=
  ⟨⟨false, .simple 1 (some ⟨1, [.literal name]⟩) (args.map fun arg => ⟨1, [arg]⟩) [], []⟩, []⟩

/-- A script of one command with one argument. -/
def oneCommand (name : String) (argument : WordPart) : Sequence :=
  ⟨[⟨⟨false, .simple 1 (some ⟨1, [.literal name]⟩) [⟨1, [argument]⟩] [], []⟩, []⟩]⟩

end Shell
