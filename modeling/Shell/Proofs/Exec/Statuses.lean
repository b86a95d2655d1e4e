/-
Statuses are bytes.

The status of a command is below 256 wherever it comes from: a builtin, a reply of which only the low eight
bits count, the number after `exit` or `return`, a negation, a broken pipe or a limit. So are the last
statuses of all environments, as nothing else is ever recorded. What is recorded is also what was meant:
after a list or a sequence that has come to a status, `$?` is this status, and after a script it is that of
the script.
-/
import Shell.Proofs.Exec.Runs
import Shell.Proofs.Exec.Watched

set_option autoImplicit false

namespace Shell

open Execution

/-! ## 1. One environment

Run beside itself, code shows what all its results have in common. The kind of status that is asked for is that of a
byte. -/

/-- What code comes to is a byte, as are all statuses after it. -/
def State.Byte {α : Type} (value : α → Prop) (r : Except Abort α) (after : State) : Prop :=
  after.Good (· < 256) ∧ (∀ a, r = .ok a → value a) ∧ ∀ abort, r = .error abort → abort.Good (· < 256)

section

variable {c : Context} {s : State}

/-- Two runs of code whose statuses are bytes are one of them twice. -/
abbrev Comparison.bytes (limits : Limits) : Comparison := ends limits (· < 256) fun _ => id

/-- A state whose statuses are bytes is one that the comparison speaks of. -/
theorem State.at_bytes (hs : s.Good (· < 256)) : (Comparison.bytes c.limits).At s.depth s := ⟨rfl, hs⟩

/-- Code that is related to itself comes to bytes, whatever follows it. -/
theorem Comparison.Related.byte {α : Type} {x x' : Exec α} {E : Abort → Prop} {V : α → Prop} {k : Nat}
    (h : (bytes c.limits).Related k c s.depth E V x x') (hc : c.Proper) (hs : s.Good (· < 256)) :
    x.EnsuresFor (StageResult c.limits (· < 256)) c s (State.Byte V) := by
  intro next R hn
  refine h.ensuresFor (hc.ends _ _) (State.at_bytes hs) next R fun r after ⟨ha, hr, _⟩ => hn r after ?_
  cases r with
  | ok a => exact ⟨ha.good, fun _ h => Except.ok.inj h ▸ hr, nofun⟩
  | error abort => exact ⟨ha.good, nofun, fun _ h => Except.error.inj h ▸ hr.2⟩

/-- What a node comes to is a byte. -/
theorem Node.byte (hc : c.Proper) (hs : s.Good (· < 256)) (budget : Nat) (node : Node) :
    (node.exec budget).EnsuresFor (StageResult c.limits (· < 256)) c s
      (State.Byte (Outcome.Good (· < 256))) :=
  ((node.comes (k := 0) budget).mono (fun _ he => he) fun _ ho => ho.2).byte hc hs

/-- Expanding words does not record anything but bytes, in the midst of commands. -/
theorem Expansion.byte_fields (hc : c.Proper) (hs : s.Good (· < 256)) (budget : Nat) (words : List Word) :
    (fields (sequence budget) words).EnsuresFor (StageResult c.limits (· < 256)) c s
      (State.Byte fun _ => True) :=
  (related_fields (runs_self (k := 0) budget) words).byte hc hs

/-- The status of a sequence that is not empty is the last one that has been recorded. -/
theorem Execution.recorded_sequence (hc : c.Proper) (hs : s.Good (· < 256)) (budget : Nat) (body : Sequence)
    (hbody : body.statements ≠ []) :
    (sequence budget body).EnsuresFor (StageResult c.limits (· < 256)) c s fun r after =>
      ∀ status, r = .ok (.status status) → after.env.status = status := by
  intro next R hn
  refine leads_sequence (K := .bytes c.limits) (k := 0) budget body hbody (fun _ => True) (hc.ends _ _)
    trivial R s 0 next next trivial (State.at_bytes hs) trivial (Nat.le_refl 0)
    (fun outcome after _ _ ho _ => hn _ after fun status hstatus => ?_)
    (fun abort after _ _ _ _ _ => hn _ after nofun) False.elim
  exact ho.2 status (Except.ok.inj hstatus)

end

/-! ## 2. Runs

The statuses in the midst of a run are those that checks around each list would find. -/

/-- Whether all statuses of a state are bytes. -/
def State.isByte (s : State) : Bool :=
  s.env.status < 256 && s.outer.all (·.status < 256) && s.substitution.all (· < 256)

/-- Whether an outcome has a byte for its status, and the last status is that. -/
def Outcome.isRecorded (s : State) : Outcome → Bool
  | .status code => code < 256 && s.env.status == code
  | .returned code => code < 256
  | .broken _ | .continued _ => true

/-- Where statuses are bytes, the check finds nothing. -/
theorem State.Good.isByte {s : State} (h : s.Good (· < 256)) : s.isByte = true := by
  simp only [State.isByte, Bool.and_eq_true, decide_eq_true_eq, List.all_eq_true]
  refine ⟨⟨h.env, h.outer⟩, ?_⟩
  cases hn : s.substitution with
  | none => rfl
  | some status => exact decide_eq_true (h.substitution status hn)

/-- Nor does the check of what has been recorded. -/
theorem Outcome.Recorded.isRecorded {d : Depth} {outcome : Outcome} {s : State}
    (h : outcome.Recorded (· < 256) d s) : outcome.isRecorded s = true := by
  obtain ⟨⟨-, hgood⟩, hstatus⟩ := h
  cases outcome with
  | status code =>
    have hcode : code < 256 := hgood
    simp [Outcome.isRecorded, hcode, hstatus code rfl]
  | returned code => exact decide_eq_true hgood
  | broken | continued => rfl

/-- Code that is checked for its statuses: that they are bytes, and that the status it comes to is the last
one that has been recorded. -/
def Exec.checkedStatuses (alarm : Exec Unit) : Exec Outcome → Exec Outcome :=
  checked State.isByte (fun _ after outcome => after.isByte && outcome.isRecorded after) alarm

namespace Session

variable {session : Session}

/-- A run with both checks is the run without them. -/
theorem runBy_checkedStatuses (hc : session.context.Proper) (hs : session.env.status < 256)
    (alarm : Exec Unit) (script : Sequence) (input : Input) :
    session.runBy (runAround (Exec.checkedStatuses alarm)) script input =
      session.runScript script input := by
  refine runBy_checked (· < 256) (fun _ => id) (Depth.closed_anyhow session.limits) hc hs
    trivial (fun s _ hs => hs.isByte) (fun s s' outcome _ _ _ hs' ho => ?_) alarm script input
  rw [hs'.isByte, ho.isRecorded]
  rfl

/-- The status of a run and the last status that it leaves are bytes. -/
theorem byte_runScript (hc : session.context.Proper) (hs : session.env.status < 256) (script : Sequence)
    (input : Input) :
    (session.runScript script input).env.status < 256 ∧
      ∀ status, (session.runScript script input).status = .ok status → status < 256 := by
  have hends := session.ends_script (· < 256) (fun _ => id) hc hs script
  rcases complete_ends hends session.env input with ⟨ending, ⟨-, henv, hgood⟩, hstatus, hkept⟩ | ⟨hkept, abort, habort⟩
  · refine ⟨(congrArg Environment.status hkept).trans_lt henv, fun status h => hgood status ?_⟩
    exact hstatus.symm.trans h
  · refine ⟨(congrArg Environment.status hkept).trans_lt hs, fun status h => ?_⟩
    cases habort.symm.trans h

/-- A script leaves its own status as the last one. -/
theorem status_after {completion : Completion} {status : Nat} (h : completion.status = .ok status) :
    (after completion).status = status := by
  simp only [after, h]

/-- **Statuses are bytes, and the last one is what the last command came to.** A run can be checked around
every list in every environment: all statuses are below 256 there, and the status of a list is the last one
recorded when it has ended. Every node leaves only bytes and comes to one, or to a signal or an exit with
one, and expanding the words of a command does not change that; a sequence that is not empty records the
status that it comes to. The status of a script is a byte too, and is the last one in the session. -/
theorem statuses_recorded (hc : session.context.Proper) (hs : session.env.status < 256) :
    (∀ alarm script input,
      session.runBy (runAround (Exec.checkedStatuses alarm)) script input =
        session.runScript script input) ∧
    (∀ c : Context, c.spawner = session.spawner → ∀ budget s, s.Good (· < 256) →
      (∀ node : Node, (node.exec budget).EnsuresFor (StageResult c.limits (· < 256)) c s
        (State.Byte (Outcome.Good (· < 256)))) ∧
      (∀ words, (Expansion.fields (sequence budget) words).EnsuresFor (StageResult c.limits (· < 256)) c s
        (State.Byte fun _ => True)) ∧
      ∀ body : Sequence, body.statements ≠ [] →
        (sequence budget body).EnsuresFor (StageResult c.limits (· < 256)) c s fun r after =>
          ∀ status, r = .ok (.status status) → after.env.status = status) ∧
    ∀ source input completion next, session.exec source input = .ok (completion, next) →
      next.env.status < 256 ∧
        ∀ status, completion.status = .ok status → status < 256 ∧ next.env.status = status := by
  refine ⟨runBy_checkedStatuses hc hs, fun c hspawner budget s hgood => ?_,
    fun source input completion next hexec => ?_⟩
  · have hproper : c.Proper := fun name utility hf =>
      hc name utility ((congrArg (·.find? name) hspawner).symm.trans hf)
    exact ⟨fun node => node.byte hproper hgood budget, Expansion.byte_fields hproper hgood budget,
      fun body => recorded_sequence hproper hgood budget body⟩
  -- A session that is refused keeps its status. Else the status is that of the run, or the one recorded when it was
  -- stopped.
  · obtain ⟨f, -, rfl, rfl⟩ | ⟨script, -, -, rfl, rfl⟩ := exec_cases hexec
    · exact ⟨hs, nofun⟩
    obtain ⟨henv, hstatus⟩ := byte_runScript hc hs script input
    refine ⟨?_, fun status h => ⟨hstatus status h, status_after h⟩⟩
    cases h : (session.runScript script input).status with
    | ok status => exact (status_after h).trans_lt (hstatus status h)
    | error abort =>
      show (after (session.runScript script input)).status < 256
      unfold after
      rw [h]
      exact henv

/-- `x=$(exit 300); echo $?; (exit -1); echo $?; ! : | exit 256; echo $?; exit 700`. -/
def exitingScript : Sequence :=
  ⟨[⟨⟨false, .simple 1 none [] [⟨"x", false,
        ⟨1, [.substitution "" ⟨1, 1⟩ (some ⟨[plainStatement "exit" [.literal "300"]]⟩)]⟩, 1⟩], []⟩, []⟩,
    plainStatement "echo" [.parameter "?"],
    ⟨⟨false, .subshell 1 ⟨[plainStatement "exit" [.literal "-1"]]⟩, []⟩, []⟩,
    plainStatement "echo" [.parameter "?"],
    ⟨⟨true, .simple 1 (some ⟨1, [.literal ":"]⟩) [] [],
      [.simple 1 (some ⟨1, [.literal "exit"]⟩) [⟨1, [.literal "256"]⟩] []]⟩, []⟩,
    plainStatement "echo" [.parameter "?"],
    plainStatement "exit" [.literal "700"]]⟩

/-- Statuses that are asked to be more or less than bytes are what is left of them in eight bits. -/
theorem exitingScript_recorded :
    ({} : Session).context.Proper ∧ ({} : Session).env.status < 256 ∧
    (∀ alarm, ({} : Session).runBy (runAround (Exec.checkedStatuses alarm)) exitingScript (.ofText "") =
      ({} : Session).runScript exitingScript (.ofText "")) ∧
    (({} : Session).runScript exitingScript (.ofText "")).output = "44\n255\n1\n" ∧
    (after (({} : Session).runScript exitingScript (.ofText ""))).status = 188 := by
  have hproper : ({} : Session).context.Proper := Context.proper_of_standard rfl
  exact ⟨hproper, by decide, fun alarm => (statuses_recorded hproper (by decide)).1 alarm _ _,
    by decide +kernel, by decide +kernel⟩

end Session

end Shell
