/-
The names of variables, over sessions.

A session that starts with identifiers never has a variable, or an export mark, with a name that is anything else
than an identifier, but for one newline that may stand behind it (`Session.names_valid`): after each script, and
in all environments that a script passes through. It is only the check of the names that builtins are given that
lets the newline pass, but `export` may be called like that, and then the newline belongs to the name
(`Session.newline_exported`).
-/
import Shell.Proofs.Exec.CommandNames
import Shell.Proofs.Exec.Runs

set_option autoImplicit false

namespace Shell

open Exec Execution

/-! ## 1. Checks -/

namespace Exec

variable {P : Environment → Prop} {V : Outcome → Prop}

/-- Checks that only fail where an environment lacks the property make no difference. -/
theorem Agrees.checked {before : State → Bool} {after : State → State → Outcome → Bool}
    (hb : ∀ s, s.All P → before s = true)
    (ha : ∀ s s' outcome, s.All P → s'.All P → V outcome → after s s' outcome = true) (alarm : Exec Unit)
    {x x' : Exec Outcome} (h : Agrees P V x x') : Agrees P V x (Exec.checked before after alarm x') := by
  intro c s next next' hs hn
  have hbefore : check (before s) alarm = pure () := if_pos (hb s hs)
  show x c s next = (check (before s) alarm >>= fun _ => x' >>= fun outcome =>
    get >>= fun s' => check (after s s' outcome) alarm >>= fun _ => pure outcome) c s next'
  rw [hbefore]
  refine h c s next _ hs fun r s' hs' hr => ?_
  -- Only an outcome is checked; an abort goes past the check.
  cases r with
  | error abort => exact hn _ s' hs' nofun
  | ok outcome =>
    have hafter : check (after s s' outcome) alarm = pure () := if_pos (ha s s' outcome hs hs' (hr outcome rfl))
    show next (.ok outcome) s' = (check (after s s' outcome) alarm >>= fun _ => pure outcome) c s' next'
    rw [hafter]
    exact hn _ s' hs' hr

end Exec

/-- Whether the names of the variables and of the exported variables of an environment are what they may be. -/
def Environment.hasNames (env : Environment) : Bool :=
  env.vars.keys.all (Name.isValid ·.toList) && env.exported.keys.all (Name.isValid ·.toList)

/-- Whether this is so in all environments of a state. -/
def State.hasNames (s : State) : Bool := s.env.hasNames && s.outer.all Environment.hasNames

/-- Where names are kept, the check finds nothing. -/
theorem Environment.Named.hasNames {env : Environment} (h : env.Named) : env.hasNames = true := by
  simp only [Environment.hasNames, Bool.and_eq_true, List.all_eq_true]
  exact ⟨h.vars, h.exported⟩

/-- Nor does it in any environment of the state. -/
theorem State.All.hasNames {s : State} (h : s.All Environment.Named) : s.hasNames = true := by
  simp only [State.hasNames, Bool.and_eq_true, List.all_eq_true]
  exact ⟨h.env.hasNames, fun env he => (h.outer env he).hasNames⟩

/-- Code that is checked for the names of variables, before and after. -/
def Exec.checkedNames (alarm : Exec Unit) : Exec Outcome → Exec Outcome :=
  checked State.hasNames (fun _ after _ => after.hasNames) alarm

/-- So code with the check in front of it may stand for the code alone. -/
theorem Exec.keepNames_checkedNames (alarm : Exec Unit) {x x' : Exec Outcome} (h : KeepNames x x') :
    KeepNames x (checkedNames alarm x') :=
  h.checked (fun _ hs => hs.hasNames) (fun _ _ _ _ hs' _ => hs'.hasNames) alarm

/-! ## 2. Nodes -/

/-- The node assigns to identifiers alone. -/
def Node.Named : Node → Prop
  | .sequence body => body.Named
  | .list l => l.Named
  | .pipeline p => p.Named
  | .command c => c.Named

/-- Every node keeps names, by what it is. -/
theorem Node.keepNames_exec (budget : Nat) {node : Node} (h : node.Named) :
    KeepNames (node.exec budget) (node.exec budget) := by
  have hrun := keepNames_sequence budget
  cases node with
  | sequence body => exact hrun body h
  | list l => exact keepNames_andOr hrun h
  | pipeline p => exact keepNames_pipeline hrun h
  | command inner => exact keepNames_command hrun h

/-! ## 3. Sessions -/

namespace Session

variable {session : Session}

/-- The session after scripts, each with its input. One that cannot be parsed changes nothing. -/
def execAll (session : Session) : List (String × Input) → Session
  | [] => session
  | (source, input) :: rest =>
    match session.exec source input with
    | .ok (_, next) => next.execAll rest
    | .error _ => session.execAll rest

/-- A run starts in the environment of its session alone. -/
theorem allNamed (h : session.env.Named) : ({ env := session.env } : State).All Environment.Named :=
  ⟨h, nofun⟩

/-- A run with a check of all names before each node is the run without it. -/
theorem runBy_checkedNames (h : session.env.Named) (alarm : Exec Unit) {script : Sequence}
    (hscript : script.Named) (input : Input) :
    session.runBy (runAround (checkedNames alarm)) script input = session.runScript script input := by
  have hrun := keepNames_runAround fun _ _ h => keepNames_checkedNames alarm h
  exact congrArg (complete · session.env input)
    (keepNames_scriptBy hrun hscript session.context _ _ _ (allNamed h) fun _ _ _ _ => rfl).symm

open Classical in
/-- A run leaves names as they may be. -/
theorem named_runScript (hc : session.context.Sound) (h : session.env.Named) {script : Sequence}
    (hscript : script.Named) (input : Input) : (session.runScript script input).env.Named := by
  -- The run is also one that leaves the environment as it was if the names in the new one are no good.
  let kept (env : Environment) : Environment := if env.Named then env else session.env
  have hkept (env : Environment) : (kept env).Named := by
    show (if env.Named then env else session.env).Named
    split
    · next he => exact he
    · exact h
  have hjob : Execution.script script session.context { env := session.env }
      (fun r s => (.finish ⟨r, s.env⟩ : Job Ending)) =
      Execution.script script session.context { env := session.env } fun r s => .finish ⟨r, kept s.env⟩ := by
    refine keepNames_scriptBy keepNames_run hscript session.context _ _ _ (allNamed h) fun r s hs _ => ?_
    have hsame : kept s.env = s.env := if_pos hs.env
    rw [hsame]
  have hends : (Execution.script script session.context { env := session.env } fun r s =>
      .finish ⟨r, kept s.env⟩).Ends (StageEnd session.limits) (EndsIn fun ending => ending.env.Named) :=
    ensures_script hc script rfl rfl _ _ fun r s _ => .finish (hkept s.env)
  unfold runScript
  rw [hjob]
  -- A run that does not come to an end gives back the environment it was given.
  rcases complete_ends hends session.env input with ⟨ending, hnamed, -, henv⟩ | ⟨henv, -⟩
  · exact henv ▸ hnamed
  · exact (congrArg Environment.Named henv).mpr h

/-- What a completion leaves for the next run has the names of its environment. -/
theorem named_after {completion : Completion} (h : completion.env.Named) : (after completion).Named := by
  unfold after
  split
  · exact h.withStatus _
  · exact h

/-- One script, whether it is run or refused. -/
theorem named_exec (hc : session.context.Sound) (h : session.env.Named) {source : String} {input : Input}
    {completion : Completion} {next : Session} (hexec : session.exec source input = .ok (completion, next)) :
    next.context = session.context ∧ next.env.Named := by
  obtain ⟨f, -, -, rfl⟩ | ⟨script, hparse, -, rfl, rfl⟩ := exec_cases hexec
  · exact ⟨rfl, h⟩
  · exact ⟨rfl, named_after (named_runScript hc h (parse_named hparse) input)⟩

/-- By induction on the scripts. -/
theorem named_execAll (hc : session.context.Sound) (h : session.env.Named) (scripts : List (String × Input)) :
    (session.execAll scripts).env.Named := by
  induction scripts generalizing session with
  | nil => exact h
  | cons script scripts ih =>
    unfold execAll
    cases hexec : session.exec script.1 script.2 with
    | error e => exact ih hc h
    | ok result =>
      obtain ⟨hcontext, hnamed⟩ := named_exec hc h hexec
      exact ih (hcontext ▸ hc) hnamed

/-- **Only identifiers become variables, but for a newline that may stand behind one.** If a session starts with
identifiers, this is so of its variables and of what it exports after any scripts. The names in a script that
has been parsed are identifiers, and when it is run then, whatever it does, the names can be checked around every
list in every environment and are never found to be anything else. Nor does anything that follows a
part of a script, or the expansion of words, ever see other names, wherever it has been started with such. -/
theorem names_valid (hc : session.context.Sound)
    (hvars : ∀ entry ∈ session.vars, Name.isIdentifier entry.1.toList = true)
    (scripts : List (String × Input)) :
    (session.reset.execAll scripts).env.Named ∧
    (∀ source script, parse source = .ok script →
      script.Named ∧ ∀ alarm input,
        (session.reset.execAll scripts).runBy (runAround (checkedNames alarm)) script input =
          (session.reset.execAll scripts).runScript script input) ∧
    ∀ budget,
      (∀ node : Node, node.Named → KeepNames (node.exec budget) (node.exec budget)) ∧
      ∀ words : List Word, (∀ word ∈ words, word.Named) →
        KeepNames (Expansion.fields (sequence budget) words) (Expansion.fields (sequence budget) words) := by
  have hstart : session.reset.env.Named :=
    Environment.named_initial (fun entry he => Name.isValid_of_isIdentifier (hvars entry he)) _ _ _
  -- The environment is reached from the first one by scripts, each of which keeps the names.
  have hreached := @named_execAll session.reset hc hstart scripts
  refine ⟨hreached, fun source script hp => ?_, fun budget => ⟨fun node h => node.keepNames_exec budget h, ?_⟩⟩
  · have hscript := parse_named hp
    exact ⟨hscript, fun alarm input => runBy_checkedNames hreached alarm hscript input⟩
  · exact fun words h => Expansion.keepNames_fields (keepNames_sequence budget) h

/-- `read a; for b in $a; do export "c=$b"; done`. -/
def namingScript : Sequence :=
  ⟨[plainStatement "read" [.literal "a"],
    ⟨⟨false, .each 1 "b" (some [⟨1, [.parameter "a"]⟩])
      ⟨[plainStatement "export" [.doubleQuoted [.literal "c=", .parameter "b"]]]⟩, []⟩, []⟩]⟩

/-- A script that assigns, exports, defines a function and reads: the names are found to be identifiers. -/
theorem namingScript_named :
    let session : Session := { vars := [("HOME", "/")] }
    session.context.Sound ∧
    (∀ entry ∈ session.vars, Name.isIdentifier entry.1.toList = true) ∧
    parse "read a; for b in $a; do export \"c=$b\"; done" = .ok namingScript ∧
    (session.runScript namingScript (.ofText "x\n")).env.vars.keys = ["HOME", "a", "b", "c"] ∧
    ∀ alarm, session.runBy (runAround (checkedNames alarm)) namingScript (.ofText "x\n") =
      session.runScript namingScript (.ofText "x\n") := by
  intro session
  have hc : session.context.Sound := Context.sound_of_standard rfl
  have hvars : ∀ entry ∈ session.vars, Name.isIdentifier entry.1.toList = true := by decide
  have hparse : parse "read a; for b in $a; do export \"c=$b\"; done" = .ok namingScript := by
    rw [parse, parseFrom_eq_parseWithin]
    cbv
  refine ⟨hc, hvars, hparse, by decide +kernel, fun alarm => ?_⟩
  exact ((names_valid hc hvars []).2.1 _ _ hparse).2 alarm _

/-- The check of names looks at a text up to its end or up to a newline at its end. -/
theorem newline_exported :
    ∃ completion next, ({} : Session).exec "export \"a\n=1\"" (.ofText "") = .ok (completion, next) ∧
      completion.status.toOption = some 0 ∧ completion.errors = "" ∧
      next.env.vars.entries = [("a\n", "1")] ∧ next.env.exported.keys = ["a\n"] ∧
      Name.isIdentifier "a\n".toList = false := by
  have hparse : parse "export \"a\n=1\"" = .ok (oneCommand "export" (.doubleQuoted [.literal "a\n=1"])) := by
    rw [parse, parseFrom_eq_parseWithin]
    cbv
  refine ⟨_, _, exec_of_stack hparse (by decide), ?_⟩
  decide +kernel

end Session

end Shell
