/-
The listing of variables, run as a script.

What `set` writes is a script of assignments. Run where no variables are set, it sets each variable to what
its value is read as (`Session.exec_setListing`): the statements are counted like any others and nothing
else can stop them. So the table comes back as it was, unless the listing is too long to be run
or a value has a newline behind bare characters, which the listing loses.
-/
import Shell.Proofs.Exec.Runs
import Shell.Proofs.Script.Listing
import Shell.Proofs.Tables
import Shell.Proofs.Word.Literal

set_option autoImplicit false

namespace Shell

/-! ## 1. Statements -/

namespace Execution

variable {c : Context} {s : State} {statement : AndOrList}

/-- The state after a name has been given a text. -/
def given (s : State) (name text : String) : State :=
  { s with env := { s.env.set name text with status := 0 }, substitution := none }

/-- A statement that gives a name a text does so, and comes to the status 0. -/
theorem andOr_of_gives {name text : String} (h : statement.Gives name text) (run : Runner)
    (next : Except Abort Outcome → State → Job Ending) :
    andOr run statement c s next = next (.ok (.status 0)) (given s name text) := by
  obtain ⟨line, word, rfl, hword⟩ := h
  -- The word of the assignment is literal, so its value is there at once.
  have hvalue : assignedValue run ⟨name, false, word, line⟩ = (pure text : Exec String) := by
    unfold assignedValue
    rw [Expansion.wordText_of_literal? hword]
    rfl
  have hall : assignAll run [⟨name, false, word, line⟩] =
      (Exec.modifyEnv fun env => env.set name text) := by
    unfold assignAll
    rw [hvalue]
    rfl
  have hcommand (next : Except Abort Outcome → State → Job Ending) :
      command run (.simple line none [] [⟨name, false, word, line⟩]) c s next =
        next (.ok (.status 0)) { s with env := s.env.set name text, substitution := none } := by
    show assignOnly run [⟨name, false, word, line⟩] c s next = _
    unfold assignOnly
    rw [hall]
    rfl
  exact hcommand _

/-- What statements do after the first of them. -/
def statementsEnd (one : AndOrList → Exec Outcome) (lists : List AndOrList) (c : Context)
    (next : Except Abort Outcome → State → Job Ending) : Except Abort Outcome → State → Job Ending := fun r s =>
  match r with
  | .ok (.status code) => statements one code lists c s next
  | .ok signal => next (.ok signal) s
  | .error abort => next (.error abort) s

/-- A statement is run, and then those after it. -/
theorem statements_cons (one : AndOrList → Exec Outcome) (status : Nat) (list : AndOrList)
    (lists : List AndOrList) (next : Except Abort Outcome → State → Job Ending) :
    statements one status (list :: lists) c s next = one list c s (statementsEnd one lists c next) := by
  show one list c s _ = _
  congr 1
  funext r s
  cases r with
  | ok outcome => cases outcome <;> rfl
  | error abort => rfl

/-- **Assignments are made one after the other** until there are as many as lists may be counted. Then the
run is stopped. -/
theorem advance_statements {one body : AndOrList → Exec Outcome}
    (hone : ∀ list, one list = (do countCommand; body list))
    (hbody : 0 < c.limits.maxCommandCount.toNat → ∃ run, body = andOr run)
    {entries : List (String × String)} {lists : List AndOrList}
    (h : List.Forall₂ (fun entry list => AndOrList.Gives entry.1 entry.2 list) entries lists)
    (next : Except Abort Outcome → State → Job Ending) (task : Nat) (status : Nat) (s : State) (w : World) :
    ∃ r s' n, (statements one status lists c s next).advance task w =
        (next r s').advance task { w with count := n } ∧
      s'.env.vars = (entries.take (c.limits.maxCommandCount.toNat - w.count)).foldl
        (fun t e => t.insert e.1 e.2) s.env.vars ∧
      ((∃ code, r = .ok (.status code)) ∨ ∃ e, r = .error (.limit e)) := by
  -- Each statement counts once and sets one entry. When the count is used up, the entries set are as many as there
  -- was room for.
  induction h generalizing status s w with
  | nil =>
    refine ⟨.ok (.status status), s, w.count, rfl, ?_, .inl ⟨status, rfl⟩⟩
    rw [List.take_nil, List.foldl_nil]
  | @cons entry statement entries lists hgives more ih =>
    rw [statements_cons, hone, advance_counted]
    by_cases hlimit : c.limits.maxCommandCount < ((w.count + 1 : Nat) : Int)
    · rw [if_pos hlimit]
      have hroom : c.limits.maxCommandCount.toNat - w.count = 0 := by omega
      refine ⟨_, s, w.count + 1, rfl, ?_, .inr ⟨_, rfl⟩⟩
      rw [hroom, List.take_zero, List.foldl_nil]
    · rw [if_neg hlimit]
      have hroom : c.limits.maxCommandCount.toNat - w.count =
          c.limits.maxCommandCount.toNat - (w.count + 1) + 1 := by omega
      obtain ⟨run, rfl⟩ := hbody (by omega)
      rw [andOr_of_gives hgives]
      obtain ⟨r, s', n, hgo, hvars, hr⟩ :=
        ih 0 (given s entry.1 entry.2) { w with count := w.count + 1 }
      refine ⟨r, s', n, hgo, ?_, hr⟩
      rw [hvars, hroom, List.take_succ_cons, List.foldl_cons]
      rfl

/-- A diagnostic is written to a sink at once. -/
theorem advance_diagnose {errors : Nat} (he : c.errors = .sink errors) (message : String)
    (next : Except Abort Unit → State → Job Ending) (task : Nat) (w : World) :
    ∃ w', (Exec.diagnose message c s next).advance task w = (next (.ok ()) s).advance task w' ∧
      w'.queue = w.queue ∧ w'.asked = w.asked := by
  let text := c.name ++ ": " ++ message ++ "\n"
  have hwrite : Exec.diagnose message c s next =
      Action.writeText c.errors text fun r => next r s := rfl
  rw [hwrite, he]
  unfold Action.writeText
  -- An empty text is not written, which leaves the world as it is.
  by_cases hempty : text.isEmpty = true
  · rw [if_pos hempty]
    exact ⟨w, rfl, rfl, rfl⟩
  · rw [if_neg hempty]
    exact ⟨w.writeSink errors text, rfl, rfl, rfl⟩

/-- A sequence counts its lists and runs them, if its budget allows that. -/
theorem sequence_eq_statements (budget : Nat) (lists : List AndOrList) : ∃ one body,
    (sequence budget ⟨lists⟩ : Exec Outcome) = statements one 0 lists ∧
      (∀ list, one list = (do countCommand; body list : Exec Outcome)) ∧
      (0 < budget → ∃ run, body = andOr run) := by
  cases budget with
  | zero => exact ⟨_, fun _ => tooManyCommands, rfl, fun _ => rfl, fun h => absurd h (Nat.lt_irrefl 0)⟩
  | succ budget => exact ⟨_, _, rfl, fun _ => rfl, fun _ => ⟨sequence budget, rfl⟩⟩

/-- What a script does at the end of its sequence. -/
def scriptEnd (c : Context) (next : Except Abort Nat → State → Job Ending) :
    Except Abort Outcome → State → Job Ending := fun r s =>
  match r with
  | .ok outcome => next (.ok outcome.toStatus) s
  | .error (.exit status) => next (.ok status) s
  | .error (.limit e) => Exec.diagnose e.message c s fun r s => next (r.map fun _ => 126) s
  | .error a => next (.error a) s

/-- A script is its sequence and what it does at the end. -/
theorem script_eq_sequence (body : Sequence) (next : Except Abort Nat → State → Job Ending) :
    script body c s next = sequence c.limits.maxCommandCount.toNat body c s (scriptEnd c next) := by
  show sequence c.limits.maxCommandCount.toNat body c s _ = _
  congr 1
  funext r s
  -- What the end of a script does with each result, and which of them it reports.
  cases r with
  | ok outcome => rfl
  | error abort =>
    cases abort with
    | limit e =>
      show Exec.diagnose e.message c s _ = Exec.diagnose e.message c s _
      congr 1
      funext r s
      cases r <;> rfl
    | exit _ | expansion _ | brokenPipe | fault _ | cancelled => rfl

/-- A script of assignments comes to a status without waiting for anything. -/
theorem advance_script {entries : List (String × String)} {lists : List AndOrList}
    (h : List.Forall₂ (fun entry list => AndOrList.Gives entry.1 entry.2 list) entries lists)
    (errors : Nat) (he : c.errors = .sink errors) (next : Except Abort Nat → State → Job Ending) (task : Nat)
    (s : State) {w : World} (hw : w.count = 0) :
    ∃ code s' w', (script ⟨lists⟩ c s next).advance task w = (next (.ok code) s').advance task w' ∧
      s'.env.vars = (entries.take c.limits.maxCommandCount.toNat).foldl
        (fun t e => t.insert e.1 e.2) s.env.vars ∧
      w'.queue = w.queue ∧ w'.asked = w.asked := by
  obtain ⟨one, body, hsequence, hone, hbody⟩ := sequence_eq_statements c.limits.maxCommandCount.toNat lists
  rw [script_eq_sequence, hsequence]
  obtain ⟨r, s', n, hgo, hvars, hr⟩ := advance_statements hone hbody h (scriptEnd c next) task 0 s w
  rw [hw, Nat.sub_zero] at hvars
  rw [hgo]
  -- A limit that is met is reported on the standard errors, which changes neither the queue nor what is asked.
  rcases hr with ⟨code, rfl⟩ | ⟨e, rfl⟩
  · exact ⟨_, s', _, rfl, hvars, rfl, rfl⟩
  · obtain ⟨w', hdiagnose, hqueue, hasked⟩ := advance_diagnose (s := s') he e.message
      (fun r s => next (r.map fun _ => 126) s) task { w with count := n }
    exact ⟨126, s', w', hdiagnose, hvars, hqueue, hasked⟩

end Execution

/-! ## 2. Runs -/

/-- A job that comes to its end without waiting is run in one turn. -/
theorem complete_of_advance {job : Job Ending} {ending : Ending} (env : Environment) {input : Input}
    {w : World} (h : job.advance 0 { inputs := #[input], sinks := #[[], []] } = (w, .ended (.ok ending)))
    (hqueue : w.queue = {}) (hasked : w.asked = []) :
    complete job env input =
      ⟨ending.status, ending.env, w.sinkText 0, w.sinkText 1, w.input standardInput⟩ := by
  -- The machine of a run has one task. It ends in its first turn, and after that nothing is left to do.
  let m : Machine Ending :=
    ({ world := { inputs := #[input], sinks := #[[], []] } } : Machine Ending).addTask { phase := .active job }
  let m₀ : Machine Ending := m.mapWorld fun w => { w with queue := {} }
  have hresume : m₀.resume 0 = m₀.became 0 (.ended (.ok ending)) w :=
    Machine.resume_of_ended (m := m₀) rfl rfl rfl h
  have hstep : m.step = m₀.became 0 (.ended (.ok ending)) w := hresume
  have hrun (turns : Nat) : m.run (turns + 1) = m₀.became 0 (.ended (.ok ending)) w := by
    have hquiet : m.step.isQuiet = true := by
      rw [hstep]
      show (w.queue.isEmpty && w.asked.isEmpty) = true
      rw [hqueue, hasked]
      rfl
    -- A quiet machine is not asked again.
    have hstay : m.step.run turns = m.step := by
      cases turns with
      | zero => rfl
      | succ turns => exact if_pos hquiet
    have hgo : m.run (turns + 1) = m.step.run turns := if_neg Bool.false_ne_true
    rw [hgo, hstay, hstep]
  have hmax : m.run Machine.maxTurns = m₀.became 0 (.ended (.ok ending)) w := hrun (Machine.maxTurns - 1)
  have hresult : (m.run Machine.maxTurns).result? 0 = some (.ok ending) := by
    rw [hmax]
    exact Machine.result?_became_self w Nat.zero_lt_one
  have hworld : (m.run Machine.maxTurns).world = w := by
    rw [hmax]
    rfl
  unfold complete
  simp only
  rw [show (Machine.run Machine.maxTurns _).result? 0 = _ from hresult,
    show (Machine.run Machine.maxTurns _).world = _ from hworld]

/-- A job that comes to writing a text and to nothing else leaves the text on standard output. -/
theorem complete_of_writes {job : Job Ending} {written : String} {input left : Input}
    (h : job.advance 0 { inputs := #[input], sinks := #[[], []] } =
      (Action.writeText standardOutput written fun r => .finish ⟨r.map fun _ => 0, {}⟩ : Job Ending).advance 0
        { inputs := #[left], sinks := #[[], []] }) :
    complete job {} input = ⟨.ok 0, {}, written, "", left⟩ := by
  let w : World := { inputs := #[left], sinks := #[if written.isEmpty then [] else [written], []] }
  -- An empty text leaves the sink empty, which is the same text.
  have hsink : w.sinkText 0 = written := by
    by_cases hempty : written.isEmpty = true
    · simpa [w, World.sinkText, hempty] using (String.isEmpty_iff.mp hempty).symm
    · simp [w, World.sinkText, hempty]
  have hwrites : (Action.writeText standardOutput written fun r =>
      .finish ⟨r.map fun _ => 0, {}⟩ : Job Ending).advance 0 { inputs := #[left], sinks := #[[], []] } =
        (w, .ended (.ok ⟨.ok 0, {}⟩)) := by
    unfold Action.writeText
    by_cases hempty : written.isEmpty = true
    · simp only [w, if_pos hempty]
      rfl
    · simp only [w, if_neg hempty]
      rfl
  rw [complete_of_advance {} (h.trans hwrites) rfl rfl, hsink]
  rfl

namespace Session

variable {session : Session} {env : Environment}

/-- How many lists a run has room for: none at all if the host has no stack for it. -/
def listRoom (session : Session) : Nat :=
  match session.stackFault? with
  | none => session.limits.maxCommandCount.toNat
  | some _ => 0

/-- **A listing that is run gives the variables what their values are read as**, in their order and for as long
as lists may be counted. -/
theorem exec_setListing (session : Session) (input : Input) (hsorted : env.vars.Sorted)
    (hnames : ∀ entry ∈ env.vars.entries, Name.isIdentifier entry.1.toList = true)
    (hempty : session.env.vars = ∅) :
    ∃ tokens, Listed env.vars.entries tokens ∧
      ((∃ completion next, session.exec (Variables.setListing env) input = .ok (completion, next)) ↔
        (Variables.setListing env).toList.length ≤ maxScriptSize ∧ tokens.length < maxTokens) ∧
      ∀ completion next, session.exec (Variables.setListing env) input = .ok (completion, next) →
        next.env.vars = ⟨(env.vars.entries.map fun entry => (entry.1, readAs entry.2)).take session.listRoom⟩ := by
  obtain ⟨tokens, lists, hlisted, hgives, hparse⟩ := parse_setListing hnames
  refine ⟨tokens, hlisted, ?_, ?_⟩
  · constructor
    · rintro ⟨completion, next, hexec⟩
      cases hscript : parse (Variables.setListing env) with
      | error e =>
        rw [exec_of_error hscript] at hexec
        cases hexec
      | ok script => exact ((hparse script).mp hscript).1
    · intro hfits
      exact ⟨_, _, exec_of_ok ((hparse ⟨lists⟩).mpr ⟨hfits, rfl⟩)⟩
  · intro completion next hexec
    obtain ⟨f, hfault, -, rfl⟩ | ⟨script, hscript, hstack, rfl, rfl⟩ := exec_cases hexec
    · rw [listRoom, hfault, hempty]
      rfl
    · obtain rfl := ((hparse script).mp hscript).2
      -- Each statement sets its name to the value as it has been read.
      have hmap : List.Forall₂ (fun entry list => AndOrList.Gives entry.1 entry.2 list)
          (env.vars.entries.map fun entry => (entry.1, readAs entry.2)) lists :=
        List.forall₂_map_left_iff.mpr hgives
      obtain ⟨code, s, w, hgo, hvars, hqueue, hasked⟩ :=
        Execution.advance_script (c := session.context) hmap 1 rfl
          (fun r s => .finish ⟨r, s.env⟩) 0 { env := session.env }
          (w := { inputs := #[input], sinks := #[[], []] }) rfl
      have hafter : (after (session.runScript ⟨lists⟩ input)).vars = s.env.vars := by
        show (after (complete _ session.env input)).vars = _
        rw [complete_of_advance session.env hgo hqueue hasked]
        rfl
      show (after (session.runScript ⟨lists⟩ input)).vars = _
      rw [hafter, hvars, hempty, listRoom, hstack]
      -- The entries are still in order, so each of them goes to the end of the table.
      refine Table.ofList_of_sorted (List.Pairwise.sublist (List.take_sublist _ _) ?_)
      exact List.pairwise_map.mpr hsorted

/-- What fits a script, and a run of the session. -/
def FitsListing (session : Session) (env : Environment) : Prop :=
  (Variables.setListing env).toList.length ≤ maxScriptSize ∧
    2 * env.vars.entries.length < maxTokens ∧ env.vars.entries.length ≤ session.listRoom

instance (session : Session) (env : Environment) : Decidable (FitsListing session env) :=
  inferInstanceAs (Decidable (_ ∧ _ ∧ _))

/-- **The listing of `set` brings the variables back exactly if none of them has a newline behind bare
characters**, and if the listing is not too long to be run. -/
theorem set_readsBack_iff (vars : List (String × String)) (env : Environment)
    (hvars : env.vars = .ofList vars)
    (hnames : ∀ entry ∈ env.vars.entries, Name.isIdentifier entry.1.toList = true)
    (session : Session) (hempty : session.env.vars = ∅) (input : Input) :
    (∃ completion next, session.exec (Variables.set env []).1.output input = .ok (completion, next) ∧
        next.env.vars = env.vars) ↔
      (∀ entry ∈ env.vars.entries, ¬ EndsBareLine entry.2) ∧ session.FitsListing env := by
  have hsorted : env.vars.Sorted := hvars ▸ Table.sorted_ofList vars
  obtain ⟨tokens, hlisted, hparses, hresult⟩ := exec_setListing session input hsorted hnames hempty
  show (∃ completion next, session.exec (Variables.setListing env) input = .ok (completion, next) ∧ _) ↔ _
  -- If every value is read as it was, a line has two tokens.
  have hlength (hkept : ∀ entry ∈ env.vars.entries, ¬ EndsBareLine entry.2) :
      tokens.length = 2 * env.vars.entries.length :=
    hlisted.length fun entry hentry => readAs_eq_iff.mpr (hkept entry hentry)
  constructor
  · rintro ⟨completion, next, hexec, hsame⟩
    -- The tables are equal, so all entries have been set, and each to the value it had.
    have hentries : (env.vars.entries.map fun entry => (entry.1, readAs entry.2)).take session.listRoom =
        env.vars.entries :=
      (congrArg Table.entries ((hresult completion next hexec).symm.trans hsame) : _)
    have hcount : env.vars.entries.length ≤ session.listRoom := by
      have hle := congrArg List.length hentries
      rw [List.length_take, List.length_map] at hle
      omega
    rw [List.take_of_length_le (by rw [List.length_map]; exact hcount)] at hentries
    -- Entry by entry: what is read is what was listed.
    have hkept : ∀ entry ∈ env.vars.entries, ¬ EndsBareLine entry.2 := by
      intro entry hentry
      have hfixed := List.map_inj_left.mp (hentries.trans (List.map_id _).symm) entry hentry
      exact readAs_eq_iff.mp (congrArg Prod.snd hfixed)
    have hfits := hparses.mp ⟨completion, next, hexec⟩
    rw [hlength hkept] at hfits
    exact ⟨hkept, hfits.1, hfits.2, hcount⟩
  · rintro ⟨hkept, hsize, htokens, hcount⟩
    obtain ⟨completion, next, hexec⟩ := hparses.mpr ⟨hsize, (hlength hkept).symm ▸ htokens⟩
    refine ⟨completion, next, hexec, ?_⟩
    rw [hresult completion next hexec, List.take_of_length_le (by rw [List.length_map]; exact hcount)]
    have hmap : (env.vars.entries.map fun entry => (entry.1, readAs entry.2)) = env.vars.entries.map id := by
      refine List.map_inj_left.mpr fun entry hentry => ?_
      exact congrArg (Prod.mk entry.1) (readAs_eq_iff.mpr (hkept entry hentry))
    rw [hmap, List.map_id]

/-- Variables whose values are listed bare, empty, and in quotes. -/
def threeValues : Environment := { vars := .ofList [("P", "/bin:a=b"), ("E", ""), ("Q", "it's\n\n")] }

/-- A newline in quotes is kept. -/
theorem threeValues_readBack :
    Variables.setListing threeValues = "E=''\nP=/bin:a=b\nQ='it'\\''s\n\n'\n" ∧
      ∃ completion next, ({} : Session).exec (Variables.set threeValues []).1.output (.ofText "") =
        .ok (completion, next) ∧ next.env.vars = threeValues.vars :=
  ⟨by decide +kernel, (set_readsBack_iff [("P", "/bin:a=b"), ("E", ""), ("Q", "it's\n\n")] threeValues rfl
    (by decide +kernel) {} rfl (.ofText "")).mpr ⟨by decide +kernel, by decide +kernel⟩⟩

/-- A value of bare characters and a newline is listed bare, and the newline is lost. -/
theorem newlineAtEnd_not_readBack :
    (Variables.set { vars := .ofList [("V", "a\n")] } []).1.output = "V=a\n\n" ∧
      ¬ ∃ completion next, ({} : Session).exec "V=a\n\n" (.ofText "") = .ok (completion, next) ∧
        next.env.vars = .ofList [("V", "a\n")] := by
  let env : Environment := { vars := .ofList [("V", "a\n")] }
  have hlisting : Variables.setListing env = "V=a\n\n" := by decide +kernel
  refine ⟨hlisting, ?_⟩
  rintro ⟨completion, next, hexec, hsame⟩
  have hsorted : env.vars.Sorted := Table.sorted_ofList _
  obtain ⟨-, -, -, hresult⟩ := exec_setListing {} (.ofText "") hsorted (by decide +kernel) rfl
  rw [hlisting] at hresult
  have htable := (hresult completion next hexec).symm.trans hsame
  revert htable
  decide +kernel

end Session

end Shell
