/-
The names of variables, where code runs.

Every assignment of a script has an identifier for its name, and a builtin checks the names it is given
(`Name.isValid`). So the names of variables and the names that are exported are always such as this check lets
through, in every environment (`Environment.Named`): expansions, builtins and commands keep it that way.

Functions are kept as scripts, so that they assign to nothing else is part of what is kept. A script that comes
to be parsed only when it is run, by `eval`, is like any other script.
-/
import Shell.Proofs.Exec.Agreement
import Shell.Proofs.Exec.Builtins
import Shell.Proofs.Script.Names
import Shell.Proofs.Tables

set_option autoImplicit false

namespace Shell

/-! ## 1. Environments

There are only so many functions that change an environment. Each of them sets names that it has been given, or
takes some away. -/

/-- Only what may be the name of a variable is one, and functions assign to nothing else. -/
structure Environment.Named (env : Environment) : Prop where
  vars : ∀ name ∈ env.vars.keys, Name.isValid name.toList = true
  exported : ∀ name ∈ env.exported.keys, Name.isValid name.toList = true
  functions : ∀ name body, env.function? name = some body → body.Named

namespace Environment

variable {env : Environment} {name : String}

/-- A session may be started with the variables that it is given, if their names are identifiers. -/
theorem named_initial {vars : List (String × String)}
    (h : ∀ entry ∈ vars, Name.isValid entry.1.toList = true) (args : List String) (name : String)
    (process : Nat) : (initial vars args name process).Named := by
  refine ⟨fun key hkey => ?_, fun key hkey => ?_, nofun⟩
  · obtain ⟨entry, hentry, rfl⟩ := List.mem_map.mp (Table.mem_keys_ofList.mp hkey)
    exact h entry hentry
  · have hkeys := Table.mem_keys_ofList.mp hkey
    rw [List.map_map] at hkeys
    obtain ⟨entry, hentry, rfl⟩ := List.mem_map.mp hkeys
    exact h entry hentry

namespace Named

/-- A name that the check lets through may be set. -/
theorem set (h : env.Named) (hname : Name.isValid name.toList = true) (value : String) :
    (env.set name value).Named :=
  ⟨fun key hkey => (Table.mem_keys_insert.mp hkey).elim (fun he => he ▸ hname) (h.vars key), h.exported,
    h.functions⟩

/-- A variable less. -/
theorem eraseVar (h : env.Named) (name : String) : { env with vars := env.vars.erase name }.Named :=
  ⟨fun key hkey => h.vars key (Table.mem_keys_erase.mp hkey).2, h.exported, h.functions⟩

/-- A name that the check lets through may be marked. -/
theorem addExport (h : env.Named) (hname : Name.isValid name.toList = true) : (env.addExport name).Named :=
  ⟨h.vars, fun key hkey => (Table.mem_keys_insert.mp hkey).elim (fun he => he ▸ hname) (h.exported key),
    h.functions⟩

/-- A mark less. -/
theorem removeExport (h : env.Named) (name : String) : (env.removeExport name).Named :=
  ⟨h.vars, fun key hkey => h.exported key (Table.mem_keys_erase.mp hkey).2, h.functions⟩

/-- A variable and its mark less. -/
theorem unset (h : env.Named) (name : String) : (env.unset name).Named :=
  (h.eraseVar name).removeExport name

/-- A name may be set and marked. -/
theorem override (h : env.Named) (hname : Name.isValid name.toList = true) (value : String) :
    (env.override name value).Named :=
  (h.set hname value).addExport hname

/-- A function assigns to what is in its body. -/
theorem defineFunction (h : env.Named) (name : String) {body : Sequence} (hbody : body.Named) :
    (env.defineFunction name body).Named := by
  refine ⟨h.vars, h.exported, fun key other hkey => ?_⟩
  have hget := (Table.get?_insert env.functions name key body).symm.trans hkey
  split at hget
  · exact Option.some.inj hget ▸ hbody
  · exact h.functions key other hget

/-- A function less. -/
theorem removeFunction (h : env.Named) (name : String) : (env.removeFunction name).Named := by
  refine ⟨h.vars, h.exported, fun key other hkey => ?_⟩
  have hget := (Table.get?_erase env.functions name key).symm.trans hkey
  split at hget
  · cases hget
  · exact h.functions key other hget

/-- A fork has the same variables, marks and functions. -/
theorem fork (h : env.Named) : env.fork.Named := ⟨h.vars, h.exported, h.functions⟩

/-- Positional parameters are no variables. -/
theorem setArgs (h : env.Named) (args : List String) : (env.setArgs args).Named :=
  ⟨h.vars, h.exported, h.functions⟩

/-- A status is no variable. -/
theorem withStatus (h : env.Named) (status : Nat) : { env with status := status }.Named :=
  ⟨h.vars, h.exported, h.functions⟩

/-- Leaving a call takes a frame away. -/
theorem leaveCall (h : env.Named) : env.leaveCall.Named := by
  unfold Environment.leaveCall popFrame?
  cases env.callers with
  | nil => exact h
  | cons => exact ⟨h.vars, h.exported, h.functions⟩

/-- What is restored is a variable that was there, with the name it had. -/
theorem restore (h : env.Named) {r : Restore} (hname : Name.isValid r.name.toList = true) :
    (env.restore r).Named := by
  have hmark {env : Environment} (h : env.Named) : (if r.exported then env else env.removeExport r.name).Named := by
    split
    · exact h
    · exact h.removeExport r.name
  unfold Environment.restore
  cases r.value with
  | some value => exact hmark (h.set hname value)
  | none => exact hmark (h.eraseVar r.name)

/-- By induction on what is restored. -/
theorem restoreTemporary (h : env.Named) {saved : List Restore}
    (hsaved : ∀ r ∈ saved, Name.isValid r.name.toList = true) : (env.restoreTemporary saved).Named := by
  unfold Environment.restoreTemporary
  induction saved generalizing env with
  | nil => exact h
  | cons r saved ih =>
    exact ih (h.restore (hsaved r List.mem_cons_self)) fun r' hr => hsaved r' (List.mem_cons_of_mem r hr)

/-- What is set for the time of a command has the names of its values, and just these are restored. -/
theorem applyTemporary (h : env.Named) {values : List (String × String)}
    (hvalues : ∀ value ∈ values, Name.isValid value.1.toList = true) :
    (env.applyTemporary values).1.Named ∧
      ∀ r ∈ (env.applyTemporary values).2, Name.isValid r.name.toList = true := by
  -- The names to restore are those that were set, so both are good together.
  have hfold (p : Environment × List Restore) (hp : p.1.Named)
      (hr : ∀ r ∈ p.2, Name.isValid r.name.toList = true) :
      (values.foldl (fun p value => (p.1.override value.1 value.2, p.1.saved value.1 :: p.2)) p).1.Named ∧
      ∀ r ∈ (values.foldl (fun p value => (p.1.override value.1 value.2, p.1.saved value.1 :: p.2)) p).2,
        Name.isValid r.name.toList = true := by
    induction values generalizing p with
    | nil => exact ⟨hp, hr⟩
    | cons value values ih =>
      have hvalue := hvalues value List.mem_cons_self
      exact ih (fun v hv => hvalues v (List.mem_cons_of_mem value hv)) _ (hp.override hvalue value.2)
        (List.forall_mem_cons.mpr ⟨hvalue, hr⟩)
  exact hfold (env, []) h (List.forall_mem_nil _)

end Named

end Environment

/-- Two pieces of code that do the same as long as names are what they may be, and keep them so. -/
abbrev Exec.KeepNames {α : Type} (x x' : Exec α) : Prop :=
  Exec.Agrees Environment.Named (fun _ => True) x x'

/-- Two runners that do the same with scripts that assign to identifiers. -/
def Runner.KeepNames (run run' : Runner) : Prop :=
  ∀ body : Sequence, body.Named → Exec.KeepNames (run body) (run' body)

open Exec

/-! ## 2. Expansions

What an expansion sets are the names in `:=` and in arithmetic, and both have been read as identifiers. -/

namespace Expansion

variable {run run' : Runner}

/-- A parameter is looked up. -/
theorem keepNames_parameter (name : String) : KeepNames (parameter name) (parameter name) := by
  refine agrees_env.bind fun env _ => ?_
  cases value? env name with
  | ok value => exact agrees_pure trivial
  | error f => exact agrees_abort

/-- Its value may be split. -/
theorem keepNames_parameterSegments (name : String) (quoted : Bool) :
    KeepNames (parameterSegments name quoted) (parameterSegments name quoted) :=
  .ite (fun _ => agrees_env.bind fun _ _ => agrees_pure trivial)
    fun _ => (keepNames_parameter name).bind fun _ _ => agrees_pure trivial

/-- Its length is a number. -/
theorem keepNames_lengthSegments (name : String) (quoted : Bool) :
    KeepNames (lengthSegments name quoted) (lengthSegments name quoted) := by
  unfold lengthSegments
  split
  · exact agrees_env.bind fun _ _ => agrees_pure trivial
  · exact (keepNames_parameter name).bind fun _ _ => agrees_pure trivial

/-- Arithmetic assigns in all environments that it reaches, and only to identifiers. -/
theorem respects_names : store.RespectsFor (fun name => Name.isIdentifier name.toList = true)
    fun s s' => s.All Environment.Named → s'.All Environment.Named where
  refl _ h := h
  trans h h' hs := h' (h hs)
  assign s name value hname h := by
    have hvalid := Name.isValid_of_isIdentifier hname
    refine ⟨h.env.set hvalid value, fun env he => ?_⟩
    obtain ⟨outer, hmem, rfl⟩ := List.mem_map.mp he
    exact (h.outer outer hmem).set hvalid value

/-- Arithmetic assigns to names of its own, which have been read as identifiers. -/
theorem keepNames_evaluate (text : String) : KeepNames (evaluate text) (evaluate text) := by
  intro c s next next' hs hn
  have hall := respects_names.evaluate_moves (fun _ _ h => Arithmetic.parse_names h) text.toList s hs
  unfold evaluate
  rcases hr : (Arithmetic.evaluate store text.toList).run s with ⟨r, s'⟩
  rw [hr] at hall
  cases r with
  | ok value => exact hn _ _ hall fun _ _ => trivial
  | error failure => cases failure <;> exact hn _ _ hall fun _ _ => trivial

/-- A substitution runs in a fork, of which the arithmetic is kept. -/
theorem keepNames_substitute (hrun : run.KeepNames run') {body : Sequence} (hbody : body.Named) :
    KeepNames (substitute run body) (substitute run' body) := by
  refine (agrees_lift _).bind fun sink _ => ?_
  refine (Agrees.isolate (fun _ he => he.fork) (hrun body hbody)).bind fun status _ => ?_
  refine Agrees.bind (V := fun _ => True) (agrees_modify fun s hs => ?_) fun _ _ => ?_
  · exact ⟨hs.env.withStatus status, hs.outer⟩
  · exact (agrees_lift _).bind fun _ _ => agrees_pure trivial

mutual

/-- **A part of a word**, by induction on the word. Only `:=` and arithmetic assign. -/
theorem keepNames_partSegments (hrun : run.KeepNames run') (quoted : Bool) :
    (part : WordPart) → part.Named →
      KeepNames (partSegments run quoted part) (partSegments run' quoted part)
  | .literal _, _ | .singleQuoted _, _ | .escaped _, _ => agrees_pure trivial
  | .doubleQuoted parts, .doubleQuoted hparts =>
    (keepNames_partsSegments hrun true parts hparts).bind fun _ _ => agrees_pure trivial
  | .parameter name, _ => keepNames_parameterSegments name quoted
  | .length name, _ => keepNames_lengthSegments name quoted
  | .conditional name op argument, .conditional hname hargument => by
    have hword := keepNames_wordSegments hrun quoted argument hargument
    have htext := keepNames_wordSegments hrun false argument hargument
    unfold partSegments
    refine (keepNames_parameter name).bind fun value _ => ?_
    -- Whether there is a value does not matter for the names.
    generalize (match value with
      | some text => !(op.colon && text.isEmpty)
      | none => false) = present
    cases op.action with
    | substitute => exact .ite (fun _ => agrees_pure trivial) fun _ => hword
    | alternative => exact .ite (fun _ => hword) fun _ => agrees_pure trivial
    | assign =>
      -- A number or a special parameter may stand here too, but it is refused before anything is assigned.
      refine .ite (fun _ => agrees_pure trivial) fun _ => .ite (fun _ => ?_) fun hassignable => ?_
      · exact Agrees.bind (V := fun _ => False) agrees_abort fun _ h => h.elim
      · rw [Bool.not_eq_true', Bool.not_eq_false] at hassignable
        have hvalid := Name.isValid_of_isIdentifier (hname hassignable)
        refine htext.bind fun _ _ => (agrees_modifyEnv fun _ he => he.set hvalid _).bind fun _ _ => ?_
        exact agrees_pure trivial
    | require =>
      exact .ite (fun _ => agrees_pure trivial) fun _ => htext.bind fun _ _ => agrees_abort
  | .substitution _ _ body, .substitution hbody => by
    -- A substitution without a script is that of an empty one.
    have hscript : (body.getD ⟨[]⟩).Named := by
      cases body with
      | none => exact .sequence nofun
      | some script => exact hbody script rfl
    exact (keepNames_substitute hrun hscript).bind fun _ _ => agrees_pure trivial
  | .arithmetic expression, .arithmetic hexpression =>
    (keepNames_wordSegments hrun false expression hexpression).bind fun _ _ =>
      (keepNames_evaluate _).bind fun _ _ => agrees_pure trivial

/-- The parts of a word, one after the other. -/
theorem keepNames_partsSegments (hrun : run.KeepNames run') (quoted : Bool) :
    (parts : List WordPart) → (∀ part ∈ parts, part.Named) →
      KeepNames (partsSegments run quoted parts) (partsSegments run' quoted parts)
  | [], _ => agrees_pure trivial
  | part :: parts, h =>
    (keepNames_partSegments hrun quoted part (h part List.mem_cons_self)).bind fun _ _ =>
      (keepNames_partsSegments hrun quoted parts fun part hp => h part (List.mem_cons_of_mem _ hp)).bind
        fun _ _ => agrees_pure trivial

/-- A word is its parts. -/
theorem keepNames_wordSegments (hrun : run.KeepNames run') (quoted : Bool) :
    (word : Word) → word.Named → KeepNames (wordSegments run quoted word) (wordSegments run' quoted word)
  | ⟨_, parts⟩, .word hparts => keepNames_partsSegments hrun quoted parts hparts

end

section

variable (hrun : run.KeepNames run')
include hrun

/-- A word as one text. -/
theorem keepNames_wordText {word : Word} (h : word.Named) :
    KeepNames (wordText run word) (wordText run' word) :=
  (keepNames_wordSegments hrun false word h).bind fun _ _ => agrees_pure trivial

/-- A word as fields. -/
theorem keepNames_wordFields {word : Word} (h : word.Named) :
    KeepNames (wordFields run word) (wordFields run' word) :=
  (keepNames_wordSegments hrun false word h).bind fun _ _ =>
    agrees_env.bind fun _ _ => agrees_pure trivial

/-- Words as fields, one after the other. -/
theorem keepNames_fields {words : List Word} (h : ∀ word ∈ words, word.Named) :
    KeepNames (fields run words) (fields run' words) := by
  induction words with
  | nil => exact agrees_pure trivial
  | cons word words ih =>
    refine (keepNames_wordFields hrun (h word List.mem_cons_self)).bind fun _ _ => ?_
    exact (ih fun word hword => h word (List.mem_cons_of_mem _ hword)).bind fun _ _ => agrees_pure trivial

/-- A word as an expression. -/
theorem keepNames_evaluateWord {word : Word} (h : word.Named) :
    KeepNames (evaluateWord run word) (evaluateWord run' word) :=
  (keepNames_wordText hrun h).bind fun _ _ => keepNames_evaluate _

end

end Expansion

/-! ## 3. Builtins

Builtins are given names as text. So each one that sets or marks a variable has to check the name, and its lemma
turns on that check. -/

/-- An answer is text and a status. -/
theorem Answer.keepNames_give (answer : Answer) : KeepNames answer.give answer.give :=
  (agrees_writeOutput _).bind fun _ _ => agrees_context.bind fun _ _ =>
    (agrees_writeErrors _).bind fun _ _ => agrees_pure trivial

namespace Variables

/-- A builtin that looks at nothing but its arguments and the environment leaves no other names. -/
def Change.KeepsNames (change : Change) : Prop :=
  ∀ (env : Environment) (args : List String), env.Named → (change env args).2.Named

/-- `set` changes the positional parameters and options. -/
theorem keepsNames_set : Change.KeepsNames set := by
  intro env args he
  unfold set
  split
  · exact he
  · split
    · exact he.setArgs _
    · split
      · exact he
      · exact he.setArgs _

/-- `shift` takes positional parameters away. -/
theorem keepsNames_shift : Change.KeepsNames shift := by
  intro env args he
  -- Shifting changes the arguments and no name.
  have hshift (count : Int) : (shiftBy env count).2.Named := by
    unfold shiftBy Environment.shift?
    split
    · next h =>
      split at h
      · cases h
      · exact Option.some.inj h ▸ he.setArgs _
    · exact he
  unfold shift
  split
  · exact hshift 1
  · split
    · exact hshift _
    · exact he
  · exact he

/-- One operand of `export`, whose name has been checked. -/
theorem named_exportOne {env : Environment} (he : env.Named) {operand : ExportOperand}
    (hname : Name.isValid operand.name.toList = true) (remove : Bool) :
    (exportOne remove env operand).Named := by
  have hmark {env : Environment} (he : env.Named) :
      (if remove then env.removeExport operand.name else env.addExport operand.name).Named := by
    split
    · exact he.removeExport operand.name
    · exact he.addExport hname
  unfold exportOne
  cases operand.value with
  | none => exact hmark he
  | some value => exact hmark (he.set hname _)

/-- `export` checks each name before it marks it. -/
theorem keepsNames_exportNames : Change.KeepsNames exportNames := by
  intro env args he
  unfold exportNames
  split
  · exact he
  · next request _ =>
    split
    · exact he
    · refine forEach_keeps (fun env text env' he h => ?_) he _
      unfold exportStep at h
      simp only at h
      split at h
      · next hvalid => exact Except.ok.inj h ▸ named_exportOne he hvalid request.remove
      · cases h

/-- `unset` takes variables and functions away. -/
theorem keepsNames_unset : Change.KeepsNames unset := by
  intro env args he
  unfold unset
  split
  · exact he
  · next mode names _ =>
    refine forEach_keeps (fun env name env' he h => ?_) he names
    unfold unsetStep at h
    split at h
    · exact Except.ok.inj h ▸ he.removeFunction name
    -- What is unset is a function or a variable, and one less is named.
    · split at h
      · cases h
      · split at h
        · exact Except.ok.inj h ▸ he.removeFunction name
        · exact Except.ok.inj h ▸ he.unset name

/-- A builtin that is a change of the environment. -/
theorem Change.KeepsNames.keepNames {change : Change} (h : change.KeepsNames) (args : List String) :
    KeepNames (Exec.change (change · args)) (Exec.change (change · args)) :=
  agrees_env.bind fun env he => (agrees_modifyEnv fun _ _ => h env args he).bind fun _ _ =>
    Answer.keepNames_give _

end Variables

namespace Control

/-- `exit` ends the run. -/
theorem keepNames_exit (args : List String) : KeepNames (exit args) (exit args) := by
  refine agrees_env.bind fun env _ => ?_
  cases readStatus "exit" env.status args with
  | error refusal => exact Answer.keepNames_give refusal
  | ok status => exact agrees_abort

/-- `return` is a signal. -/
theorem keepNames_leaveFunction (args : List String) : KeepNames (leaveFunction args) (leaveFunction args) := by
  refine agrees_env.bind fun env _ => ?_
  cases readStatus "return" env.status args with
  | error refusal => exact Answer.keepNames_give refusal
  | ok status => exact .ite (fun _ => Answer.keepNames_give _) fun _ => agrees_pure trivial

/-- `break` and `continue` are signals. -/
theorem keepNames_signalLoops (name : String) (signal : Nat → Outcome) (args : List String) :
    KeepNames (signalLoops name signal args) (signalLoops name signal args) := by
  unfold signalLoops
  cases readLevels name args with
  | error refusal => exact Answer.keepNames_give refusal
  | ok levels =>
    exact agrees_get.bind fun s _ => .ite (fun _ => Answer.keepNames_give _) fun _ => agrees_pure trivial

end Control

namespace Builtin

/-- `test` answers. -/
theorem keepNames_runTest (name : String) (args : List String) :
    KeepNames (runTest name args) (runTest name args) := by
  refine .ite (fun _ => agrees_pure trivial) fun _ => agrees_env.bind fun env _ =>
    agrees_context.bind fun c _ => ?_
  cases Test.evaluate ⟨env, c.files⟩ args with
  | ok holds => exact agrees_pure trivial
  | error mistake => exact Answer.keepNames_give _

/-- `[` is `test` with a bracket. -/
theorem keepNames_runBracket (args : List String) : KeepNames (runBracket args) (runBracket args) :=
  .ite (fun _ => keepNames_runTest _ _) fun _ => Answer.keepNames_give _

/-- `read` checks each name that it is given, by induction on its arguments. -/
theorem valid_of_readArgs {request request' : Read.Request} {args : List String}
    (hnames : ∀ name ∈ request.names, Name.isValid name.toList = true)
    (h : Read.readArgs request args = .ok request') :
    ∀ name ∈ request'.names, Name.isValid name.toList = true := by
  -- Each operand is looked at before it is taken for a name.
  induction args generalizing request with
  | nil =>
    obtain rfl := Except.ok.inj h
    exact fun name hname => hnames name (List.mem_reverse.mp hname)
  | cons arg args ih =>
    unfold Read.readArgs at h
    split at h
    · exact @ih { request with raw := true } hnames h
    · split at h
      · cases h
      · split at h
        · next hvalid =>
          have hmore : ∀ name ∈ arg :: request.names, Name.isValid name.toList = true :=
            List.forall_mem_cons.mpr ⟨hvalid, hnames⟩
          exact @ih { request with names := arg :: request.names } hmore h
        · cases h

/-- `read` sets its names to fields of the line. -/
theorem named_assign {env : Environment} (he : env.Named) {names : List String}
    (hnames : ∀ name ∈ names, Name.isValid name.toList = true) (line : List Char) :
    (Read.assign env names line).Named := by
  refine assign_keeps (fun env name value hname he => he.set ?_ value) he line
  rcases hname with rfl | hname
  · decide
  · exact hnames name hname

/-- `read` waits for a line and sets names that it has checked. -/
theorem keepNames_runRead (args : List String) : KeepNames (runRead args) (runRead args) := by
  unfold runRead
  cases hr : Read.readArgs {} args with
  | error mistake => exact Answer.keepNames_give _
  | ok request =>
    have hnames := valid_of_readArgs (fun _ hname => absurd hname List.not_mem_nil) hr
    refine agrees_context.bind fun c _ => (agrees_lift _).bind fun text _ => ?_
    refine (agrees_modifyEnv fun _ he => named_assign he hnames _).bind fun _ _ => ?_
    exact agrees_pure trivial

/-- What `eval` is given is parsed like any script, so it assigns to nothing else. -/
theorem keepNames_runEval {run run' : Runner} (hrun : run.KeepNames run') (args : List String) :
    KeepNames (runEval run args) (runEval run' args) := by
  refine .ite (fun _ => agrees_pure trivial) fun _ => ?_
  cases hp : parse (" ".intercalate args) with
  | ok script => exact hrun script (parse_named hp)
  | error e => exact Answer.keepNames_give _

/-- The expressions of `let`, one after the other. -/
theorem keepNames_evaluateAll (value : Int64) (texts : List String) :
    KeepNames (evaluateAll value texts) (evaluateAll value texts) := by
  induction texts generalizing value with
  | nil => exact agrees_pure trivial
  | cons text texts ih => exact (Expansion.keepNames_evaluate text).bind fun value _ => ih value

/-- `let` is arithmetic. -/
theorem keepNames_runLet (args : List String) : KeepNames (runLet args) (runLet args) := by
  refine .ite (fun _ => Answer.keepNames_give _) fun _ => Agrees.handleExpansion ?_ fun e => ?_
  · exact (keepNames_evaluateAll 0 args).bind fun _ _ => agrees_pure trivial
  · exact Answer.keepNames_give _

/-- `printf` writes. -/
theorem keepNames_runPrintf (args : List String) : KeepNames (runPrintf args) (runPrintf args) := by
  refine agrees_context.bind fun c _ => agrees_env.bind fun env he => ?_
  obtain ⟨f, -, hr⟩ | ⟨answer, after, hr, -, hset⟩ :=
    Printf.answer_cases ⟨c.host.memory, c.output, c.captured⟩ env args
  · rw [hr]
    exact agrees_abort
  · rw [hr]
    have hafter : after.Named := by
      rcases hset with rfl | ⟨name, text, hvalid, rfl⟩
      · exact he
      · exact he.set hvalid text
    exact (agrees_modifyEnv fun _ _ => hafter).bind fun _ _ => Answer.keepNames_give answer

/-- What a name means is looked up. -/
theorem keepNames_meanings : KeepNames Exec.meanings Exec.meanings :=
  agrees_env.bind fun _ _ => agrees_context.bind fun _ _ => agrees_pure trivial

/-- A utility does not see the environment. -/
theorem keepNames_start (utility : Utility) (args : List String) :
    KeepNames (Exec.start utility args) (Exec.start utility args) :=
  agrees_context.bind fun _ _ => agrees_env.bind fun _ _ => agrees_lift _

/-- The builtins that are no plain change of the environment. -/
theorem keepNames_runOther {run run' : Runner} (hrun : run.KeepNames run') (which : Builtin)
    (args : List String) : KeepNames (runOther run which args) (runOther run' which args) := by
  cases which with
  | echo => exact Answer.keepNames_give _
  | exit => exact Control.keepNames_exit args
  | «return» => exact Control.keepNames_leaveFunction args
  | «break» => exact Control.keepNames_signalLoops "break" .broken args
  | «continue» => exact Control.keepNames_signalLoops "continue" .continued args
  | test => exact keepNames_runTest "test" args
  | bracket => exact keepNames_runBracket args
  | shift => exact Variables.keepsNames_shift.keepNames args
  | set => exact Variables.keepsNames_set.keepNames args
  | unset => exact Variables.keepsNames_unset.keepNames args
  | «export» => exact Variables.keepsNames_exportNames.keepNames args
  | eval => exact keepNames_runEval hrun args
  | read => exact keepNames_runRead args
  | «let» => exact keepNames_runLet args
  | printf => exact keepNames_runPrintf args
  | type => exact keepNames_meanings.bind fun _ _ => Answer.keepNames_give _
  | colon | succeed | fail | command | builtin => exact agrees_pure trivial

/-- **Every builtin keeps names.** -/
theorem keepNames_run {run run' : Runner} (hrun : run.KeepNames run') (which : Builtin)
    (args : List String) : KeepNames (Builtin.run run which args) (Builtin.run run' which args) := by
  unfold Builtin.run
  cases Call.follow which args with
  | answer answer => exact Answer.keepNames_give answer
  | describe verbose names => exact keepNames_meanings.bind fun _ _ => Answer.keepNames_give _
  | utility name args =>
    refine agrees_context.bind fun c _ => ?_
    cases c.spawner.find? name with
    | some utility => exact (keepNames_start utility args).bind fun _ _ => agrees_pure trivial
    | none => exact Answer.keepNames_give _
  | builtin which args => exact keepNames_runOther hrun which args

end Builtin

end Shell
