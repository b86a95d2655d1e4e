/-
Commands keep names.

A command assigns to what is written in it, or runs a builtin, a function or other commands. Variables that are
set for the time of a command have identifiers for their names, and nothing else is restored after it. So
sequences keep names whatever their budget is, with or without something around each list that keeps them
too (`Execution.keepNames_sequenceAround`).
-/
import Shell.Proofs.Exec.Names
import Shell.Proofs.Exec.Watched

set_option autoImplicit false

namespace Shell

open Exec

/-! ## 1. Choices and loops -/

namespace Execution

section

variable {run run' : Runner} (hrun : run.KeepNames run')
include hrun

/-- By induction on the branches: a condition and a body are run, or the next branch is tried. -/
theorem keepNames_choose {otherwise : Option Sequence} (hotherwise : ∀ body ∈ otherwise, body.Named)
    {branches : List Branch} (hbranches : ∀ branch ∈ branches, branch.Named) :
    KeepNames (choose run otherwise branches) (choose run' otherwise branches) := by
  induction branches with
  | nil =>
    cases otherwise with
    | none => exact agrees_pure trivial
    | some body => exact hrun body (hotherwise body rfl)
  | cons branch branches ih =>
    obtain ⟨hcondition, hbody⟩ := hbranches branch List.mem_cons_self
    refine (hrun _ hcondition).bind fun outcome _ => ?_
    cases outcome with
    | status code =>
      cases code with
      | zero => exact hrun _ hbody
      | succ => exact ih fun branch hb => hbranches branch (List.mem_cons_of_mem _ hb)
    | returned | broken | continued => exact agrees_pure trivial

/-- By induction on the rounds that are left. A signal ends them, and says nothing of names. -/
theorem keepNames_rounds (kind : LoopKind) {condition body : Sequence} (hcondition : condition.Named)
    (hbody : body.Named) (left status : Nat) :
    KeepNames (rounds run kind condition body left status) (rounds run' kind condition body left status) := by
  induction left generalizing status with
  | zero => exact agrees_context.bind fun _ _ => agrees_abort
  | succ left ih =>
    refine (hrun condition hcondition).bind fun outcome _ => ?_
    cases Reaction.ofOutcome outcome with
    | pass | stop => exact agrees_pure trivial
    | next => exact ih status
    | status code =>
      refine .ite (fun _ => (hrun body hbody).bind fun outcome _ => ?_) fun _ => agrees_pure trivial
      cases Reaction.ofOutcome outcome with
      | pass | stop => exact agrees_pure trivial
      | next => exact ih 0
      | status code => exact ih code

/-- By induction on the words. Each round sets the variable of the loop, whose name is an identifier. -/
theorem keepNames_roundsOver {name : String} (hname : Name.isValid name.toList = true) {body : Sequence}
    (hbody : body.Named) (words : List String) (left status : Nat) :
    KeepNames (roundsOver run name body words left status) (roundsOver run' name body words left status) := by
  induction words generalizing left status with
  | nil => exact agrees_pure trivial
  | cons word words ih =>
    cases left with
    | zero => exact agrees_context.bind fun _ _ => agrees_abort
    | succ left =>
      refine (agrees_modifyEnv fun _ he => he.set hname word).bind fun _ _ => ?_
      refine (hrun body hbody).bind fun outcome _ => ?_
      cases Reaction.ofOutcome outcome with
      | pass | stop => exact agrees_pure trivial
      | next => exact ih left 0
      | status code => exact ih left code

end

/-- Loops are counted beside the environment. -/
theorem keepNames_inLoop {α : Type} {x x' : Exec α} (h : KeepNames x x') :
    KeepNames (inLoop x) (inLoop x') := by
  refine Agrees.bind (V := fun _ => True) (agrees_modify fun s hs => ?_) fun _ _ => h.ensure fun s hs => ?_
  · exact ⟨hs.env, hs.outer⟩
  · exact ⟨hs.env, hs.outer⟩

/-- The limit is part of the context. -/
theorem agrees_maxRounds : KeepNames maxRounds maxRounds :=
  agrees_context.bind fun _ _ => agrees_pure trivial

section

variable {run run' : Runner} (hrun : run.KeepNames run')
include hrun

/-- A loop is entered, goes its rounds, and is left. -/
theorem keepNames_loop (kind : LoopKind) {condition body : Sequence} (hcondition : condition.Named)
    (hbody : body.Named) :
    KeepNames (loop run kind condition body) (loop run' kind condition body) :=
  agrees_maxRounds.bind fun left _ =>
    keepNames_inLoop (keepNames_rounds hrun kind hcondition hbody left 0)

/-- The words of a loop are expanded first, and are text only. -/
theorem keepNames_each {name : String} (hname : Name.isValid name.toList = true)
    {words : Option (List Word)} (hwords : ∀ list ∈ words, ∀ word ∈ list, word.Named) {body : Sequence}
    (hbody : body.Named) : KeepNames (each run name words body) (each run' name words body) := by
  -- The variable of the loop is named by an identifier, whatever the words become.
  have hgo (values : List String) : KeepNames
      (do inLoop (roundsOver run name body values (← maxRounds) 0))
      (do inLoop (roundsOver run' name body values (← maxRounds) 0)) :=
    agrees_maxRounds.bind fun left _ =>
      keepNames_inLoop (keepNames_roundsOver hrun hname hbody values left 0)
  cases words with
  | none => exact agrees_env.bind fun env _ => hgo _
  | some words =>
    refine (Expansion.keepNames_fields hrun (hwords words rfl)).attempt.bind fun r _ => ?_
    cases r with
    | ok values => exact hgo values
    | error e => exact agrees_diagnosed _ _

end

/-! ## 2. Simple commands -/

/-- Of values to set, one more is one of those before or the new one. -/
theorem mem_replaceValue {name value : String} {values : List (String × String)} {v : String × String}
    (h : v ∈ replaceValue name value values) : v = (name, value) ∨ v ∈ values := by
  induction values with
  | nil => exact .inl (List.mem_singleton.mp h)
  | cons first rest ih =>
    unfold replaceValue at h
    split at h
    · exact (List.mem_cons.mp h).imp_right (List.mem_cons_of_mem _)
    · rcases List.mem_cons.mp h with rfl | h
      · exact .inr List.mem_cons_self
      · exact (ih h).imp_right (List.mem_cons_of_mem _)

/-- Variables set for a command are restored after it. Both times the names are those of the assignments. -/
theorem keepNames_withTemporary {α : Type} {x x' : Exec α} (h : KeepNames x x')
    {values : List (String × String)} (hvalues : ∀ value ∈ values, Name.isValid value.1.toList = true) :
    KeepNames (withTemporary values x) (withTemporary values x') := by
  refine agrees_env.bind fun env he => ?_
  obtain ⟨hset, hsaved⟩ := he.applyTemporary hvalues
  refine (agrees_modifyEnv fun _ _ => hset).bind fun _ _ => h.ensure fun s hs => ?_
  -- The code may have changed anything by then, but only the names that were set are set again.
  exact hs.withEnv (hs.env.restoreTemporary hsaved)

/-- A function that a name is resolved to is the one that the name has. -/
theorem function?_of_resolve? {env : Environment} {spawner : Spawner} {name : String} {body : Sequence}
    (h : Meaning.resolve? env spawner name = some (.function body)) : env.function? name = some body := by
  unfold Meaning.resolve? Meaning.runnable at h
  cases hb : Builtin.ofName? name <;> cases hf : env.function? name <;>
    cases hu : spawner.find? name <;> simp_all

section

variable {run run' : Runner} (hrun : run.KeepNames run')
include hrun

/-- The value of an assignment is expanded. -/
theorem keepNames_assignedValue {a : Assignment} (h : a.value.Named) :
    KeepNames (assignedValue run a) (assignedValue run' a) := by
  refine (Expansion.keepNames_wordText hrun h).bind fun value _ => ?_
  exact .ite (fun _ => agrees_env.bind fun _ _ => agrees_pure trivial) fun _ => agrees_pure trivial

/-- By induction on the assignments, each of which sets its own name. -/
theorem keepNames_assignAll {assignments : List Assignment} (h : ∀ a ∈ assignments, a.Named) :
    KeepNames (assignAll run assignments) (assignAll run' assignments) := by
  induction assignments with
  | nil => exact agrees_pure trivial
  | cons a rest ih =>
    obtain ⟨hname, hvalue⟩ := h a List.mem_cons_self
    have hvalid := Name.isValid_of_isIdentifier hname
    refine (keepNames_assignedValue hrun hvalue).bind fun value _ => ?_
    refine (agrees_modifyEnv fun _ he => he.set hvalid value).bind fun _ _ => ?_
    exact ih fun a ha => h a (List.mem_cons_of_mem _ ha)

/-- The names that values are computed for are those of the assignments. -/
theorem agrees_temporaryValues {assignments : List Assignment} (h : ∀ a ∈ assignments, a.Named)
    {values : List (String × String)} (hvalues : ∀ value ∈ values, Name.isValid value.1.toList = true) :
    Agrees Environment.Named (fun values => ∀ value ∈ values, Name.isValid value.1.toList = true)
      (temporaryValues run values assignments) (temporaryValues run' values assignments) := by
  induction assignments generalizing values with
  | nil => exact agrees_pure hvalues
  | cons a rest ih =>
    obtain ⟨hname, hvalue⟩ := h a List.mem_cons_self
    refine (keepNames_assignedValue hrun hvalue).bind fun value _ => ?_
    refine ih (fun a ha => h a (List.mem_cons_of_mem _ ha)) fun v hv => ?_
    rcases mem_replaceValue hv with rfl | hv
    · exact Name.isValid_of_isIdentifier hname
    · exact hvalues v hv

/-- Assignments alone, and the status of the last substitution in them. -/
theorem keepNames_assignOnly {assignments : List Assignment} (h : ∀ a ∈ assignments, a.Named) :
    KeepNames (assignOnly run assignments) (assignOnly run' assignments) := by
  refine Agrees.bind (V := fun _ => True) (agrees_modify fun s hs => ?_) fun _ _ => ?_
  · exact ⟨hs.env, hs.outer⟩
  refine (keepNames_assignAll hrun h).attempt.bind fun r _ => ?_
  cases r with
  | ok _ => exact agrees_get.bind fun _ _ => agrees_pure trivial
  | error e => exact agrees_diagnosed _ _

/-- A call sets the positional parameters, which are no variables, and runs the body. -/
theorem keepNames_callFunction (name : String) {body : Sequence} (hbody : body.Named) (args : List String) :
    KeepNames (callFunction run name body args) (callFunction run' name body args) := by
  refine agrees_context.bind fun c _ => agrees_get.bind fun before _ => .ite (fun _ => ?_) fun _ => ?_
  · exact Agrees.bind (V := fun _ => False) agrees_abort fun _ h => h.elim
  · -- A frame has positional parameters and no variables.
    refine Agrees.bind (V := fun _ => True) (agrees_modify fun s hs => ?_) fun _ _ => ?_
    · exact ⟨⟨hs.env.vars, hs.env.exported, hs.env.functions⟩, hs.outer⟩
    refine Agrees.bind (V := fun _ => True) ((hrun body hbody).ensure fun s hs => ?_) fun _ _ => ?_
    · exact ⟨hs.env.leaveCall, hs.outer⟩
    · exact agrees_pure trivial

/-- The body of a function comes from the environment. -/
theorem keepNames_runFields (fields : List String) :
    KeepNames (runFields run fields) (runFields run' fields) := by
  cases fields with
  | nil => exact agrees_pure trivial
  | cons name args =>
    refine agrees_env.bind fun env he => agrees_context.bind fun c _ => ?_
    cases hm : Meaning.resolve? env c.spawner name with
    | none => exact agrees_diagnosed _ _
    | some meaning =>
      cases meaning with
      | keyword _ => exact agrees_diagnosed _ _
      | builtin which => exact Builtin.keepNames_run hrun which args
      | function body =>
        -- The functions of an environment have good names in them, since they were read so.
        have hbody := he.functions name body (function?_of_resolve? hm)
        exact (keepNames_callFunction hrun name hbody args).bind fun _ _ => agrees_pure trivial
      | utility utility => exact (Builtin.keepNames_start utility args).bind fun _ _ => agrees_pure trivial

/-- A command with a name: its words are expanded, and its assignments hold while it runs. -/
theorem keepNames_runNamed {words : List Word} (hwords : ∀ word ∈ words, word.Named)
    {assignments : List Assignment} (hassignments : ∀ a ∈ assignments, a.Named) :
    KeepNames (runNamed run words assignments) (runNamed run' words assignments) := by
  have hnone : ∀ value ∈ ([] : List (String × String)), Name.isValid value.1.toList = true :=
    fun _ hvalue => absurd hvalue List.not_mem_nil
  refine (agrees_temporaryValues hrun hassignments hnone).attempt.bind fun r hr => ?_
  cases r with
  | error e => exact agrees_diagnosed _ _
  | ok values =>
    refine keepNames_withTemporary ?_ (hr values rfl)
    refine (Expansion.keepNames_fields hrun hwords).attempt.bind fun r _ => ?_
    cases r with
    | error e => exact agrees_diagnosed _ _
    | ok fields => exact keepNames_runFields hrun fields

/-- A simple command has a name or is made of assignments. -/
theorem keepNames_simple {name : Option Word} (hname : ∀ word ∈ name, word.Named) {args : List Word}
    (hargs : ∀ word ∈ args, word.Named) {assignments : List Assignment}
    (hassignments : ∀ a ∈ assignments, a.Named) :
    KeepNames (simple run name args assignments) (simple run' name args assignments) := by
  cases name with
  | none => exact keepNames_assignOnly hrun hassignments
  | some word =>
    exact keepNames_runNamed hrun (List.forall_mem_cons.mpr ⟨hname word rfl, hargs⟩) hassignments

/-! ## 3. Commands and lists -/

/-- **A command of any form**, by its form. -/
theorem keepNames_command {inner : Command} (h : inner.Named) :
    KeepNames (command run inner) (command run' inner) := by
  cases h with
  | simple hname hargs hassignments => exact keepNames_simple hrun hname hargs hassignments
  | choice hcondition hbody hbranches hotherwise =>
    exact keepNames_choose hrun hotherwise (List.forall_mem_cons.mpr ⟨.branch hcondition hbody, hbranches⟩)
  | loop hcondition hbody => exact keepNames_loop hrun _ hcondition hbody
  | each hname hwords hbody =>
    exact keepNames_each hrun (Name.isValid_of_isIdentifier hname) hwords hbody
  | group hbody => exact hrun _ hbody
  | subshell hbody =>
    exact (Agrees.isolate (fun _ he => he.fork) (hrun _ hbody)).bind fun _ _ => agrees_pure trivial
  | function hbody =>
    exact (agrees_modifyEnv fun _ he => he.defineFunction _ hbody).bind fun _ _ => agrees_pure trivial
  | arithmetic hexpression =>
    refine (Expansion.keepNames_evaluateWord hrun hexpression).attempt.bind fun r _ => ?_
    cases r with
    | ok value => exact agrees_pure trivial
    | error e => exact agrees_diagnosed _ _

/-- A command that is a pipeline by itself. -/
theorem keepNames_single (negated : Bool) {inner : Command} (h : inner.Named) :
    KeepNames (single run negated inner) (single run' negated inner) := by
  refine (keepNames_command hrun h).handle fun abort => ?_
  cases abort with
  | exit status => exact .ite (fun _ => agrees_pure trivial) fun _ => agrees_abort
  | limit _ | expansion _ | brokenPipe | fault _ | cancelled => exact agrees_abort

omit hrun in
/-- A status that is recorded is no variable. -/
theorem keepNames_record (negated : Bool) (outcome : Outcome) :
    KeepNames (record negated outcome) (record negated outcome) := by
  cases outcome with
  | status code =>
    exact (agrees_modifyEnv fun _ he => he.withStatus _).bind fun _ _ => agrees_pure trivial
  | returned | broken | continued => exact agrees_pure trivial

/-- The stages of a pipeline are forks, whose environments are forgotten. -/
theorem keepNames_pipeline {p : Pipeline} (h : p.Named) : KeepNames (pipeline run p) (pipeline run' p) := by
  obtain ⟨negated, first, rest⟩ := p
  obtain ⟨hfirst, hrest⟩ := h
  by_cases hp : rest.isEmpty = true
  · rw [pipeline_of_isEmpty hp, pipeline_of_isEmpty hp]
    exact (keepNames_single hrun negated hfirst).bind fun _ _ => keepNames_record negated _
  · rw [pipeline_of_not_isEmpty hp, pipeline_of_not_isEmpty hp]
    have hstages : KeepNames (stages ((first :: rest).map (command run)))
        (stages ((first :: rest).map (command run'))) :=
      agrees_stages (fun _ he => he.fork) _ fun inner hinner =>
        keepNames_command hrun (List.forall_mem_cons.mpr ⟨hfirst, hrest⟩ inner hinner)
    exact (hstages.map (W := fun _ => True) fun _ _ => trivial).bind fun _ _ => keepNames_record negated _

/-- By induction on the pipelines that are left. -/
theorem keepNames_joined {rest : List Joined} (h : ∀ joined ∈ rest, joined.pipeline.Named)
    (outcome : Outcome) : KeepNames (joined run outcome rest) (joined run' outcome rest) := by
  induction rest generalizing outcome with
  | nil => cases outcome <;> exact agrees_pure trivial
  | cons next rest ih =>
    have hrest : ∀ joined ∈ rest, joined.pipeline.Named := fun j hj => h j (List.mem_cons_of_mem _ hj)
    cases outcome with
    | status status =>
      refine .ite (fun _ => ?_) fun _ => ih hrest _
      exact (keepNames_pipeline hrun (h next List.mem_cons_self)).bind fun outcome _ => ih hrest outcome
    | returned | broken | continued => exact agrees_pure trivial

/-- The first pipeline, and those joined to it. -/
theorem keepNames_andOr {list : AndOrList} (h : list.Named) :
    KeepNames (andOr run list) (andOr run' list) := by
  obtain ⟨hfirst, hrest⟩ := h
  exact (keepNames_pipeline hrun hfirst).bind fun outcome _ => keepNames_joined hrun hrest outcome

end

/-! ## 4. Sequences -/

/-- By induction on the statements that are left. -/
theorem keepNames_statements {one one' : AndOrList → Exec Outcome} {lists : List AndOrList}
    (h : ∀ list ∈ lists, KeepNames (one list) (one' list)) (status : Nat) :
    KeepNames (statements one status lists) (statements one' status lists) := by
  induction lists generalizing status with
  | nil => exact agrees_pure trivial
  | cons list rest ih =>
    refine (h list List.mem_cons_self).bind fun outcome _ => ?_
    cases outcome with
    | status code => exact ih (fun list hlist => h list (List.mem_cons_of_mem _ hlist)) code
    | returned | broken | continued => exact agrees_pure trivial

/-- A run that is over its limit is stopped. -/
theorem agrees_tooManyCommands {α : Type} {V : α → Prop} :
    Agrees Environment.Named V (tooManyCommands : Exec α) tooManyCommands :=
  agrees_context.bind fun _ _ => agrees_abort

/-- Counting does not look at the environment. -/
theorem keepNames_countCommand : KeepNames countCommand countCommand :=
  agrees_context.bind fun _ _ => Agrees.bind (V := fun _ => True) (agrees_lift _) fun _ _ =>
    .ite (fun _ => agrees_tooManyCommands) fun _ => agrees_pure trivial

/-- **Sequences keep names**, also with something around each list that keeps them. -/
theorem keepNames_sequenceAround {around : Exec Outcome → Exec Outcome}
    (h : ∀ x x', KeepNames x x' → KeepNames x (around x')) (budget : Nat) :
    (sequence budget).KeepNames (sequenceAround around budget) := by
  induction budget with
  | zero =>
    exact fun body _ => keepNames_statements
      (fun _ _ => keepNames_countCommand.bind fun _ _ => agrees_tooManyCommands) 0
  | succ budget ih =>
    exact fun body hbody => keepNames_statements
      (fun list hlist => keepNames_countCommand.bind fun _ _ =>
        h _ _ (keepNames_andOr ih (hbody.statements list hlist))) 0

/-- **Sequences keep names**, by induction on the budget: whatever a list runs has a smaller one. -/
theorem keepNames_sequence (budget : Nat) : (sequence budget).KeepNames (sequence budget) := by
  -- With nothing around the lists it is the same recursion.
  have hid : sequenceAround id budget = sequence budget := by
    induction budget with
    | zero => rfl
    | succ budget ih =>
      unfold sequenceAround sequence
      rw [ih]
      rfl
  have hbudget := @keepNames_sequenceAround id (fun _ _ h => h) budget
  rwa [hid] at hbudget

/-- So the runner of a session keeps names. -/
theorem keepNames_run : run.KeepNames run :=
  fun body hbody => agrees_context.bind fun _ _ => keepNames_sequence _ body hbody

/-- And so does a runner with something around each list, if that keeps names. -/
theorem keepNames_runAround {around : Exec Outcome → Exec Outcome}
    (h : ∀ x x', KeepNames x x' → KeepNames x (around x')) : run.KeepNames (runAround around) :=
  fun body hbody => agrees_context.bind fun _ _ => keepNames_sequenceAround h _ body hbody

/-- A script keeps names too, also where it deals with what has stopped it. -/
theorem keepNames_scriptBy {run run' : Runner} (hrun : run.KeepNames run') {s : Sequence} (hs : s.Named) :
    KeepNames (scriptBy run s) (scriptBy run' s) := by
  have hstatus : KeepNames (do return (← run s).toStatus : Exec Nat) (do return (← run' s).toStatus : Exec Nat) :=
    (hrun s hs).bind fun _ _ => agrees_pure trivial
  refine hstatus.handle fun abort => ?_
  cases abort with
  | exit status => exact agrees_pure trivial
  | limit e => exact (agrees_diagnose _).bind fun _ _ => agrees_pure trivial
  | expansion _ | brokenPipe | fault _ | cancelled => exact agrees_abort

end Execution

end Shell
