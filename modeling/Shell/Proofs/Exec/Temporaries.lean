/-
Variables set for the time of a command.

Before a command the values of its assignments are set and exported, and after it the old ones come
back. What is saved depends on the names alone and not on what the command does, so the end of a
command with assignments before it is one function of the environment before them and of the one that
the command ends with (`Environment.undo`), however it ends (`simple_undoes`).

The one thing to check is the export mark. It is taken away from a name that did not have it, but not
given back to one that did: a name has it afterwards if it had it before and the command has left it.
So a command can take the mark of a name for good.
-/
import Shell.Proofs.Pipeline.Ends

set_option autoImplicit false

namespace Shell

/-! ## 1. Restoring

The code restores one saved variable after the other. Since no name is saved twice, the order makes no difference,
and for each name it can be said at once what it has in the end. -/

namespace Environment

/-- What is restored has its old value, or none if it had none. -/
theorem get?_restore (env : Environment) (r : Restore) (name : String) :
    (env.restore r).get? name = if r.name = name then r.value else env.get? name := by
  unfold restore get?
  cases hv : r.value with
  | some value => cases r.exported <;> exact Table.get?_insert _ _ _ _
  | none => cases r.exported <;> exact Table.get?_erase _ _ _

/-- What is restored is marked if it was marked before and still is. So a mark that a command has taken is not given
back. -/
theorem exported_restore (env : Environment) (r : Restore) (name : String) :
    (env.restore r).exported.contains name =
      if r.name = name then r.exported && env.exported.contains name
      else env.exported.contains name := by
  unfold restore
  cases r.value <;> cases r.exported <;>
    simp only [removeExport, set, Table.contains, Table.get?_erase, apply_ite Option.isSome,
      Option.isSome_none, Bool.false_and, Bool.true_and, Bool.false_eq_true, if_true, if_false,
      ite_self]

/-- The environment after a command that ends with `last`, where `names` were set for its time in
`before`. -/
def undo (names : List String) (before last : Environment) : Environment :=
  last.restoreTemporary (names.map before.saved).reverse

/-- `after` has the values of `before` for some names, which have an export mark if they have it in
`before` and in `last`. All the rest is as in `last`. -/
structure Restores (names : List String) (before last after : Environment) : Prop where
  value : ∀ name ∈ names, after.get? name = before.get? name
  mark : ∀ name ∈ names, after.exported.contains name =
    (before.exported.contains name && last.exported.contains name)
  others : ∀ name, name ∉ names →
    after.get? name = last.get? name ∧ after.exported.contains name = last.exported.contains name
  rest : { after with vars := last.vars, exported := last.exported } = last

/-- Restoring one more name. -/
theorem Restores.restore {names : List String} {before last after : Environment}
    (h : Restores names before last after) (name : String) :
    Restores (name :: names) before last (after.restore (before.saved name)) where
  value n hn := by
    rw [get?_restore]
    split
    · next he => exact congrArg before.get? he
    · next hne => exact h.value n ((List.mem_cons.mp hn).resolve_left fun he => hne he.symm)
  mark n hn := by
    rw [exported_restore]
    split
    · next he =>
      obtain rfl := he
      show (before.exported.contains name && after.exported.contains name) =
        (before.exported.contains name && last.exported.contains name)
      -- A name that was given twice has been restored before, and its mark is the same again.
      by_cases hmem : name ∈ names
      · rw [h.mark _ hmem, ← Bool.and_assoc, Bool.and_self]
      · rw [(h.others _ hmem).2]
    · next hne => exact h.mark n ((List.mem_cons.mp hn).resolve_left fun he => hne he.symm)
  others n hn := by
    obtain ⟨hne, hmem⟩ := not_or.mp (fun h => hn (List.mem_cons.mpr h))
    rw [get?_restore, exported_restore, if_neg fun he => hne he.symm, if_neg fun he => hne he.symm]
    exact h.others n hmem
  rest := by
    refine Eq.trans ?_ h.rest
    unfold Environment.restore
    cases (before.saved name).value <;> cases (before.saved name).exported <;> rfl

/-- What is saved under the names, and restored in their order, is what `undo` says. -/
theorem restores_undo (names : List String) (before last : Environment) :
    Restores names before last (undo names before last) := by
  induction names with
  | nil => exact ⟨nofun, nofun, fun _ _ => ⟨rfl, rfl⟩, rfl⟩
  | cons name names ih =>
    have hundo : undo (name :: names) before last =
        (undo names before last).restore (before.saved name) := by
      simp only [undo, restoreTemporary, List.map_cons, List.reverse_cons, List.foldl_append,
        List.foldl_cons, List.foldl_nil]
    rw [hundo]
    exact ih.restore name

/-- Setting one name saves nothing else of another. -/
theorem saved_override {env : Environment} {name n : String} (value : String) (h : n ≠ name) :
    (env.override name value).saved n = env.saved n := by
  have hvar : (env.override name value).get? n = env.get? n :=
    (Table.get?_insert _ _ _ _).trans (if_neg fun he => h he.symm)
  have hmark : (env.override name value).exported.contains n = env.exported.contains n :=
    congrArg Option.isSome ((Table.get?_insert _ _ _ _).trans (if_neg fun he => h he.symm))
  simp only [saved, hvar, hmark]

/-- What is saved of names that are all different is what the environment had before them all. -/
theorem saved_applyTemporary (env : Environment) (values : List (String × String))
    (h : (values.map Prod.fst).Nodup) :
    (env.applyTemporary values).2 = ((values.map Prod.fst).map env.saved).reverse := by
  -- The entries are put in front of one another, so those already there stay at the end.
  have hfold (env : Environment) (acc : List Restore) :
      (values.foldl (fun p value => (p.1.override value.1 value.2, p.1.saved value.1 :: p.2)) (env, acc)).2 =
        ((values.map Prod.fst).map env.saved).reverse ++ acc := by
    induction values generalizing env acc with
    | nil => rfl
    | cons v values ih =>
      obtain ⟨hv, hvs⟩ := List.nodup_cons.mp h
      -- The names are different, so setting one of them does not change what is saved of the others.
      have hsame : (values.map Prod.fst).map (env.override v.1 v.2).saved =
          (values.map Prod.fst).map env.saved :=
        List.map_congr_left fun n hn => saved_override v.2 fun he => hv (he ▸ hn)
      rw [List.foldl_cons, ih hvs, hsame]
      simp only [List.map_cons, List.reverse_cons, List.append_assoc, List.singleton_append]
  exact (hfold env []).trans (List.append_nil _)

end Environment

/-! ## 2. The names that are set

Two assignments to one name save it once, with what it was before the first of them. -/

namespace Execution

/-- Names with one more, unless it is among them. -/
def addName (names : List String) (name : String) : List String :=
  if name ∈ names then names else names ++ [name]

/-- The names of assignments in the order in which they come up. -/
def assignedNames (assignments : List Assignment) : List String :=
  (assignments.map (·.name)).foldl addName []

/-- A name is added once. -/
theorem nodup_addName {names : List String} (h : names.Nodup) (name : String) :
    (addName names name).Nodup := by
  unfold addName
  split
  · exact h
  · next hn =>
    refine List.nodup_append.mpr ⟨h, by simp, fun n hmem n' hmem' he => ?_⟩
    rw [he, List.mem_singleton.mp hmem'] at hmem
    exact hn hmem

/-- A name that is added is among the names. -/
theorem mem_addName {names : List String} {name n : String} :
    n ∈ addName names name ↔ n ∈ names ∨ n = name := by
  unfold addName
  split
  · next hn => exact ⟨.inl, fun h => h.elim id fun he => he ▸ hn⟩
  · rw [List.mem_append, List.mem_singleton]

/-- However many are added, each is there once. -/
theorem nodup_foldl_addName (added : List String) {names : List String} (h : names.Nodup) :
    (added.foldl addName names).Nodup := by
  induction added generalizing names with
  | nil => exact h
  | cons name added ih => exact ih (nodup_addName h name)

/-- The names that are set are those of the assignments. -/
theorem mem_assignedNames {assignments : List Assignment} {name : String} :
    name ∈ assignedNames assignments ↔ ∃ a ∈ assignments, a.name = name := by
  have hfold (added names : List String) :
      name ∈ added.foldl addName names ↔ name ∈ names ∨ name ∈ added := by
    induction added generalizing names with
    | nil => simp
    | cons n added ih =>
      rw [List.foldl_cons, ih, mem_addName, List.mem_cons]
      exact or_assoc
  rw [assignedNames, hfold, List.mem_map]
  simp

/-- A value in the place of another adds no name, and a new one adds its own. -/
theorem names_replaceValue (name value : String) (values : List (String × String)) :
    (replaceValue name value values).map Prod.fst = addName (values.map Prod.fst) name := by
  induction values with
  | nil => rfl
  | cons v values ih =>
    unfold replaceValue addName
    by_cases hn : v.1 = name
    · simp [hn]
    · have hne : name ≠ v.1 := fun he => hn he.symm
      rw [if_neg hn, List.map_cons, ih, addName]
      by_cases hmem : name ∈ values.map Prod.fst <;> simp_all

/-- What follows values for some time need only be the same for values of the names that are
assigned. -/
theorem temporaryValues_congr {run : Runner} {c : Context}
    {next next' : Except Abort (List (String × String)) → State → Job Ending}
    (herror : ∀ abort s, next (.error abort) s = next' (.error abort) s)
    (assignments : List Assignment) (values : List (String × String))
    (hok : ∀ values' s, values'.map Prod.fst =
      (assignments.map (·.name)).foldl addName (values.map Prod.fst) →
      next (.ok values') s = next' (.ok values') s) (s : State) :
    temporaryValues run values assignments c s next =
      temporaryValues run values assignments c s next' := by
  -- Along the assignments: each adds its name to the values that are there.
  induction assignments generalizing values s with
  | nil => exact hok values s rfl
  | cons a rest ih =>
    refine congrArg (assignedValue run a c s) (funext fun r => funext fun s' => ?_)
    cases r with
    | error abort => exact herror abort s'
    | ok value =>
      refine ih (replaceValue a.name value values) (fun values' s hv => hok values' s ?_) s'
      rw [hv, names_replaceValue]
      rfl

/-! ## 3. Commands with assignments before them

The values are computed and set, the command runs, and what was saved comes back however the command has ended. Only
marks are an exception, as a mark that the command has taken away stays away. -/

/-- The words of a command, expanded, and the command that they make. -/
def runWords (run : Runner) (words : List Word) : Exec Outcome := do
  match ← Exec.attempt (Expansion.fields run words) with
  | .error e =>
    Exec.diagnose e.message
    return .status 1
  | .ok fields => runFields run fields

/-- A command runs between setting variables and undoing that. -/
theorem withTemporary_eq {α : Type} (x : Exec α) {values : List (String × String)}
    (h : (values.map Prod.fst).Nodup) (c : Context) (s : State)
    (next : Except Abort α → State → Job Ending) :
    withTemporary values x c s next =
      x c { s with env := (s.env.applyTemporary values).1 } fun r last =>
        next r { last with env := Environment.undo (values.map Prod.fst) s.env last.env } := by
  have hundo (last : Environment) : Environment.undo (values.map Prod.fst) s.env last =
      last.restoreTemporary (s.env.applyTemporary values).2 := by
    rw [s.env.saved_applyTemporary values h]
    rfl
  simp only [hundo]
  rfl

/-- A command with assignments before it runs with their values set, which are then undone. -/
theorem simple_temporaryValues (run : Runner) (name : Word) (args : List Word) (assignments : List Assignment)
    (c : Context) (s : State) (next : Except Abort Outcome → State → Job Ending) :
    simple run (some name) args assignments c s next =
      Exec.attempt (temporaryValues run [] assignments) c s (fun
        | .ok (.ok values), before =>
          runWords run (name :: args) c { before with env := (before.env.applyTemporary values).1 } fun r last =>
            next r { last with env := Environment.undo (assignedNames assignments) before.env last.env }
        | .ok (.error e), before =>
          (do Exec.diagnose e.message; return .status 1 : Exec Outcome) c before next
        | .error abort, before => next (.error abort) before) := by
  refine temporaryValues_congr (fun abort s' => ?_) assignments [] (fun values s' hv => ?_) s
  · cases abort <;> rfl
  -- Every name is there once, whichever assignments there are.
  · have hnodup : (values.map Prod.fst).Nodup := by
      rw [hv]
      exact nodup_foldl_addName _ List.nodup_nil
    have hnames : values.map Prod.fst = assignedNames assignments := hv
    refine (withTemporary_eq (runWords run (name :: args)) hnodup c s' next).trans ?_
    rw [hnames]
    rfl

/-- **Assignments before a command are undone, however it ends.** If they can be expanded, the command runs
with them set and ends, with whatever result `r`, in an environment `last`; what follows gets the same
result and `last` with the assignments undone. Then every assigned name has the value it had just
before, or again none, and it has an export mark if it had one before and the command has left it.
Nothing else is changed. -/
theorem simple_undoes (run : Runner) (name : Word) (args : List Word)
    (assignments : List Assignment) (c : Context) (s : State)
    (next : Except Abort Outcome → State → Job Ending) :
    simple run (some name) args assignments c s next =
      Exec.attempt (temporaryValues run [] assignments) c s (fun
        | .ok (.ok values), before =>
          runWords run (name :: args) c
            { before with env := (before.env.applyTemporary values).1 } fun r last =>
              next r { last with
                env := Environment.undo (assignedNames assignments) before.env last.env }
        | .ok (.error e), before =>
          (do Exec.diagnose e.message; return .status 1 : Exec Outcome) c before next
        | .error abort, before => next (.error abort) before) ∧
    ∀ before last after, after = Environment.undo (assignedNames assignments) before last →
      (∀ a ∈ assignments, after.get? a.name = before.get? a.name ∧
        after.exported.contains a.name =
          (before.exported.contains a.name && last.exported.contains a.name)) ∧
      (∀ other, (∀ a ∈ assignments, a.name ≠ other) → after.get? other = last.get? other ∧
        after.exported.contains other = last.exported.contains other) ∧
      { after with vars := last.vars, exported := last.exported } = last := by
  refine ⟨simple_temporaryValues run name args assignments c s next, ?_⟩
  -- What the two environments have in common afterwards follows from what restoring does to one name.
  rintro before last after rfl
  have h := Environment.restores_undo (assignedNames assignments) before last
  refine ⟨fun a ha => ?_, fun other hother => h.others other fun hmem => ?_, h.rest⟩
  · have hmem := mem_assignedNames.mpr ⟨a, ha, rfl⟩
    exact ⟨h.value _ hmem, h.mark _ hmem⟩
  · obtain ⟨a, ha, rfl⟩ := mem_assignedNames.mp hmem
    exact hother a ha rfl

/-- The tree of `X=2 export -n X`. -/
def unexportUnderAssignment : Sequence :=
  ⟨[⟨⟨false, .simple 1 (some ⟨1, [.literal "export"]⟩) [⟨1, [.literal "-n"]⟩, ⟨1, [.literal "X"]⟩]
    [⟨"X", false, ⟨1, [.literal "2"]⟩, 1⟩], []⟩, []⟩]⟩

/-- The export mark of a name that is assigned before a command does not always come back. Here the
command takes it away, and only the value is as before. -/
theorem unexportUnderAssignment_loses_mark :
    (¬ ∀ (names : List String) (before last : Environment), ∀ name ∈ names,
      (Environment.undo names before last).get? name = before.get? name ∧
        (Environment.undo names before last).exported.contains name =
          before.exported.contains name) ∧
    let session : Session := { vars := [("X", "1")] }
    let after := (session.runScript unexportUnderAssignment (.ofText "")).env
    session.env.get? "X" = some "1" ∧ session.env.exported.contains "X" = true ∧
      after.get? "X" = some "1" ∧ after.exported.contains "X" = false := by
  -- An environment without the mark refutes the general statement, and the script comes to it.
  refine ⟨fun h => ?_, by decide +kernel⟩
  have hmark := (h ["X"] (.initial [("X", "1")] [] "") {} "X" (List.mem_singleton.mpr rfl)).2
  exact absurd hmark (by decide +kernel)

end Execution

end Shell
