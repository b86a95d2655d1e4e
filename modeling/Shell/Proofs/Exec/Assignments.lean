/-
Assignments before a command, next to assignments that stay.

A statement of assignments alone makes each assignment before it computes the next value. Before a command
all values are computed first, from the environment as it is, and only then are they set and exported. So
the two give the same values if each assignment ignores the names that are assigned before it: what it
computes and does is the same with another value of such a name (`Ignores`). Then all of the state is the same, but
for the export marks (`assignments_agree`). A word that reads an earlier name is the difference, and `+=` reads its own
name: of `x+=2 x+=3` before a command only the second addition counts.
-/
import Shell.Proofs.Exec.Chains
import Shell.Proofs.Exec.Temporaries
import Shell.Proofs.Tables

set_option autoImplicit false

namespace Shell

/-! ## 1. Tables and environments

Tables are sorted lists of entries. Two changes at different keys therefore lead to the same table in either order,
and not just to tables that answer alike. -/

namespace Table

variable {α : Type}

/-- Of two values for one key the last one stays. -/
theorem put_put (key : String) (first last : α) (entries : List (String × α)) :
    put key last (put key first entries) = put key last entries := by
  induction entries with
  | nil => simp [put]
  | cons e rest ih => grind [put]

/-- Values for two keys may be put in either order. The entries are sorted, so the induction follows the list up to
where the smaller key belongs. -/
theorem put_comm {a b : String} (h : a < b) (v w : α) (entries : List (String × α)) :
    put b w (put a v entries) = put a v (put b w entries) := by
  have hne : a ≠ b := String.ne_of_lt h
  have hasymm : ¬ b < a := String.lt_asymm h
  induction entries with
  | nil => simp [put, h, hne, hasymm, hne.symm]
  | cons e rest ih =>
    obtain ⟨k, u⟩ := e
    by_cases hk : k = a
    · grind [put]
    · by_cases hak : a < k
      · grind [put]
      · have hkb : ¬ b < k := fun hb => hak (String.lt_trans h hb)
        have hne' : k ≠ b := fun he => hak (he ▸ h)
        simp only [put, hk, hak, hkb, hne', if_false, ih]

/-- Of two values for one key the last one stays. -/
theorem insert_insert (t : Table α) (key : String) (first last : α) :
    (t.insert key first).insert key last = t.insert key last :=
  congrArg Table.mk (put_put key first last t.entries)

/-- Values for two keys may be put in either order. -/
theorem insert_comm {a b : String} (h : a ≠ b) (v w : α) (t : Table α) :
    (t.insert a v).insert b w = (t.insert b w).insert a v := by
  by_cases hlt : a < b
  · exact congrArg Table.mk (put_comm hlt v w t.entries)
  · exact congrArg Table.mk (put_comm (lt_of_ne_of_not_lt h.symm hlt) w v t.entries).symm

end Table

namespace Environment

/-- Of two values for one name the last one stays. -/
theorem override_override (env : Environment) (name first last : String) :
    (env.override name first).override name last = env.override name last := by
  simp only [override, set, addExport, Table.insert_insert]

/-- Values for two names may be set in either order. -/
theorem override_comm {a b : String} (h : a ≠ b) (v w : String) (env : Environment) :
    (env.override a v).override b w = (env.override b w).override a v := by
  simp only [override, set, addExport, Table.insert_comm h]

/-- Variables set and exported, one after the other. -/
def overrideAll (env : Environment) (values : List (String × String)) : Environment :=
  values.foldl (fun env value => env.override value.1 value.2) env

/-- Names with an export mark for each. -/
def exportAll (env : Environment) (names : List String) : Environment :=
  names.foldl addExport env

/-- A name that is in none of several values may be set before them or after them. -/
theorem overrideAll_override {values : List (String × String)} {name : String}
    (h : name ∉ values.map Prod.fst) (value : String) (env : Environment) :
    (env.override name value).overrideAll values = (env.overrideAll values).override name value := by
  induction values generalizing env with
  | nil => rfl
  | cons v values ih =>
    obtain ⟨hne, hmem⟩ := not_or.mp fun hor => h (List.mem_cons.mpr hor)
    show ((env.override name value).override v.1 v.2).overrideAll values = _
    rw [override_comm hne, ih hmem]
    rfl

/-- A value put in the place of an earlier one counts as if it came last. -/
theorem overrideAll_replaceValue (name value : String) {values : List (String × String)}
    (h : (values.map Prod.fst).Nodup) (env : Environment) :
    env.overrideAll (Execution.replaceValue name value values) =
      (env.overrideAll values).override name value := by
  induction values generalizing env with
  | nil => rfl
  | cons v values ih =>
    obtain ⟨n, old⟩ := v
    obtain ⟨hn, hrest⟩ := List.nodup_cons.mp h
    unfold Execution.replaceValue
    split
    · next he =>
      -- The name is not in the rest, so its new value may as well be set behind that.
      obtain rfl := he
      show (env.override n value).overrideAll values =
        ((env.override n old).overrideAll values).override n value
      rw [← overrideAll_override hn, override_override]
    · exact ih hrest (env.override n old)

/-- What a command sees of its assignments is the environment with their values in it. -/
theorem applyTemporary_fst (env : Environment) (values : List (String × String)) :
    (env.applyTemporary values).1 = env.overrideAll values := by
  have hfold (env : Environment) (saved : List Restore) :
      (values.foldl (fun p value => (p.1.override value.1 value.2, p.1.saved value.1 :: p.2)) (env, saved)).1 =
        env.overrideAll values := by
    induction values generalizing env saved with
    | nil => rfl
    | cons v values ih => exact ih _ _
  exact hfold env []

/-- An export mark may be given before the values or after them. -/
theorem setAll_addExport (env : Environment) (name : String) (values : List (String × String)) :
    (env.addExport name).setAll values = (env.setAll values).addExport name := by
  induction values generalizing env with
  | nil => rfl
  | cons v values ih => exact ih (env.set v.1 v.2)

/-- Setting and exporting in turn is setting first and exporting then. -/
theorem overrideAll_eq (env : Environment) (values : List (String × String)) :
    env.overrideAll values = (env.setAll values).exportAll (values.map Prod.fst) := by
  induction values generalizing env with
  | nil => rfl
  | cons v values ih =>
    refine (ih (env.override v.1 v.2)).trans ?_
    exact congrArg (exportAll · (values.map Prod.fst)) (setAll_addExport (env.set v.1 v.2) v.1 values)

end Environment

namespace Execution

variable {run : Runner} {c : Context}

/-! ## 2. Values that are computed first

The code keeps the values before a command in a list, in which a second value for a name replaces the first one.
Here this list is shown to have the effect of setting all the values one after the other. -/

/-- The values of assignments, with their names, all computed before one of them is made. -/
def computeAll (run : Runner) : List Assignment → Exec (List (String × String))
  | [] => return []
  | a :: rest => do
    let value ← assignedValue run a
    return (a.name, value) :: (← computeAll run rest)

/-- The values before a command are those that are computed first, each in the place of an earlier one with its
name. -/
theorem temporaryValues_eq (assignments : List Assignment) (values : List (String × String)) :
    temporaryValues run values assignments =
      (fun computed => computed.foldl (fun values v => replaceValue v.1 v.2 values) values) <$>
        computeAll run assignments := by
  induction assignments generalizing values with
  | nil => rfl
  | cons a rest ih =>
    funext c s next
    refine congrArg (assignedValue run a c s) (funext fun r => funext fun s' => ?_)
    cases r with
    | error abort => rfl
    | ok value =>
      refine (congrArg (· c s' next) (ih (replaceValue a.name value values))).trans ?_
      exact congrArg (computeAll run rest c s') (funext fun r => funext fun s' => by cases r <;> rfl)

/-- Values that are put together by their names are set and exported as if one came after the other. -/
theorem overrideAll_foldl_replaceValue (computed : List (String × String)) {values : List (String × String)}
    (h : (values.map Prod.fst).Nodup) (env : Environment) :
    env.overrideAll (computed.foldl (fun values v => replaceValue v.1 v.2 values) values) =
      (env.overrideAll values).overrideAll computed := by
  induction computed generalizing values with
  | nil => rfl
  | cons v computed ih =>
    have hnext : ((replaceValue v.1 v.2 values).map Prod.fst).Nodup := by
      rw [names_replaceValue]
      exact nodup_addName h v.1
    refine (ih hnext).trans ?_
    rw [env.overrideAll_replaceValue v.1 v.2 h]
    rfl

/-- Sets and exports the variables of assignments for the time of a command, and returns the environment that
comes back after it. -/
def enter (run : Runner) (assignments : List Assignment) : Exec Environment := do
  let values ← temporaryValues run [] assignments
  let before ← Exec.env
  Exec.modifyEnv fun env => (env.applyTemporary values).1
  return before

/-- **Assignments before a command** compute all values from the environment as it is, and set them then. -/
theorem enter_eq (assignments : List Assignment) (s : State)
    (next : Except Abort Environment → State → Job Ending) :
    enter run assignments c s next = computeAll run assignments c s (fun
      | .ok values, s' => next (.ok s'.env) { s' with env := s'.env.overrideAll values }
      | .error abort, s' => next (.error abort) s') := by
  unfold enter
  rw [temporaryValues_eq]
  refine congrArg (computeAll run assignments c s) (funext fun r => funext fun s' => ?_)
  cases r with
  | error abort => rfl
  | ok computed =>
    have hnil : (([] : List (String × String)).map Prod.fst).Nodup := List.nodup_nil
    show next (.ok s'.env) { s' with env := (s'.env.applyTemporary _).1 } = _
    rw [Environment.applyTemporary_fst, overrideAll_foldl_replaceValue computed hnil]
    rfl

/-- A command with assignments before it is expanded and runs in the state that `enter` makes, and the assignments
are undone with the environment that it returns. -/
theorem simple_enter (name : Word) (args : List Word) (assignments : List Assignment) (s : State)
    (next : Except Abort Outcome → State → Job Ending) :
    simple run (some name) args assignments c s next =
      Exec.attempt (enter run assignments) c s (fun
        | .ok (.ok before), during =>
          runWords run (name :: args) c during fun r last =>
            next r { last with env := Environment.undo (assignedNames assignments) before last.env }
        | .ok (.error e), s' => (do Exec.diagnose e.message; return .status 1 : Exec Outcome) c s' next
        | .error abort, s' => next (.error abort) s') := by
  rw [simple_temporaryValues]
  refine congrArg (temporaryValues run [] assignments c s) (funext fun r => funext fun s' => ?_)
  cases r with
  | ok values => rfl
  | error abort => cases abort <;> rfl

/-! ## 3. Code that ignores a variable

Assignments that stay are made while the next values are still to be computed. If these do not read what has been
set, then making an assignment early is no different from making it late. -/

end Execution

/-- The state with a variable set. -/
def State.setVariable (s : State) (name value : String) : State := { s with env := s.env.set name value }

namespace Exec

variable {α β : Type} {name : String}

/-- Setting a variable before `x` is as good as setting it after `x`: `x` does not read it and leaves it alone. -/
def Ignores (name : String) (x : Exec α) : Prop :=
  ∀ (value : String) (c : Context) (s : State) (next : Except Abort α → State → Job Ending),
    x c (s.setVariable name value) next = x c s fun r s' => next r (s'.setVariable name value)

/-- A value that is known depends on no variable. -/
theorem ignores_pure (a : α) : Ignores name (pure a : Exec α) := fun _ _ _ _ => rfl

/-- Nor does code that ends the run. -/
theorem ignores_abort (abort : Abort) : Ignores name (Exec.abort abort : Exec α) := fun _ _ _ _ => rfl

/-- What is ignored by one piece of code, and by what it goes on with, is ignored by both. -/
theorem Ignores.bind {x : Exec α} {f : α → Exec β} (h : Ignores name x) (hf : ∀ a, Ignores name (f a)) :
    Ignores name (x >>= f) := by
  intro value c s next
  refine (h value c s _).trans (congrArg (x c s) (funext fun r => funext fun s' => ?_))
  cases r with
  | ok a => exact hf a value c s' next
  | error abort => rfl

/-- The environment may be read for anything that is the same with another value of the variable. -/
theorem ignores_env_bind {f : Environment → Exec α} (h : ∀ env value, f (env.set name value) = f env)
    (hf : ∀ env, Ignores name (f env)) : Ignores name (Exec.env >>= f) := by
  intro value c s next
  show f (s.env.set name value) c (s.setVariable name value) next = f s.env c s _
  rw [h]
  exact hf s.env value c s next

/-- What both branches ignore is ignored. -/
theorem Ignores.ite {p : Prop} [Decidable p] {x y : Exec α} (hx : Ignores name x) (hy : Ignores name y) :
    Ignores name (if p then x else y) := by
  split
  · exact hx
  · exact hy

/-- Setting another name ignores this one, since the two may be set in either order. -/
theorem ignores_set {other : String} (h : other ≠ name) (text : String) :
    Ignores name (Exec.modifyEnv fun env => env.set other text) := by
  intro value c s next
  refine congrArg (fun env => next (.ok ()) { s with env := env }) ?_
  simp only [State.setVariable, Environment.set, Table.insert_comm h]

end Exec

namespace Environment

/-- A name that is set has its value, and others have theirs. -/
theorem get?_set (env : Environment) (name key value : String) :
    (env.set name value).get? key = if name = key then some value else env.get? key :=
  Table.get?_insert _ _ _ _

end Environment

namespace Execution

variable {run : Runner} {c : Context} {name : String}

/-- Values that each ignore a name do so together. -/
theorem ignores_computeAll {assignments : List Assignment}
    (h : ∀ a ∈ assignments, (assignedValue run a).Ignores name) : (computeAll run assignments).Ignores name := by
  induction assignments with
  | nil => exact Exec.ignores_pure _
  | cons a rest ih =>
    refine (h a List.mem_cons_self).bind fun value => ?_
    exact (ih fun b hb => h b (List.mem_cons_of_mem _ hb)).bind fun _ => Exec.ignores_pure _

/-- What follows values need only be the same for values of the names that are assigned. -/
theorem computeAll_congr {next next' : Except Abort (List (String × String)) → State → Job Ending}
    (herror : ∀ abort s, next (.error abort) s = next' (.error abort) s) (assignments : List Assignment)
    (hok : ∀ values s, values.map Prod.fst = assignments.map (·.name) →
      next (.ok values) s = next' (.ok values) s) (s : State) :
    computeAll run assignments c s next = computeAll run assignments c s next' := by
  induction assignments generalizing next next' s with
  | nil => exact hok [] s rfl
  | cons a rest ih =>
    refine congrArg (assignedValue run a c s) (funext fun r => funext fun s' => ?_)
    cases r with
    | error abort => exact herror abort s'
    | ok value =>
      show computeAll run rest c s' _ = computeAll run rest c s' _
      refine ih ?_ ?_ s'
      · exact fun abort s => herror abort s
      · exact fun values s hv => hok ((a.name, value) :: values) s (congrArg (a.name :: ·) hv)

/-- Each assignment ignores the names that are assigned before it. -/
def Independent (run : Runner) (assignments : List Assignment) : Prop :=
  assignments.Pairwise fun a b => (assignedValue run b).Ignores a.name

/-- **Assignments that are made one after the other, where each ignores those before it, give the values that are
computed before one of them is made.** -/
theorem assignAll_eq {assignments : List Assignment} (h : Independent run assignments)
    {next : Except Abort Unit → State → Job Ending}
    (herror : ∀ abort s s', next (.error abort) s = next (.error abort) s') (s : State) :
    assignAll run assignments c s next = computeAll run assignments c s (fun
      | .ok values, s' => next (.ok ()) { s' with env := s'.env.setAll values }
      | .error abort, s' => next (.error abort) s') := by
  induction assignments generalizing s with
  | nil => rfl
  | cons a rest ih =>
    obtain ⟨hfirst, hrest⟩ := List.pairwise_cons.mp h
    refine congrArg (assignedValue run a c s) (funext fun r => funext fun s' => ?_)
    cases r with
    | error abort => rfl
    | ok value =>
      -- The assignment moves behind the values that are still to be computed.
      refine (ih hrest (s'.setVariable a.name value)).trans ?_
      refine (ignores_computeAll hfirst value c s' _).trans ?_
      refine congrArg (computeAll run rest c s') (funext fun r => funext fun s'' => ?_)
      cases r with
      | error abort => exact herror abort _ _
      | ok values => rfl

/-! ## 4. Words that ignore a variable

It can be read off most words which variables they have a use for. For a substitution and for arithmetic it cannot,
so they are taken to have a use for all. -/

end Execution

mutual

/-- Whether a part of a word has no use for a variable. A command substitution and arithmetic may have one for any
variable, and `"$*"` has one for IFS. -/
def WordPart.avoids (name : String) : WordPart → Bool
  | .literal _ | .singleQuoted _ | .escaped _ => true
  | .doubleQuoted parts => WordPart.avoidedBy name parts
  | .parameter other => other != name && (other != "*" || name != "IFS")
  | .length other => other != name
  | .conditional other _ argument => other != name && argument.avoids name
  | .substitution .. | .arithmetic _ => false

/-- Whether no part of a list has a use for a variable. -/
def WordPart.avoidedBy (name : String) : List WordPart → Bool
  | [] => true
  | part :: parts => part.avoids name && WordPart.avoidedBy name parts

/-- Whether a word has no use for a variable. -/
def Word.avoids (name : String) : Word → Bool
  | ⟨_, parts⟩ => WordPart.avoidedBy name parts

end

/-- Whether the value of an assignment does not depend on a variable. `+=` depends on its own. -/
def Assignment.avoids (name : String) (a : Assignment) : Bool :=
  a.value.avoids name && (!a.append || a.name != name)

namespace Expansion

open Exec

variable {name other : String}

/-- The value of another name is the same. -/
theorem value?_set (h : other ≠ name) (env : Environment) (value : String) :
    value? (env.set name value) other = value? env other := by
  have hget : (env.set name value).get? other = env.get? other :=
    (env.get?_set name other value).trans (if_neg h.symm)
  unfold value? positional?
  rw [hget]
  rfl

/-- The value of another name is told. -/
theorem ignores_parameter (h : other ≠ name) : Ignores name (parameter other) := by
  refine ignores_env_bind (fun env value => ?_) fun env => ?_
  · rw [value?_set h]
  · cases value? env other with
    | ok value => exact ignores_pure _
    | error f => exact ignores_abort _

/-- The separators are the value of `IFS`. -/
theorem separators_set (h : name ≠ "IFS") (env : Environment) (value : String) :
    separators (env.set name value) = separators env :=
  congrArg (Option.getD · defaultSeparators) ((env.get?_set name "IFS" value).trans (if_neg h))

/-- All positional parameters depend on no name, but for `$*`, which is joined by the first separator. -/
theorem allPositional_set (h : other ≠ "*" ∨ name ≠ "IFS") (env : Environment) (value : String) (quoted : Bool) :
    allPositional (env.set name value) other quoted = allPositional env other quoted := by
  unfold allPositional
  rcases h with h | h
  · simp only [h, false_and, if_false]
    rfl
  · rw [separators_set h]
    rfl

/-- A part that avoids a name reads another one. -/
theorem ignores_parameterSegments (h : (WordPart.parameter other).avoids name) (quoted : Bool) :
    Ignores name (parameterSegments other quoted) := by
  obtain ⟨hne, hstar⟩ := Bool.and_eq_true_iff.mp h
  have hstar : other ≠ "*" ∨ name ≠ "IFS" := (Bool.or_eq_true_iff.mp hstar).imp bne_iff_ne.mp bne_iff_ne.mp
  refine Ignores.ite ?_ ((ignores_parameter (bne_iff_ne.mp hne)).bind fun _ => ignores_pure _)
  refine ignores_env_bind (fun env value => ?_) fun env => ignores_pure _
  rw [allPositional_set hstar]

/-- The length of the value of another name. -/
theorem ignores_lengthSegments (h : other ≠ name) (quoted : Bool) :
    Ignores name (lengthSegments other quoted) := by
  unfold lengthSegments
  split
  · exact ignores_env_bind (fun _ _ => rfl) fun _ => ignores_pure _
  · exact (ignores_parameter h).bind fun _ => ignores_pure _

mutual

/-- **A part that avoids a name ignores it**, by induction on the word. A substitution or an arithmetic part may
read any name, so it avoids none. -/
theorem ignores_partSegments (run : Runner) (quoted : Bool) : ∀ part : WordPart, part.avoids name →
    Ignores name (partSegments run quoted part)
  | .literal _, _ => by rw [partSegments]; exact ignores_pure _
  | .singleQuoted _, _ => by rw [partSegments]; exact ignores_pure _
  | .escaped _, _ => by rw [partSegments]; exact ignores_pure _
  | .doubleQuoted parts, h => by
    rw [partSegments]
    exact (ignores_partsSegments run true parts h).bind fun _ => ignores_pure _
  | .parameter _, h => by
    rw [partSegments]
    exact ignores_parameterSegments h quoted
  | .length _, h => by
    rw [partSegments]
    exact ignores_lengthSegments (bne_iff_ne.mp h) quoted
  | .conditional other op argument, h => by
    obtain ⟨hother, hargument⟩ := Bool.and_eq_true_iff.mp h
    have hne := bne_iff_ne.mp hother
    have htext : Ignores name (wordSegments run false argument) := ignores_wordSegments run false argument hargument
    have hwhole : Ignores name (wordSegments run quoted argument) := ignores_wordSegments run quoted argument hargument
    rw [partSegments]
    refine (ignores_parameter hne).bind fun value => ?_
    -- By what the operator does: it takes the value or the argument, sets the name, which is another one, or fails.
    cases op.action with
    | substitute => exact Ignores.ite (ignores_pure _) hwhole
    | alternative => exact Ignores.ite hwhole (ignores_pure _)
    | assign =>
      refine Ignores.ite (ignores_pure _) (Ignores.ite (ignores_abort _) (htext.bind fun _ => ?_))
      exact (ignores_set hne _).bind fun _ => ignores_pure _
    | require => exact Ignores.ite (ignores_pure _) (htext.bind fun _ => ignores_abort _)
  | .substitution _ _ _, h => absurd h Bool.false_ne_true
  | .arithmetic _, h => absurd h Bool.false_ne_true

/-- Parts that avoid a name ignore it. -/
theorem ignores_partsSegments (run : Runner) (quoted : Bool) : ∀ parts : List WordPart,
    WordPart.avoidedBy name parts → Ignores name (partsSegments run quoted parts)
  | [], _ => by rw [partsSegments]; exact ignores_pure _
  | part :: parts, h => by
    obtain ⟨hpart, hparts⟩ := Bool.and_eq_true_iff.mp h
    rw [partsSegments]
    exact (ignores_partSegments run quoted part hpart).bind fun _ =>
      (ignores_partsSegments run quoted parts hparts).bind fun _ => ignores_pure _

/-- A word that avoids a name ignores it. -/
theorem ignores_wordSegments (run : Runner) (quoted : Bool) : ∀ word : Word, word.avoids name →
    Ignores name (wordSegments run quoted word)
  | ⟨_, parts⟩, h => by
    rw [wordSegments]
    exact ignores_partsSegments run quoted parts h

end

end Expansion

namespace Execution

variable {run : Runner} {name : String}

/-- A value that is written without a use for a variable ignores it. -/
theorem ignores_assignedValue {a : Assignment} (h : a.avoids name) : (assignedValue run a).Ignores name := by
  obtain ⟨hword, happend⟩ := Bool.and_eq_true_iff.mp h
  have htext : (Expansion.wordText run a.value).Ignores name :=
    (Expansion.ignores_wordSegments run false a.value hword).bind fun _ => Exec.ignores_pure _
  refine htext.bind fun text => ?_
  cases hplus : a.append with
  | false => exact Exec.ignores_pure _
  | true =>
    have hne : a.name ≠ name := by simpa [hplus] using happend
    refine Exec.ignores_env_bind (fun env value => ?_) fun _ => Exec.ignores_pure _
    rw [Environment.get?_set, if_neg hne.symm]

/-- Assignments are independent if no value reads a name that was assigned before. -/
theorem independent_of_avoids {assignments : List Assignment}
    (h : assignments.Pairwise fun a b => b.avoids a.name = true) : Independent run assignments :=
  h.imp ignores_assignedValue

/-! ## 5. Both kinds of assignments -/

/-- **Assignments before a command and assignments that stay.** A command with assignments before it is expanded and
runs in the state that `enter` makes of them, and a statement of assignments alone ends in the one that `assignAll`
makes. In the first the names have the values that are computed before one of the assignments is made, the last one
of a name counting. If each assignment ignores the names that are assigned before it and all of them can be expanded,
the two states are the same, but that the first has the names exported. -/
theorem assignments_agree (run : Runner) (assignments : List Assignment) (c : Context) (s : State) :
    (∀ name args next, simple run (some name) args assignments c s next =
      Exec.attempt (enter run assignments) c s (fun
        | .ok (.ok before), during =>
          runWords run (name :: args) c during fun r last =>
            next r { last with env := Environment.undo (assignedNames assignments) before last.env }
        | .ok (.error e), s' => (do Exec.diagnose e.message; return .status 1 : Exec Outcome) c s' next
        | .error abort, s' => next (.error abort) s')) ∧
    (∀ args next, simple run none args assignments c s next =
      Exec.attempt (assignAll run assignments) c { s with substitution := none } (fun
        | .ok (.ok ()), after => next (.ok (.status (after.substitution.getD 0))) after
        | .ok (.error e), s' => (do Exec.diagnose e.message; return .status 1 : Exec Outcome) c s' next
        | .error abort, s' => next (.error abort) s')) ∧
    (∀ next, enter run assignments c s next = computeAll run assignments c s (fun
      | .ok values, s' => next (.ok s'.env) { s' with env := s'.env.overrideAll values }
      | .error abort, s' => next (.error abort) s')) ∧
    (∀ next : Except Abort Unit → State → Job Ending, Independent run assignments →
      (∀ abort s s', next (.error abort) s = next (.error abort) s') →
      enter run assignments c s (fun r during => next (r.map fun _ => ()) during) =
        assignAll run assignments c s fun r after =>
          next r { after with env := after.env.exportAll (assignments.map (·.name)) }) := by
  -- How each kind of statement runs is its own equation. They are compared in the last part, where the values are
  -- computed in one place.
  refine ⟨fun name args next => ?_, fun args next => ?_, fun next => ?_, fun next h herror => ?_⟩
  · exact simple_enter name args assignments s next
  · refine congrArg (assignAll run assignments c _) (funext fun r => funext fun s' => ?_)
    cases r with
    | ok _ => rfl
    | error abort => cases abort <;> rfl
  · exact enter_eq assignments s next
  · refine (enter_eq assignments s _).trans (Eq.trans ?_ (assignAll_eq h ?_ s).symm)
    · refine computeAll_congr (fun abort s' => herror abort _ _) assignments (fun values s' hv => ?_) s
      show next (.ok ()) { s' with env := s'.env.overrideAll values } = next (.ok ()) _
      rw [Environment.overrideAll_eq, hv]
    · exact fun abort s s' => herror abort _ _

/-- `w=${u:=2} x=1 y="$u" x=3`. -/
def freshAssignments : List Assignment :=
  [⟨"w", false, ⟨1, [.conditional "u" ⟨true, .assign⟩ ⟨0, [.literal "2"]⟩]⟩, 1⟩, ⟨"x", false, ⟨1, [.literal "1"]⟩, 1⟩,
    ⟨"y", false, ⟨1, [.doubleQuoted [.parameter "u"]]⟩, 1⟩, ⟨"x", false, ⟨1, [.literal "3"]⟩, 1⟩]

/-- Two assignments that read nothing of each other: they give the same values before a command as alone. -/
theorem freshAssignments_agree :
    Independent (sequence 0) freshAssignments ∧
    ∀ next : State → Job Ending,
      enter (sequence 0) freshAssignments ({} : Session).context { env := {} } (fun
        | .ok _, during => next during
        | .error abort, _ => .fail abort) =
      next { env := { vars := ⟨[("u", "2"), ("w", "2"), ("x", "3"), ("y", "2")]⟩
                      exported := ⟨[("w", ()), ("x", ()), ("y", ())]⟩ } } := by
  have h : Independent (sequence 0) freshAssignments := independent_of_avoids (by decide)
  refine ⟨h, fun next => ?_⟩
  obtain ⟨-, -, -, hagree⟩ := assignments_agree (sequence 0) freshAssignments ({} : Session).context { env := {} }
  have hsame := hagree (fun
    | .ok _, after => next after
    | .error abort, _ => .fail abort) h fun _ _ _ => rfl
  refine (congrArg (enter _ _ _ _) (funext fun r => funext fun s => ?_)).trans (hsame.trans ?_)
  · cases r <;> rfl
  · exact congrArg next rfl

/-- The trees of `x+=2 x+=3 : ${z=$x}` and of `x+=2 x+=3; z=$x`. -/
def twoAdditions (stays : Bool) : Sequence :=
  let additions : List Assignment := [⟨"x", true, ⟨1, [.literal "2"]⟩, 1⟩, ⟨"x", true, ⟨1, [.literal "3"]⟩, 1⟩]
  let look : Word := ⟨1, [.parameter "x"]⟩
  if stays then
    ⟨[⟨⟨false, .simple 1 none [] additions, []⟩, []⟩, ⟨⟨false, .simple 1 none [] [⟨"z", false, look, 1⟩], []⟩, []⟩]⟩
  else
    let given : Word := ⟨1, [.conditional "z" ⟨false, .assign⟩ look]⟩
    ⟨[⟨⟨false, .simple 1 (some ⟨1, [.literal ":"]⟩) [given] additions, []⟩, []⟩]⟩

/-- Two additions to a variable count both in a statement of their own, and only the second one before a command. -/
theorem twoAdditions_disagree :
    let value (stays : Bool) : Option String :=
      (({ vars := [("x", "1")] } : Session).runScript (twoAdditions stays) (.ofText "")).env.get? "z"
    value true = some "123" ∧ value false = some "13" := by
  decide +kernel

end Execution

end Shell
