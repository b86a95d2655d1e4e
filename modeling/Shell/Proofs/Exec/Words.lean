/-
Expanding words.

Expansion assigns variables and runs command substitutions, and does neither in a way that changes the
depth or a status but by a substitution. What stops it is an expansion error, a limit or a fault, or what stops
a substitution (`Context.Spoils`). The proof goes along the parts of words; the sequences in them are run
by two runners, of which all that is known is that they are related (`Comparison.Runs`).
-/
import Shell.Proofs.Exec.Comparison

set_option autoImplicit false

namespace Shell.Expansion

open Comparison

variable {K : Comparison} {k : Nat} {run run' : Runner} {c : Context} {d : Depth}

/-! ## 1. Parameters and arithmetic -/

/-- A parameter that has no answer is not for want of room in a pipe. -/
theorem ne_noCapacity_of_positional? {env : Environment} {name : String} {f : Fault}
    (h : positional? env name = .error f) : f ≠ .noCapacity := by
  rintro rfl
  unfold positional? at h
  split at h
  · cases h
  · split at h
    · split at h <;> cases h
    · cases h

/-- Nor is the value of a name. -/
theorem ne_noCapacity_of_value? {env : Environment} {name : String} {f : Fault}
    (h : value? env name = .error f) : f ≠ .noCapacity := by
  unfold value? at h
  -- Five kinds of names come before the positional parameters, and variables after them.
  iterate 5
    split at h
    · cases h
  split at h
  · exact ne_noCapacity_of_positional? h
  · cases h

/-- A parameter has a value, has none, or is a fault. -/
theorem related_parameter (name : String) :
    K.Related k c d c.Spoils (fun _ => True) (parameter name) (parameter name) := by
  refine related_env.bind fun env _ => ?_
  cases hv : value? env name with
  | ok value => exact related_pure trivial
  | error f => exact related_abort (fun he => absurd he (ne_noCapacity_of_value? hv)) trivial

/-- Its value is text, or one field for each argument. -/
theorem related_parameterSegments (name : String) (quoted : Bool) :
    K.Related k c d c.Spoils (fun _ => True) (parameterSegments name quoted)
      (parameterSegments name quoted) :=
  Related.ite (fun _ => related_env.bind fun _ _ => related_pure trivial)
    fun _ => (related_parameter name).bind fun _ _ => related_pure trivial

/-- Its length is a number. -/
theorem related_lengthSegments (name : String) (quoted : Bool) :
    K.Related k c d c.Spoils (fun _ => True) (lengthSegments name quoted)
      (lengthSegments name quoted) := by
  unfold lengthSegments
  split
  · exact related_env.bind fun _ _ => related_pure trivial
  · exact (related_parameter name).bind fun _ _ => related_pure trivial

/-- Arithmetic assigns in the environment and in those around, and that changes no depth. -/
theorem respects_depth : store.Respects fun s s' => s'.depth = s.depth where
  refl _ := rfl
  trans h h' := h'.trans h
  assign s name value := by
    show State.depth { s with
      env := s.env.set name value, outer := s.outer.map fun env => env.set name value } = s.depth
    simp only [State.depth, List.map_map]
    rfl

/-- Nor does it change a status. -/
theorem respects_good : store.Respects fun s s' => s.Good K.good → s'.Good K.good where
  refl _ h := h
  trans h h' hs := h' (h hs)
  assign s name value h := by
    refine ⟨h.env, fun env he => ?_, h.substitution⟩
    obtain ⟨outer, hmem, rfl⟩ := List.mem_map.mp he
    exact h.outer outer hmem

/-- Arithmetic assigns variables in the environment and in those around it, and may fail. -/
theorem related_evaluate (text : String) :
    K.Related k c d c.Spoils (fun _ => True) (evaluate text) (evaluate text) := by
  intro _ _ t s j next next' _ hs _ hn _
  have hs' : K.At d ((Arithmetic.evaluate store text.toList).run s).2 :=
    ⟨(respects_depth.evaluate_moves text.toList s).trans hs.depth,
      respects_good.evaluate_moves text.toList s hs.good⟩
  have hlog : ((Arithmetic.evaluate store text.toList).run s).2 =
      store.assignAll s (assignments text s) := Arithmetic.evaluate_logged store text.toList s
  unfold evaluate
  -- The evaluator is a function of the state: both runs have the same one, and so the same result.
  rcases hr : (Arithmetic.evaluate store text.toList).run s with ⟨r, s'⟩
  rw [hr] at hs' hlog
  have hassigns (r : Except Abort Int64) :
      (evaluate text).Assigns c s (assignments text s) r s' := by
    obtain rfl : s' = _ := hlog
    exact .evaluate
  cases r with
  | ok value => exact hn _ _ _ hs' trivial (hassigns _)
  | error failure =>
    cases failure with
    | mistake error => exact hn _ _ _ hs' ⟨trivial, trivial⟩ (hassigns _)
    | fault f => exact hn _ _ _ hs' ⟨fun he => (by cases he), trivial⟩ (hassigns _)

/-! ## 2. Words -/

/-- The code of a substitution writes to a sink, so a broken pipe can only be where diagnostics
go. -/
theorem related_substitute (hrun : K.Runs k run run') (body : Sequence) :
    K.Related k c d c.Spoils (fun _ => True) (substitute run body) (substitute run' body) := by
  refine related_openSink.bind fun sink _ => ?_
  have hfork : K.Related k c d c.Spoils K.good
      (Exec.isolate true (·.capturing sink) (run body)) (Exec.isolate true (·.capturing sink) (run' body)) := by
    refine (hrun (c.capturing sink) (d.forked true) body).isolate rfl
      (K.sound_capturing sink) (fun t => K.serves_capturing sink) (fun abort ha hn => ?_)
      (fun _ ho => good_toStatus ho.2) fun _ _ hg => hg
    cases abort with
    | exit status => exact absurd rfl (hn status)
    | brokenPipe =>
      obtain ⟨p, hp⟩ := ha
      exact ⟨p, hp.resolve_left fun h => by cases h⟩
    | limit _ => trivial
    | expansion _ => exact ha.elim
    | fault _ => exact ha
    | cancelled => exact ha
  -- The status of the substitution is recorded, and the text it has written is what it expands to.
  refine hfork.bind fun status hstatus => ?_
  refine Related.bind (V := fun _ => True) (related_modify (fun _ => rfl) fun s hs => ?_) fun _ _ => ?_
  · refine ⟨hs.depth, hstatus, hs.good.outer, fun n hn => ?_⟩
    obtain rfl := Option.some.inj hn
    exact hstatus
  · exact (related_sinkText sink).bind fun _ _ => related_pure trivial

mutual

/-- **A part of a word**, by induction on the word. -/
theorem related_partSegments (hrun : K.Runs k run run') (quoted : Bool) :
    (part : WordPart) → K.Related k c d c.Spoils (fun _ => True) (partSegments run quoted part)
      (partSegments run' quoted part)
  | .literal _ | .singleQuoted _ | .escaped _ => related_pure trivial
  | .doubleQuoted parts =>
    (related_partsSegments hrun true parts).bind fun _ _ => related_pure trivial
  | .parameter name => related_parameterSegments name quoted
  | .length name => related_lengthSegments name quoted
  | .conditional name op argument => by
    have hword := related_wordSegments hrun quoted argument
    have htext := related_wordSegments hrun false argument
    unfold partSegments
    refine (related_parameter name).bind fun value _ => ?_
    -- Which of the two words is expanded is decided in the same way on both sides.
    generalize (match value with
      | some text => !(op.colon && text.isEmpty)
      | none => false) = present
    cases op.action with
    | substitute =>
      refine Related.ite (fun _ => ?_) fun _ => hword
      exact related_pure trivial
    | alternative =>
      refine Related.ite (fun _ => hword) fun _ => ?_
      exact related_pure trivial
    | assign =>
      refine Related.ite (fun _ => ?_) fun _ => Related.ite (fun _ => ?_) fun _ => ?_
      · exact related_pure trivial
      · exact Related.bind (V := fun _ => False) (related_abort trivial trivial) fun _ h => h.elim
      · refine htext.bind fun _ _ => ?_
        refine Related.bind (V := fun _ => True) (related_modifyEnv fun _ he => ?_) fun _ _ => ?_
        · exact ⟨he.calls, he.good⟩
        · exact related_pure trivial
    | require =>
      refine Related.ite (fun _ => ?_) fun _ => ?_
      · exact related_pure trivial
      · exact htext.bind fun _ _ => related_abort trivial trivial
  | .substitution _ _ body =>
    (related_substitute hrun (body.getD ⟨[]⟩)).bind fun _ _ => related_pure trivial
  | .arithmetic expression =>
    (related_wordSegments hrun false expression).bind fun _ _ =>
      (related_evaluate _).bind fun _ _ => related_pure trivial

/-- The parts of a word, one after the other. -/
theorem related_partsSegments (hrun : K.Runs k run run') (quoted : Bool) :
    (parts : List WordPart) → K.Related k c d c.Spoils (fun _ => True) (partsSegments run quoted parts)
      (partsSegments run' quoted parts)
  | [] => related_pure trivial
  | part :: parts =>
    (related_partSegments hrun quoted part).bind fun _ _ =>
      (related_partsSegments hrun quoted parts).bind fun _ _ => related_pure trivial

/-- A word is its parts. -/
theorem related_wordSegments (hrun : K.Runs k run run') (quoted : Bool) :
    (word : Word) → K.Related k c d c.Spoils (fun _ => True) (wordSegments run quoted word)
      (wordSegments run' quoted word)
  | ⟨_, parts⟩ => related_partsSegments hrun quoted parts

end

section

variable (hrun : K.Runs k run run')
include hrun

/-- A word as one text. -/
theorem related_wordText (word : Word) :
    K.Related k c d c.Spoils (fun _ => True) (wordText run word) (wordText run' word) :=
  (related_wordSegments hrun false word).bind fun _ _ => related_pure trivial

/-- A word as fields. -/
theorem related_wordFields (word : Word) :
    K.Related k c d c.Spoils (fun _ => True) (wordFields run word) (wordFields run' word) :=
  (related_wordSegments hrun false word).bind fun _ _ =>
    related_env.bind fun _ _ => related_pure trivial

/-- Words as fields, one after the other. -/
theorem related_fields (words : List Word) :
    K.Related k c d c.Spoils (fun _ => True) (fields run words) (fields run' words) := by
  induction words with
  | nil => exact related_pure trivial
  | cons word words ih =>
    exact (related_wordFields hrun word).bind fun _ _ =>
      ih.bind fun _ _ => related_pure trivial

/-- A word as an expression. -/
theorem related_evaluateWord (word : Word) :
    K.Related k c d c.Spoils (fun _ => True) (evaluateWord run word) (evaluateWord run' word) :=
  (related_wordText hrun word).bind fun _ _ => related_evaluate _

end

end Shell.Expansion
