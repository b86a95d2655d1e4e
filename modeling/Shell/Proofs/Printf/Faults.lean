/-
What formatting cannot do.

`printf` answers mistakes with diagnostics. Only a few requests have no answer: an escape for a number
above every character, a number with too many digits, and a width or a precision that cannot be had
(`faults`). Every part of formatting fails with one of these or not at all, so a whole format does.

A text with half of a surrogate pair is formatted like any other, and fails only where it is to go: into a pipe, a
variable or a command substitution (`fault_of_answer`).
-/
import Shell.Builtin.Printf

set_option autoImplicit false

namespace Shell.Printf

/-- The requests that formatting has no answer to. -/
def faults : List Fault :=
  [.escapeTooLarge, .numberTooLong, .widthTooLarge, .precisionTooLarge, .paddingTooLarge,
    .tooManyDigits, .outOfMemory]

/-- What half of a surrogate pair in the text for a variable, or for standard output, can lead to. -/
inductive HalfFault (room : Room) : Option String → Fault → Prop where
  /-- No pipe takes it. -/
  | pipe {pipe : Nat} (h : room.output = .pipe pipe) : HalfFault room none .unencodable
  /-- No variable holds it. -/
  | assigned {name : String} : HalfFault room (some name) .halfPair
  /-- Nor does the text of a command substitution. -/
  | captured (h : room.captured = true) : HalfFault room none .halfPair

/-- A part of formatting that fails in no other way. -/
def Formatter.Fails {α : Type} (x : Formatter α) : Prop :=
  ∀ s f, x.run s = .error f → f ∈ faults

namespace Formatter

variable {α β : Type} {memory : Nat}

/-- A value is no fault. -/
theorem fails_pure (a : α) : Fails (pure a : Formatter α) := by
  intro s f h
  cases h

/-- One step after another: either fails with one of these faults. -/
theorem Fails.bind {x : Formatter α} {g : α → Formatter β} (hx : Fails x)
    (hg : ∀ a, Fails (g a)) : Fails (x >>= g) := by
  intro s f h
  rw [StateT.run_bind] at h
  cases hr : x.run s with
  | error f' =>
    rw [hr] at h
    obtain rfl := Except.error.inj h
    exact hx s f' hr
  | ok p =>
    rw [hr] at h
    exact hg p.1 p.2 f h

/-- A fault of the list is one of the list. -/
theorem fails_fault {f : Fault} (h : f ∈ faults) : Fails (fault f : Formatter α) := by
  intro s f' hf
  obtain rfl := Except.error.inj hf
  exact h

/-- A result that is there already fails as it does. -/
theorem fails_liftM {r : Except Fault α} (h : ∀ f, r = .error f → f ∈ faults) :
    Fails (liftM r : Formatter α) := by
  intro s f hf
  cases r with
  | ok a => cases hf
  | error f' =>
    obtain rfl := Except.error.inj hf
    exact h f' rfl

/-- Changing what has been formatted does not fail. -/
theorem fails_modify (g : Formatting → Formatting) : Fails (modify g) := by
  intro s f h
  cases h

/-- Nor does looking at it. -/
theorem fails_get : Fails (get : Formatter Formatting) := by
  intro s f h
  cases h

/-- A choice fails as its two sides do. -/
theorem fails_ite {p : Prop} [Decidable p] {x y : Formatter α} (hx : Fails x) (hy : Fails y) :
    Fails (if p then x else y) := by
  split
  · exact hx
  · exact hy

/-- Taking the next argument does not fail: an empty text is taken where there is none. -/
theorem fails_next : Fails next := by
  intro s f h
  have hrun : next.run s = next s := rfl
  rw [hrun] at h
  unfold next at h
  cases hs : s.args <;> rw [hs] at h <;> cases h

/-- A half of a pair is noted, and no fault yet. -/
theorem fails_noteHalf (half : Bool) : Fails (noteHalf half) := fails_ite (fails_modify _) (fails_pure ())

/-! ## 1. Numbers -/

/-- A number that cannot be read is reported. Only one with too many digits is a fault. -/
theorem fails_whole (argument : List Char) : Fails (whole argument) := by
  have hleading (f : Fault) (h : leadingNumber (Text.trim argument) = .error f) : f ∈ faults := by
    unfold leadingNumber at h
    simp only at h
    split at h
    · obtain rfl := Except.error.inj h
      decide
    · cases h
  have hwhole (value : Except Fault Int) (h : wholeNumber? (Text.trim argument) = some value)
      (f : Fault) (hf : value = .error f) : f ∈ faults := by
    subst hf
    unfold wholeNumber? at h
    simp only at h
    -- Only digits without a base can be too many.
    split at h
    · split at h
      · cases h
      · split at h <;> cases h
    · cases h
    · split at h
      · split at h
        · obtain rfl := Except.error.inj (Option.some.inj h)
          decide
        · cases h
      · cases h
  unfold whole
  refine fails_ite (fails_pure 0) (fails_ite (fails_pure _) ?_)
  cases hv : wholeNumber? (Text.trim argument) with
  | some value => exact fails_liftM (hwhole value hv)
  | none => exact (fails_modify _).bind fun _ => fails_liftM hleading

/-- The same of numbers with a fraction. -/
theorem fails_real (argument : List Char) : Fails (real argument) := by
  unfold real
  refine fails_ite (fails_pure _) (fails_ite (fails_pure _) ?_)
  cases Text.Real64.read? (Text.trim argument) with
  | some value => exact fails_pure value
  | none => exact (fails_modify _).bind fun _ => fails_pure _

/-- A width that is written out may have too many digits. -/
theorem fails_amount (ds : List Nat) : Fails (amount ds) :=
  fails_ite (fails_fault (by decide)) (fails_pure _)

/-- A width is written out, or it is the next argument. -/
theorem fails_width (spec : Spec) : Fails (width spec) := by
  unfold width
  cases spec.width with
  | none => exact fails_pure _
  | digits ds => exact (fails_amount ds).bind fun _ => fails_pure _
  | star => exact fails_next.bind fun _ => (fails_whole _).bind fun _ => fails_pure _

/-- So is a precision. -/
theorem fails_precision (spec : Spec) : Fails (precision spec) := by
  unfold precision
  cases spec.precision with
  | none => exact fails_pure _
  | digits ds => exact (fails_amount ds).bind fun _ => fails_pure _
  | star => exact fails_next.bind fun _ => (fails_whole _).bind fun _ => fails_pure _

/-! ## 2. Fields -/

/-- A text is padded as far as there is memory. -/
theorem fails_padText (flags : Flags) (width : Option Nat) (text : List Char) :
    Fails (liftM (padText memory flags width text) : Formatter (List Char)) := by
  refine fails_liftM fun f h => ?_
  unfold padText at h
  split at h
  · cases h
  · split at h
    · obtain rfl := Except.error.inj h
      decide
    · split at h
      · obtain rfl := Except.error.inj h
        decide
      · cases h

/-- What comes after a check that may fail with one of the faults. -/
theorem Fails.checked {p : Prop} [Decidable p] {f : Fault} {x : Formatter α} (hx : Fails x)
    (h : f ∈ faults) : Fails (if p then (do fault f; x) else x) :=
  fails_ite ((fails_fault h).bind fun _ : Unit => hx) hx

/-- A width or a precision that cannot be had is a fault. -/
theorem fails_checkSize (width precision : Option Nat) : Fails (checkSize width precision) := by
  unfold checkSize
  exact (fails_ite (fails_fault (by decide)) (fails_pure ())).checked (by decide)

/-- So is a field that there is no memory for. -/
theorem fails_checkField (width : Option Nat) : Fails (checkField memory width) :=
  fails_ite (fails_fault (by decide)) (fails_pure ())

/-- The field of a whole number. -/
theorem fails_wholeField (flags : Flags) (width precision : Option Nat) (radix : Radix)
    (value : Int) : Fails (wholeField memory flags width precision radix value) := by
  have hfield : Fails (do
      checkField memory width
      return wholeText flags (width.getD 0) (precision.getD 0) radix value) :=
    (fails_checkField width).bind fun _ => fails_pure _
  refine (fails_checkSize width precision).bind fun _ => ?_
  exact (hfield.checked (by decide)).checked (by decide)

/-- **A conversion fails with one of the faults** or not at all. -/
theorem fails_convert (spec : Spec) : Fails (convert memory spec) := by
  unfold convert
  refine (fails_width spec).bind fun (flags, width) => ?_
  refine (fails_precision spec).bind fun precision => fails_next.bind fun argument => ?_
  cases spec.conversion with
  | text => exact fails_padText _ _ _
  | escaped =>
    simp only
    cases Text.Escape.argument argument with
    | error _ => exact fails_fault (by decide)
    | ok expanded =>
      refine (fails_noteHalf _).bind fun _ => ?_
      exact fails_ite ((fails_modify _).bind fun _ => fails_padText _ _ _) (fails_padText _ _ _)
  | quoted => exact fails_padText _ _ _
  | char => exact fails_padText _ _ _
  | real style upper =>
    refine (fails_real argument).bind fun _ => (fails_checkSize width precision).bind fun _ => ?_
    exact (fails_checkField width).bind fun _ => fails_pure _
  | signed => exact (fails_whole argument).bind fun _ => fails_wholeField _ _ _ _ _
  | unsigned radix => exact (fails_whole argument).bind fun _ => fails_wholeField _ _ _ _ _

/-! ## 3. Formats -/

/-- One pass over the format, by its conversions. -/
theorem fails_pass (done cs : List Char) : Fails (pass memory done cs) := by
  -- What ends a pass before its time ends it without a fault.
  have hstop (done : List Char) : Fails (do stop; return done) :=
    (fails_modify _).bind fun _ => fails_pure _
  fun_induction pass memory done cs with
  | case1 => exact fails_pure _
  | case2 => exact fails_fault (by decide)
  | case3 => exact hstop _
  | case4 _ _ _ _ _ _ ih => exact (fails_noteHalf _).bind fun _ => ih
  | case5 _ _ _ _ ih => exact ih
  | case6 => exact (fails_modify _).bind fun _ => hstop _
  | case7 => exact (fails_modify _).bind fun _ => hstop _
  | case8 done cs _ spec extent _ _ ih =>
    refine (fails_convert spec).bind fun text => fails_get.bind fun s => ?_
    exact fails_ite (fails_pure _) (ih text)
  | case9 _ _ _ _ _ ih => exact ih

/-- Any number of passes. -/
theorem fails_passes (format : List Char) (n : Nat) (done : List (List Char)) :
    Fails (passes memory format n done) := by
  induction n generalizing done with
  | zero =>
    unfold passes
    refine fails_get.bind fun s => (fails_pass [] format).bind fun text => fails_get.bind fun s' => ?_
    exact fails_ite (fails_pure _) (fails_pure _)
  | succ n ih =>
    unfold passes
    refine fails_get.bind fun s => (fails_pass [] format).bind fun text => fails_get.bind fun s' => ?_
    exact fails_ite (fails_pure _) (ih _)

end Formatter

/-- **A format fails with one of the faults** or not at all. -/
theorem mem_faults_of_format {memory : Nat} {pattern : String} {args : List String} {f : Fault}
    (h : format memory pattern args = .error f) : f ∈ faults := by
  unfold format at h
  split at h
  · cases h
  · next f' hr =>
    obtain rfl := Except.error.inj h
    exact Formatter.fails_passes _ _ _ _ f' hr

/-- Where half of a pair cannot go. -/
theorem halfFault_of_halfFault? {room : Room} {target : Option String} {f : Fault}
    (h : halfFault? target room.output room.captured = some f) : HalfFault room target f := by
  unfold halfFault? at h
  split at h
  · obtain rfl := Option.some.inj h
    exact .assigned
  · next hpipe =>
    obtain rfl := Option.some.inj h
    exact .pipe hpipe
  · split at h
    · next hcaptured =>
      obtain rfl := Option.some.inj h
      exact .captured hcaptured
    · cases h

/-- What becomes of a formatted text: it is refused, or it is written or assigned, with a status of zero or one. -/
theorem deliver_cases (room : Room) (env : Environment) (target : Option String) (text : String)
    (notes : List Note) :
    (∃ f, HalfFault room target f ∧ deliver room env target text notes = .error f) ∨
      ∃ answer env', deliver room env target text notes = .ok (answer, env') ∧ answer.status ≤ 1 ∧
        (env' = env ∨ ∃ name, target = some name ∧ env' = env.set name text) := by
  unfold deliver
  split
  · next f hf =>
    refine .inl ⟨f, ?_, rfl⟩
    split at hf
    · exact halfFault_of_halfFault? hf
    · cases hf
  · refine .inr ?_
    cases target with
    | none => exact ⟨_, _, rfl, by simp only; split <;> decide, .inl rfl⟩
    | some name => exact ⟨_, _, rfl, by simp only; split <;> decide, .inr ⟨name, rfl, rfl⟩⟩

/-- The variable that `-v` names has a good name. -/
theorem valid_of_readTarget {args rest : List String} {target : Option String}
    (h : readTarget args = .ok (target, rest)) : ∀ name ∈ target, Name.isValid name.toList = true := by
  rintro name rfl
  unfold readTarget at h
  split at h
  · cases h
  · split at h
    · next hvalid =>
      obtain ⟨ht, -⟩ := Prod.mk.inj (Except.ok.inj h)
      exact Option.some.inj ht ▸ hvalid
    · cases h
  · cases h

/-- A bad option has the status of a wrong use. -/
theorem status_of_readTarget {args : List String} {refusal : Answer} (h : readTarget args = .error refusal) :
    refusal.status = 2 := by
  unfold readTarget at h
  split at h
  · exact Except.error.inj h ▸ rfl
  · split at h
    · cases h
    · exact Except.error.inj h ▸ rfl
  · cases h

/-- The requests that `printf` has no answer to: those of the format, and those to take half of a surrogate pair where
it cannot go. -/
def AnswerFault (room : Room) (args : List String) (f : Fault) : Prop :=
  f ∈ faults ∨ ∃ target rest, readTarget args = .ok (target, rest) ∧ HalfFault room target f

/-- It is never a fault of pipes. -/
theorem AnswerFault.ne_noCapacity {room : Room} {args : List String} {f : Fault} (h : AnswerFault room args f) :
    f ≠ .noCapacity := by
  rintro rfl
  obtain hmem | ⟨_, _, -, hhalf⟩ := h
  · exact absurd hmem (by decide)
  · cases hhalf

/-- **What `printf` can do**, whatever its format and its arguments are: it has no answer for one of a few reasons, or
it has one with a status of at most two, and has changed no more than one variable, of which the name has been
checked. -/
theorem answer_cases (room : Room) (env : Environment) (args : List String) :
    (∃ f, AnswerFault room args f ∧ answer room env args = .error f) ∨
      ∃ reply env', answer room env args = .ok (reply, env') ∧ reply.status ≤ 2 ∧
        (env' = env ∨ ∃ name text, Name.isValid name.toList = true ∧ env' = env.set name text) := by
  unfold answer
  split
  · next refusal hrefusal => exact .inr ⟨_, _, rfl, Nat.le_of_eq (status_of_readTarget hrefusal), .inl rfl⟩
  · next target rest htarget =>
    split
    · exact .inr ⟨_, _, rfl, Nat.le_refl 2, .inl rfl⟩
    · next pattern operands _ =>
      cases hf : format room.memory pattern operands with
      | error f => exact .inl ⟨f, .inl (mem_faults_of_format hf), rfl⟩
      | ok made =>
        obtain ⟨f, hhalf, hr⟩ | ⟨reply, env', hr, hle, henv⟩ := deliver_cases room env target made.1 made.2
        · exact .inl ⟨f, .inr ⟨target, rest, htarget, hhalf⟩, hr⟩
        · refine .inr ⟨reply, env', hr, Nat.le_succ_of_le hle, henv.imp_right ?_⟩
          rintro ⟨name, rfl, rfl⟩
          exact ⟨name, _, valid_of_readTarget htarget name rfl, rfl⟩

end Shell.Printf
