/-
The list of arguments can be read back.

An argument in quotes ends where it says it does, whatever is behind it: the first quote without a backslash closes it
(`readQuoted_quoted`). Behind it stands either a comma or the closing bracket, so a list of arguments is known from
what `argv` writes for it, also when more text follows (`listing_append_inj`).
-/
import Shell.Proofs.Exec.Listing

set_option autoImplicit false

namespace Shell.Utility.Argv

/-! ## 1. One argument -/

/-- Four characters are escaped, and the others are not. -/
theorem escapeCases {motive : Char → Prop} (backslash : motive '\\') (quote : motive '\'') (newline : motive '\n')
    (tab : motive '\t') (other : ∀ {c : Char}, c ≠ '\\' → c ≠ '\'' → c ≠ '\n' → c ≠ '\t' → motive c) (c : Char) :
    motive c := by
  by_cases hbackslash : c = '\\'
  · exact hbackslash ▸ backslash
  by_cases hquote : c = '\''
  · exact hquote ▸ quote
  by_cases hnewline : c = '\n'
  · exact hnewline ▸ newline
  by_cases htab : c = '\t'
  · exact htab ▸ tab
  exact other hbackslash hquote hnewline htab

/-- The character that is written as a backslash and another character. -/
def unescapedChar (c : Char) : Char :=
  if c = 'n' then '\n' else if c = 't' then '\t' else c

/-- Reads an argument behind its opening quote: its characters, and the text behind the closing quote. -/
def readQuoted : List Char → Option (List Char × List Char)
  | [] => none
  | '\'' :: rest => some ([], rest)
  | ['\\'] => none
  | '\\' :: c :: rest => (readQuoted rest).map fun (arg, behind) => (unescapedChar c :: arg, behind)
  | c :: rest => (readQuoted rest).map fun (arg, behind) => (c :: arg, behind)

/-- One character is read back, whatever follows it. -/
theorem readQuoted_escapedChar (c : Char) (rest : List Char) :
    readQuoted (escapedChar c ++ rest) = (readQuoted rest).map fun (arg, behind) => (c :: arg, behind) := by
  cases c using escapeCases with
  | backslash => rfl
  | quote => rfl
  | newline => rfl
  | tab => rfl
  | other hbackslash hquote hnewline htab =>
    -- The character is written as itself, and begins no escape.
    simp [escapedChar, readQuoted, hbackslash]

/-- **An argument is read back up to its closing quote**, whatever stands behind it. -/
theorem readQuoted_quoted (arg : String) (rest : List Char) :
    readQuoted ((quoted arg ++ rest).tail) = some (arg.toList, rest) := by
  have hread (text : List Char) : readQuoted (text.flatMap escapedChar ++ '\'' :: rest) = some (text, rest) := by
    induction text with
    | nil => rfl
    | cons c text ih =>
      rw [List.flatMap_cons, List.append_assoc, readQuoted_escapedChar, ih]
      rfl
  simpa [quoted] using hread arg.toList

/-- No argument in quotes is the beginning of another one. -/
theorem quoted_append_inj {arg other : String} {rest rest' : List Char} :
    quoted arg ++ rest = quoted other ++ rest' ↔ arg = other ∧ rest = rest' := by
  constructor
  · intro h
    have hread := congrArg (fun text => readQuoted text.tail) h
    simp only [readQuoted_quoted, Option.some.injEq, Prod.mk.injEq] at hread
    exact ⟨String.toList_inj.mp hread.1, hread.2⟩
  · rintro ⟨rfl, rfl⟩
    rfl

/-! ## 2. Escaping by replacements

A text is escaped in one go. It could be escaped by one replacement after the other, if that of the backslash comes
first.
-/

/-- A text with another text in the place of each character of a kind. -/
def replaced (old : Char) (new : List Char) (text : List Char) : List Char :=
  text.flatMap fun c => if c = old then new else [c]

/-- The four replacements. -/
def replacedInTurn (text : List Char) : List Char :=
  replaced '\t' ['\\', 't'] (replaced '\n' ['\\', 'n'] (replaced '\'' ['\\', '\''] (replaced '\\' ['\\', '\\'] text)))

theorem replaced_append (old : Char) (new text more : List Char) :
    replaced old new (text ++ more) = replaced old new text ++ replaced old new more :=
  List.flatMap_append

theorem replacedInTurn_append (text more : List Char) :
    replacedInTurn (text ++ more) = replacedInTurn text ++ replacedInTurn more := by
  simp only [replacedInTurn, replaced_append]

/-- No replacement touches what the ones before it have put there. -/
theorem replacedInTurn_singleton (c : Char) : replacedInTurn [c] = escapedChar c := by
  cases c using escapeCases with
  | backslash => rfl
  | quote => rfl
  | newline => rfl
  | tab => rfl
  | other hbackslash hquote hnewline htab =>
    simp [replacedInTurn, replaced, escapedChar, hbackslash, hquote, hnewline, htab]

theorem replacedInTurn_eq (text : List Char) : replacedInTurn text = text.flatMap escapedChar := by
  induction text with
  | nil => rfl
  | cons c text ih =>
    have hcons : c :: text = [c] ++ text := rfl
    rw [hcons, replacedInTurn_append, replacedInTurn_singleton, ih, ← hcons, List.flatMap_cons]

/-! ## 3. Lists of arguments -/

/-- Arguments in quotes with a comma and a blank between them, and the closing bracket. -/
def closed : List String → List Char
  | [] => [']', '\n']
  | [arg] => quoted arg ++ [']', '\n']
  | arg :: next :: args => quoted arg ++ ',' :: ' ' :: closed (next :: args)

theorem toList_listing (args : List String) : (listing args).toList = '[' :: closed args := by
  have hclosed : ∀ args : List String,
      [',', ' '].intercalate (args.map quoted) ++ [']', '\n'] = closed args := by
    intro args
    induction args with
    | nil => rfl
    | cons arg args ih =>
      cases args with
      | nil => simp [closed]
      | cons next args =>
        rw [closed, ← ih]
        simp [List.intercalate_cons_cons]
  have hquoted : (args.map fun arg => String.ofList (quoted arg)).map String.toList = args.map quoted := by
    simp [Function.comp_def]
  rw [← hclosed, listing, String.toList_append, String.toList_append, String.toList_intercalate, hquoted]
  rfl

/-- Arguments begin with a quote, and only without any the bracket is closed at once. -/
theorem head?_closed (args : List String) : (closed args).head? = some (if args = [] then ']' else '\'') := by
  cases args with
  | nil => rfl
  | cons arg args => cases args <;> rfl

/-- What stands behind the first argument depends on whether there are more. -/
theorem closed_cons (arg : String) (args : List String) :
    closed (arg :: args) = quoted arg ++ if args = [] then [']', '\n'] else ',' :: ' ' :: closed args := by
  cases args <;> rfl

theorem closed_append_inj {xs ys : List String} {rest rest' : List Char} :
    closed xs ++ rest = closed ys ++ rest' ↔ xs = ys ∧ rest = rest' := by
  constructor
  · intro h
    induction xs generalizing ys with
    | nil =>
      -- A bracket cannot be the quote that a first argument begins with.
      have hhead := congrArg List.head? h
      by_cases hys : ys = []
      · subst hys
        exact ⟨rfl, List.append_cancel_left h⟩
      · simp [List.head?_append, head?_closed, hys] at hhead
    | cons x xs ih =>
      cases ys with
      | nil =>
        have hhead := congrArg List.head? h
        simp [List.head?_append, head?_closed] at hhead
      | cons y ys =>
        rw [closed_cons, closed_cons, List.append_assoc, List.append_assoc] at h
        obtain ⟨rfl, hbehind⟩ := quoted_append_inj.mp h
        -- Behind the first argument a comma stands for both lists or a bracket for both.
        by_cases hxs : xs = [] <;> by_cases hys : ys = []
        · rw [if_pos hxs, if_pos hys] at hbehind
          exact ⟨by rw [hxs, hys], List.append_cancel_left hbehind⟩
        · simp [hxs, hys] at hbehind
        · simp [hxs, hys] at hbehind
        · simp only [if_neg hxs, if_neg hys, List.cons_append, List.cons.injEq, true_and] at hbehind
          obtain ⟨rfl, hrest⟩ := ih hbehind
          exact ⟨rfl, hrest⟩
  · rintro ⟨rfl, rfl⟩
    rfl

/-- **No listing is the beginning of another one.** -/
theorem listing_append_inj {xs ys : List String} {rest rest' : List Char} :
    (listing xs).toList ++ rest = (listing ys).toList ++ rest' ↔ xs = ys ∧ rest = rest' := by
  rw [toList_listing, toList_listing, List.cons_append, List.cons_append, List.cons_inj_right]
  exact closed_append_inj

theorem listing_inj {xs ys : List String} : listing xs = listing ys ↔ xs = ys := by
  have h := @listing_append_inj xs ys [] []
  rwa [List.append_nil, List.append_nil, String.toList_inj, and_iff_left rfl] at h

-- Two arguments are not the same as one in which their separator is spelled.
example : listing ["a", "b"] = "['a', 'b']\n" ∧ listing ["a', 'b"] = "['a\\', \\'b']\n" := by decide +kernel

/-! ## 4. The utility -/

/-- The utility writes the list of its arguments, and reads nothing. -/
theorem start_utility (call : Invocation) (next : Except Abort Nat → Job Ending) :
    utility.start call next =
      Action.writeText call.output (listing call.args) fun r => next (r.map fun _ => 0) := by
  unfold Utility.start utility
  refine congrArg (Action.writeText call.output (listing call.args)) (funext fun r => ?_)
  cases r <;> rfl

theorem complete_utility (args : List String) (vars : Table String) (input : Input) (files : Files) :
    utility.complete args vars input files = ⟨.ok 0, {}, listing args, "", input⟩ := by
  have hadvance (call : Invocation) (hcall : call.args = args ∧ call.output = standardOutput) :
      (utility.start call fun r => .finish ⟨r, {}⟩).advance 0 { inputs := #[input], sinks := #[[], []] } =
        (Action.writeText standardOutput (listing args) fun r => .finish ⟨r.map fun _ => 0, {}⟩ : Job Ending).advance 0
          { inputs := #[input], sinks := #[[], []] } := by
    obtain ⟨rfl, houtput⟩ := hcall
    rw [start_utility, houtput]
  let call : Invocation := ⟨args, vars, standardInput, standardOutput, standardError, files⟩
  exact complete_of_writes (hadvance call ⟨rfl, rfl⟩)

/-- **What `argv` writes is unambiguous.** It is the same for two lists of arguments only if they are the same list,
also where more text follows it. An argument in quotes is never the beginning of another one, so that it cannot imitate
the comma or the bracket behind it. What stands between the quotes is the argument with four replacements made one after
the other. -/
theorem argv_unambiguous (xs ys : List String) (vars vars' : Table String) (input input' : Input)
    (files files' : Files) :
    ∃ written written', utility.complete xs vars input files = ⟨.ok 0, {}, written, "", input⟩ ∧
      utility.complete ys vars' input' files' = ⟨.ok 0, {}, written', "", input'⟩ ∧
      (∀ (call : Invocation) next, utility.start { call with args := xs } next =
        Action.writeText call.output written fun r => next (r.map fun _ => 0)) ∧
      (written = written' ↔ xs = ys) ∧
      (∀ rest rest', written.toList ++ rest = written'.toList ++ rest' ↔ xs = ys ∧ rest = rest') ∧
      (∀ arg other rest rest', quoted arg ++ rest = quoted other ++ rest' ↔ arg = other ∧ rest = rest') ∧
      written = "[" ++ ", ".intercalate (xs.map fun arg => String.ofList (quoted arg)) ++ "]\n" ∧
      ∀ arg, quoted arg = '\'' :: replacedInTurn arg.toList ++ ['\''] := by
  refine ⟨_, _, complete_utility xs vars input files, complete_utility ys vars' input' files',
    fun call next => start_utility { call with args := xs } next, listing_inj,
    fun rest rest' => listing_append_inj, fun arg other rest rest' => quoted_append_inj, rfl, ?_⟩
  intro arg
  rw [replacedInTurn_eq]
  rfl

end Shell.Utility.Argv
