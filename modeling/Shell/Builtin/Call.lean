/-
What `command` and `builtin` run.

Both take the name of a command and its arguments, and the command may be `command` or `builtin`
again. Each step takes a name away from the arguments, so a chain of them ends with another
builtin, a utility, a question about names, or a mistake.
-/
import Shell.Builtin

set_option autoImplicit false

namespace Shell

/-- What a chain of `command` and `builtin` ends with. -/
inductive Call where
  | answer (answer : Answer)
  /-- `command -v`, or `command -V`, which is verbose. -/
  | describe (verbose : Bool) (names : List String)
  /-- A name that is no builtin. -/
  | utility (name : String) (args : List String)
  | builtin (which : Builtin) (args : List String)

namespace Call

/-! ## `command` -/

/-- What the letters of an option ask for after what `verbose?` says so far; `p` asks for
nothing. The first letter that is no option is an error. -/
def readLetters (verbose? : Option Bool) : List Char → Except Char (Option Bool)
  | [] => .ok verbose?
  | 'v' :: letters => readLetters (some false) letters
  | 'V' :: letters => readLetters (some true) letters
  | 'p' :: letters => readLetters verbose? letters
  | letter :: _ => .error letter

/-- What the options of `command` ask for, and the arguments after them. -/
def readOptions (verbose? : Option Bool) :
    List String → Except Char (Option Bool × List String)
  | [] => .ok (verbose?, [])
  | arg :: args =>
    match arg.toList with
    | ['-', '-'] => .ok (verbose?, args)
    | '-' :: letter :: letters =>
      match readLetters verbose? (letter :: letters) with
      | .ok verbose? => readOptions verbose? args
      | .error letter => .error letter
    | _ => .ok (verbose?, arg :: args)

/-- Reading options adds no arguments. -/
theorem length_of_readOptions {verbose? mode : Option Bool} {args rest : List String}
    (h : readOptions verbose? args = .ok (mode, rest)) : rest.length ≤ args.length := by
  induction args generalizing verbose? with
  | nil => simp_all [readOptions]
  | cons arg args ih =>
    unfold readOptions at h
    split at h
    · simp only [Except.ok.injEq, Prod.mk.injEq] at h
      obtain ⟨_, rfl⟩ := h
      simp
    · split at h
      · have := ih h
        simp only [List.length_cons]; omega
      · simp at h
    · simp only [Except.ok.injEq, Prod.mk.injEq] at h
      obtain ⟨_, rfl⟩ := h
      simp

/-- The answer to an option that `command` does not have. -/
def badOption (letter : Char) : Answer :=
  .refusal ("command: -" ++ String.singleton letter ++
    ": invalid option\ncommand: usage: command [-pVv] command [arg ...]") 2

/-- What a builtin with its arguments ends with. -/
def follow (which : Builtin) (args : List String) : Call :=
  match which with
  | .command =>
    match _h : readOptions none args with
    | .error letter => .answer (badOption letter)
    | .ok (_, []) => .answer {}
    | .ok (some verbose, names) => .describe verbose names
    | .ok (none, name :: args) =>
      match Builtin.ofName? name with
      | some which => follow which args
      | none => .utility name args
  | .builtin =>
    match args with
    | [] => .answer {}
    | name :: args =>
      match Builtin.ofName? name with
      | some which => follow which args
      | none => .answer (.refusal ("builtin: " ++ name ++ ": not a shell builtin") 1)
  | which => .builtin which args
termination_by args.length
decreasing_by
  · have := length_of_readOptions _h
    simp only [List.length_cons] at this; omega
  · simp

end Call

end Shell
