/-
What command names stand for, and what `type`, `command -v` and `command -V` say of it.

A name may stand for several things at once. A keyword comes first, but only the parser acts on
keywords; among the rest a builtin comes before a function, and a function before a utility.
-/
import Shell.Builtin
import Shell.Exec
import Shell.Token

set_option autoImplicit false

namespace Shell

/-- One of the things that a name stands for. -/
inductive Meaning where
  | keyword (word : Keyword)
  | builtin (which : Builtin)
  | function (body : Sequence)
  | utility (utility : Utility)

namespace Meaning

/-- The kind of a meaning in one word. -/
def kind : Meaning → String
  | keyword _ => "keyword"
  | builtin _ => "builtin"
  | function _ => "function"
  | utility _ => "file"

/-- What is said of a name with this meaning. -/
def description (name : String) : Meaning → String
  | keyword _ => name ++ " is a shell keyword"
  | builtin _ => name ++ " is a shell builtin"
  | function _ => name ++ " is a function"
  | utility _ => name ++ " is an external command"

/-- What a name stands for when it is run as a command. -/
def runnable (env : Environment) (spawner : Spawner) (name : String) : List Meaning :=
  (Builtin.ofName? name).toList.map .builtin ++ (env.function? name).toList.map .function ++
    (spawner.find? name).toList.map .utility

/-- Everything that a name stands for. -/
def all (env : Environment) (spawner : Spawner) (name : String) : List Meaning :=
  (Keyword.ofText? name).toList.map .keyword ++ runnable env spawner name

/-- What is run when a name is used as a command. -/
def resolve? (env : Environment) (spawner : Spawner) (name : String) : Option Meaning :=
  (runnable env spawner name).head?

end Meaning

/-- A diagnostic about a name that stands for nothing. -/
def notFound (name : String) : String := name ++ ": command not found"

end Shell

namespace Shell.Describe

/-- The answers for all names together. They fail if one of them does. -/
def join (answers : List Answer) : Answer :=
  ⟨String.join (answers.map (·.output)), (answers.map (·.diagnostics)).flatten,
    if answers.all fun a => a.status == 0 then 0 else 1⟩

/-! ## `type` -/

/-- What `type` is asked for. -/
structure TypeOptions where
  /-- Whether only the kind of a meaning is told. -/
  kindOnly : Bool := false
  /-- Whether all meanings are told. -/
  all : Bool := false
  deriving DecidableEq, Repr

/-- The options with more letters; the first one that is no option is an error. -/
def TypeOptions.add (options : TypeOptions) : List Char → Except Char TypeOptions
  | [] => .ok options
  | 't' :: letters => { options with kindOnly := true }.add letters
  | 'a' :: letters => { options with all := true }.add letters
  | letter :: _ => .error letter

/-- The options that arguments start with, and the names after them. The first `--` among the
arguments is left out wherever it stands. -/
def TypeOptions.read (options : TypeOptions) : List String → Except Char (TypeOptions × List String)
  | [] => .ok (options, [])
  | arg :: args =>
    match arg.toList with
    | ['-', '-'] => .ok (options, args)
    | '-' :: letter :: letters =>
      match options.add (letter :: letters) with
      | .ok options => options.read args
      | .error letter => .error letter
    | _ => .ok (options, arg :: args.erase "--")

/-- What `type` says about a name with the given meanings. -/
def typeOne (options : TypeOptions) (name : String) (meanings : List Meaning) : Answer :=
  match meanings with
  | [] =>
    if options.kindOnly then .ofStatus 1 else .refusal ("type: " ++ name ++ ": not found") 1
  | first :: rest =>
    let told := if options.all then first :: rest else [first]
    { output := unlines (told.map fun m => if options.kindOnly then m.kind else m.description name) }

/-- How `type` is used. -/
def typeUsage : String := "type: usage: type [-at] name [name ...]"

/-- `type [-at] NAME ...` says what names stand for. -/
def typeNames (meanings : String → List Meaning) (args : List String) : Answer :=
  match TypeOptions.read {} args with
  | .error letter =>
    .refusal ("type: -" ++ String.singleton letter ++ ": invalid option\n" ++ typeUsage) 2
  | .ok (_, []) => .refusal typeUsage 1
  | .ok (options, names) => join (names.map fun name => typeOne options name (meanings name))

/-! ## `command -v` -/

/-- What `command -v` says about a name with the given meanings; `-V` is verbose. -/
def commandOne (verbose : Bool) (name : String) (meanings : List Meaning) : Answer :=
  match meanings with
  | [] => if verbose then .refusal ("command: " ++ name ++ ": not found") 1 else .ofStatus 1
  | first :: _ => { output := unlines [if verbose then first.description name else name] }

/-- What `command -v` says about names. -/
def commandNames (verbose : Bool) (meanings : String → List Meaning) (names : List String) :
    Answer :=
  join (names.map fun name => commandOne verbose name (meanings name))

end Shell.Describe
