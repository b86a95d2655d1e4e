/-
Scripts as trees.

A word is a list of parts, so that it is known of every character whether it was
quoted. Commands are joined by `|` into pipelines, pipelines by `&&` and `||` into
and-or lists, and and-or lists by `;` and newlines into sequences. A pipeline and
an and-or list hold their first member apart from the others: neither can be
empty, and each further member of an and-or list carries the connective before
it.
-/
set_option autoImplicit false

namespace Shell

/-- A place in a script. Lines and columns count from 1. -/
structure Place where
  line : Nat
  column : Nat
  deriving DecidableEq, Repr, Inhabited

/-- The place after the character `c` at `place`. -/
def Place.after (place : Place) (c : Char) : Place :=
  if c = '\n' then ⟨place.line + 1, 1⟩ else ⟨place.line, place.column + 1⟩

/-- The place after the characters `cs` from `place` on. -/
def Place.advance (place : Place) (cs : List Char) : Place :=
  cs.foldl Place.after place

/-- What `${NAME op WORD}` does with the word. -/
inductive ParameterAction where
  /-- `-`: the word stands in for a missing value. -/
  | substitute
  /-- `=`: the word becomes the missing value. -/
  | assign
  /-- `+`: the word stands in for a value that is not missing. -/
  | alternative
  /-- `?`: a missing value is an error with the word as its text. -/
  | require
  deriving DecidableEq, Repr

/-- The operator of `${NAME op WORD}`. With a colon, an empty value counts as
missing. -/
structure ParameterOp where
  colon : Bool
  action : ParameterAction
  deriving DecidableEq, Repr

/-- What stands between two pipelines of an and-or list. -/
inductive Connective where
  | and | or
  deriving DecidableEq, Repr

/-- Whether a loop goes on while its condition holds or until it does. -/
inductive LoopKind where
  | while | until
  deriving DecidableEq, Repr

mutual

/-- A piece of a word. -/
inductive WordPart where
  /-- Unquoted text. -/
  | literal (text : String)
  /-- Text in single quotes. -/
  | singleQuoted (text : String)
  /-- A character after a backslash. -/
  | escaped (char : Char)
  /-- Text and expansions in double quotes. -/
  | doubleQuoted (parts : List WordPart)
  /-- `$NAME` or `${NAME}`. -/
  | parameter (name : String)
  /-- `${#NAME}`. -/
  | length (name : String)
  /-- `${NAME op WORD}`. -/
  | conditional (name : String) (op : ParameterOp) (argument : Word)
  /-- A command substitution, with the place of its source. A word that has been
  read but not parsed yet has no body here. -/
  | substitution (source : String) (place : Place) (body : Option Sequence)
  /-- `$((EXPRESSION))`. -/
  | arithmetic (expression : Word)

/-- A word and the line it starts on; the line is 0 for a word inside another. -/
structure Word where
  line : Nat
  parts : List WordPart

/-- `NAME=VALUE`, or `NAME+=VALUE`. -/
structure Assignment where
  name : String
  append : Bool
  value : Word
  line : Nat

/-- A command and the line it starts on. -/
inductive Command where
  | simple (line : Nat) (name : Option Word) (args : List Word) (assignments : List Assignment)
  | choice (line : Nat) (condition body : Sequence) (branches : List Branch)
      (otherwise : Option Sequence)
  | loop (line : Nat) (kind : LoopKind) (condition body : Sequence)
  /-- A loop over words, or over the positional parameters if there are none. -/
  | each (line : Nat) (name : String) (words : Option (List Word)) (body : Sequence)
  | group (line : Nat) (body : Sequence)
  | subshell (line : Nat) (body : Sequence)
  | function (line : Nat) (name : String) (body : Sequence)
  | arithmetic (line : Nat) (expression : Word)

/-- A further condition of a choice and what it guards. -/
structure Branch where
  condition : Sequence
  body : Sequence

/-- Commands joined by `|`. -/
structure Pipeline where
  negated : Bool
  first : Command
  rest : List Command

/-- A pipeline of an and-or list with the connective before it. -/
structure Joined where
  connective : Connective
  pipeline : Pipeline

/-- Pipelines joined by `&&` and `||`. -/
structure AndOrList where
  first : Pipeline
  rest : List Joined

/-- And-or lists one after the other. -/
structure Sequence where
  statements : List AndOrList

end

instance : Inhabited Sequence := ⟨⟨[]⟩⟩

namespace WordPart

/-- Whether a part is quoted text. -/
def isQuoted : WordPart → Bool
  | singleQuoted _ | escaped _ | doubleQuoted _ => true
  | _ => false

mutual

/-- The text of a part without expansions. -/
def literalText? : WordPart → Option String
  | literal text => some text
  | singleQuoted text => some text
  | escaped c => some (String.singleton c)
  | doubleQuoted parts => literalTexts? parts
  | _ => none

/-- The text of parts without expansions. -/
def literalTexts? : List WordPart → Option String
  | [] => some ""
  | part :: parts => do
    let text ← part.literalText?
    let texts ← literalTexts? parts
    return text ++ texts

end

end WordPart

end Shell
