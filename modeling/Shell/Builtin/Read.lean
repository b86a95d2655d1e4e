/-
`read [-r] [NAME ...]`: a line of standard input, cut into fields for variables.

Without `-r` a backslash protects the character after it, and a line that ends with a single
backslash goes on with the next line. With `-r` backslashes are text.

Each name gets one field, and the last name what is left of the line. Without names the whole
line goes into REPLY.
-/
import Shell.Expansion
import Shell.Name
import Shell.Text.Numeral

set_option autoImplicit false

namespace Shell.Read

open Shell.Text

/-- What `read` is asked for. -/
structure Request where
  raw : Bool := false
  names : List String := []
  deriving DecidableEq, Repr

/-- Why the arguments of `read` are refused. -/
inductive Mistake where
  | invalidOption (arg : String)
  | notName (arg : String)
  deriving DecidableEq, Repr

def Mistake.message : Mistake → String
  | invalidOption arg => "read: " ++ arg ++ ": invalid option"
  | notName arg => "read: `" ++ arg ++ "': not a valid identifier"

def Mistake.status : Mistake → Nat
  | invalidOption _ => 2
  | notName _ => 1

/-- The request that arguments make, after the request that those before them have made. The
names are backwards. -/
def readArgs (request : Request) : List String → Except Mistake Request
  | [] => .ok { request with names := request.names.reverse }
  | arg :: args =>
    if arg = "-r" ∧ request.names.isEmpty then readArgs { request with raw := true } args
    else if arg.startsWith "-" && request.names.isEmpty then .error (.invalidOption arg)
    else if Name.isValid arg.toList then
      readArgs { request with names := arg :: request.names } args
    else .error (.notName arg)

/-! ## The line -/

/-- Joins the physical lines of a text into one line, and says whether a newline ends it. A
newline after a single backslash goes away together with the backslash; any other newline ends
the line. `done` is the line so far, backwards. -/
def joinLines (done : List Char) : List Char → List Char × Bool
  | [] => (done.reverse, false)
  | '\n' :: cs =>
    match done with
    | '\\' :: '\\' :: _ => (done.reverse, true)
    | '\\' :: before => joinLines before cs
    | done => (done.reverse, true)
  | c :: cs => joinLines (c :: done) cs

/-- A text without the backslashes that protect a character, after the text `done`, which is
backwards. A backslash at the end protects nothing. -/
def unescapeFrom (done : List Char) : List Char → List Char
  | '\\' :: c :: cs => unescapeFrom (c :: done) cs
  | c :: cs => unescapeFrom (c :: done) cs
  | [] => done.reverse

/-- A text without the backslashes that protect a character. -/
def unescape (text : List Char) : List Char := unescapeFrom [] text

/-- The line that a text from standard input is, and whether a newline ends it. -/
def line (raw : Bool) (text : List Char) : List Char × Bool :=
  if raw then
    if text.getLast? = some '\n' then (text.dropLast, true) else (text, false)
  else
    let (line, ended) := joinLines [] text
    (unescape line, ended)

/-! ## Fields -/

/-- The white space among the field separators. -/
def isMargin (ifs : List Char) (c : Char) : Bool := ifs.contains c && Field.isSpace c

/-- The first field of a line, up to the first separator, and the line after the separator and
the white space that follows it. -/
def cutField (ifs : List Char) (line : List Char) : List Char × List Char :=
  let (field, rest) := line.span fun c => !ifs.contains c
  (field, (rest.drop 1).dropWhile (isMargin ifs))

/-- The fields for `count` names before the last one, and the rest of the line for the last. -/
def takeFields (ifs : List Char) : (count : Nat) → List Char → List (List Char)
  | 0, line => [trimEnd (isMargin ifs) line]
  | count + 1, line =>
    let (field, rest) := cutField ifs line
    field :: takeFields ifs count rest

/-- The values for the names when the line is read into them. -/
def fields (ifs : List Char) (names : Nat) (line : List Char) : List (List Char) :=
  takeFields ifs (names - 1) (trimBy (isMargin ifs) line)

/-- The environment after a line has been read into names. -/
def assign (env : Environment) (names : List String) (line : List Char) : Environment :=
  if names.isEmpty then env.set "REPLY" (String.ofList line)
  else
    let values := fields (Expansion.separators env).toList names.length line
    (names.zip values).foldl (fun env (name, value) => env.set name (String.ofList value)) env

/-- The status at the end of a line. A line that the end of the input cuts short is assigned,
but `read` then fails. -/
def status (ended : Bool) : Nat := if ended then 0 else 1

end Shell.Read
