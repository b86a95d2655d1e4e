/-
The files that commands can look at.

Paths are relative to a working directory. A path is a list of names; the empty name and
`.` stay where they are, and `..` goes up. What lies outside the working directory is not
known, except that the directories above it exist. All files are plain, readable and
writable and cannot be executed; directories can be read, written and searched.
-/
import Shell.Text.Utf8

set_option autoImplicit false

namespace Shell

/-- What a path leads to. -/
inductive Files.Node where
  | directory
  | file (bytes : List UInt8)
  deriving DecidableEq, Repr

/-- Why a path leads nowhere. -/
inductive Files.Problem where
  | missing
  /-- A name is looked up in something that is no directory. -/
  | notDirectory
  | isDirectory
  | nameTooLong
  /-- A null character, which no name can hold. -/
  | null
  deriving DecidableEq, Repr

/-- Files and directories by their names from the working directory on. -/
structure Files where
  entries : List (List String × Files.Node) := []
  deriving Repr, Inhabited

namespace Files

open Shell.Text

/-- The names that a path is made of. -/
def components (path : String) : List String := path.splitOn "/"

/-- The files of given paths. -/
def ofList (entries : List (String × Node)) : Files :=
  ⟨entries.map fun e => ((components e.1).filter fun n => n ≠ "" ∧ n ≠ ".", e.2)⟩

/-- What lies at a place below the working directory. A place above a file is a
directory. -/
def at? (files : Files) (place : List String) : Option Node :=
  if place.isEmpty then some .directory
  else match files.entries.find? fun e => e.1 = place with
    | some e => some e.2
    | none =>
      if files.entries.any fun e => place.isPrefixOf e.1 then some .directory else none

/-- How many bytes a text takes in a path. -/
def bytesIn (text : String) : Nat := (Utf8.encode text.toList).length

/-- The longest name of a file, in bytes. -/
def maxName : Nat := 255

/-- The longest path, in bytes. -/
def maxPath : Nat := 4095

/-- Follows names from a place: `up` levels above the working directory, or at `place` below
it. -/
def walk (files : Files) : (up : Nat) → (place : List String) → List String →
    Except Problem Node
  | 0, place, [] =>
    match files.at? place with
    | some node => .ok node
    | none => .error .missing
  | _ + 1, _, [] => .ok .directory
  | up, place, name :: names =>
    match if up = 0 then files.at? place else some .directory with
    | none => .error .missing
    | some (.file _) => .error .notDirectory
    | some .directory =>
      if name = "" ∨ name = "." then walk files up place names
      else if name = ".." then
        if up = 0 ∧ !place.isEmpty then walk files 0 place.dropLast names
        else walk files (up + 1) [] names
      else if maxName < bytesIn name then .error .nameTooLong
      else if up = 0 then walk files 0 (place ++ [name]) names
      else .error .missing

/-- What a path leads to. The empty path leads nowhere. -/
def find (files : Files) (path : String) : Except Problem Node :=
  if path.toList.contains '\x00' then .error .null
  else if path.isEmpty then .error .missing
  else if maxPath < bytesIn path then .error .nameTooLong
  else match components path with
    | "" :: names => if names.all fun n => n = "" ∨ n = "." ∨ n = ".." then .ok .directory else .error .missing
    | names => files.walk 0 [] names

/-- A path without its empty names and dots, not even at its end. A path of nothing else is the
working directory. -/
def plainPath (path : String) : String :=
  let names := (components path).filter fun n => n ≠ "" ∧ n ≠ "."
  if path.startsWith "/" then "/" ++ "/".intercalate names
  else if names.isEmpty then "."
  else "/".intercalate names

/-- The bytes of the file that a path leads to when it is made plain. -/
def contents (files : Files) (path : String) : Except Problem (List UInt8) :=
  match files.find (plainPath path) with
  | .ok (.file bytes) => .ok bytes
  | .ok .directory => .error .isDirectory
  | .error problem => .error problem

def exists? (files : Files) (path : String) : Bool :=
  match files.find path with
  | .ok _ => true
  | .error _ => false

def isFile (files : Files) (path : String) : Bool :=
  match files.find path with
  | .ok (.file _) => true
  | _ => false

def isDirectory (files : Files) (path : String) : Bool :=
  match files.find path with
  | .ok .directory => true
  | _ => false

end Files

end Shell
