/-
`cat` and `tac`.

`cat [-n] [FILE ...]`: files, or standard input, one after the other.

Standard input, which is also what `-` stands for, is copied as it arrives. A file is text in
UTF-8, of which all line ends are newlines. With `-n` each line stands behind its number; the
lines of standard input end at newlines, and those of a file at every line boundary.

A file that cannot be read does not keep the others from being written. The diagnostics follow
at the end.

`tac`: the lines of standard input, the last one first.
-/
import Shell.Exec
import Shell.Text.Lines

set_option autoImplicit false

namespace Shell.Utility.Cat

open Shell.Text

/-- What `cat` is asked for. -/
structure Options where
  number : Bool := false
  sources : List String := []
  deriving DecidableEq, Repr

/-- The options that arguments ask for, after those before them; the sources are backwards. An
option that there is not is an error, of which the text is given. -/
def readArgs (options : Options) : List String → Except String Options
  | [] => .ok { options with sources := options.sources.reverse }
  | arg :: args =>
    if arg = "-n" then readArgs { options with number := true } args
    else
      match arg.toList with
      | '-' :: c :: cs => .error (String.ofList (c :: cs))
      | _ => readArgs { options with sources := arg :: options.sources } args

/-- Why a file cannot be read. -/
def problemText : Files.Problem → String
  | .missing => "No such file or directory"
  | .notDirectory => "Not a directory"
  | .isDirectory => "Is a directory"
  | .nameTooLong => "File name too long"
  | .null => ""

/-- The text of a file. -/
def textOf (bytes : List UInt8) : List Char := joinNewlines (Utf8.decode bytes)

/-- Writes lines behind their numbers, which follow `number`, and returns the last number. -/
def writeLines (output : Output) (number : Nat) : List Line → Action Ending Nat
  | [] => return number
  | line :: lines => do
    Action.write output (numberedLine (number + 1) (String.ofList line.toList))
    writeLines output (number + 1) lines

/-- Copies standard input and returns the number of the last line so far. -/
def copyInput (call : Invocation) (numbering : Bool) (number : Nat) : Action Ending Nat := do
  if numbering then Action.copyNumbered call.input call.output number
  else
    Action.copy call.input call.output
    return number

/-- Writes the text of a file and returns the number of the last line so far. -/
def copyFile (call : Invocation) (numbering : Bool) (number : Nat) (bytes : List UInt8) :
    Action Ending Nat := do
  let text := textOf bytes
  if numbering then writeLines call.output number (splitLines text)
  else
    Action.write call.output (String.ofList text)
    return number

/-- Writes sources after the line `number`, and returns the diagnostics. -/
def copyAll (call : Invocation) (numbering : Bool) :
    (number : Nat) → List String → Action Ending (List String)
  | _, [] => return []
  | number, source :: sources => do
    if source = "-" then
      copyAll call numbering (← copyInput call numbering number) sources
    else
      match call.files.contents source with
      | .ok bytes => copyAll call numbering (← copyFile call numbering number bytes) sources
      | .error .null => Action.abort (.fault .nullInFileName)
      | .error problem =>
        let rest ← copyAll call numbering number sources
        return ("cat: " ++ source ++ ": " ++ problemText problem ++ "\n") :: rest

/-- The utility. -/
def utility : Utility := fun call => do
  match readArgs {} call.args with
  | .error option => return { errors := "cat: invalid option -- '" ++ option ++ "'\n", status := 1 }
  | .ok options =>
    let sources := if options.sources.isEmpty then ["-"] else options.sources
    let diagnostics ← copyAll call options.number 0 sources
    return { errors := String.join diagnostics, status := if diagnostics.isEmpty then 0 else 1 }

end Shell.Utility.Cat

namespace Shell.Utility.Tac

open Shell.Text

/-- The lines of a text in reverse, with newlines between them. A newline stands at the end if
there was one. -/
def reversed (text : List Char) : List Char :=
  let lines := (splitLines text).reverse.map (·.content)
  let ending := if text.getLast? = some '\n' then ['\n'] else []
  ['\n'].intercalate lines ++ ending

/-- The utility. -/
def utility : Utility := fun call => do
  if call.args.isEmpty then
    let text ← Action.read call.input .all
    return { output := String.ofList (reversed text.toList) }
  else return { errors := "tac: only standard input is supported\n", status := 1 }

end Shell.Utility.Tac
