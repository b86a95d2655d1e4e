/-
`head [-n COUNT] [-COUNT]`: the first lines of standard input, ten of them unless a number is
given.

It stops reading after them, so a stage before it in a pipeline may find the pipe closed.
-/
import Shell.Exec
import Shell.Text.Printable
import Shell.Text.Numeral

set_option autoImplicit false

namespace Shell.Utility.Head

open Shell.Text

/-- Why the arguments are refused. -/
inductive Mistake where
  | argument (arg : String)
  | notInteger (text : String) (error : IntegerError)
  | negative (count : Int)
  deriving DecidableEq, Repr

/-- How many characters of a text that is no number are shown. -/
def shownLength : Nat := 200

def Mistake.message : Mistake → String
  | argument arg => "invalid argument '" ++ arg ++ "'"
  | notInteger text .malformed =>
    "invalid literal for int() with base 10: " ++
      String.ofList ((literal text.toList).take shownLength)
  | notInteger _ (.tooManyDigits count) =>
    "Exceeds the limit (" ++ toString maxDigits ++
      " digits) for integer string conversion: value has " ++ toString count ++
      " digits; use sys.set_int_max_str_digits() to increase the limit"
  | negative count => "invalid number of lines: '" ++ toString count ++ "'"

/-- The value of a text as a number. -/
def readCount (text : List Char) : Except Mistake Int :=
  match readInteger 10 text with
  | .ok n => .ok n
  | .error e => .error (.notInteger (String.ofList text) e)

/-- The number that arguments ask for, which is `count` without them. The last one counts. -/
def readArgs (count : Int) : List String → Except Mistake Int
  | [] => .ok count
  | arg :: args =>
    match arg.toList, args with
    | ['-', 'n'], next :: args => do readArgs (← readCount next.toList) args
    | '-' :: 'n' :: text, args => do readArgs (← readCount text) args
    | '-' :: text, args =>
      if !text.isEmpty && text.all isDigit then do readArgs (← readCount text) args
      else .error (.argument arg)
    | _, _ => .error (.argument arg)

/-- The number of lines that arguments ask for. -/
def lineCount (args : List String) : Except Mistake Nat := do
  let count ← readArgs 10 args
  if count < 0 then throw (.negative count)
  return count.toNat

/-- Copies the given number of lines, or as many as there are. -/
def copyLines (call : Invocation) : (count : Nat) → Action Ending Unit
  | 0 => return
  | count + 1 => do
    let line ← Action.read call.input .line
    if line.isEmpty then return
    Action.write call.output line
    copyLines call count

/-- The utility. -/
def utility : Utility := fun call => do
  match lineCount call.args with
  | .error mistake => return { errors := "head: " ++ mistake.message ++ "\n", status := 1 }
  | .ok count =>
    copyLines call count
    return {}

end Shell.Utility.Head
