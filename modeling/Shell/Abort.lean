/-
What ends a run, or a part of it, before its time.

An `Abort` travels outwards from where it arises until something stops it. `exit`
stops at the nearest fork, an expansion error at the command it belongs to, a broken
pipe at the pipeline stage it ended. A limit stops at the session, which reports it. A
`Fault` is not stopped by anything: the shell has no answer to what the script asked
for.
-/
import Shell.Arithmetic.Failure

set_option autoImplicit false

namespace Shell

/-- Requests that the shell has no answer to. -/
inductive Fault where
  | arithmetic (fault : Arithmetic.ArithmeticFault)
  /-- A positional parameter whose digits are not decimal digits, or too many. -/
  | unreadableParameter
  /-- The parameter before the first one, when there are none. -/
  | missingParameter
  /-- The number of an escape is above every character. -/
  | escapeTooLarge
  /-- A text with half of a surrogate pair is written to a pipe, which takes only text that has an encoding. -/
  | unencodable
  /-- A text with half of a surrogate pair is to be a value of the shell. No text here can hold it, so what
  the shell goes on to do with it is not followed. -/
  | halfPair
  /-- A number has too many digits to be written. -/
  | numberTooLong
  /-- A field width or precision that cannot be had. -/
  | widthTooLarge
  | precisionTooLarge
  /-- A field width beyond the length of any text. -/
  | paddingTooLarge
  /-- A whole number with more digits than there is room for. -/
  | tooManyDigits
  /-- A text that takes more memory than there is. -/
  | outOfMemory
  /-- A file name with a null character. -/
  | nullInFileName
  /-- A pipe without room for a byte. -/
  | noCapacity
  /-- A write after the write end was closed. -/
  | writeEndClosed
  /-- The calls that are allowed need a deeper stack than can be asked of the host. -/
  | stackTooDeep
  /-- The calls that are allowed leave the host without a stack. -/
  | noStack
  deriving DecidableEq, Repr

/-- The limits on a run. -/
inductive LimitError where
  | commands (limit : Int)
  | iterations (loop : String) (limit : Int)
  | callDepth (limit : Int)
  deriving DecidableEq, Repr

def LimitError.message : LimitError → String
  | .commands limit =>
    "too many commands executed (>" ++ toString limit ++
      "), increase ExecutionLimits.max_command_count"
  | .iterations loop limit =>
    loop ++ " loop: too many iterations (" ++ toString limit ++ ")"
  | .callDepth limit => "maximum function call depth exceeded (" ++ toString limit ++ ")"

/-- Why a word cannot be expanded. -/
inductive ExpansionError where
  | arithmetic (error : Arithmetic.ArithmeticError)
  /-- A parameter that is not a variable cannot be given a value. -/
  | notAssignable (parameter : String)
  /-- `${NAME?WORD}` found no value. -/
  | missing (parameter message : String)
  deriving DecidableEq, Repr

def ExpansionError.message : ExpansionError → String
  | .arithmetic error => error.message
  | .notAssignable parameter => "$" ++ parameter ++ ": cannot assign in this way"
  | .missing parameter message => parameter ++ ": " ++ message

inductive Abort where
  /-- `exit` with a status. -/
  | exit (status : Nat)
  | limit (error : LimitError)
  | expansion (error : ExpansionError)
  /-- A write to a pipe that nobody reads any more. -/
  | brokenPipe
  | fault (fault : Fault)
  /-- The task was given up because another stage of its pipeline failed. -/
  | cancelled
  deriving DecidableEq, Repr

end Shell
