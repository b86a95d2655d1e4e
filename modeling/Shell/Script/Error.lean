/-
Mistakes in the text of a script.

A mistake is a cause and a place. `ScriptError.message` words it; a mistake that
concerns the script as a whole has line 0 and is worded without a place.
-/
import Shell.Script

set_option autoImplicit false

namespace Shell

/-- Constructs that are closed by a text of their own. -/
inductive Delimited where
  | commandSubstitution | parameterExpansion | arithmeticExpansion | arithmeticCommand
  deriving DecidableEq, Repr

def Delimited.text : Delimited → String
  | .commandSubstitution => "command substitution"
  | .parameterExpansion => "parameter expansion"
  | .arithmeticExpansion => "arithmetic expansion"
  | .arithmeticCommand => "arithmetic command"

/-- What a reader of tokens met where it could not go on. -/
inductive Found where
  | endOfInput
  | newline
  | text (text : String)
  deriving DecidableEq, Repr

def Found.describe : Found → String
  | .endOfInput => "end of input"
  | .newline => "newline"
  | .text t => "'" ++ t ++ "'"

inductive ScriptError.Cause where
  /-- The script has more characters than `limit`. -/
  | inputTooLarge (size limit : Nat)
  | unterminatedSingleQuote
  | unterminatedDoubleQuote
  | unterminated (what : Delimited)
  /-- A single `)` where `))` should stand. -/
  | malformed (what : Delimited)
  | unterminatedBackquote
  | badSubstitution (content : String)
  | tooManyTokens (count limit : Nat)
  /-- The reader has taken more steps than any script of permitted size needs. -/
  | tooManySteps
  | unexpected (found : Found) (expected : Option String)
  /-- `wanted` should stand here; `context` says where here is. -/
  | expected (wanted context : String) (found : Found)
  | variableNameExpected (found : Found)
  | backgroundExecution
  | redirection
  | invalidAssignmentName (name : String)
  | invalidFunctionName (name : String)
  deriving DecidableEq, Repr

/-- A mistake in a script. -/
structure ScriptError where
  cause : ScriptError.Cause
  /-- Where the mistake is; line 0 for the script as a whole. -/
  place : Place
  deriving DecidableEq, Repr

namespace ScriptError

/-- Whether no tokens can be made of the text, as opposed to no commands of its
tokens. -/
def isLexical (error : ScriptError) : Bool :=
  match error.cause with
  | .inputTooLarge .. | .unterminatedSingleQuote | .unterminatedDoubleQuote => true
  | _ => false

/-- The wording of a cause. -/
def Cause.text : Cause → String
  | .inputTooLarge size limit =>
    "input too large (" ++ toString size ++ " > " ++ toString limit ++ " characters)"
  | .unterminatedSingleQuote => "unterminated single quote"
  | .unterminatedDoubleQuote => "unterminated double quote"
  | .unterminated what => "unterminated " ++ what.text
  | .malformed what => "malformed " ++ what.text ++ ": expected '))'"
  | .unterminatedBackquote => "unterminated backquote substitution"
  | .badSubstitution content => "bad substitution: $\x7b" ++ content ++ "\x7d"
  | .tooManyTokens count limit =>
    "too many tokens (" ++ toString count ++ " > " ++ toString limit ++ ")"
  | .tooManySteps => "parse iteration limit exceeded"
  | .unexpected found expectation =>
    (match found with
      | .endOfInput => "syntax error: unexpected end of input"
      | found => "syntax error near unexpected token " ++ found.describe) ++
    (match expectation with
      | some what => " (expected " ++ what ++ ")"
      | none => "")
  | .expected wanted context found =>
    "expected '" ++ wanted ++ "' " ++ context ++ ", found " ++ found.describe
  | .variableNameExpected found =>
    "expected a variable name after 'for', found " ++ found.describe
  | .backgroundExecution => "background execution with '&' is not supported"
  | .redirection => "I/O redirection is not supported"
  | .invalidAssignmentName name => "invalid variable name in assignment: '" ++ name ++ "'"
  | .invalidFunctionName name => "'" ++ name ++ "': not a valid function name"

/-- The wording of a mistake, with its place in front if it has one. -/
def message (error : ScriptError) : String :=
  if error.place.line = 0 then error.cause.text
  else
    "line " ++ toString error.place.line ++ ", column " ++ toString error.place.column ++ ": " ++
      error.cause.text

end ScriptError

end Shell
