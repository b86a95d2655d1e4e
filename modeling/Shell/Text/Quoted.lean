/-
Written forms of texts that the shell reads back as the same texts.

There are three: the value of a variable in the listing of `set`, which is bare or in single
quotes; the value in the listing of `export`, in double quotes; and the form of `%q`, which puts
a backslash before each character that could mean something, or writes escapes between `$'` and
`'` where there are control characters.
-/
import Shell.Text.Letter
import Shell.Text.Printable

set_option autoImplicit false

namespace Shell.Text.Quoted

/-! ## The listing of `set` -/

/-- The characters of values that are listed bare. -/
def isBare (c : Char) : Bool :=
  isAsciiLetter c || isAsciiDigit c || "_/.,:@%^+=~-".toList.contains c

/-- A single quote inside single quotes: they are closed, an escaped quote follows, and they are
opened again. -/
def singleQuotedChar (c : Char) : List Char :=
  if c = '\'' then ['\'', '\\', '\'', '\''] else [c]

/-- Whether a value is listed bare. One newline at its end does not count. -/
def isBareValue (text : List Char) : Bool :=
  let body := if text.getLast? = some '\n' then text.dropLast else text
  !body.isEmpty && body.all isBare

/-- The value of a variable in the listing of `set`. -/
def setValue (text : List Char) : List Char :=
  if isBareValue text then text else '\'' :: text.flatMap singleQuotedChar ++ ['\'']

/-! ## The listing of `export` -/

/-- A character between the double quotes of the listing of `export`. -/
def exportChar (c : Char) : List Char := if c = '\\' ∨ c = '"' then ['\\', c] else [c]

/-- The value of a variable in the listing of `export`. -/
def exportValue (text : List Char) : List Char := '"' :: text.flatMap exportChar ++ ['"']

/-! ## `%q` -/

/-- The characters that `%q` leaves as they are. -/
def isSafe (c : Char) : Bool :=
  isAsciiLetter c || isAsciiDigit c || "_@%+=:,./-".toList.contains c

/-- The characters without a shape of their own. -/
def isControl (c : Char) : Bool := c.toNat < 32 || c.toNat = 127

/-- A character between `$'` and `'`. -/
def controlChar (c : Char) : List Char :=
  match c with
  | '\'' => ['\\', '\'']
  | '\\' => ['\\', '\\']
  | '\n' => ['\\', 'n']
  | '\t' => ['\\', 't']
  | '\x0d' => ['\\', 'r']
  | '\x07' => ['\\', 'a']
  | '\x08' => ['\\', 'b']
  | '\x1b' => ['\\', 'E']
  | c => if isControl c then '\\' :: 'x' :: hexText 2 c.toNat else [c]

/-- A character in a text without control characters. -/
def escapedChar (c : Char) : List Char :=
  if !isSafe c && c.toNat < 128 then ['\\', c] else [c]

/-- The form of `%q`. -/
def printfValue (text : List Char) : List Char :=
  if text.isEmpty then ['\'', '\'']
  else if text.all isSafe then text
  else if text.any isControl then '$' :: '\'' :: text.flatMap controlChar ++ ['\'']
  else text.flatMap escapedChar

end Shell.Text.Quoted
