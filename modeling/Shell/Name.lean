/-
Names of variables.

A name is an ASCII letter or underscore followed by ASCII letters, digits and
underscores. Where a word is checked to be a name, one newline at its end is let
through; it then belongs to the name.
-/
import Shell.Text.Letter

set_option autoImplicit false

namespace Shell.Name

open Shell.Text

/-- The characters that may start a name. -/
def isStart (c : Char) : Bool := isAsciiLetter c || c == '_'

/-- The characters that may follow in a name. -/
def isRest (c : Char) : Bool := isStart c || isAsciiDigit c

/-- Whether a text is a name as a whole. -/
def isIdentifier : List Char → Bool
  | [] => false
  | c :: cs => isStart c && cs.all isRest

/-- Whether a text is accepted as the name of a variable: an identifier, with or
without a newline after it. -/
def isValid (text : List Char) : Bool :=
  isIdentifier text || (text.getLast? == some '\n' && isIdentifier text.dropLast)

end Shell.Name
