/-
`echo [-neE] [ARG ...]`: the arguments with blanks between them.

`-n` leaves out the newline at the end, `-e` decodes escapes and `-E` does not, which is how
it starts. An argument that is not made of these flags is text, and so is everything after
it.
-/
import Shell.Text.Escape

set_option autoImplicit false

namespace Shell.Echo

open Shell.Text

structure Options where
  newline : Bool := true
  escapes : Bool := false
  deriving DecidableEq, Repr

/-- The options with one more flag; none if the character is no flag. -/
def Options.add? (options : Options) (flag : Char) : Option Options :=
  match flag with
  | 'n' => some { options with newline := false }
  | 'e' => some { options with escapes := true }
  | 'E' => some { options with escapes := false }
  | _ => none

/-- The options after an argument that is made of flags; none for any other argument. -/
def Options.read? (options : Options) (arg : String) : Option Options :=
  match arg.toList with
  | '-' :: flag :: flags => (flag :: flags).foldlM Options.add? options
  | _ => none

/-- The options that arguments start with, and the arguments after them. -/
def takeOptions (options : Options) : List String → Options × List String
  | [] => (options, [])
  | arg :: args =>
    match options.read? arg with
    | some options => takeOptions options args
    | none => (options, arg :: args)

/-- What `echo` writes. An escape that ends all output takes the newline with it. -/
def output (args : List String) : String :=
  let (options, words) := takeOptions {} args
  let text := " ".intercalate words
  let (text, stopped) :=
    if options.escapes then
      let (decoded, stopped) := Escape.echo text.toList
      (String.ofList decoded, stopped)
    else (text, false)
  if options.newline && !stopped then text ++ "\n" else text

end Shell.Echo
