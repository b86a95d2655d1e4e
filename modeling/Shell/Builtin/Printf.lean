/-
`printf [-v VAR] FORMAT [ARG ...]`: formatting under the control of a format text, for standard
output or for a variable.

A format is text with escapes and conversions. A pass over the format takes an argument for each
conversion and for each `*`; an argument that is missing reads as an empty text. Passes are made
until the arguments are used up, at least one, and only one if a pass takes none.

A conversion that does not exist ends the output, and so does the escape `\c`. A number that
cannot be read is reported and taken for the digits it starts with.

An escape can stand for half of a surrogate pair. No text here holds one: a replacement stands for it, formatting
notes that it does, and the text goes no further than to a sink of the session.
-/
import Shell.Builtin
import Shell.Name
import Shell.Text.Escape
import Shell.Text.Quoted
import Shell.Text.Real

set_option autoImplicit false

namespace Shell.Printf

open Shell.Text

/-! ## Conversions -/

/-- The bases of numbers that are written without a sign. -/
inductive Radix where
  | octal | decimal | hex | upperHex
  deriving DecidableEq, Repr

/-- What a conversion makes of its argument. -/
inductive Conversion where
  /-- The text. -/
  | text
  /-- The text with its escapes decoded. -/
  | escaped
  /-- The text in a form that the shell reads back. -/
  | quoted
  /-- The first character. -/
  | char
  | signed
  /-- The number modulo `2 ^ 64`. -/
  | unsigned (radix : Radix)
  | real (style : Real64.Style) (upper : Bool)
  deriving DecidableEq, Repr

/-- The conversion of a letter. -/
def Conversion.ofChar? (c : Char) : Option Conversion :=
  match c with
  | 's' => some .text
  | 'b' => some .escaped
  | 'q' => some .quoted
  | 'c' => some .char
  | 'd' | 'i' => some .signed
  | 'u' => some (.unsigned .decimal)
  | 'o' => some (.unsigned .octal)
  | 'x' => some (.unsigned .hex)
  | 'X' => some (.unsigned .upperHex)
  | 'e' => some (.real .scientific false)
  | 'E' => some (.real .scientific true)
  | 'f' => some (.real .fixed false)
  | 'F' => some (.real .fixed true)
  | 'g' => some (.real .general false)
  | 'G' => some (.real .general true)
  | _ => none

/-- The flags of a conversion. -/
structure Flags where
  left : Bool := false
  plus : Bool := false
  blank : Bool := false
  alternate : Bool := false
  zero : Bool := false
  deriving DecidableEq, Repr

/-- The flags with one more; `'` is accepted and means nothing. None if the character is no
flag. -/
def Flags.add? (flags : Flags) (c : Char) : Option Flags :=
  match c with
  | '-' => some { flags with left := true }
  | '+' => some { flags with plus := true }
  | ' ' => some { flags with blank := true }
  | '#' => some { flags with alternate := true }
  | '0' => some { flags with zero := true }
  | '\'' => some flags
  | _ => none

/-- A width or precision in a format. -/
inductive Amount where
  | none
  /-- Taken from the arguments. -/
  | star
  /-- Written with these digits; no digits are zero. -/
  | digits (ds : List Nat)
  deriving DecidableEq, Repr

/-- A conversion with its flags, width and precision. -/
structure Spec where
  flags : Flags
  width : Amount
  precision : Amount
  conversion : Conversion
  deriving DecidableEq, Repr

/-- The flags that a text starts with, and how many characters they are. -/
def takeFlags (flags : Flags) (n : Nat) : List Char → Flags × Nat
  | [] => (flags, n)
  | c :: cs =>
    match flags.add? c with
    | some flags => takeFlags flags (n + 1) cs
    | none => (flags, n)

/-- The decimal digits of any script that a text starts with. -/
def takeDecimals : List Char → List Nat
  | [] => []
  | c :: cs =>
    match decimalValue? c with
    | some d => d :: takeDecimals cs
    | none => []

/-- The amount that a text starts with, and how many characters it is. -/
def takeAmount (cs : List Char) : Amount × Nat :=
  match cs with
  | '*' :: _ => (.star, 1)
  | cs =>
    let ds := takeDecimals cs
    (.digits ds, ds.length)

/-- The conversion that stands after a percent sign before `cs`, and how many characters it is;
none if there is none. -/
def takeSpec? (cs : List Char) : Option (Spec × Nat) :=
  let (flags, n) := takeFlags {} 0 cs
  let (width, k) := takeAmount (cs.drop n)
  let width := if width = .digits [] then .none else width
  let n := n + k
  let (precision, n) := match cs.drop n with
    | '.' :: rest =>
      let (amount, k) := takeAmount rest
      (amount, n + 1 + k)
    | _ => (.none, n)
  match cs.drop n with
  | c :: _ => (Conversion.ofChar? c).map fun conversion => (⟨flags, width, precision, conversion⟩, n + 1)
  | [] => none

/-! ## Layout -/

/-- A text in a field of at least `width` characters. -/
def pad (left : Bool) (width : Nat) (text : List Char) : List Char :=
  let blanks := List.replicate (width - text.length) ' '
  if left then text ++ blanks else blanks ++ text

/-- The greatest width of a field. -/
def maxWidth : Nat := Nat.pow 2 63 - 1

/-- The greatest precision of a number. -/
def maxPrecision : Nat := Nat.pow 2 31 - 1

/-- The greatest precision of a whole number. -/
def maxWholePrecision : Nat := maxPrecision - 3

/-- The greatest width of a field for which there is room in a memory of this size. -/
def maxField (memory : Nat) : Nat := min memory maxWidth

/-- The numbers without a sign are below this one. -/
def wordSize : Nat := Nat.pow 2 64

/-- A text in a field, of which the width may be missing. -/
def padText (memory : Nat) (flags : Flags) (width : Option Nat) (text : List Char) : Except Fault (List Char) :=
  match width with
  | none => .ok text
  | some width =>
    if maxWidth < width then .error .paddingTooLarge
    else if maxField memory < width then .error .outOfMemory
    else .ok (pad flags.left width text)

/-- A number in a field: sign, introduction and digits, with zeros after the introduction or
blanks around. The introduction counts for as many characters as `counted`. -/
def layout (flags : Flags) (width : Nat) (negative : Bool) (introduction : List Char)
    (counted : Nat) (digits : List Char) : List Char :=
  let sign :=
    if negative then ['-'] else if flags.plus then ['+'] else if flags.blank then [' '] else []
  let fill := width - (sign.length + counted + digits.length)
  if flags.left then sign ++ introduction ++ digits ++ List.replicate fill ' '
  else if flags.zero then sign ++ introduction ++ List.replicate fill '0' ++ digits
  else List.replicate fill ' ' ++ sign ++ introduction ++ digits

/-- The base of a radix. -/
def Radix.base : Radix → Nat
  | .octal => 8
  | .decimal => 10
  | .hex => 16
  | .upperHex => 16

/-- The digits of a number. -/
def Radix.digits (radix : Radix) (n : Nat) : List Char :=
  let ds := Nat.toDigits radix.base n
  if radix = .upperHex then ds.map Char.toUpper else ds

/-- What introduces a number in the alternate form. Two characters count for it in every case,
but an octal number has only a zero, and a hexadecimal zero nothing. -/
def Radix.introduction (radix : Radix) (n : Nat) : List Char × Nat :=
  match radix with
  | .decimal => ([], 0)
  | .octal => (['0'], 2)
  | .hex => (if n = 0 then [] else ['0', 'x'], 2)
  | .upperHex => (if n = 0 then [] else ['0', 'X'], 2)

/-- A whole number in a field, with at least `precision` digits. -/
def wholeText (flags : Flags) (width precision : Nat) (radix : Radix) (value : Int) : List Char :=
  let n := value.natAbs
  let digits := radix.digits n
  let digits := List.replicate (precision - digits.length) '0' ++ digits
  let (introduction, counted) := if flags.alternate then radix.introduction n else ([], 0)
  layout flags width (value < 0) introduction counted digits

/-- The precision of a real number. With an exponent, one digit stands before the point, and if
the greatest precision leaves no place for it, it is the only one. -/
def realPrecision (style : Real64.Style) (precision : Option Nat) : Nat :=
  let precision := precision.getD 6
  if style = .scientific ∧ precision = maxPrecision then 0 else precision

/-- A real number in a field. -/
def realText (flags : Flags) (width precision : Nat) (style : Real64.Style) (upper : Bool)
    (value : Real64) : List Char :=
  let digits := value.magnitudeText style precision flags.alternate
  let digits := if upper then digits.map Char.toUpper else digits
  layout flags width value.isNegative [] 0 digits

/-! ## Arguments -/

/-- The value of the form of a whole number: a sign, and `0x` digits, octal digits after a zero,
or decimal digits. None for another form. -/
def wholeNumber? (text : List Char) : Option (Except Fault Int) :=
  let (negative, digits) := takeSign text
  let signed (n : Nat) : Int := if negative then -n else n
  match digits with
  | '0' :: x :: hex =>
    if (x = 'x' ∨ x = 'X') ∧ !hex.isEmpty ∧ hex.all fun c => (hexValue? c).isSome then
      some (.ok (signed (ofDigits 16 (hex.filterMap hexValue?))))
    else if (x :: hex).all fun c => (octalValue? c).isSome then
      some (.ok (signed (ofDigits 8 ((x :: hex).filterMap octalValue?))))
    else none
  | [] => none
  | digits =>
    if digits.all isAsciiDigit then
      if maxDigits < digits.length then some (.error .numberTooLong)
      else some (.ok (signed (ofDigits 10 (digits.filterMap decimalValue?))))
    else none

/-- The value of the decimal digits that a text starts with, after a sign; zero if there are
none. -/
def leadingNumber (text : List Char) : Except Fault Int :=
  let (negative, unsigned) := takeSign text
  let digits := unsigned.takeWhile isAsciiDigit
  if maxDigits < digits.length then .error .numberTooLong
  else
    let n : Int := ofDigits 10 (digits.filterMap decimalValue?)
    .ok (if negative then -n else n)

/-- What formatting notes on its way. -/
inductive Note where
  /-- A mistake, to be diagnosed. -/
  | mistake (message : String)
  /-- Half of a surrogate pair, for which a replacement is in the output. -/
  | half
  deriving DecidableEq, Repr

/-- The diagnosis of a mistake. -/
def Note.message? : Note → Option String
  | .mistake message => some message
  | .half => none

/-- The state of formatting. -/
structure Formatting where
  /-- The arguments that have not been used. -/
  args : List String
  /-- How many have been used. -/
  used : Nat := 0
  /-- What has been noted, the last one first. -/
  notes : List Note := []
  /-- Whether the output has been ended. -/
  stopped : Bool := false

/-- A part of formatting. -/
abbrev Formatter := StateT Formatting (Except Fault)

namespace Formatter

def fault {α : Type} (f : Fault) : Formatter α := throw f

/-- The next argument; an empty text if there is none. -/
def next : Formatter (List Char) := fun s =>
  match s.args with
  | [] => .ok ([], s)
  | arg :: args => .ok (arg.toList, { s with args := args, used := s.used + 1 })

def note (n : Note) : Formatter Unit := modify fun s => { s with notes := n :: s.notes }

def report (message : String) : Formatter Unit := note (.mistake message)

/-- Notes that half of a surrogate pair has been replaced, if it has. -/
def noteHalf (half : Bool) : Formatter Unit := if half then note .half else pure ()

def stop : Formatter Unit := modify fun s => { s with stopped := true }

def invalidNumber (argument : List Char) : Formatter Unit :=
  report (String.ofList argument ++ ": invalid number")

/-- Whether a text stands for the code of its second character. -/
def isCode (text : List Char) : Bool := text.head? = some '\'' || text.head? = some '"'

/-- The code of the second character; zero if there is none. -/
def code (text : List Char) : Nat :=
  match text with
  | _ :: c :: _ => c.toNat
  | _ => 0

/-- The value of an argument as a whole number. -/
def whole (argument : List Char) : Formatter Int := do
  let text := trim argument
  if text.isEmpty then return 0
  if isCode text then return code text
  match wholeNumber? text with
  | some value => liftM value
  | none =>
    invalidNumber argument
    liftM (leadingNumber text)

/-- The value of an argument as a real number. -/
def real (argument : List Char) : Formatter Real64 := do
  let text := trim argument
  if text.isEmpty then return .ofNat 0
  if isCode text then return .ofNat (code text)
  match Real64.read? text with
  | some value => return value
  | none =>
    invalidNumber argument
    return .ofNat 0

/-- The value of digits in a format. -/
def amount (ds : List Nat) : Formatter Nat :=
  if maxDigits < ds.length then fault .numberTooLong else return ofDigits 10 ds

/-- The flags and the width of a conversion. A negative width from the arguments is a width with
the flag `-`. -/
def width (spec : Spec) : Formatter (Flags × Option Nat) := do
  match spec.width with
  | .none => return (spec.flags, none)
  | .digits ds => return (spec.flags, some (← amount ds))
  | .star =>
    let n ← whole (← next)
    let flags := if n < 0 then { spec.flags with left := true } else spec.flags
    return (flags, some n.natAbs)

/-- The precision of a conversion. A negative one from the arguments is zero. -/
def precision (spec : Spec) : Formatter (Option Nat) := do
  match spec.precision with
  | .none => return none
  | .digits ds => return some (← amount ds)
  | .star => return some (← whole (← next)).toNat

/-- Refuses widths and precisions that numbers cannot have. -/
def checkSize (width precision : Option Nat) : Formatter Unit := do
  if maxWidth < width.getD 0 then fault .widthTooLarge
  if maxPrecision < precision.getD 0 then fault .precisionTooLarge

/-- Refuses fields that there is no memory for. -/
def checkField (memory : Nat) (width : Option Nat) : Formatter Unit := do
  if maxField memory < width.getD 0 then fault .outOfMemory

/-- A whole number in a field, if both can be had. -/
def wholeField (memory : Nat) (flags : Flags) (width precision : Option Nat) (radix : Radix) (value : Int) :
    Formatter (List Char) := do
  checkSize width precision
  if maxWholePrecision < precision.getD 0 then fault .tooManyDigits
  if radix = .decimal ∧ (writeInteger? value).isNone then fault .numberTooLong
  checkField memory width
  return wholeText flags (width.getD 0) (precision.getD 0) radix value

/-- The text of one conversion. -/
def convert (memory : Nat) (spec : Spec) : Formatter (List Char) := do
  let (flags, width) ← width spec
  let precision ← precision spec
  let argument ← next
  match spec.conversion with
  | .text =>
    let text := match precision with
      | some n => argument.take n
      | none => argument
    liftM (padText memory flags width text)
  | .escaped =>
    match Escape.argument argument with
    | .error () => fault .escapeTooLarge
    | .ok expanded =>
      noteHalf expanded.half
      if expanded.ended then stop
      liftM (padText memory flags width expanded.text)
  | .quoted => liftM (padText memory flags width (Quoted.printfValue argument))
  | .char => liftM (padText memory flags width (argument.take 1))
  | .real style upper =>
    let value ← real argument
    checkSize width precision
    checkField memory width
    return realText flags (width.getD 0) (realPrecision style precision) style upper value
  | .signed => wholeField memory flags width precision .decimal (← whole argument)
  | .unsigned radix => wholeField memory flags width precision radix ((← whole argument) % wordSize)

/-- One pass over the rest of a format, after the output `done`, which is backwards. -/
def pass (memory : Nat) (done : List Char) : List Char → Formatter (List Char)
  | [] => return done.reverse
  | c :: cs =>
    if c = '\\' then
      match Escape.decode false cs with
      | .error () => fault .escapeTooLarge
      | .ok decoded => do
        let done := decoded.text.reverse ++ done
        if decoded.stop then
          stop
          return done.reverse
        noteHalf decoded.half
        pass memory done (cs.drop decoded.extent)
    else if c = '%' then
      if cs.head? = some '%' then pass memory ('%' :: done) (cs.drop 1)
      else
        match takeSpec? cs with
        | none => do
          match cs with
          | [] => report "missing format character"
          | bad :: _ => report ("`" ++ String.singleton bad ++ "': invalid format character")
          stop
          return done.reverse
        | some (spec, extent) => do
          let text ← convert memory spec
          let done := text.reverse ++ done
          if (← get).stopped then return done.reverse
          pass memory done (cs.drop extent)
    else pass memory (c :: done) cs
termination_by cs => cs.length
decreasing_by all_goals simp only [List.length_cons, List.length_drop]; omega

/-- Passes over a format after the outputs `done`, which are backwards; at most `n` more than one,
as each further pass has used an argument. -/
def passes (memory : Nat) (format : List Char) : (n : Nat) → List (List Char) → Formatter (List (List Char))
  | n, done => do
    let before := (← get).used
    let text ← pass memory [] format
    let done := text :: done
    let s ← get
    if s.stopped || s.used == before || s.args.isEmpty then return done.reverse
    match n with
    | 0 => return done.reverse
    | n + 1 => passes memory format n done

end Formatter

/-- The output of a format with arguments, and what has been noted. -/
def format (memory : Nat) (format : String) (args : List String) : Except Fault (String × List Note) :=
  match (Formatter.passes memory format.toList args.length []).run { args := args } with
  | .ok (texts, s) => .ok (String.ofList texts.flatten, s.notes.reverse)
  | .error f => .error f

/-! ## The command -/

def usage : Answer := .refusal "printf: usage: printf [-v var] format [arguments]" 2

/-- The variable that `printf` is to write to, if there is one, and the arguments after the
option. -/
def readTarget : List String → Except Answer (Option String × List String)
  | ["-v"] => .error usage
  | "-v" :: target :: args =>
    if Name.isValid target.toList then .ok (some target, args)
    else .error (.refusal ("printf: `" ++ target ++ "': not a valid identifier") 2)
  | args => .ok (none, args)

/-- The arguments without a `--` before them. -/
def dropSeparator : List String → List String
  | "--" :: args => args
  | args => args

/-- Why a text with half of a surrogate pair goes no further, if it does not: no pipe takes it, and no variable
and no command substitution holds it. A sink of the session shows its replacement. -/
def halfFault? (target : Option String) (output : Output) (captured : Bool) : Option Fault :=
  match target, output with
  | some _, _ => some .halfPair
  | none, .pipe _ => some .unencodable
  | none, .sink _ => if captured then some .halfPair else none

/-- Where formatted text can go. -/
structure Room where
  /-- The widest field that there is memory for. -/
  memory : Nat
  /-- Standard output. -/
  output : Output
  /-- Whether standard output becomes the text of a command substitution. -/
  captured : Bool

/-- Gives a formatted text to a variable or to standard output. It is assigned even if there were mistakes. -/
def deliver (room : Room) (env : Environment) (target : Option String) (text : String) (notes : List Note) :
    Except Fault (Answer × Environment) :=
  match if .half ∈ notes then halfFault? target room.output room.captured else none with
  | some f => .error f
  | none =>
    let mistakes := notes.filterMap Note.message?
    let answer : Answer :=
      { output := text
        diagnostics := mistakes.map ("printf: " ++ ·)
        status := if mistakes.isEmpty then 0 else 1 }
    match target with
    | some name => .ok ({ answer with output := "" }, env.set name text)
    | none => .ok (answer, env)

/-- What `printf` answers, and the environment after it. -/
def answer (room : Room) (env : Environment) (args : List String) : Except Fault (Answer × Environment) :=
  match readTarget args with
  | .error refusal => .ok (refusal, env)
  | .ok (target, args) =>
    match dropSeparator args with
    | [] => .ok (usage, env)
    | pattern :: args => do
      let (text, notes) ← format room.memory pattern args
      deliver room env target text notes

end Shell.Printf
