/-
Backslash escapes in the texts that `echo` and `printf` write.

The two commands share the escapes of one letter. `echo` reads an octal number only after
`\0`; `printf` reads it after any backslash, and in the argument of `%b` the leading zero does
not count among its digits. `\c` ends all output.
-/
import Shell.Text.Numeral

set_option autoImplicit false

namespace Shell.Text.Escape

/-- The character that a letter after a backslash stands for. -/
def simple? (c : Char) : Option Char :=
  match c with
  | 'a' => some '\x07'
  | 'b' => some '\x08'
  | 'e' => some '\x1b'
  | 'E' => some '\x1b'
  | 'f' => some '\x0c'
  | 'n' => some '\n'
  | 'r' => some '\x0d'
  | 't' => some '\t'
  | 'v' => some '\x0b'
  | '\\' => some '\\'
  | _ => none

/-- The values of the digits that a text starts with, at most `max` of them. -/
def digits (value? : Char → Option Nat) (max : Nat) (cs : List Char) : List Nat :=
  match max, cs with
  | max + 1, c :: cs =>
    match value? c with
    | some d => d :: digits value? max cs
    | none => []
  | _, _ => []

/-- The character of an octal escape, of which only eight bits count. -/
def octalChar (ds : List Nat) : Char := Char.ofNat (ofDigits 8 ds % 256)

/-! ## `echo -e` -/

/-- The text with its escapes decoded, after the text `done`, which is backwards; and whether
`\c` has ended it. -/
def echoFrom (done : List Char) : List Char → List Char × Bool
  | [] => (done.reverse, false)
  | '\\' :: c :: cs =>
    match simple? c with
    | some d => echoFrom (d :: done) cs
    | none =>
      if c = 'c' then (done.reverse, true)
      else if c = '0' then
        let ds := digits octalValue? 3 cs
        echoFrom (octalChar ds :: done) (cs.drop ds.length)
      else if c = 'x' then
        let ds := digits hexValue? 2 cs
        if ds.isEmpty then echoFrom ('x' :: '\\' :: done) cs
        else echoFrom (Char.ofNat (ofDigits 16 ds) :: done) (cs.drop ds.length)
      else echoFrom (c :: '\\' :: done) cs
  | c :: cs => echoFrom (c :: done) cs
termination_by cs => cs.length
decreasing_by all_goals simp only [List.length_cons, List.length_drop]; omega

/-- The text with the escapes of `echo -e` decoded, and whether `\c` has ended it. -/
def echo (text : List Char) : List Char × Bool := echoFrom [] text

/-! ## `printf` -/

/-- What a backslash and the characters after it stand for. -/
structure Decoded where
  text : List Char
  /-- How many characters after the backslash belong to the escape. -/
  extent : Nat
  /-- Whether the escape ends all output. -/
  stop : Bool := false
  /-- Whether the escape stands for half of a surrogate pair, for which a replacement is in the text. -/
  half : Bool := false
  deriving DecidableEq, Repr

/-- How many hexadecimal digits may follow a letter. -/
def hexWidth? (c : Char) : Option Nat :=
  match c with
  | 'x' => some 2
  | 'u' => some 4
  | 'U' => some 8
  | _ => none

/-- What has a number among the characters. -/
inductive Point where
  | char (c : Char)
  /-- Half of a surrogate pair, which is no character by itself. -/
  | half
  /-- Nothing: the number is above every character. -/
  | beyond
  deriving DecidableEq, Repr

/-- What a number stands for. One that does not fit in 31 bits is beyond what can be asked. -/
def pointOf (n : Nat) : Except Unit Point :=
  if 0x80000000 ≤ n then .error ()
  else if 0x10FFFF < n then .ok .beyond
  else if h : n.isValidChar then .ok (.char (Char.ofNatAux n h))
  else .ok .half

/-- What is shown of half of a surrogate pair. -/
def replacement : Char := '\uFFFD'

/-- The escape that a backslash before `cs` starts; in an `argument`, a leading zero does not
count among the three digits of an octal number. It fails at a number that is too large. -/
def decode (argument : Bool) : List Char → Except Unit Decoded
  | [] => .ok { text := ['\\'], extent := 0 }
  | c :: cs =>
    match if c = '"' ∨ c = '\'' then some c else simple? c with
    | some d => .ok { text := [d], extent := 1 }
    | none =>
      if c = 'c' then .ok { text := [], extent := 1, stop := true }
      else if (octalValue? c).isSome then
        if argument ∧ c = '0' then
          let ds := digits octalValue? 3 cs
          .ok { text := [octalChar ds], extent := 1 + ds.length }
        else
          let ds := digits octalValue? 3 (c :: cs)
          .ok { text := [octalChar ds], extent := ds.length }
      else
        let ds := match hexWidth? c with
          | some width => digits hexValue? width cs
          | none => []
        if ds.isEmpty then .ok { text := ['\\', c], extent := 1 }
        else
          match pointOf (ofDigits 16 ds) with
          | .error () => .error ()
          | .ok (.char d) => .ok { text := [d], extent := 1 + ds.length }
          | .ok .half => .ok { text := [replacement], extent := 1 + ds.length, half := true }
          | .ok .beyond => .ok { text := ['\\', c], extent := 1 }

/-- The argument of `%b` with its escapes decoded. -/
structure Expanded where
  text : List Char
  /-- Whether an escape has ended all output. -/
  ended : Bool := false
  /-- Whether half of a surrogate pair was in it, for which a replacement is in the text. -/
  half : Bool := false
  deriving DecidableEq, Repr

/-- The argument of `%b` with its escapes decoded, after the text `done`, which is backwards and in which half of a
surrogate pair may have been replaced. -/
def argumentFrom (done : List Char) (half : Bool) : List Char → Except Unit Expanded
  | [] => .ok ⟨done.reverse, false, half⟩
  | c :: cs =>
    if c = '\\' then
      match decode true cs with
      | .error () => .error ()
      | .ok decoded =>
        let done := decoded.text.reverse ++ done
        let half := half || decoded.half
        if decoded.stop then .ok ⟨done.reverse, true, half⟩
        else argumentFrom done half (cs.drop decoded.extent)
    else argumentFrom (c :: done) half cs
termination_by cs => cs.length
decreasing_by all_goals simp only [List.length_cons, List.length_drop]; omega

/-- The argument of `%b` with its escapes decoded. -/
def argument (text : List Char) : Except Unit Expanded := argumentFrom [] false text

end Shell.Text.Escape
