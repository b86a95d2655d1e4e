/-
The tokens of an expression, and what its number constants are.

White space separates tokens and is dropped. A token is the longest number
constant, the longest name, or the first symbol of `Symbol.all` that the text
goes on with.

A constant `BASE#DIGITS` is read in a base from 2 to 64: after the ten digits come the
letters, lower case before upper case unless the base is at most 36 and both
cases mean the same, then `@` and `_`. `0x` introduces hexadecimal, another
leading zero octal, and everything else is decimal. The value is the positional
value as a signed 64-bit word, so it wraps.
-/
import Shell.Arithmetic.Expr
import Shell.Arithmetic.Failure
import Shell.Name
import Shell.Text.Numeral

set_option autoImplicit false

namespace Shell.Arithmetic

open Shell.Text

/-! ## Constants -/

/-- The value of a character as a digit of a constant in `base`; `base` itself
for a character that is no digit in any base. -/
def constantDigit (base : Nat) (c : Char) : Except ArithmeticFault Nat :=
  if isDigit c then
    match decimalValue? c with
    | some d => .ok d
    | none => .error .unreadableConstant
  else if 'a' ≤ c && c ≤ 'z' then .ok (c.toNat - 'a'.toNat + 10)
  else if 'A' ≤ c && c ≤ 'Z' then
    .ok (c.toNat - 'A'.toNat + if base ≤ 36 then 10 else 36)
  else if c = '@' then .ok 62
  else if c = '_' then .ok 63
  else .ok base

/-- The digits of a constant in `base`, after `done`, which is backwards. `constant` is the whole
constant, for the diagnostic. -/
def constantDigits (constant : List Char) (base : Nat) : (done : List Nat) → List Char →
    Except Failure (List Nat)
  | done, [] => .ok done.reverse
  | done, c :: cs =>
    match constantDigit base c with
    | .error fault => .error (.fault fault)
    | .ok d =>
      if d < base then constantDigits constant base (d :: done) cs
      else .error (.mistake (.valueTooGreat constant))

/-- A constant without a base in front, read in the base its start names. -/
def readPlainConstant (text : List Char) : Except IntegerError Int :=
  match text with
  | '0' :: 'x' :: digits | '0' :: 'X' :: digits => readInteger 16 digits
  | '0' :: c :: digits => readInteger 8 (c :: digits)
  | _ => readInteger 10 text

/-- The value of a number constant. -/
def readConstant (text : List Char) : Except Failure Int64 :=
  if text.contains '#' then
    let digits := (text.dropWhile (· ≠ '#')).drop 1
    match readDecimal? (text.takeWhile (· ≠ '#')) with
    | none => .error (.fault .unreadableConstant)
    | some base =>
      if 2 ≤ base ∧ base ≤ 64 then
        (constantDigits text base.toNat [] digits).map fun ds => Int64.ofNat (ofDigits base.toNat ds)
      else .error (.mistake (.invalidBase text))
  else
    match readPlainConstant text with
    | .ok n => .ok (Int64.ofInt n)
    | .error _ => .error (.mistake (.valueTooGreat text))

/-- The digits that may follow `#` in a constant. -/
def isBaseDigit (c : Char) : Bool := isAsciiDigit c || isAsciiLetter c || c == '@' || c == '_'

/-- The characters that may follow the first digit of a constant without `#`. -/
def isConstantRest (c : Char) : Bool := isAsciiDigit c || isAsciiLetter c || c == '_'

/-- How many characters of `cs` belong to the number constant that starts with
the digit `c`: the longest `BASE#DIGITS`, else the longest `0x` constant, else
all the digits, letters and underscores. -/
def constantExtent (c : Char) (cs : List Char) : Nat :=
  let digits := cs.takeWhile isAsciiDigit
  let based := match cs.drop digits.length with
    | '#' :: after => (after.takeWhile isBaseDigit).length
    | _ => 0
  let hexadecimal := match c, cs with
    | '0', x :: after =>
      if x = 'x' ∨ x = 'X' then (after.takeWhile fun d => (hexValue? d).isSome).length else 0
    | _, _ => 0
  if 0 < based then digits.length + 1 + based
  else if 0 < hexadecimal then 1 + hexadecimal
  else (cs.takeWhile isConstantRest).length

/-- Whether a whole text has the form of a number constant. -/
def isConstant : List Char → Bool
  | [] => false
  | c :: cs =>
    let based := match cs.dropWhile isAsciiDigit with
      | '#' :: d :: after => (d :: after).all isBaseDigit
      | _ => false
    isAsciiDigit c && (based || cs.all isConstantRest)

/-! ## Tokens -/

/-- The symbol that a text goes on with. -/
def symbolAt? (cs : List Char) : Option Symbol :=
  Symbol.all.find? fun s => s.text.toList.isPrefixOf cs

/-- The tokens of the rest of an expression, after the tokens `done`, the last one
first. `text` is the whole expression, for the diagnostic. -/
def tokensFrom (text : List Char) (done : List Token) : List Char → Except Failure (List Token)
  | [] => .ok done.reverse
  | c :: cs =>
    if isBlank c then tokensFrom text done cs
    else if isAsciiDigit c then
      let n := constantExtent c cs
      tokensFrom text (.numeral (c :: cs.take n) :: done) (cs.drop n)
    else if Name.isStart c then
      let n := (cs.takeWhile Name.isRest).length
      tokensFrom text (.name (c :: cs.take n) :: done) (cs.drop n)
    else if isDigit c || isLetter c then .error (.fault .foreignCharacter)
    else match symbolAt? (c :: cs) with
      | some s => tokensFrom text (.symbol s :: done) (cs.drop (s.text.length - 1))
      | none => .error (.mistake (.invalidOperator text (c :: cs)))
termination_by cs => cs.length
decreasing_by all_goals simp only [List.length_cons, List.length_drop]; omega

/-- The tokens of an expression. -/
def tokens (text : List Char) : Except Failure (List Token) := tokensFrom text [] text

end Shell.Arithmetic
