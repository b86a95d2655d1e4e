/-
Real numbers as binary floating-point values of 64 bits: reading them, and writing them with
a given number of digits.

A finite value is `m · 2 ^ q` for natural `m`, with a sign apart, so that zero has one too.
Reading rounds the decimal number that is written to the nearest such value with 53
significant bits, a tie to the even one. Writing rounds the exact value to the digits that are
asked for, again a tie to the even digit. Both are done on natural numbers, in `roundDiv`.
-/
import Shell.Text.Numeral

set_option autoImplicit false

namespace Shell.Text

/-- A binary floating-point value of 64 bits. -/
inductive Real64 where
  | finite (negative : Bool) (m : Nat) (q : Int)
  | infinite (negative : Bool)
  | nan
  deriving DecidableEq, Repr

namespace Real64

/-- The natural number nearest to `num / den`, and of two equally near the even one. -/
def roundDiv (num den : Nat) : Nat :=
  let n := num / den
  let twice := 2 * (num % den)
  if twice < den ∨ (twice = den ∧ n % 2 = 0) then n else n + 1

/-- `num / den` as `num * b ^ e / den`, for a negative `e` too. -/
def scale (num den b : Nat) (e : Int) : Nat × Nat :=
  if 0 ≤ e then (num * Nat.pow b e.toNat, den) else (num, den * Nat.pow b (-e).toNat)

/-- The value nearest to `num / den`, with the given sign. -/
def ofRatio (negative : Bool) (num den : Nat) : Real64 :=
  if num = 0 then .finite negative 0 0
  else
    let k : Int := (num.log2 : Int) - den.log2
    let (a, b) := scale num den 2 (-k)
    let e := if b ≤ a then k else k - 1
    let q := max (e - 52) (-1074)
    let (a, b) := scale num den 2 (-q)
    let m := roundDiv a b
    if 971 < q ∨ (q = 971 ∧ Nat.pow 2 53 ≤ m) then .infinite negative else .finite negative m q

/-- A natural number as a value. -/
def ofNat (n : Nat) : Real64 := ofRatio false n 1

/-- The value nearest to `n * 10 ^ e`, where `n` has `digits` digits. Numbers far beyond the
greatest value and far below the least are not worked out. -/
def ofDecimal (negative : Bool) (n digits : Nat) (e : Int) : Real64 :=
  if n = 0 ∨ e + digits < -400 then .finite negative 0 0
  else if 400 < e + digits - 1 then .infinite negative
  else
    let (num, den) := scale n 1 10 e
    ofRatio negative num den

/-! ## Reading -/

/-- The digits at the start of a text, if it starts with a digit. -/
def takeNumber? (text : List Char) : Option (List Nat × List Char) := takeDigits 10 true text []

/-- Whether a text starts with a decimal digit. -/
def startsWithDigit (text : List Char) : Bool :=
  match text with
  | c :: _ => (decimalValue? c).isSome
  | [] => false

/-- The digits before and after the point, and what follows. There is at least one digit. -/
def takeMantissa? (text : List Char) : Option (List Nat × List Nat × List Char) := do
  if startsWithDigit text then
    let (whole, rest) ← takeNumber? text
    match rest with
    | '.' :: after =>
      if startsWithDigit after then
        let (fraction, rest) ← takeNumber? after
        return (whole, fraction, rest)
      else return (whole, [], after)
    | rest => return (whole, [], rest)
  else
    match text with
    | '.' :: after =>
      let (fraction, rest) ← takeNumber? after
      return ([], fraction, rest)
    | _ => none

/-- The exponent at the start of a text, which is 0 if there is none, and what follows. -/
def takeExponent? (text : List Char) : Option (Int × List Char) :=
  match text with
  | 'e' :: after | 'E' :: after => do
    let (negative, digits) := takeSign after
    let (digits, rest) ← takeNumber? digits
    let n : Int := ofDigits 10 digits
    return (if negative then -n else n, rest)
  | text => some (0, text)

/-- A letter of ASCII in lower case. -/
def toLower (c : Char) : Char :=
  if 'A' ≤ c && c ≤ 'Z' then Char.ofNat (c.toNat + 32) else c

/-- The value of a text as a real number. -/
def read? (text : List Char) : Option Real64 := do
  let (negative, unsigned) := takeSign (trimBy isMargin text)
  let word := unsigned.map toLower
  if word = ['i', 'n', 'f'] ∨ word = "infinity".toList then return .infinite negative
  if word = ['n', 'a', 'n'] then return .nan
  let (whole, fraction, rest) ← takeMantissa? unsigned
  let (exponent, rest) ← takeExponent? rest
  if !rest.isEmpty then none
  let significant := (whole ++ fraction).dropWhile (· = 0)
  let e := exponent - fraction.length
  return ofDecimal negative (ofDigits 10 significant) significant.length e

/-! ## Writing -/

/-- How the digits of a number are laid out. -/
inductive Style where
  /-- With a given number of digits after the point. -/
  | fixed
  /-- With one digit before the point and an exponent. -/
  | scientific
  /-- With a given number of significant digits, in the shorter of the two styles. -/
  | general
  deriving DecidableEq, Repr

/-- Digits of a number below `10 ^ width`, filled with zeros from the left. -/
def digitsText (width n : Nat) : List Char :=
  let digits := Nat.toDigits 10 n
  List.replicate (width - digits.length) '0' ++ digits

/-- A digit string with a point before the last `places` digits. The point is left out before
no digits unless it is wanted. -/
def pointed (digits : List Char) (places : Nat) (point : Bool) : List Char :=
  let n := digits.length - places
  digits.take n ++ if places = 0 ∧ !point then [] else '.' :: digits.drop n

/-- The number `m * 2 ^ q * 10 ^ e`, rounded. -/
def rounded (m : Nat) (q e : Int) : Nat :=
  let (num, den) := scale m 1 2 q
  let (num, den) := scale num den 10 e
  roundDiv num den

/-- The digits after the point that `m * 2 ^ q` has at most. Any further ones are zeros. -/
def finestPlace (q : Int) : Nat := (-q).toNat

/-- With `places` digits after the point. -/
def fixedText (m : Nat) (q : Int) (places : Nat) (point : Bool) : List Char :=
  let known := min places (finestPlace q)
  let digits := digitsText (known + 1) (rounded m q known)
  pointed (digits ++ List.replicate (places - known) '0') places point

/-- Whether `10 ^ e ≤ m * 2 ^ q`. -/
def reaches (m : Nat) (q e : Int) : Bool :=
  let (num, den) := scale m 1 2 q
  let (num, den) := scale num den 10 (-e)
  den ≤ num

/-- The power of ten of the first digit of `m * 2 ^ q`, for a positive `m`. The estimate by the
binary logarithm is off by one at most. -/
def leadingPower (m : Nat) (q : Int) : Int :=
  let e := ((m.log2 : Int) + q) * 30103 / 100000
  if reaches m q (e + 1) then e + 1 else if reaches m q e then e else e - 1

/-- The first `count` significant digits of a number, rounded, and the power of ten of the first
of them. -/
def significant (m : Nat) (q : Int) (count : Nat) : Nat × Int :=
  if m = 0 then (0, 0)
  else
    let e := leadingPower m q
    let n := rounded m q (count - 1 - e)
    if Nat.pow 10 count ≤ n then (n / 10, e + 1) else (n, e)

/-- The significant digits that `m * 2 ^ q` has at most. Any further ones are zeros. -/
def finestCount (m : Nat) (q : Int) : Nat :=
  if m = 0 then 1 else (leadingPower m q + finestPlace q + 1).toNat

/-- An exponent: its sign, and at least two digits. -/
def exponentText (mark : Char) (e : Int) : List Char :=
  mark :: (if e < 0 then '-' else '+') :: digitsText 2 e.natAbs

/-- With one digit before the point, `places` digits after it, and an exponent. -/
def scientificText (m : Nat) (q : Int) (places : Nat) (point : Bool) : List Char :=
  let known := min (places + 1) (finestCount m q)
  let (n, e) := significant m q known
  let digits := digitsText known n ++ List.replicate (places + 1 - known) '0'
  pointed digits places point ++ exponentText 'e' e

/-- The digits after a point without the zeros at their end, and without the point if none is
left. -/
def stripZeros (text : List Char) : List Char :=
  if text.contains '.' then
    let stripped := trimEnd (· == '0') text
    if stripped.getLast? = some '.' then stripped.dropLast else stripped
  else text

/-- With `digits` significant digits. A number whose first digit is more than four places after
the point, or not among the significant digits before it, has an exponent. Zeros at the end are
dropped unless they are wanted. -/
def generalText (m : Nat) (q : Int) (digits : Nat) (keepZeros : Bool) : List Char :=
  let digits := max digits 1
  let known := min digits (finestCount m q)
  let (n, e) := significant m q known
  let zeros := if keepZeros then List.replicate (digits - known) '0' else []
  let strip := fun text => if keepZeros then text else stripZeros text
  if e < -4 ∨ (digits : Int) ≤ e then
    let places := known - 1 + zeros.length
    strip (pointed (digitsText known n ++ zeros) places keepZeros) ++ exponentText 'e' e
  else
    let places := ((known : Int) - 1 - e).toNat
    strip (pointed (digitsText (places + 1) n ++ zeros) (places + zeros.length) keepZeros)

/-- The text of a value without its sign. `alternate` keeps the point and the zeros that say
nothing. -/
def magnitudeText (value : Real64) (style : Style) (precision : Nat) (alternate : Bool) :
    List Char :=
  match value with
  | .infinite _ => ['i', 'n', 'f']
  | .nan => ['n', 'a', 'n']
  | .finite _ m q =>
    match style with
    | .fixed => fixedText m q precision alternate
    | .scientific => scientificText m q precision alternate
    | .general => generalText m q precision alternate

/-- Whether a value is written with a minus sign. -/
def isNegative : Real64 → Bool
  | .finite negative _ _ => negative
  | .infinite negative => negative
  | .nan => false

end Real64

end Shell.Text
