/-
Integers as people write them: digits of any script, single underscores between
them, a sign in front and white space around.

`readInteger base text` is the value of the text in a base up to 36. Letters
stand for the digits from ten on. In base 16 the digits may be introduced by
`0x`, in base 8 by `0o`, and an introduction may be followed by one underscore.

A base that is a power of two puts no bound on the length of a text. In other
bases reading and writing take time quadratic in the length, so both stop at
`maxDigits` digits: `readInteger` refuses longer texts and `writeInteger?`
larger numbers.

White space is dropped at the ends of a text before it is read as a number or an
expression. Two sets are in use. `isBlank` is Unicode white space with the four
information separators U+001C to U+001F. `isMargin` leaves those four out: they
may not stand beside the digits of a number, although they may be trimmed from a
text beforehand.
-/
import Shell.Text.Letter

set_option autoImplicit false

namespace Shell.Text

/-! ## White space -/

/-- White space: the Unicode property, and the separators U+001C to U+001F. -/
def isBlank (c : Char) : Bool :=
  let n := c.toNat
  (0x9 ≤ n && n ≤ 0xD) || (0x1C ≤ n && n ≤ 0x20) || n == 0x85 || n == 0xA0 || n == 0x1680 ||
    (0x2000 ≤ n && n ≤ 0x200A) || n == 0x2028 || n == 0x2029 || n == 0x202F || n == 0x205F ||
    n == 0x3000

/-- White space that may stand around the digits of a number. -/
def isMargin (c : Char) : Bool :=
  isBlank c && !(0x1C ≤ c.toNat && c.toNat ≤ 0x1F)

/-- The text without the characters of a class at its end. -/
def trimEnd (drop : Char → Bool) (text : List Char) : List Char :=
  (text.reverse.dropWhile drop).reverse

/-- The text without the characters of a class at both ends. -/
def trimBy (drop : Char → Bool) (text : List Char) : List Char :=
  trimEnd drop (text.dropWhile drop)

/-- The text without white space at both ends. -/
def trim (text : List Char) : List Char := trimBy isBlank text

/-! ## Integers -/

/-- The number of digits beyond which a number is not converted between text and
value in a base that is no power of two. -/
def maxDigits : Nat := 4300

/-- Why a text is not read as an integer. -/
inductive IntegerError where
  /-- The text is not the written form of an integer. -/
  | malformed
  /-- The text has more than `maxDigits` digits. -/
  | tooManyDigits (count : Nat)
  deriving DecidableEq, Repr

/-- The value of a character as a digit in `base`. -/
def digitValue? (base : Nat) (c : Char) : Option Nat :=
  let value? := match decimalValue? c with
    | some d => some d
    | none =>
      if 'a' ≤ c && c ≤ 'z' then some (c.toNat - 'a'.toNat + 10)
      else if 'A' ≤ c && c ≤ 'Z' then some (c.toNat - 'A'.toNat + 10)
      else none
  value?.filter (· < base)

/-- The longest run of digits and single underscores between digits at the start
of the text, with the rest of the text. `gap` says that a digit has to come next:
at the start and after an underscore. -/
def takeDigits (base : Nat) : (gap : Bool) → List Char → List Nat → Option (List Nat × List Char)
  | gap, [], digits => if gap then none else some (digits.reverse, [])
  | gap, c :: cs, digits =>
    if c = '_' then
      if gap then none else takeDigits base true cs digits
    else match digitValue? base c with
      | some d => takeDigits base false cs (d :: digits)
      | none => if gap then none else some (digits.reverse, c :: cs)

/-! ## Digits -/

/-- A number with digits written behind it. -/
def appendDigits (base : Nat) (digits : List Nat) (n : Nat) : Nat :=
  digits.foldl (fun n d => n * base + d) n

/-- Digits in `base` put together in pairs, which are digits in `base * base`, after `done`, which
is backwards. A last digit without a partner is left alone. -/
def pairUp (base : Nat) : List Nat → (done : List Nat) → List Nat
  | high :: low :: digits, done => pairUp base digits ((high * base + low) :: done)
  | digits, done => done.reverse ++ digits

theorem length_pairUp (base : Nat) (digits done : List Nat) :
    (pairUp base digits done).length = done.length + (digits.length + 1) / 2 := by
  fun_induction pairUp base digits done with
  | case1 high low digits done ih => simp only [ih, List.length_cons]; omega
  | case2 digits done h =>
    match digits with
    | [] => simp
    | [d] => simp
    | d :: e :: ds => exact absurd rfl (h d e ds)

/-- Pairs of digits are the same number as the digits. -/
theorem appendDigits_pairUp (base : Nat) (digits done : List Nat) (h : digits.length % 2 = 0) :
    appendDigits (base * base) (pairUp base digits done) 0
      = appendDigits base digits (appendDigits (base * base) done.reverse 0) := by
  fun_induction pairUp base digits done with
  | case1 high low digits done ih =>
    rw [ih (by simp only [List.length_cons] at h; omega)]
    simp only [appendDigits, List.reverse_cons, List.foldl_append, List.foldl_cons, List.foldl_nil]
    rw [Nat.add_mul, Nat.mul_assoc, Nat.add_assoc]
  | case2 digits done h' =>
    match digits with
    | [] => simp [appendDigits]
    | [d] => simp at h
    | d :: e :: ds => exact absurd rfl (h' d e ds)

/-- The number with these digits, the first one the most significant. Long numbers are put
together out of pairs of digits, pairs of pairs and so on: few large products instead of many. -/
def ofDigits (base : Nat) (digits : List Nat) : Nat :=
  if digits.length < 8 then appendDigits base digits 0
  else if digits.length % 2 = 0 then ofDigits (base * base) (pairUp base digits [])
  else ofDigits (base * base) (pairUp base (0 :: digits) [])
termination_by digits.length
decreasing_by all_goals simp only [length_pairUp, List.length_cons, List.length_nil]; omega

/-- Taking one digit after the other comes to the same number. -/
theorem ofDigits_eq (base : Nat) (digits : List Nat) :
    ofDigits base digits = digits.foldl (fun n d => n * base + d) 0 := by
  fun_induction ofDigits base digits with
  | case1 base digits => rfl
  | case2 base digits h even ih => exact ih.trans (appendDigits_pairUp base digits [] even)
  | case3 base digits h odd ih =>
    refine ih.trans ((appendDigits_pairUp base (0 :: digits) [] ?_).trans ?_)
    · simp only [List.length_cons]; omega
    · simp [appendDigits]

/-! ## Numerals -/

/-- Whether a base bounds the length of its numerals. -/
def isBounded (base : Nat) : Bool := base &&& (base - 1) != 0

/-- What follows the introduction of a base, which is `0x` for 16 and `0o` for 8. -/
def dropIntroduction (base : Nat) (text : List Char) : List Char :=
  let introduced := match text with
    | '0' :: c :: cs =>
      if (base = 16 ∧ (c = 'x' ∨ c = 'X')) ∨ (base = 8 ∧ (c = 'o' ∨ c = 'O')) then some cs else none
    | _ => none
  match introduced with
  | some ('_' :: cs) => cs
  | some cs => cs
  | none => text

/-- The sign in front of a numeral, negative or not, and what follows it. -/
def takeSign : List Char → Bool × List Char
  | '-' :: cs => (true, cs)
  | '+' :: cs => (false, cs)
  | cs => (false, cs)

/-- The value of a text as an integer in `base`. -/
def readInteger (base : Nat) (text : List Char) : Except IntegerError Int :=
  let (negative, unsigned) := takeSign (text.dropWhile isMargin)
  match takeDigits base true (dropIntroduction base unsigned) [] with
  | none => .error .malformed
  | some (digits, rest) =>
    if isBounded base && maxDigits < digits.length then .error (.tooManyDigits digits.length)
    else if rest.all isMargin then
      let n : Int := ofDigits base digits
      .ok (if negative then -n else n)
    else .error .malformed

/-- The value of a text as a decimal integer. -/
def readDecimal? (text : List Char) : Option Int := (readInteger 10 text).toOption

/-- The decimal form of an integer of at most `maxDigits` digits. -/
def writeInteger? (n : Int) : Option String :=
  if n.natAbs < Nat.pow 10 maxDigits then some (toString n) else none

end Shell.Text
