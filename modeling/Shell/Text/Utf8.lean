/-
UTF-8, one byte at a time.

A decoder is what is known of the character whose first bytes have arrived.
`push` takes one byte and says which characters are complete. A byte that cannot
continue the character begun closes it: the bytes so far are replaced by one
U+FFFD, and the byte is read again as a first byte. So each longest beginning of
a character that has no continuation becomes one U+FFFD, and however a byte
sequence is cut into pieces the decoded text is the same.

The first two bytes of a surrogate are no beginning of a character, so they
become two U+FFFD; but these are held back until another byte has come.
-/
set_option autoImplicit false

namespace Shell.Text.Utf8

/-- The character that stands for bytes that are not UTF-8. -/
def replacement : Char := '\uFFFD'

/-- A character of which some bytes have arrived. -/
structure Begun where
  /-- The number of bytes to come, at least one. -/
  owed : Nat
  /-- The least byte that may come next. -/
  low : Nat
  /-- The greatest byte that may come next. -/
  high : Nat
  /-- The bits of the bytes so far. -/
  bits : Nat
  deriving DecidableEq, Repr

/-- What is known between two bytes. -/
inductive Decoder where
  /-- All characters are complete. -/
  | between
  | begun (begun : Begun)
  /-- The first two bytes of a surrogate have arrived. -/
  | surrogate
  deriving DecidableEq, Repr

/-- The effect of a byte that starts a character. The first continuation byte is
bounded more tightly after E0 and F0, where it would make an overlong form, after
ED, where it would make a surrogate, and after F4, where it would leave Unicode. -/
def first (b : Nat) : List Char × Decoder :=
  if b < 0x80 then ([Char.ofNat b], .between)
  else if b < 0xC2 then ([replacement], .between)
  else if b < 0xE0 then ([], .begun ⟨1, 0x80, 0xBF, b - 0xC0⟩)
  else if b < 0xF0 then
    let low := if b = 0xE0 then 0xA0 else 0x80
    let high := if b = 0xED then 0x9F else 0xBF
    ([], .begun ⟨2, low, high, b - 0xE0⟩)
  else if b < 0xF5 then
    let low := if b = 0xF0 then 0x90 else 0x80
    let high := if b = 0xF4 then 0x8F else 0xBF
    ([], .begun ⟨3, low, high, b - 0xF0⟩)
  else ([replacement], .between)

/-- Whether a byte that cannot continue the character begun makes it the beginning of a
surrogate. Only ED bounds its continuation by 9F. -/
def makesSurrogate (begun : Begun) (b : Nat) : Bool :=
  begun.high == 0x9F && 0xA0 ≤ b && b ≤ 0xBF

/-- One byte: the characters it completes and the state after it. -/
def push (decoder : Decoder) (byte : UInt8) : List Char × Decoder :=
  let b := byte.toNat
  match decoder with
  | .between => first b
  | .surrogate =>
    let (chars, next) := first b
    (replacement :: replacement :: chars, next)
  | .begun begun =>
    if begun.low ≤ b ∧ b ≤ begun.high then
      let bits := begun.bits * 64 + (b - 0x80)
      if begun.owed ≤ 1 then ([Char.ofNat bits], .between)
      else ([], .begun ⟨begun.owed - 1, 0x80, 0xBF, bits⟩)
    else if makesSurrogate begun b then ([], .surrogate)
    else
      let (chars, next) := first b
      (replacement :: chars, next)

/-- The characters that a piece of a byte sequence completes, after the
characters `done` (the last one first), and the state after it. -/
def pushAll : Decoder → List UInt8 → List Char → List Char × Decoder
  | decoder, [], done => (done.reverse, decoder)
  | decoder, b :: bs, done =>
    let (chars, next) := push decoder b
    pushAll next bs (chars.reverse ++ done)

/-- What the end of the byte sequence completes: a character begun is replaced. -/
def finish : Decoder → List Char
  | .between => []
  | .begun _ => [replacement]
  | .surrogate => [replacement, replacement]

/-- The text of a whole byte sequence. -/
def decode (bytes : List UInt8) : List Char :=
  let (chars, decoder) := pushAll .between bytes []
  chars ++ finish decoder

/-- The bytes of a text. -/
def encode (text : List Char) : List UInt8 :=
  text.flatMap String.utf8EncodeChar

end Shell.Text.Utf8
