/-
Lines of a text.

`splitLines` cuts at every line boundary of Unicode and keeps each boundary with
its line; `joinNewlines` spells the three usual line ends as one newline;
`numberedLine` puts a number before a line.
-/
set_option autoImplicit false

namespace Shell.Text

/-- The characters that end a line: line feed, vertical tab, form feed, carriage
return, the separators U+001C to U+001E, next line, and the line and paragraph
separators. -/
def isLineBoundary (c : Char) : Bool :=
  let n := c.toNat
  (0xA ≤ n && n ≤ 0xD) || (0x1C ≤ n && n ≤ 0x1E) || n == 0x85 || n == 0x2028 || n == 0x2029

/-- One line: its characters and the boundary that ends it, which is empty at the
end of the text. -/
structure Line where
  content : List Char
  boundary : List Char
  deriving DecidableEq, Repr

/-- The line with its boundary. -/
def Line.toList (line : Line) : List Char := line.content ++ line.boundary

/-- `splitLines` with the line begun and the lines before it, both backwards. -/
def splitLinesFrom : (content : List Char) → (lines : List Line) → List Char → List Line
  | [], lines, [] => lines.reverse
  | content, lines, [] => (⟨content.reverse, []⟩ :: lines).reverse
  | content, lines, '\r' :: '\n' :: cs =>
    splitLinesFrom [] (⟨content.reverse, ['\r', '\n']⟩ :: lines) cs
  | content, lines, c :: cs =>
    if isLineBoundary c then splitLinesFrom [] (⟨content.reverse, [c]⟩ :: lines) cs
    else splitLinesFrom (c :: content) lines cs

/-- The lines of a text. A carriage return and the line feed after it are one
boundary, and no line follows the last boundary. -/
def splitLines (text : List Char) : List Line := splitLinesFrom [] [] text

/-- The text with each carriage return, alone or before a line feed, written as a
line feed. The characters before `text` are given backwards. -/
def joinNewlinesFrom : (done : List Char) → List Char → List Char
  | done, [] => done.reverse
  | done, '\r' :: '\n' :: cs => joinNewlinesFrom ('\n' :: done) cs
  | done, '\r' :: cs => joinNewlinesFrom ('\n' :: done) cs
  | done, c :: cs => joinNewlinesFrom (c :: done) cs

/-- The text with `\r\n` and `\r` written as `\n`. -/
def joinNewlines (text : List Char) : List Char := joinNewlinesFrom [] text

/-- A line behind its number, which is moved to the right in six columns. -/
def numberedLine (number : Nat) (line : String) : String :=
  let digits := toString number
  "".pushn ' ' (6 - digits.length) ++ digits ++ "\t" ++ line

end Shell.Text
