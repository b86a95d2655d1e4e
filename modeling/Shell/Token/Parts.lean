/-
The parts of a word.

`readParts` reads parts up to an unquoted character that ends the word. Expansions
hold text that is read for parts in its turn, with nothing that would end it: the
expression of `$((...))` and the argument of `${NAME-...}`. The source of a command
substitution is kept as it is.
-/
import Shell.Name
import Shell.Token.Scan

set_option autoImplicit false

namespace Shell

open Shell.Text

/-! ## `${...}` -/

/-- The content of `${...}`, apart from the argument of an operator. -/
inductive Braced where
  | parameter (name : List Char)
  | length (name : List Char)
  | conditional (name : List Char) (op : ParameterOp)

namespace Braced

/-- The characters that name a parameter alone. -/
def isSpecial (c : Char) : Bool := c == '?' || c == '#' || c == '@' || c == '*' || c == '$'

/-- How many characters at the start of a text name a parameter: those of a name, of
a number, or one special character. -/
def parameterExtent : List Char → Nat
  | [] => 0
  | c :: cs =>
    if Name.isStart c then 1 + (cs.takeWhile Name.isRest).length
    else if isAsciiDigit c then 1 + (cs.takeWhile isAsciiDigit).length
    else if isSpecial c then 1
    else 0

/-- The action that a character of an operator stands for. -/
def action? (c : Char) : Option ParameterAction :=
  if c = '-' then some .substitute
  else if c = '=' then some .assign
  else if c = '+' then some .alternative
  else if c = '?' then some .require
  else none

/-- The operator at the start of a text. -/
def operator? : List Char → Option ParameterOp
  | ':' :: c :: _ => (action? c).map (⟨true, ·⟩)
  | c :: _ => (action? c).map (⟨false, ·⟩)
  | [] => none

/-- The parameter that `${#...}` asks the length of, if it does: any but `$`, with at
most a newline after it. -/
def length? : List Char → Option (List Char)
  | '#' :: cs =>
    let n := parameterExtent cs
    let name := cs.take n
    if 0 < n ∧ name ≠ ['$'] ∧ (cs.drop n = [] ∨ cs.drop n = ['\n']) then some name else none
  | _ => none

/-- The meaning of the content of `${...}`; none if it has none. -/
def ofContent? (content : List Char) : Option Braced :=
  match length? content with
  | some name => some (.length name)
  | none =>
    let n := parameterExtent content
    let name := content.take n
    if n = 0 then none
    else match operator? (content.drop n) with
      | some op => some (.conditional name op)
      | none => if (content.drop n).isEmpty then some (.parameter name) else none

end Braced

/-- How many characters an operator has. -/
def ParameterOp.extent (op : ParameterOp) : Nat := if op.colon then 2 else 1

/-! ## What a dollar sign or a backquote opens -/

/-- The forms of expansion. -/
inductive Opening.Form where
  | arithmetic | command | backquoted | braced | parameter
  /-- A dollar sign that opens nothing. -/
  | dollar
  deriving DecidableEq, Repr

/-- An expansion that has been found in a text and not been read yet. -/
structure Opening where
  form : Opening.Form
  content : List Char
  /-- The place of the content. -/
  start : Place
  /-- The expansion as written. -/
  written : List Char
  /-- What follows the expansion. -/
  rest : List Char
  /-- The place of what follows. -/
  stop : Place

namespace Opening

/-- A region with the texts that open and close it. -/
def ofRegion (form : Form) (start : Place) (opener closer : List Char) (region : Scan.Region) :
    Opening :=
  ⟨form, region.content, start, opener ++ region.content ++ closer, region.rest, region.place⟩

/-- How many characters after a dollar sign name a parameter without braces: letters,
digits and underscores if the first is no digit, or one digit or special
character. -/
def plainExtent : List Char → Nat
  | [] => 0
  | c :: cs =>
    if isLetter c || c == '_' then
      1 + (cs.takeWhile fun d => isAlphanumeric d || d == '_').length
    else if isDigit c || Braced.isSpecial c then 1
    else 0

/-- The parameter that a dollar sign at `place` opens, with `cs` after it; just the
dollar sign if there is none. -/
def plain (place : Place) (cs : List Char) : Opening :=
  let n := plainExtent cs
  let start := place.after '$'
  ⟨if n = 0 then .dollar else .parameter, cs.take n, start, '$' :: cs.take n, cs.drop n,
    start.advance (cs.take n)⟩

/-- What a dollar sign at `place` opens, with `cs` after it. -/
def dollar (place : Place) (cs : List Char) : Except ScriptError Opening :=
  match cs with
  | '(' :: '(' :: body =>
    let start := place.advance ['$', '(', '(']
    let missing := ⟨.unterminated .arithmeticExpansion, place.after '$'⟩
    match Scan.expression .arithmeticExpansion missing .none 0 [] start body with
    | .ok region => .ok (ofRegion .arithmetic start ['$', '(', '('] [')', ')'] region)
    | .error e => .error e
  | '(' :: body =>
    let start := place.advance ['$', '(']
    let missing := ⟨.unterminated .commandSubstitution, place⟩
    match Scan.balanced '(' ')' missing .none 0 [] start body with
    | .ok region => .ok (ofRegion .command start ['$', '('] [')'] region)
    | .error e => .error e
  | '\x7b' :: body =>
    let start := place.advance ['$', '\x7b']
    let missing := ⟨.unterminated .parameterExpansion, place⟩
    match Scan.balanced '\x7b' '\x7d' missing .none 0 [] start body with
    | .ok region => .ok (ofRegion .braced start ['$', '\x7b'] ['\x7d'] region)
    | .error e => .error e
  | cs => .ok (plain place cs)

/-- What the character `c` at `place` opens, with `cs` after it; none if it is
neither a dollar sign nor a backquote. -/
def at? (place : Place) (c : Char) (cs : List Char) : Except ScriptError (Option Opening) :=
  if c = '$' then
    match dollar place cs with
    | .ok opening => .ok (some opening)
    | .error e => .error e
  else if c = '\x60' then
    let start := place.after c
    match Scan.backquoted place [] start cs with
    | .ok region => .ok (some (ofRegion .backquoted start ['\x60'] ['\x60'] region))
    | .error e => .error e
  else .ok none

theorem dollar_length {place : Place} {cs : List Char} {opening : Opening}
    (h : dollar place cs = .ok opening) :
    opening.content.length + opening.rest.length ≤ cs.length := by
  unfold dollar at h
  split at h
  all_goals grind [ofRegion, plain, → Scan.expression_length, → Scan.balanced_length]

/-- An expansion and what follows it are cut out of the text after its first
character. -/
theorem at?_length {place : Place} {c : Char} {cs : List Char} {opening : Opening}
    (h : at? place c cs = .ok (some opening)) :
    opening.content.length + opening.rest.length ≤ cs.length := by
  unfold at? at h
  grind [ofRegion, → dollar_length, → Scan.backquoted_length]

end Opening

/-! ## Reading parts -/

/-- The parts read from the start of a text, with the text they were read from, and
what follows. -/
structure Piece where
  parts : List WordPart
  text : List Char
  rest : List Char
  place : Place

/-- What has been read of a word. All lists are backwards. -/
structure Reading where
  /-- Inside double quotes: their place, and the parts before them. -/
  outer : Option (Place × List WordPart) := none
  /-- The parts read at this level. -/
  parts : List WordPart := []
  /-- The unquoted text after the last part. -/
  run : List Char := []
  /-- All characters read. -/
  text : List Char := []

namespace Reading

/-- Counts characters as read, without effect on the parts. -/
def skip (r : Reading) (cs : List Char) : Reading :=
  { r with text := cs.reverse ++ r.text }

/-- Adds a character to the unquoted text. -/
def plain (r : Reading) (c : Char) : Reading := { r with run := c :: r.run }

/-- The parts read at this level, with the unquoted text as the last of them. -/
def flushed (r : Reading) : List WordPart :=
  if r.run.isEmpty then r.parts else .literal (String.ofList r.run.reverse) :: r.parts

/-- Adds a part. -/
def push (r : Reading) (part : WordPart) : Reading :=
  { r with parts := part :: r.flushed, run := [] }

/-- Enters double quotes at `place`. -/
def enter (r : Reading) (place : Place) : Reading :=
  { r with outer := some (place, r.flushed), parts := [], run := [] }

/-- Leaves double quotes, `outer` being the parts before them. -/
def leave (r : Reading) (outer : List WordPart) : Reading :=
  { r with outer := none, parts := .doubleQuoted r.flushed.reverse :: outer, run := [] }

/-- The word read, with `rest` at `place` after it. -/
def finish (r : Reading) (rest : List Char) (place : Place) : Piece :=
  ⟨r.flushed.reverse, r.text.reverse, rest, place⟩

end Reading

/-- The characters that a backslash in double quotes escapes. -/
def isDoubleQuoteEscape (c : Char) : Bool := c == '"' || c == '\\' || c == '$' || c == '\x60'

mutual

/-- Reads parts of a word up to an unquoted character that `stop` holds of, or to
the end of the text. -/
def readParts (stop : Char → Bool) (r : Reading) (place : Place) (cs : List Char) :
    Except ScriptError Piece :=
  match cs with
  | [] =>
    match r.outer with
    | none => .ok (r.finish [] place)
    | some (start, _) => .error ⟨.unterminatedDoubleQuote, start⟩
  | c :: cs =>
    let next := place.after c
    match r.outer with
    | none =>
      if stop c then .ok (r.finish (c :: cs) place)
      else if c = '\\' then
        match cs with
        | [] => readParts stop ((r.plain c).skip [c]) next []
        | d :: ds =>
          let read := r.skip [c, d]
          readParts stop (if d = '\n' then read else read.push (.escaped d)) (next.after d) ds
      else if c = '\'' then
        match _h : Scan.singleQuoted place [] next cs with
        | .error e => .error e
        | .ok region =>
          let read := r.skip (c :: region.content ++ [c])
          readParts stop (read.push (.singleQuoted (String.ofList region.content))) region.place
            region.rest
      else if c = '"' then readParts stop ((r.skip [c]).enter place) next cs
      else readExpansion stop r place c cs
    | some (_, outer) =>
      if c = '"' then readParts stop ((r.skip [c]).leave outer) next cs
      else if c = '\\' then
        match cs with
        | [] => readParts stop ((r.plain c).skip [c]) next []
        | d :: ds =>
          if d = '\n' then readParts stop (r.skip [c, d]) (next.after d) ds
          else if isDoubleQuoteEscape d then
            readParts stop ((r.plain d).skip [c, d]) (next.after d) ds
          else readParts stop ((r.plain c).skip [c]) next (d :: ds)
      else readExpansion stop r place c cs
termination_by (cs.length, 1)
decreasing_by
  all_goals grind [→ Scan.singleQuoted_length]

/-- Goes on with the character `c` at `place`, which may start an expansion and is
unquoted text otherwise. -/
def readExpansion (stop : Char → Bool) (r : Reading) (place : Place) (c : Char) (cs : List Char) :
    Except ScriptError Piece :=
  match _h : Opening.at? place c cs with
  | .error e => .error e
  | .ok none => readParts stop ((r.plain c).skip [c]) (place.after c) cs
  | .ok (some opening) =>
    let read := r.skip opening.written
    match readPart place opening with
    | .error e => .error e
    | .ok none => readParts stop (read.plain c) opening.stop opening.rest
    | .ok (some part) => readParts stop (read.push part) opening.stop opening.rest
termination_by (cs.length + 1, 0)
decreasing_by
  all_goals grind [→ Opening.at?_length]

/-- The part that an expansion found at `place` is; none for a dollar sign that opens
nothing. -/
def readPart (place : Place) (opening : Opening) : Except ScriptError (Option WordPart) :=
  let content := opening.content
  match opening.form with
  | .dollar => .ok none
  | .parameter => .ok (some (.parameter (String.ofList content)))
  | .command => .ok (some (.substitution (String.ofList content) opening.start none))
  | .backquoted =>
    let source := String.ofList (Scan.unescapeBackquoted content)
    .ok (some (.substitution source opening.start none))
  | .arithmetic =>
    match readParts (fun _ => false) {} opening.start content with
    | .error e => .error e
    | .ok piece => .ok (some (.arithmetic ⟨place.line, piece.parts⟩))
  | .braced =>
    match Braced.ofContent? content with
    | none => .error ⟨.badSubstitution (String.ofList content), place⟩
    | some (.parameter name) => .ok (some (.parameter (String.ofList name)))
    | some (.length name) => .ok (some (.length (String.ofList name)))
    | some (.conditional name op) =>
      let n := name.length + op.extent
      let start := opening.start.advance (content.take n)
      match readParts (fun _ => false) {} start (content.drop n) with
      | .error e => .error e
      | .ok piece => .ok (some (.conditional (String.ofList name) op ⟨0, piece.parts⟩))
termination_by (opening.content.length, 2)
decreasing_by
  all_goals grind

end

/-! ## What is left gets shorter -/

/-- The text after the parts is no longer than the text before them; both readers
are treated together, by the length of the text. -/
theorem read_length (n : Nat) :
    (∀ {stop r place cs piece}, cs.length ≤ n → readParts stop r place cs = .ok piece →
      piece.rest.length ≤ cs.length) ∧
    (∀ {stop r place c cs piece}, cs.length < n → readExpansion stop r place c cs = .ok piece →
      piece.rest.length ≤ cs.length) := by
  induction n with
  | zero =>
    refine ⟨fun {stop r place cs piece} hn h => ?_, fun hn => by omega⟩
    obtain rfl : cs = [] := List.length_eq_zero_iff.1 (by omega)
    unfold readParts at h
    grind [Reading.finish]
  | succ n ih =>
    obtain ⟨parts, expansion⟩ := ih
    have expansion' : ∀ {stop r place c cs piece}, cs.length < n + 1 →
        readExpansion stop r place c cs = .ok piece → piece.rest.length ≤ cs.length := by
      intro stop r place c cs piece hn h
      unfold readExpansion at h
      grind [→ Opening.at?_length]
    refine ⟨fun {stop r place cs piece} hn h => ?_, expansion'⟩
    unfold readParts at h
    split at h
    · grind [Reading.finish]
    · split at h
      all_goals grind [Reading.finish, → Scan.singleQuoted_length]

theorem readParts_length {stop : Char → Bool} {r : Reading} {place : Place} {cs : List Char}
    {piece : Piece} (h : readParts stop r place cs = .ok piece) :
    piece.rest.length ≤ cs.length :=
  (read_length cs.length).1 (Nat.le_refl _) h

theorem readExpansion_length {stop : Char → Bool} {r : Reading} {place : Place} {c : Char}
    {cs : List Char} {piece : Piece} (h : readExpansion stop r place c cs = .ok piece) :
    piece.rest.length ≤ cs.length :=
  (read_length (cs.length + 1)).2 (Nat.lt_succ_self _) h

/-- A word that starts with a character that does not end it has that character. -/
theorem readParts_length_lt {stop : Char → Bool} {r : Reading} {place : Place} {c : Char}
    {cs : List Char} {piece : Piece} (outside : r.outer = none) (go : stop c = false)
    (h : readParts stop r place (c :: cs) = .ok piece) : piece.rest.length < (c :: cs).length := by
  unfold readParts at h
  grind [→ readParts_length, → readExpansion_length, → Scan.singleQuoted_length]

end Shell
