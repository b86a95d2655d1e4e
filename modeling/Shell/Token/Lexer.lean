/-
From the text of a script to its tokens.

Between tokens there are blanks, tabs, backslashes before newlines, and comments.
The reader knows whether a command may start at the next token: at the beginning,
after a newline, an operator or a keyword, after an assignment before a command,
and after the name in `function NAME`. Only there is the text of a keyword a
keyword and `((` the start of an arithmetic command.
-/
import Shell.Token
import Shell.Token.Parts

set_option autoImplicit false

namespace Shell

/-- The number of characters a script may have. -/
def maxScriptSize : Nat := 1000000

/-- The unquoted characters that end a word. -/
def isMetacharacter (c : Char) : Bool :=
  c == ' ' || c == '\t' || c == '\n' || c == ';' || c == '|' || c == '&' || c == '(' || c == ')' ||
    c == '<' || c == '>'

/-- The operator that a text starts with, the longer one if there are two. -/
def operatorAt? : List Char → Option Operator
  | '&' :: '&' :: _ => some .andIf
  | '|' :: '|' :: _ => some .orIf
  | ';' :: _ => some .semicolon
  | '|' :: _ => some .pipe
  | '&' :: _ => some .ampersand
  | '(' :: _ => some .leftParen
  | ')' :: _ => some .rightParen
  | '<' :: _ => some .less
  | '>' :: _ => some .greater
  | _ => none

/-- Whether a word starts like an assignment: with a name and `=` or `+=`. -/
def startsAssignment (text : List Char) : Bool :=
  match text with
  | [] => false
  | c :: cs =>
    Name.isStart c &&
      match cs.dropWhile Name.isRest with
      | '=' :: _ | '+' :: '=' :: _ => true
      | _ => false

/-- The tokens read from a script so far, the last one first, and whether a command
may start now. -/
structure Tokens where
  done : List Token := []
  commandStart : Bool := true

namespace Tokens

def push (ts : Tokens) (lexeme : Lexeme) (place : Place) (commandStart : Bool) : Tokens :=
  ⟨⟨lexeme, place⟩ :: ts.done, commandStart⟩

/-- Whether the last token is the keyword `function`. -/
def isAfterFunction (ts : Tokens) : Bool :=
  match ts.done with
  | ⟨.reserved .function, _⟩ :: _ => true
  | _ => false

/-- Adds the word that was read at `place`. -/
def pushWord (ts : Tokens) (place : Place) (piece : Piece) : Tokens :=
  let text := String.ofList piece.text
  let quoted := piece.parts.any WordPart.isQuoted
  match if ts.commandStart && !quoted then Keyword.ofText? text else none with
  | some keyword => ts.push (.reserved keyword) place ts.commandStart
  | none =>
    ts.push (.word text piece.parts) place
      (ts.isAfterFunction || (ts.commandStart && startsAssignment piece.text))

end Tokens

/-- A character that is neither blank nor the start of an operator belongs to a
word. -/
theorem isMetacharacter_eq_false {c : Char} {cs : List Char} (blank : ¬(c = ' ' ∨ c = '\t'))
    (newline : c ≠ '\n') (h : operatorAt? (c :: cs) = none) : isMetacharacter c = false := by
  unfold operatorAt? at h
  split at h
  all_goals simp_all [isMetacharacter]

theorem readWord_length {place : Place} {c : Char} {cs : List Char} {piece : Piece}
    (go : isMetacharacter c = false)
    (h : readParts isMetacharacter {} place (c :: cs) = .ok piece) :
    piece.rest.length < (c :: cs).length :=
  readParts_length_lt rfl go h

/-- The tokens of the rest `cs` of a script, which starts at `place`. -/
def tokensFrom (ts : Tokens) (place : Place) (cs : List Char) : Except ScriptError (List Token) :=
  match cs with
  | [] => .ok (ts.push .endOfInput place ts.commandStart).done.reverse
  | c :: cs =>
    if c = ' ' ∨ c = '\t' then tokensFrom ts (place.after c) cs
    else if c = '\\' ∧ cs.head? = some '\n' then
      tokensFrom ts (place.advance [c, '\n']) (cs.drop 1)
    else if c = '\n' then tokensFrom (ts.push .newline place true) (place.after c) cs
    else if c = '#' then
      let comment := cs.takeWhile (· ≠ '\n')
      tokensFrom ts ((place.after c).advance comment) (cs.drop comment.length)
    else if ts.commandStart ∧ c = '(' ∧ cs.head? = some '(' then
      let start := place.advance ['(', '(']
      match _h : Scan.expression .arithmeticCommand ⟨.unterminated .arithmeticCommand, place⟩ .none 0
          [] start (cs.drop 1) with
      | .error e => .error e
      | .ok region =>
        match readParts (fun _ => false) {} start region.content with
        | .error e => .error e
        | .ok piece =>
          let lexeme := .arithmetic (String.ofList region.content) piece.parts
          tokensFrom (ts.push lexeme place false) region.place region.rest
    else
      match _h : operatorAt? (c :: cs) with
      | some op =>
        tokensFrom (ts.push (.operator op) place true) (place.advance op.text.toList)
          (cs.drop (op.text.length - 1))
      | none =>
        match _hp : readParts isMetacharacter {} place (c :: cs) with
        | .error e => .error e
        | .ok piece => tokensFrom (ts.pushWord place piece) piece.place piece.rest
termination_by cs.length
decreasing_by
  all_goals simp only [List.length_cons, List.length_drop]
  all_goals grind [→ Scan.expression_length, → readWord_length, → isMetacharacter_eq_false]

/-- The tokens of a script that starts at `origin`, with the end of the input as the
last one. -/
def tokenize (text : List Char) (origin : Place) : Except ScriptError (List Token) :=
  if maxScriptSize < text.length then
    .error ⟨.inputTooLarge text.length maxScriptSize, ⟨0, 0⟩⟩
  else tokensFrom {} origin text

end Shell
