/-
From tokens to a script.

The grammar, loosest first:

    list      := and_or ((';' | NEWLINE) and_or)*
    and_or    := pipeline (('&&' | '||') NEWLINE* pipeline)*
    pipeline  := '!'* command ('|' NEWLINE* command)*
    command   := compound | function | simple

A parser reads from the front of the tokens that are left and counts the tokens it
passes. Lists inside compound commands are read by the parameter `list`, and
`commandAt` ties the knot: `commandAt n` reads commands that are nested in each
other less than `n` deep. A compound command passes its keyword before its lists, so
the number of tokens bounds the depth.

The sources of command substitutions are scripts themselves. They are parsed when the
word that holds them is passed, which `parseAt` does by recursion on a bound for the
length: the source is shorter than the text around it.
-/
import Shell.Token.Lexer

set_option autoImplicit false

namespace Shell

open Shell.Text

/-- The number of tokens a script may have, with the end of the input. -/
def maxTokens : Nat := 100000

/-- The number of tokens a parser may pass. -/
def maxSteps : Nat := 1000000

/-! ## Parsers -/

/-- Where a parser is: the tokens left before the end of the input, the place of the
end, and the number of tokens passed. `bound` is the number of all tokens; no loop
takes more turns, as each turn passes a token. -/
structure Parsing where
  rest : List Token
  stop : Place
  bound : Nat
  steps : Nat

abbrev Parser := StateT Parsing (Except ScriptError)

/-- The token `n` places ahead; the end of the input if there are not so many. -/
def Parsing.ahead (s : Parsing) (n : Nat) : Token :=
  s.rest[n]?.getD ⟨.endOfInput, s.stop⟩

/-- The keywords and signs that end a list. -/
inductive Closer where
  | keyword (keyword : Keyword)
  | rightParen
  deriving DecidableEq, Repr

namespace Parser

def fail {α : Type} (cause : ScriptError.Cause) (place : Place) : Parser α :=
  throw ⟨cause, place⟩

def peek : Parser Token := return (← get).ahead 0

/-- Passes a token, if any is left. -/
def advance : Parser Token := do
  let s ← get
  if maxSteps ≤ s.steps then fail .tooManySteps ⟨0, 0⟩
  set { s with rest := s.rest.drop 1, steps := s.steps + 1 }
  return s.ahead 0

/-- Passes `n` tokens. -/
def advanceBy : Nat → Parser Unit
  | 0 => return
  | n + 1 => do
    let _ ← advance
    advanceBy n

def Lexeme.isNewline : Lexeme → Bool
  | .newline => true
  | _ => false

def skipNewlines : Parser Unit := do
  advanceBy ((← get).rest.takeWhile fun t => Lexeme.isNewline t.lexeme).length

/-- What is found at a token, for a diagnostic. -/
def found (token : Token) : Found :=
  match token.lexeme with
  | .endOfInput => .endOfInput
  | .newline => .newline
  | lexeme => .text lexeme.text

def unexpected {α : Type} (token : Token) (expected : Option String) : Parser α :=
  fail (.unexpected (found token) expected) token.place

def isOperator (op : Operator) (token : Token) : Bool :=
  match token.lexeme with
  | .operator o => o == op
  | _ => false

def isReserved (keyword : Keyword) (token : Token) : Bool :=
  match token.lexeme with
  | .reserved k => k == keyword
  | _ => false

def isWord (token : Token) : Bool :=
  match token.lexeme with
  | .word .. => true
  | _ => false

/-- Whether a token is an unquoted word with the given text. -/
def isWordText (text : String) (token : Token) : Bool :=
  match token.lexeme with
  | .word t _ => t == text && !token.lexeme.isQuoted
  | _ => false

/-- Passes a keyword. Where no command may start it comes as a word. -/
def expectKeyword (keyword : Keyword) (context : String) : Parser Unit := do
  let token ← peek
  if isReserved keyword token || isWordText keyword.text token then
    let _ ← advance
  else fail (.expected keyword.text context (found token)) token.place

def expectOperator (op : Operator) (context : String) : Parser Unit := do
  let token ← peek
  if isOperator op token then
    let _ ← advance
  else fail (.expected op.text context (found token)) token.place

/-- Whether a list ends at a token. -/
def isClosed (closers : List Closer) (token : Token) : Bool :=
  match token.lexeme with
  | .endOfInput => true
  | .reserved k => closers.contains (.keyword k)
  | .operator .rightParen => closers.contains .rightParen
  | _ => false

/-- A bound for the number of tokens left. -/
def bound : Parser Nat := return (← get).bound

/-- A diagnostic's note of the line where a compound command starts. -/
def onLine (token : Token) : String := "(line " ++ toString token.place.line ++ ")"

end Parser

/-! ## Words -/

/-- Reads the source of a command substitution that starts at a place. -/
abbrev SourceReader := String → Place → Except ScriptError Sequence

mutual

/-- Gives the command substitutions of a part their bodies. -/
def WordPart.resolve (read : SourceReader) : WordPart → Except ScriptError WordPart
  | .substitution source place none => do
    return .substitution source place (some (← read source place))
  | .doubleQuoted parts => return .doubleQuoted (← resolveParts read parts)
  | .conditional name op argument => return .conditional name op (← argument.resolve read)
  | .arithmetic expression => return .arithmetic (← expression.resolve read)
  | part => return part

/-- Gives the command substitutions of parts their bodies. -/
def resolveParts (read : SourceReader) : List WordPart → Except ScriptError (List WordPart)
  | [] => return []
  | part :: parts => do
    let part ← part.resolve read
    return part :: (← resolveParts read parts)

/-- Gives the command substitutions of a word their bodies. -/
def Word.resolve (read : SourceReader) : Word → Except ScriptError Word
  | ⟨line, parts⟩ => return ⟨line, ← resolveParts read parts⟩

end

namespace Parser

/-- The characters that may start an assignment that is then checked: digits may
come first, so that `1x=y` is refused and not run as a command. -/
def isAssignmentName (c : Char) : Bool := isAsciiLetter c || isAsciiDigit c || c == '_'

/-- The head of an assignment at the start of an unquoted text: the name, whether
the value is appended, and the text after `=`. -/
def assignmentHead? (text : List Char) : Option (List Char × Bool × List Char) :=
  let name := text.takeWhile isAssignmentName
  if name.isEmpty then none
  else match text.dropWhile isAssignmentName with
    | '=' :: rest => some (name, false, rest)
    | '+' :: '=' :: rest => some (name, true, rest)
    | _ => none

/-- The assignment that a word token is, if it is one. -/
def assignment? (read : SourceReader) (token : Token) : Parser (Option Assignment) :=
  match token.lexeme.parts with
  | .literal head :: parts =>
    match assignmentHead? head.toList with
    | none => return none
    | some (name, append, rest) => do
      if !Name.isValid name then
        fail (.invalidAssignmentName (String.ofList name)) token.place
      let parts := if rest.isEmpty then parts else .literal (String.ofList rest) :: parts
      let value ← liftM (Word.resolve read ⟨token.place.line, parts⟩)
      return some ⟨String.ofList name, append, value, token.place.line⟩
  | _ => return none

/-- The word that a token is. -/
def word (read : SourceReader) (token : Token) : Parser Word :=
  liftM (Word.resolve read ⟨token.place.line, token.lexeme.parts⟩)

/-! ## Simple commands -/

/-- The words of a simple command, at most `n` of them, after the given ones, which
are backwards. Words before the command name may be assignments. -/
def simpleWords (read : SourceReader) :
    Nat → List Assignment → List Word → Parser (List Assignment × List Word)
  | 0, assignments, words => return (assignments.reverse, words.reverse)
  | n + 1, assignments, words => do
    if !isWord (← peek) then return (assignments.reverse, words.reverse)
    let token ← advance
    match ← if words.isEmpty then assignment? read token else pure none with
    | some a => simpleWords read n (a :: assignments) words
    | none => simpleWords read n assignments ((← word read token) :: words)

def simple (read : SourceReader) : Parser Command := do
  let first ← peek
  let (assignments, words) ← simpleWords read (← bound) [] []
  let token ← peek
  if isOperator .less token || isOperator .greater token then fail .redirection token.place
  if isOperator .leftParen token then unexpected token none
  return .simple first.place.line words.head? (words.drop 1) assignments

/-! ## Compound commands -/

section
variable (read : SourceReader) (list : List Closer → Parser Sequence)

/-- A list that is not empty. -/
def body (closers : List Closer) (context : String) : Parser Sequence := do
  let sequence ← list closers
  if sequence.statements.isEmpty then unexpected (← peek) (some ("commands " ++ context))
  return sequence

/-- The `elif` branches of a choice, at most `n` of them. -/
def branches : Nat → List Branch → Parser (List Branch)
  | 0, done => return done.reverse
  | n + 1, done => do
    if !isReserved .elif (← peek) then return done.reverse
    let _ ← advance
    let condition ← body list [.keyword .then] "after 'elif'"
    expectKeyword .then "after 'elif' condition"
    let guarded ← body list [.keyword .elif, .keyword .else, .keyword .fi] "after 'then'"
    branches n (⟨condition, guarded⟩ :: done)

def choice : Parser Command := do
  let start ← advance
  let condition ← body list [.keyword .then] "after 'if'"
  expectKeyword .then ("after 'if' condition " ++ onLine start)
  let guarded ← body list [.keyword .elif, .keyword .else, .keyword .fi] "after 'then'"
  let branches ← branches list (← bound) []
  let otherwise ←
    if isReserved .else (← peek) then do
      let _ ← advance
      pure (some (← body list [.keyword .fi] "after 'else'"))
    else pure none
  expectKeyword .fi ("to close 'if' " ++ onLine start)
  return .choice start.place.line condition guarded branches otherwise

def loop (kind : LoopKind) (keyword : String) : Parser Command := do
  let start ← advance
  let condition ← body list [.keyword .do] ("after '" ++ keyword ++ "'")
  expectKeyword .do ("after '" ++ keyword ++ "' condition " ++ onLine start)
  let repeated ← body list [.keyword .done] "after 'do'"
  expectKeyword .done ("to close '" ++ keyword ++ "' " ++ onLine start)
  return .loop start.place.line kind condition repeated

/-- The words after `in`, at most `n` of them. -/
def forWords : Nat → List Word → Parser (List Word)
  | 0, done => return done.reverse
  | n + 1, done => do
    if !isWord (← peek) then return done.reverse
    let token ← advance
    forWords n ((← word read token) :: done)

def each : Parser Command := do
  let start ← advance
  let name ← peek
  if !(isWord name && Name.isValid name.lexeme.text.toList) then
    fail (.variableNameExpected (found name)) name.place
  let _ ← advance
  skipNewlines
  let words ←
    if isWordText "in" (← peek) then do
      let _ ← advance
      pure (some (← forWords read (← bound) []))
    else pure none
  if isOperator .semicolon (← peek) then
    let _ ← advance
  skipNewlines
  expectKeyword .do ("in 'for' loop " ++ onLine start)
  let repeated ← body list [.keyword .done] "after 'do'"
  expectKeyword .done ("to close 'for' " ++ onLine start)
  return .each start.place.line name.lexeme.text words repeated

/-- A list in braces, and the line it starts on. -/
def group : Parser (Nat × Sequence) := do
  let start ← advance
  let sequence ← body list [.keyword .rightBrace] "after '\x7b'"
  expectKeyword .rightBrace ("to close '\x7b' " ++ onLine start)
  return (start.place.line, sequence)

/-- A list in parentheses, and the line it starts on. -/
def subshell : Parser (Nat × Sequence) := do
  let start ← advance
  let sequence ← body list [.rightParen] "after '('"
  expectOperator .rightParen ("to close '(' " ++ onLine start)
  return (start.place.line, sequence)

/-! ## Functions -/

/-- The characters that may follow in the name of a function. -/
def isFunctionRest (c : Char) : Bool := Name.isRest c || c == '.' || c == ':' || c == '-'

/-- Whether a text may name a function. -/
def isFunctionName : List Char → Bool
  | [] => false
  | c :: cs => Name.isStart c && cs.all isFunctionRest

/-- The sequence of one command. -/
def ofCommand (command : Command) : Sequence := ⟨[⟨⟨false, command, []⟩, []⟩]⟩

/-- The body of a function whose name is `name`, which starts on the given line. -/
def functionBody (name : Token) (line : Nat) : Parser Command := do
  let text := name.lexeme.text
  if name.lexeme.isQuoted || !isFunctionName text.toList then
    fail (.invalidFunctionName text) name.place
  skipNewlines
  let token ← peek
  if isReserved .leftBrace token then
    return .function line text (← group list).2
  else if isOperator .leftParen token then
    let (start, sequence) ← subshell list
    return .function line text (ofCommand (.subshell start sequence))
  else unexpected token (some ("'\x7b' to start the body of function '" ++ text ++ "'"))

/-- `function NAME`, with `()` after it or not, and the body. -/
def functionKeyword : Parser Command := do
  let start ← advance
  let name ← peek
  if !isWord name then unexpected name (some "a function name")
  let _ ← advance
  if isOperator .leftParen (← peek) then
    let _ ← advance
    expectOperator .rightParen "in function definition"
  functionBody list name start.place.line

/-- `NAME()` and the body. -/
def functionDefinition : Parser Command := do
  let name ← advance
  expectOperator .leftParen "in function definition"
  expectOperator .rightParen "in function definition"
  functionBody list name name.place.line

/-! ## Commands and lists -/

def command : Parser Command := do
  let token ← peek
  match token.lexeme with
  | .reserved .if => choice list
  | .reserved .while => loop list .while "while"
  | .reserved .until => loop list .until "until"
  | .reserved .for => each read list
  | .reserved .leftBrace =>
    let (line, sequence) ← group list
    return .group line sequence
  | .reserved .function => functionKeyword list
  | .operator .leftParen =>
    let (line, sequence) ← subshell list
    return .subshell line sequence
  | .operator .ampersand => fail .backgroundExecution token.place
  | .operator .less | .operator .greater => fail .redirection token.place
  | .arithmetic .. =>
    let _ ← advance
    return .arithmetic token.place.line (← word read token)
  | .word .. =>
    if isOperator .leftParen ((← get).ahead 1) then functionDefinition list
    else simple read
  | _ => unexpected token (some "a command")

end

section
variable (command : Parser Command)

/-- Leading `!` signs, at most `n` of them, after an odd number of others or not. -/
def negations : Nat → Bool → Parser Bool
  | 0, negated => return negated
  | n + 1, negated => do
    if !isReserved .bang (← peek) then return negated
    let _ ← advance
    negations n !negated

/-- The further commands of a pipeline, at most `n` of them. -/
def pipelineRest : Nat → List Command → Parser (List Command)
  | 0, done => return done.reverse
  | n + 1, done => do
    if !isOperator .pipe (← peek) then return done.reverse
    let _ ← advance
    skipNewlines
    pipelineRest n ((← command) :: done)

def pipeline : Parser Pipeline := do
  let negated ← negations (← bound) false
  let first ← command
  return ⟨negated, first, ← pipelineRest command (← bound) []⟩

/-- The connective that a token is. -/
def connective? (token : Token) : Option Connective :=
  match token.lexeme with
  | .operator .andIf => some .and
  | .operator .orIf => some .or
  | _ => none

/-- The further pipelines of an and-or list, at most `n` of them. -/
def andOrRest : Nat → List Joined → Parser (List Joined)
  | 0, done => return done.reverse
  | n + 1, done => do
    match connective? (← peek) with
    | none => return done.reverse
    | some connective =>
      let _ ← advance
      skipNewlines
      andOrRest n (⟨connective, ← pipeline command⟩ :: done)

def andOr : Parser AndOrList := do
  let first ← pipeline command
  return ⟨first, ← andOrRest command (← bound) []⟩

/-- The statements up to a closer, at most `n` of them, after the given ones, which are
backwards. A second `;` in a row is an empty statement, which is no command. -/
def statements (closers : List Closer) : Nat → List AndOrList → Parser (List AndOrList)
  | 0, done => return done.reverse
  | n + 1, done => do
    if isClosed closers (← peek) then return done.reverse
    let statement ← andOr command
    let done := statement :: done
    let token ← peek
    match token.lexeme with
    | .operator .ampersand => fail .backgroundExecution token.place
    | .operator .semicolon =>
      let _ ← advance
      skipNewlines
      statements closers n done
    | .newline =>
      skipNewlines
      statements closers n done
    | _ => return done.reverse

def list (closers : List Closer) : Parser Sequence := do
  skipNewlines
  return ⟨← statements command closers (← bound) []⟩

end

/-- A command in which commands are nested less than `n` deep. -/
def commandAt (read : SourceReader) : Nat → Parser Command
  | 0 => fail .tooManySteps ⟨0, 0⟩
  | n + 1 => command read (list (commandAt read n))

/-- A list up to the end of the input. -/
def script (read : SourceReader) : Parser Sequence := do
  let sequence ← list (commandAt read ((← bound) + 1)) []
  let token ← peek
  match token.lexeme with
  | .endOfInput => return sequence
  | _ => unexpected token none

end Parser

/-! ## Scripts -/

/-- The script that tokens make up, of which the last one is the end of the input. -/
def parseTokens (read : SourceReader) (tokens : List Token) : Except ScriptError Sequence :=
  if maxTokens < tokens.length then
    .error ⟨.tooManyTokens tokens.length maxTokens, ⟨0, 0⟩⟩
  else
    let stop := match tokens.getLast? with
      | some token => token.place
      | none => ⟨0, 0⟩
    ((Parser.script read).run ⟨tokens.dropLast, stop, tokens.length, 0⟩).map (·.1)

/-- The script in a text shorter than `n` that starts at `origin`. -/
def parseAt : (n : Nat) → (origin : Place) → (text : List Char) → Except ScriptError Sequence
  | 0, _, _ => .error ⟨.tooManySteps, ⟨0, 0⟩⟩
  | n + 1, origin, text => do
    parseTokens (fun source place => parseAt n place source.toList) (← tokenize text origin)

/-- The script in a text that starts at `origin`. -/
def parseFrom (origin : Place) (text : List Char) : Except ScriptError Sequence :=
  parseAt (text.length + 1) origin text

/-- The script in a text. -/
def parse (text : String) : Except ScriptError Sequence := parseFrom ⟨1, 1⟩ text.toList

end Shell
