/-
The tokens of a script.

A token is a lexeme at a place. A keyword is a token of its own only where a
command may start; elsewhere the same text is a word.
-/
import Shell.Script

set_option autoImplicit false

namespace Shell

/-- The words that structure a script. -/
inductive Keyword where
  | if | then | elif | else | fi | while | until | for | do | done | function
  | leftBrace | rightBrace | bang
  deriving DecidableEq, Repr

def Keyword.text : Keyword → String
  | .if => "if"
  | .then => "then"
  | .elif => "elif"
  | .else => "else"
  | .fi => "fi"
  | .while => "while"
  | .until => "until"
  | .for => "for"
  | .do => "do"
  | .done => "done"
  | .function => "function"
  | .leftBrace => "\x7b"
  | .rightBrace => "\x7d"
  | .bang => "!"

def Keyword.all : List Keyword :=
  [.if, .then, .elif, .else, .fi, .while, .until, .for, .do, .done, .function, .leftBrace,
    .rightBrace, .bang]

/-- The keyword with a given text. -/
def Keyword.ofText? (text : String) : Option Keyword :=
  Keyword.all.find? fun k => k.text == text

/-- The signs that separate and join commands. -/
inductive Operator where
  | andIf | orIf | semicolon | pipe | ampersand | leftParen | rightParen | less | greater
  deriving DecidableEq, Repr

def Operator.text : Operator → String
  | .andIf => "&&"
  | .orIf => "||"
  | .semicolon => ";"
  | .pipe => "|"
  | .ampersand => "&"
  | .leftParen => "("
  | .rightParen => ")"
  | .less => "<"
  | .greater => ">"

/-- What a token is. -/
inductive Lexeme where
  /-- A word: its text as written, and its parts. -/
  | word (text : String) (parts : List WordPart)
  | operator (op : Operator)
  | reserved (keyword : Keyword)
  /-- `((EXPRESSION))` where a command may start: the expression as written, and
  its parts. -/
  | arithmetic (text : String) (parts : List WordPart)
  | newline
  | endOfInput

/-- The text of a token; that of an arithmetic command is its expression. -/
def Lexeme.text : Lexeme → String
  | .word text _ => text
  | .operator op => op.text
  | .reserved keyword => keyword.text
  | .arithmetic text _ => text
  | .newline => "\n"
  | .endOfInput => ""

/-- The parts of a token. -/
def Lexeme.parts : Lexeme → List WordPart
  | .word _ parts => parts
  | .reserved keyword => [.literal keyword.text]
  | .arithmetic _ parts => parts
  | _ => []

/-- Whether a token is a word with a quoted part. -/
def Lexeme.isQuoted : Lexeme → Bool
  | .word _ parts => parts.any WordPart.isQuoted
  | _ => false

structure Token where
  lexeme : Lexeme
  place : Place

end Shell
