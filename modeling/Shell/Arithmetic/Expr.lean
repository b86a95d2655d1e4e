/-
Arithmetic expressions: operators, symbols, tokens and trees.

A symbol is what is written; an operator is what is meant. The symbol `-` is both
a unary and a binary operator, so tokens hold symbols and trees hold operators.
`Symbol.all` lists the symbols with longer texts first, which is the order in
which a reader has to try them.
-/
set_option autoImplicit false

namespace Shell.Arithmetic

/-! ## Operators -/

inductive UnaryOp where
  | plus | minus | not | complement
  deriving DecidableEq, Repr

inductive BinaryOp where
  | or | and | bitOr | bitXor | bitAnd | eq | ne | lt | gt | le | ge
  | shl | shr | add | sub | mul | div | rem | pow
  deriving DecidableEq, Repr

/-- A change of a variable by one. -/
inductive Step where
  | increment | decrement
  deriving DecidableEq, Repr

def UnaryOp.text : UnaryOp → String
  | .plus => "+"
  | .minus => "-"
  | .not => "!"
  | .complement => "~"

def BinaryOp.text : BinaryOp → String
  | .or => "||"
  | .and => "&&"
  | .bitOr => "|"
  | .bitXor => "^"
  | .bitAnd => "&"
  | .eq => "=="
  | .ne => "!="
  | .lt => "<"
  | .gt => ">"
  | .le => "<="
  | .ge => ">="
  | .shl => "<<"
  | .shr => ">>"
  | .add => "+"
  | .sub => "-"
  | .mul => "*"
  | .div => "/"
  | .rem => "%"
  | .pow => "**"

def Step.text : Step → String
  | .increment => "++"
  | .decrement => "--"

/-- The text of an assignment, plain or through a binary operator. -/
def assignmentText (op : Option BinaryOp) : String :=
  match op with
  | none => "="
  | some op => op.text ++ "="

/-- The left associative binary operators by level, the loosest first. `**` binds
tighter than all of them and associates to the right. -/
def binaryLevels : List (List BinaryOp) :=
  [[.or], [.and], [.bitOr], [.bitXor], [.bitAnd], [.eq, .ne], [.lt, .gt, .le, .ge],
    [.shl, .shr], [.add, .sub], [.mul, .div, .rem]]

/-! ## Symbols and tokens -/

inductive Symbol where
  | binary (op : BinaryOp)
  | assign (op : Option BinaryOp)
  | step (step : Step)
  | bang | tilde | leftParen | rightParen | question | colon | comma
  deriving DecidableEq, Repr

def Symbol.text : Symbol → String
  | .binary op => op.text
  | .assign op => assignmentText op
  | .step s => s.text
  | .bang => "!"
  | .tilde => "~"
  | .leftParen => "("
  | .rightParen => ")"
  | .question => "?"
  | .colon => ":"
  | .comma => ","

/-- All symbols, longer texts first. -/
def Symbol.all : List Symbol :=
  [.assign (some .shl), .assign (some .shr),
    .binary .pow, .step .increment, .step .decrement, .binary .shl, .binary .shr, .binary .le,
    .binary .ge, .binary .eq, .binary .ne, .binary .and, .binary .or,
    .assign (some .add), .assign (some .sub), .assign (some .mul), .assign (some .div),
    .assign (some .rem), .assign (some .bitAnd), .assign (some .bitXor), .assign (some .bitOr),
    .binary .add, .binary .sub, .binary .mul, .binary .div, .binary .rem, .leftParen, .rightParen,
    .binary .lt, .binary .gt, .bang, .tilde, .binary .bitAnd, .binary .bitOr, .binary .bitXor,
    .question, .colon, .comma, .assign none]

inductive Token where
  | numeral (text : List Char)
  | name (text : List Char)
  | symbol (symbol : Symbol)
  deriving DecidableEq, Repr

def Token.text : Token → List Char
  | .numeral text => text
  | .name text => text
  | .symbol s => s.text.toList

/-- The texts of tokens with spaces between them. -/
def tokensText (tokens : List Token) : List Char :=
  [' '].intercalate (tokens.map Token.text)

/-! ## Trees -/

inductive Expr where
  | number (value : Int64)
  | variable (name : String)
  | unary (op : UnaryOp) (operand : Expr)
  | binary (op : BinaryOp) (left right : Expr)
  | conditional (condition ifTrue ifFalse : Expr)
  /-- An assignment, which combines the old value and the new one by `op` if
  there is one. -/
  | assign (op : Option BinaryOp) (name : String) (value : Expr)
  /-- A change by one, whose value is the new value when it is written `before`
  the name and the old value otherwise. -/
  | update (step : Step) (name : String) (before : Bool)
  | comma (left right : Expr)
  deriving DecidableEq, Repr

end Shell.Arithmetic
