/-
The grammar as a relation.

What tokens mean is said here without a parser: `Spells tokens phrase rest` says that the first of the tokens are
those of a phrase, and that the rest come after it. Each rule of the grammar is a constructor. A rule that takes
as many of something as there are says what may not come next, so there is one way to read the tokens.

A rule for commands may ask for more: `starts` is to hold of the tokens from which a command is read, and of
the command. With nothing asked for, it is the grammar of the parser (`Spelled`).
-/
import Shell.Script.Parser

set_option autoImplicit false

namespace Shell

open Shell.Parser

/-! ## 1. Phrases -/

/-- What the rules of the grammar are about. -/
inductive Phrase where
  /-- Words, as many as there are. -/
  | words (words : List Word)
  /-- The assignments and words of a simple command, or what is left of them after its name. -/
  | simple (named : Bool) (assignments : List Assignment) (words : List Word)
  | branches (branches : List Branch)
  | otherwise (body : Option Sequence)
  /-- The words that a loop goes over. -/
  | items (words : Option (List Word))
  /-- A list in braces, and the line it starts on. -/
  | braces (line : Nat) (body : Sequence)
  /-- A list in parentheses, and the line it starts on. -/
  | parens (line : Nat) (body : Sequence)
  /-- The body of a function. -/
  | functionBody (body : Sequence)
  /-- A command, wherever it may start. -/
  | form (command : Command)
  | command (command : Command)
  /-- The commands of a pipeline after the first. -/
  | pipes (commands : List Command)
  | pipeline (pipeline : Pipeline)
  /-- The pipelines of an and-or list after the first. -/
  | joined (pipelines : List Joined)
  | andOr (statement : AndOrList)
  | statements (closers : List Closer) (statements : List AndOrList)
  | list (closers : List Closer) (sequence : Sequence)

/-- The tokens do not go on with one that `p` holds of. -/
def Unless (p : Token → Bool) (tokens : List Token) : Prop := ∀ token ∈ tokens.head?, p token = false

/-- The tokens after newlines. -/
def pastNewlines (tokens : List Token) : List Token :=
  tokens.dropWhile fun token => Lexeme.isNewline token.lexeme

/-- The tokens after a semicolon, if there is one. -/
def pastSemicolon : List Token → List Token
  | [] => []
  | token :: rest => if isOperator .semicolon token then rest else token :: rest

/-- Whether a token counts as a keyword where the grammar expects it. -/
def isKeyword (keyword : Keyword) (token : Token) : Bool :=
  isReserved keyword token || isWordText keyword.text token

/-- Whether a token is an arithmetic command. -/
def isArithmetic (token : Token) : Bool :=
  match token.lexeme with
  | .arithmetic .. => true
  | _ => false

/-- Whether a token is a connective. -/
def isConnective (token : Token) : Bool := (connective? token).isSome

/-- Whether a token separates statements, or would if it were supported. -/
def isSeparator (token : Token) : Bool :=
  isOperator .ampersand token || isOperator .semicolon token || Lexeme.isNewline token.lexeme

/-- Whether a token may not follow a simple command. -/
def isForbidden (token : Token) : Bool :=
  isOperator .less token || isOperator .greater token || isOperator .leftParen token

/-- The word that a token is, before its substitutions have bodies. -/
def Token.word (token : Token) : Word := ⟨token.place.line, token.lexeme.parts⟩

/-- The assignment that a token is, if it is one: the name, whether the value is appended, and the parts of the
value. -/
def Token.assignment? (token : Token) : Option (List Char × Bool × List WordPart) :=
  match token.lexeme.parts with
  | .literal head :: parts =>
    match assignmentHead? head.toList with
    | none => none
    | some (name, append, rest) =>
      some (name, append, if rest.isEmpty then parts else .literal (String.ofList rest) :: parts)
  | _ => none

/-- The keyword that a loop starts with. -/
def LoopKind.keyword : LoopKind → Keyword
  | .while => .while
  | .until => .until

/-- **The grammar.** The phrase is read from the tokens on the left, and those on the right are left. -/
inductive Spells (read : SourceReader) (starts : List Token → Command → Prop) :
    List Token → Phrase → List Token → Prop where
  -- Words.
  | noWord {ts : List Token} (stop : Unless isWord ts) : Spells read starts ts (.words []) ts
  | word {token : Token} {ts rest : List Token} {word : Word} {words : List Word}
      (isWord : isWord token = true) (resolved : token.word.resolve read = .ok word)
      (more : Spells read starts ts (.words words) rest) :
      Spells read starts (token :: ts) (.words (word :: words)) rest
  | simpleEnd {named : Bool} {ts : List Token} (stop : Unless isWord ts) :
      Spells read starts ts (.simple named [] []) ts
  | assignment {token : Token} {ts rest : List Token} {name : List Char} {append : Bool}
      {parts : List WordPart} {value : Word} {assignments : List Assignment} {words : List Word}
      (isWord : isWord token = true) (head : token.assignment? = some (name, append, parts))
      (valid : Name.isValid name = true)
      (resolved : Word.resolve read ⟨token.place.line, parts⟩ = .ok value)
      (more : Spells read starts ts (.simple false assignments words) rest) :
      Spells read starts (token :: ts)
        (.simple false (⟨String.ofList name, append, value, token.place.line⟩ :: assignments) words) rest
  | argument {named : Bool} {token : Token} {ts rest : List Token} {word : Word} {words : List Word}
      (isWord : isWord token = true) (plain : named = false → token.assignment? = none)
      (resolved : token.word.resolve read = .ok word)
      (more : Spells read starts ts (.simple true [] words) rest) :
      Spells read starts (token :: ts) (.simple named [] (word :: words)) rest
  -- Commands.
  | simpleCommand {token : Token} {ts rest : List Token} {assignments : List Assignment}
      {words : List Word} (isWord : isWord token = true) (single : Unless (isOperator .leftParen) ts)
      (words_spell : Spells read starts (token :: ts) (.simple false assignments words) rest)
      (follow : Unless isForbidden rest) :
      Spells read starts (token :: ts)
        (.form (.simple token.place.line words.head? (words.drop 1) assignments)) rest
  | arithmeticCommand {token : Token} {ts : List Token} {expression : Word}
      (isArithmetic : isArithmetic token = true) (resolved : token.word.resolve read = .ok expression) :
      Spells read starts (token :: ts) (.form (.arithmetic token.place.line expression)) ts
  | choice {start thenToken fi : Token} {ts ts₁ ts₂ ts₃ rest : List Token} {condition body : Sequence}
      {branches : List Branch} {otherwise : Option Sequence} (isIf : isReserved .if start = true)
      (condition_spells : Spells read starts ts (.list [.keyword .then] condition) (thenToken :: ts₁))
      (condition_ne : condition.statements ≠ []) (isThen : isKeyword .then thenToken = true)
      (body_spells :
        Spells read starts ts₁ (.list [.keyword .elif, .keyword .else, .keyword .fi] body) ts₂)
      (body_ne : body.statements ≠ []) (branches_spell : Spells read starts ts₂ (.branches branches) ts₃)
      (otherwise_spells : Spells read starts ts₃ (.otherwise otherwise) (fi :: rest))
      (isFi : isKeyword .fi fi = true) :
      Spells read starts (start :: ts)
        (.form (.choice start.place.line condition body branches otherwise)) rest
  | noBranch {ts : List Token} (stop : Unless (isReserved .elif) ts) :
      Spells read starts ts (.branches []) ts
  | branch {elif thenToken : Token} {ts ts₁ ts₂ rest : List Token} {condition body : Sequence}
      {branches : List Branch} (isElif : isReserved .elif elif = true)
      (condition_spells : Spells read starts ts (.list [.keyword .then] condition) (thenToken :: ts₁))
      (condition_ne : condition.statements ≠ []) (isThen : isKeyword .then thenToken = true)
      (body_spells :
        Spells read starts ts₁ (.list [.keyword .elif, .keyword .else, .keyword .fi] body) ts₂)
      (body_ne : body.statements ≠ []) (more : Spells read starts ts₂ (.branches branches) rest) :
      Spells read starts (elif :: ts) (.branches (⟨condition, body⟩ :: branches)) rest
  | noOtherwise {ts : List Token} (stop : Unless (isReserved .else) ts) :
      Spells read starts ts (.otherwise none) ts
  | otherwise {elseToken : Token} {ts rest : List Token} {body : Sequence}
      (isElse : isReserved .else elseToken = true)
      (body_spells : Spells read starts ts (.list [.keyword .fi] body) rest)
      (body_ne : body.statements ≠ []) :
      Spells read starts (elseToken :: ts) (.otherwise (some body)) rest
  | loop {kind : LoopKind} {start doToken done : Token} {ts ts₁ rest : List Token}
      {condition body : Sequence} (isLoop : isReserved kind.keyword start = true)
      (condition_spells : Spells read starts ts (.list [.keyword .do] condition) (doToken :: ts₁))
      (condition_ne : condition.statements ≠ []) (isDo : isKeyword .do doToken = true)
      (body_spells : Spells read starts ts₁ (.list [.keyword .done] body) (done :: rest))
      (body_ne : body.statements ≠ []) (isDone : isKeyword .done done = true) :
      Spells read starts (start :: ts) (.form (.loop start.place.line kind condition body)) rest
  | noItems {ts : List Token} (stop : Unless (isWordText "in") ts) :
      Spells read starts ts (.items none) ts
  | items {inToken : Token} {ts rest : List Token} {words : List Word}
      (isIn : isWordText "in" inToken = true) (words_spell : Spells read starts ts (.words words) rest) :
      Spells read starts (inToken :: ts) (.items (some words)) rest
  | each {start name doToken done : Token} {ts ts₁ ts₂ rest : List Token}
      {words : Option (List Word)} {body : Sequence} (isFor : isReserved .for start = true)
      (isWord : isWord name = true) (valid : Name.isValid name.lexeme.text.toList = true)
      (items_spell : Spells read starts (pastNewlines ts) (.items words) ts₁)
      (separated : pastNewlines (pastSemicolon ts₁) = doToken :: ts₂)
      (isDo : isKeyword .do doToken = true)
      (body_spells : Spells read starts ts₂ (.list [.keyword .done] body) (done :: rest))
      (body_ne : body.statements ≠ []) (isDone : isKeyword .done done = true) :
      Spells read starts (start :: name :: ts)
        (.form (.each start.place.line name.lexeme.text words body)) rest
  | braces {start close : Token} {ts rest : List Token} {body : Sequence}
      (isBrace : isReserved .leftBrace start = true)
      (body_spells : Spells read starts ts (.list [.keyword .rightBrace] body) (close :: rest))
      (body_ne : body.statements ≠ []) (isClose : isKeyword .rightBrace close = true) :
      Spells read starts (start :: ts) (.braces start.place.line body) rest
  | parens {start close : Token} {ts rest : List Token} {body : Sequence}
      (isParen : isOperator .leftParen start = true)
      (body_spells : Spells read starts ts (.list [.rightParen] body) (close :: rest))
      (body_ne : body.statements ≠ []) (isClose : isOperator .rightParen close = true) :
      Spells read starts (start :: ts) (.parens start.place.line body) rest
  | group {line : Nat} {ts rest : List Token} {body : Sequence}
      (spells : Spells read starts ts (.braces line body) rest) :
      Spells read starts ts (.form (.group line body)) rest
  | subshell {line : Nat} {ts rest : List Token} {body : Sequence}
      (spells : Spells read starts ts (.parens line body) rest) :
      Spells read starts ts (.form (.subshell line body)) rest
  -- Functions.
  | bracedBody {line : Nat} {ts rest : List Token} {body : Sequence}
      (spells : Spells read starts ts (.braces line body) rest) :
      Spells read starts ts (.functionBody body) rest
  | subshellBody {line : Nat} {ts rest : List Token} {body : Sequence}
      (spells : Spells read starts ts (.parens line body) rest) :
      Spells read starts ts (.functionBody (ofCommand (.subshell line body))) rest
  | keywordFunction {start name : Token} {ts rest : List Token} {body : Sequence}
      (isFunction : isReserved .function start = true) (isWord : isWord name = true)
      (single : Unless (isOperator .leftParen) ts) (unquoted : name.lexeme.isQuoted = false)
      (valid : isFunctionName name.lexeme.text.toList = true)
      (body_spells : Spells read starts (pastNewlines ts) (.functionBody body) rest) :
      Spells read starts (start :: name :: ts)
        (.form (.function start.place.line name.lexeme.text body)) rest
  | keywordFunctionParens {start name left right : Token} {ts rest : List Token} {body : Sequence}
      (isFunction : isReserved .function start = true) (isWord : isWord name = true)
      (isLeft : isOperator .leftParen left = true) (isRight : isOperator .rightParen right = true)
      (unquoted : name.lexeme.isQuoted = false)
      (valid : isFunctionName name.lexeme.text.toList = true)
      (body_spells : Spells read starts (pastNewlines ts) (.functionBody body) rest) :
      Spells read starts (start :: name :: left :: right :: ts)
        (.form (.function start.place.line name.lexeme.text body)) rest
  | namedFunction {name left right : Token} {ts rest : List Token} {body : Sequence}
      (isWord : isWord name = true) (isLeft : isOperator .leftParen left = true)
      (isRight : isOperator .rightParen right = true) (unquoted : name.lexeme.isQuoted = false)
      (valid : isFunctionName name.lexeme.text.toList = true)
      (body_spells : Spells read starts (pastNewlines ts) (.functionBody body) rest) :
      Spells read starts (name :: left :: right :: ts)
        (.form (.function name.place.line name.lexeme.text body)) rest
  -- Lists.
  | command {ts rest : List Token} {command : Command} (start : starts ts command)
      (spells : Spells read starts ts (.form command) rest) :
      Spells read starts ts (.command command) rest
  | noPipe {ts : List Token} (stop : Unless (isOperator .pipe) ts) :
      Spells read starts ts (.pipes []) ts
  | pipe {token : Token} {ts ts₁ rest : List Token} {command : Command} {commands : List Command}
      (isPipe : isOperator .pipe token = true)
      (command_spells : Spells read starts (pastNewlines ts) (.command command) ts₁)
      (more : Spells read starts ts₁ (.pipes commands) rest) :
      Spells read starts (token :: ts) (.pipes (command :: commands)) rest
  | pipeline {ts ts₁ rest : List Token} {first : Command} {commands : List Command}
      (unnegated : Unless (isReserved .bang) ts)
      (first_spells : Spells read starts ts (.command first) ts₁)
      (more : Spells read starts ts₁ (.pipes commands) rest) :
      Spells read starts ts (.pipeline ⟨false, first, commands⟩) rest
  | bang {token : Token} {ts rest : List Token} {p : Pipeline} (isBang : isReserved .bang token = true)
      (spells : Spells read starts ts (.pipeline p) rest) :
      Spells read starts (token :: ts) (.pipeline { p with negated := !p.negated }) rest
  | noConnective {ts : List Token} (stop : Unless isConnective ts) :
      Spells read starts ts (.joined []) ts
  | connective {token : Token} {ts ts₁ rest : List Token} {connective : Connective} {p : Pipeline}
      {pipelines : List Joined} (isConnective : connective? token = some connective)
      (pipeline_spells : Spells read starts (pastNewlines ts) (.pipeline p) ts₁)
      (more : Spells read starts ts₁ (.joined pipelines) rest) :
      Spells read starts (token :: ts) (.joined (⟨connective, p⟩ :: pipelines)) rest
  | andOr {ts ts₁ rest : List Token} {first : Pipeline} {pipelines : List Joined}
      (first_spells : Spells read starts ts (.pipeline first) ts₁)
      (more : Spells read starts ts₁ (.joined pipelines) rest) :
      Spells read starts ts (.andOr ⟨first, pipelines⟩) rest
  | closed {closers : List Closer} {ts : List Token}
      (stop : ∀ token ∈ ts.head?, isClosed closers token = true) :
      Spells read starts ts (.statements closers []) ts
  | last {closers : List Closer} {ts rest : List Token} {statement : AndOrList}
      (isOpen : ∃ token ∈ ts.head?, isClosed closers token = false)
      (spells : Spells read starts ts (.andOr statement) rest)
      (stop : Unless isSeparator rest) :
      Spells read starts ts (.statements closers [statement]) rest
  | semicolon {closers : List Closer} {token : Token} {ts ts₁ rest : List Token}
      {statement : AndOrList} {statements : List AndOrList}
      (isOpen : ∃ token ∈ ts.head?, isClosed closers token = false)
      (spells : Spells read starts ts (.andOr statement) (token :: ts₁))
      (isSemicolon : isOperator .semicolon token = true)
      (more : Spells read starts (pastNewlines ts₁) (.statements closers statements) rest) :
      Spells read starts ts (.statements closers (statement :: statements)) rest
  | newline {closers : List Closer} {token : Token} {ts ts₁ rest : List Token}
      {statement : AndOrList} {statements : List AndOrList}
      (isOpen : ∃ token ∈ ts.head?, isClosed closers token = false)
      (spells : Spells read starts ts (.andOr statement) (token :: ts₁))
      (isNewline : Lexeme.isNewline token.lexeme = true)
      (more : Spells read starts (pastNewlines ts₁) (.statements closers statements) rest) :
      Spells read starts ts (.statements closers (statement :: statements)) rest
  | list {closers : List Closer} {ts rest : List Token} {statements : List AndOrList}
      (spells : Spells read starts (pastNewlines ts) (.statements closers statements) rest) :
      Spells read starts ts (.list closers ⟨statements⟩) rest

/-- The grammar of the parser, where nothing more is asked for of commands. -/
abbrev Spelled (read : SourceReader) (ts : List Token) (phrase : Phrase) (rest : List Token) : Prop :=
  Spells read (fun _ _ => True) ts phrase rest

/-! ## 2. Tokens left -/

theorem pastNewlines_cons (token : Token) (tokens : List Token) :
    pastNewlines (token :: tokens) =
      if Lexeme.isNewline token.lexeme then pastNewlines tokens else token :: tokens :=
  List.dropWhile_cons

/-- What newlines may be put in front of holds before them as well. -/
theorem of_pastNewlines {P : List Token → Prop}
    (hcons : ∀ token tokens, Lexeme.isNewline token.lexeme = true → P tokens → P (token :: tokens))
    {tokens : List Token} (h : P (pastNewlines tokens)) : P tokens := by
  induction tokens with
  | nil => exact h
  | cons token tokens ih =>
    rw [pastNewlines_cons] at h
    split at h
    · next hn => exact hcons token tokens hn (ih h)
    · exact h

/-- What a semicolon may be put in front of holds before it as well. -/
theorem of_pastSemicolon {P : List Token → Prop}
    (hcons : ∀ token tokens, isOperator .semicolon token = true → P tokens → P (token :: tokens))
    {tokens : List Token} (h : P (pastSemicolon tokens)) : P tokens := by
  unfold pastSemicolon at h
  split at h
  · exact h
  · split at h
    · next hs => exact hcons _ _ hs h
    · exact h

theorem pastNewlines_suffix (tokens : List Token) : pastNewlines tokens <:+ tokens :=
  List.dropWhile_suffix _

theorem pastSemicolon_suffix (tokens : List Token) : pastSemicolon tokens <:+ tokens := by
  unfold pastSemicolon
  split
  · exact List.suffix_refl _
  · split
    · exact List.suffix_cons _ _
    · exact List.suffix_refl _

/-- What is left comes last. -/
theorem Spells.suffix {read : SourceReader} {starts : List Token → Command → Prop} {ts rest : List Token}
    {phrase : Phrase} (h : Spells read starts ts phrase rest) : rest <:+ ts := by
  have hcons {token : Token} {ts ts' : List Token} (h : ts' <:+ ts) : ts' <:+ token :: ts :=
    h.trans (List.suffix_cons _ _)
  have htail {token : Token} {ts ts' : List Token} (h : token :: ts' <:+ ts) : ts' <:+ ts :=
    (List.suffix_cons _ _).trans h
  induction h with
  | @each _ _ _ _ _ ts₁ _ _ _ _ _ _ _ _ hseparated _ _ _ _ ih ih' =>
    have h := (pastNewlines_suffix (pastSemicolon ts₁)).trans (pastSemicolon_suffix ts₁)
    rw [hseparated] at h
    exact hcons (hcons ((htail ih').trans ((htail h).trans (ih.trans (pastNewlines_suffix _)))))
  | _ => grind [List.IsSuffix.trans, List.suffix_refl, pastNewlines_suffix]

/-- What is not ahead does not come next. -/
theorem unless_of_ahead {s : Parsing} {p : Token → Bool} (h : p (s.ahead 0) = false) : Unless p s.rest := by
  intro token hmem
  unfold Parsing.ahead at h
  rw [← List.head?_eq_getElem?, Option.mem_def.mp hmem] at h
  exact h

end Shell
