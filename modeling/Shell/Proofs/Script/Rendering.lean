/-
Scripts as tokens.

A script can be written down again as tokens (`Sequence.render`): with keywords where the grammar has them, a
semicolon after every statement, and functions with parentheses and braces. What a word was written as is not known
from its parts, and does not matter: any texts will do.

The script need not come from a text. It has to be one that the grammar has (`Sequence.IsPrintable`): bodies are not
empty, names are names, words have their substitutions parsed, and no command is named by a word that would be taken
for an assignment.

Here is what a single word or assignment is read as from its token, and what commands and pipelines may begin with and
what may come after them. That the tokens as a whole are read as the script they were made from is shown in the
module on rereading.
-/
import Shell.Proofs.Script.Recognition
import Shell.Proofs.Script.Moves

set_option autoImplicit false

namespace Shell

open Shell.Parser

/-! ## 1. Rendering -/

/-- A word that is a name, or a keyword that is none to the reader of tokens. -/
def Lexeme.plain (text : String) : Lexeme := .word text [.literal text]

/-- What an assignment starts with. -/
def Assignment.head (assignment : Assignment) : String :=
  assignment.name ++ if assignment.append then "+=" else "="

/-- The parts of an assignment as one word. Literal text at the start of the value follows the sign in the same
part. -/
def Assignment.parts (assignment : Assignment) : List WordPart :=
  match assignment.value.parts with
  | .literal text :: parts => .literal (assignment.head ++ text) :: parts
  | parts => .literal assignment.head :: parts

section

variable (spell : List WordPart → String)

/-- A word with the text that is chosen for its parts. -/
def Word.lexeme (word : Word) : Lexeme := .word (spell word.parts) word.parts

/-- An assignment is a word whose first part holds the name. -/
def Assignment.lexeme (assignment : Assignment) : Lexeme := .word (spell assignment.parts) assignment.parts

/-- The words that a loop goes over. -/
def renderItems : Option (List Word) → List Lexeme
  | none => []
  | some words => .plain "in" :: words.map (Word.lexeme spell)

mutual

/-- The lexemes of a command, if `spell` gives the texts of words. -/
def Command.render : Command → List Lexeme
  | .simple _ name args assignments =>
    assignments.map (Assignment.lexeme spell) ++ (name.toList ++ args).map (Word.lexeme spell)
  | .choice _ condition body branches otherwise =>
    .reserved .if :: (condition.render ++ .reserved .then :: (body.render ++
      (renderBranches branches ++ (renderOtherwise otherwise ++ [.reserved .fi]))))
  | .loop _ kind condition body =>
    .reserved kind.keyword :: (condition.render ++ .reserved .do :: (body.render ++ [.reserved .done]))
  | .each _ name words body =>
    .reserved .for :: .plain name :: (renderItems spell words ++
      .operator .semicolon :: .reserved .do :: (body.render ++ [.reserved .done]))
  | .group _ body => .reserved .leftBrace :: (body.render ++ [.reserved .rightBrace])
  | .subshell _ body => .operator .leftParen :: (body.render ++ [.operator .rightParen])
  | .function _ name body =>
    .plain name :: .operator .leftParen :: .operator .rightParen :: .reserved .leftBrace ::
      (body.render ++ [.reserved .rightBrace])
  | .arithmetic _ expression => [.arithmetic (spell expression.parts) expression.parts]

/-- Each branch has its keywords before its lists. -/
def renderBranches : List Branch → List Lexeme
  | [] => []
  | ⟨condition, body⟩ :: branches =>
    .reserved .elif :: (condition.render ++ .reserved .then :: (body.render ++ renderBranches branches))

/-- The body after `else`, if there is one. -/
def renderOtherwise : Option Sequence → List Lexeme
  | none => []
  | some body => .reserved .else :: body.render

def Pipeline.render : Pipeline → List Lexeme
  | ⟨negated, first, rest⟩ =>
    (if negated then [.reserved .bang] else []) ++ (first.render ++ renderPipes rest)

def renderPipes : List Command → List Lexeme
  | [] => []
  | command :: commands => .operator .pipe :: (command.render ++ renderPipes commands)

def AndOrList.render : AndOrList → List Lexeme
  | ⟨first, rest⟩ => first.render ++ renderJoined rest

def renderJoined : List Joined → List Lexeme
  | [] => []
  | ⟨connective, pipeline⟩ :: more =>
    .operator (match connective with | .and => .andIf | .or => .orIf) :: (pipeline.render ++ renderJoined more)

/-- The lexemes of a script. -/
def Sequence.render : Sequence → List Lexeme
  | ⟨statements⟩ => renderStatements statements

def renderStatements : List AndOrList → List Lexeme
  | [] => []
  | statement :: statements => statement.render ++ .operator .semicolon :: renderStatements statements

end

end

/-! ## 2. What can be rendered -/

mutual

/-- The command substitutions of a part have bodies. -/
def WordPart.IsFilled : WordPart → Prop
  | .doubleQuoted parts => AreFilled parts
  | .conditional _ _ argument => argument.IsFilled
  | .substitution _ _ body => body ≠ none
  | .arithmetic expression => expression.IsFilled
  | _ => True

/-- All parts are filled. -/
def AreFilled : List WordPart → Prop
  | [] => True
  | part :: parts => part.IsFilled ∧ AreFilled parts

/-- The command substitutions of a word have bodies. -/
def Word.IsFilled : Word → Prop
  | ⟨_, parts⟩ => AreFilled parts

end

/-- A word that is not taken for an assignment where it could be one. -/
def Word.NamesCommand (word : Word) : Prop :=
  ∀ text, word.parts.head? = some (.literal text) → assignmentHead? text.toList = none

/-- An assignment to a name. The value does not start with a literal part that is empty. -/
structure Assignment.IsPrintable (assignment : Assignment) : Prop where
  name : Name.isIdentifier assignment.name.toList = true
  value : assignment.value.IsFilled
  start : assignment.value.parts.head? ≠ some (.literal "")

mutual

/-- A command that the grammar has. -/
def Command.IsPrintable : Command → Prop
  | .simple _ name args assignments =>
    (name ≠ none ∨ assignments ≠ []) ∧ (name = none → args = []) ∧
      (∀ word ∈ name, word.IsFilled ∧ word.NamesCommand) ∧ (∀ word ∈ args, word.IsFilled) ∧
      ∀ assignment ∈ assignments, assignment.IsPrintable
  | .choice _ condition body branches otherwise =>
    (condition.statements ≠ [] ∧ condition.IsPrintable) ∧ (body.statements ≠ [] ∧ body.IsPrintable) ∧
      BranchesArePrintable branches ∧ OtherwiseIsPrintable otherwise
  | .loop _ _ condition body =>
    (condition.statements ≠ [] ∧ condition.IsPrintable) ∧ (body.statements ≠ [] ∧ body.IsPrintable)
  | .each _ name words body =>
    Name.isIdentifier name.toList = true ∧ (∀ list ∈ words, ∀ word ∈ list, word.IsFilled) ∧
      (body.statements ≠ [] ∧ body.IsPrintable)
  | .group _ body => body.statements ≠ [] ∧ body.IsPrintable
  | .subshell _ body => body.statements ≠ [] ∧ body.IsPrintable
  | .function _ name body =>
    isFunctionName name.toList = true ∧ (body.statements ≠ [] ∧ body.IsPrintable)
  | .arithmetic _ expression => expression.IsFilled

def BranchesArePrintable : List Branch → Prop
  | [] => True
  | ⟨condition, body⟩ :: branches =>
    (condition.statements ≠ [] ∧ condition.IsPrintable) ∧ (body.statements ≠ [] ∧ body.IsPrintable) ∧
      BranchesArePrintable branches

def OtherwiseIsPrintable : Option Sequence → Prop
  | none => True
  | some body => body.statements ≠ [] ∧ body.IsPrintable

def Pipeline.IsPrintable : Pipeline → Prop
  | ⟨_, first, rest⟩ => first.IsPrintable ∧ CommandsArePrintable rest

def CommandsArePrintable : List Command → Prop
  | [] => True
  | command :: commands => command.IsPrintable ∧ CommandsArePrintable commands

def AndOrList.IsPrintable : AndOrList → Prop
  | ⟨first, rest⟩ => first.IsPrintable ∧ JoinedArePrintable rest

def JoinedArePrintable : List Joined → Prop
  | [] => True
  | ⟨_, pipeline⟩ :: more => pipeline.IsPrintable ∧ JoinedArePrintable more

/-- A script that the grammar has. -/
def Sequence.IsPrintable : Sequence → Prop
  | ⟨statements⟩ => StatementsArePrintable statements

def StatementsArePrintable : List AndOrList → Prop
  | [] => True
  | statement :: statements => statement.IsPrintable ∧ StatementsArePrintable statements

end

/-- Lines go, and columns stay. -/
def Move.toColumns : Move where
  place p := ⟨0, p.column⟩
  line _ := 0
  line_place _ := rfl

/-- The script without its numbers of lines. -/
def Sequence.unlined (sequence : Sequence) : Sequence := sequence.move .toColumns

/-! ## 3. Words -/

section

variable {read : SourceReader}

mutual

/-- A part whose substitutions have bodies keeps them. -/
theorem WordPart.resolve_filled : ∀ part : WordPart, part.IsFilled → part.resolve read = .ok part
  | .literal _, _ | .singleQuoted _, _ | .escaped _, _ | .parameter _, _ | .length _, _ => rfl
  | .doubleQuoted parts, h => bind_eq_ok.mpr ⟨parts, resolveParts_filled parts h, rfl⟩
  | .conditional _ _ argument, h => bind_eq_ok.mpr ⟨argument, Word.resolve_filled argument h, rfl⟩
  | .substitution _ _ none, h => absurd rfl h
  | .substitution _ _ (some _), _ => rfl
  | .arithmetic expression, h => bind_eq_ok.mpr ⟨expression, Word.resolve_filled expression h, rfl⟩

/-- Parts that have their scripts already do not ask for them. -/
theorem resolveParts_filled : ∀ parts : List WordPart, AreFilled parts → resolveParts read parts = .ok parts
  | [], _ => rfl
  | part :: parts, h =>
    bind_eq_ok.mpr ⟨part, WordPart.resolve_filled part h.1,
      bind_eq_ok.mpr ⟨parts, resolveParts_filled parts h.2, rfl⟩⟩

/-- A word whose substitutions have their scripts is resolved to itself. -/
theorem Word.resolve_filled : ∀ word : Word, word.IsFilled → word.resolve read = .ok word
  | ⟨_, parts⟩, h => bind_eq_ok.mpr ⟨parts, resolveParts_filled parts h, rfl⟩

end

end

/-- The head of an assignment is found in front of what follows it. -/
theorem assignmentHead?_append {name : List Char} (hname : Name.isIdentifier name = true) (append : Bool)
    (text : List Char) :
    assignmentHead? (name ++ ((if append then "+=" else "=").toList ++ text)) = some (name, append, text) := by
  have hrest : ∀ c ∈ name, isAssignmentName c = true := by
    intro c hc
    have hc := Name.isRest_of_isIdentifier hname c hc
    simp only [Name.isRest, Name.isStart, Bool.or_eq_true] at hc
    simp only [isAssignmentName, Bool.or_eq_true]
    exact hc.elim (fun h => h.elim (fun h => .inl (.inl h)) .inr) fun h => .inl (.inr h)
  have hne : name ≠ [] := by
    rintro rfl
    cases hname
  -- A sign ends the name, since no name has one in it.
  have hcut {sign : Char} (hsign : isAssignmentName sign = false) (more : List Char) :
      (name ++ sign :: more).takeWhile isAssignmentName = name ∧
        (name ++ sign :: more).dropWhile isAssignmentName = sign :: more := by
    rw [List.takeWhile_append_of_pos hrest, List.takeWhile_cons_of_neg (by simp [hsign]), List.append_nil,
      List.dropWhile_append_of_pos hrest, List.dropWhile_cons_of_neg (by simp [hsign])]
    exact ⟨rfl, rfl⟩
  cases append with
  | false =>
    show assignmentHead? (name ++ '=' :: text) = _
    obtain ⟨htake, hdrop⟩ := hcut (show isAssignmentName '=' = false by decide) text
    simp [assignmentHead?, htake, hdrop, hne]
  | true =>
    show assignmentHead? (name ++ '+' :: '=' :: text) = _
    obtain ⟨htake, hdrop⟩ := hcut (show isAssignmentName '+' = false by decide) ('=' :: text)
    simp [assignmentHead?, htake, hdrop, hne]

section

variable {spell : List WordPart → String} {token : Token}

/-- A token with the lexeme of a word has that word, but for its line. -/
theorem Word.of_lexeme (read : SourceReader) {word : Word} (ht : token.lexeme = word.lexeme spell) (hw : word.IsFilled) :
    isWord token = true ∧ token.word.resolve read = .ok token.word ∧
      token.word.move .toColumns = word.move .toColumns := by
  obtain ⟨line, parts⟩ := word
  obtain ⟨lexeme, place⟩ := token
  obtain rfl : lexeme = _ := ht
  exact ⟨rfl, Word.resolve_filled _ hw, rfl⟩

/-- A word that names a command is no assignment. -/
theorem Word.NamesCommand.assignment? {word : Word} (h : word.NamesCommand)
    (ht : token.lexeme = word.lexeme spell) : token.assignment? = none := by
  unfold Token.assignment?
  rw [ht]
  split
  · next head parts hparts =>
    rw [h head (congrArg List.head? hparts)]
  · rfl

/-- An assignment is known by its parts. -/
theorem Assignment.parts_head (assignment : Assignment) (hname : Name.isIdentifier assignment.name.toList = true)
    (hstart : assignment.value.parts.head? ≠ some (.literal "")) :
    ∃ head text parts, assignment.parts = .literal head :: parts ∧
      assignmentHead? head.toList = some (assignment.name.toList, assignment.append, text) ∧
      (if text.isEmpty then parts else .literal (String.ofList text) :: parts) = assignment.value.parts := by
  have hhead (text : List Char) :
      assignmentHead? (assignment.head.toList ++ text) = some (assignment.name.toList, assignment.append, text) := by
    rw [Assignment.head, String.toList_append, List.append_assoc]
    exact assignmentHead?_append hname assignment.append text
  unfold Assignment.parts
  split
  · next text parts hparts =>
    have hne : text.toList ≠ [] := by
      intro hnil
      rw [hparts, String.toList_eq_nil_iff.mp hnil] at hstart
      exact hstart rfl
    refine ⟨_, text.toList, parts, rfl, by rw [String.toList_append]; exact hhead _, ?_⟩
    rw [if_neg (by simpa using hne), String.ofList_toList, hparts]
  · refine ⟨_, [], _, rfl, ?_, rfl⟩
    have hnil := hhead []
    rwa [List.append_nil] at hnil

/-- The assignment with the line of its token. -/
def Assignment.at (assignment : Assignment) (line : Nat) : Assignment :=
  ⟨assignment.name, assignment.append, ⟨line, assignment.value.parts⟩, line⟩

/-- A token with the lexeme of an assignment has that assignment, but for its line. -/
theorem Assignment.of_lexeme (read : SourceReader) {assignment : Assignment} (ht : token.lexeme = assignment.lexeme spell)
    (ha : assignment.IsPrintable) :
    isWord token = true ∧
      token.assignment? = some (assignment.name.toList, assignment.append, assignment.value.parts) ∧
      Word.resolve read ⟨token.place.line, assignment.value.parts⟩ =
        .ok ⟨token.place.line, assignment.value.parts⟩ ∧
      (assignment.at token.place.line).move .toColumns = assignment.move .toColumns := by
  obtain ⟨name, append, ⟨line, parts⟩, line'⟩ := assignment
  obtain ⟨lexeme, place⟩ := token
  obtain rfl : lexeme = _ := ht
  obtain ⟨hname, hvalue, hstart⟩ := ha
  refine ⟨rfl, ?_, Word.resolve_filled _ hvalue, rfl⟩
  obtain ⟨head, text, more, hparts, hhead, hvalue⟩ := Assignment.parts_head _ hname hstart
  unfold Token.assignment? Assignment.lexeme Lexeme.parts
  simp only [hparts, hhead, hvalue]

end

/-! ## 4. What comes first and after

The grammar looks one token ahead: at what starts a phrase, and at what may come after it. Each set of lexemes here
is one that it asks about. -/

/-- The tokens start with one of a kind. -/
def Begins (p : Lexeme → Bool) (ts : List Token) : Prop := ∃ token ∈ ts.head?, p token.lexeme = true

namespace Lexeme

/-- What a command starts with. -/
def startsCommand : Lexeme → Bool
  | .word .. | .arithmetic .. | .operator .leftParen => true
  | .reserved .if | .reserved .while | .reserved .until | .reserved .for | .reserved .leftBrace => true
  | _ => false

/-- What a pipeline starts with. -/
def startsPipeline (lexeme : Lexeme) : Bool :=
  lexeme.startsCommand || match lexeme with
    | .reserved .bang => true
    | _ => false

/-- What comes after a command. -/
def endsCommand : Lexeme → Bool
  | .operator .pipe | .operator .andIf | .operator .orIf | .operator .semicolon => true
  | _ => false

/-- What comes after a pipeline. -/
def endsPipeline : Lexeme → Bool
  | .operator .andIf | .operator .orIf | .operator .semicolon => true
  | _ => false

/-- What comes after a statement. -/
def endsStatement : Lexeme → Bool
  | .operator .semicolon => true
  | _ => false

end Lexeme

/-- The closers of bodies. No pipeline starts with one. -/
def Closer.isProper : Closer → Bool
  | .keyword k => !(Lexeme.reserved k).startsPipeline
  | .rightParen => true

section

variable {p : Lexeme → Bool} {q : Token → Bool} {token : Token} {ts : List Token}

/-- The first token decides. -/
theorem Begins.cons (h : p token.lexeme = true) : Begins p (token :: ts) := ⟨token, rfl, h⟩

/-- What begins in one way does not begin in another. -/
theorem Begins.unless (h : Begins p ts) (hpq : ∀ token, p token.lexeme = true → q token = false) : Unless q ts := by
  obtain ⟨token, hmem, hp⟩ := h
  intro token' hmem'
  obtain rfl := Option.some.inj (hmem.symm.trans hmem')
  exact hpq _ hp

/-- More tokens behind do not matter. -/
theorem Begins.append (h : Begins p ts) (more : List Token) : Begins p (ts ++ more) := by
  obtain ⟨token, hmem, hp⟩ := h
  obtain ⟨ts, rfl⟩ := List.head?_eq_some_iff.mp hmem
  exact .cons hp

/-- What is asked may be less. -/
theorem Begins.mono {p' : Lexeme → Bool} (h : Begins p ts) (hpp : ∀ lexeme, p lexeme = true → p' lexeme = true) :
    Begins p' ts := by
  obtain ⟨token, hmem, hp⟩ := h
  exact ⟨token, hmem, hpp _ hp⟩

end

namespace Lexeme

variable {lexeme : Lexeme}

/-- What starts a command starts a pipeline. -/
theorem startsPipeline_of_startsCommand (h : lexeme.startsCommand = true) : lexeme.startsPipeline = true := by
  simp [startsPipeline, h]

/-- What ends a pipeline ends its last command. -/
theorem endsCommand_of_endsPipeline (h : lexeme.endsPipeline = true) : lexeme.endsCommand = true := by
  unfold endsPipeline at h
  split at h
  all_goals first | rfl | cases h

/-- What ends a statement ends its last pipeline. -/
theorem endsPipeline_of_endsStatement (h : lexeme.endsStatement = true) : lexeme.endsPipeline = true := by
  unfold endsStatement at h
  split at h
  · rfl
  · cases h

end Lexeme

section

variable {token : Token} {ts : List Token} {closers : List Closer}

/-- A pipeline starts with no newline. -/
theorem isNewline_of_startsPipeline (h : token.lexeme.startsPipeline = true) :
    Lexeme.isNewline token.lexeme = false := by
  obtain ⟨lexeme, place⟩ := token
  cases lexeme with
  | newline => cases h
  | _ => rfl

/-- A command starts with no sign that negates. -/
theorem isBang_of_startsCommand (h : token.lexeme.startsCommand = true) : isReserved .bang token = false := by
  obtain ⟨lexeme, place⟩ := token
  cases lexeme with
  | reserved keyword => cases keyword <;> first | rfl | cases h
  | _ => rfl

/-- Nor does anything that starts a pipeline close a list. -/
theorem isClosed_of_startsPipeline (hclosers : ∀ closer ∈ closers, closer.isProper = true)
    (h : token.lexeme.startsPipeline = true) : isClosed closers token = false := by
  obtain ⟨lexeme, place⟩ := token
  cases lexeme with
  | word | arithmetic | newline => rfl
  | endOfInput => cases h
  | reserved keyword =>
    refine Bool.eq_false_iff.mpr fun hclosed => ?_
    have hproper := hclosers _ (List.contains_iff_mem.mp hclosed)
    simp only [Closer.isProper, Bool.not_eq_true'] at hproper
    exact Bool.false_ne_true (hproper.symm.trans h)
  | operator op => cases op <;> first | rfl | cases h

theorem isWord_of_endsCommand (h : token.lexeme.endsCommand = true) : isWord token = false := by
  obtain ⟨lexeme, place⟩ := token
  cases lexeme with
  | word => cases h
  | _ => rfl

/-- What ends a command may stand after its words. -/
theorem isForbidden_of_endsCommand (h : token.lexeme.endsCommand = true) : isForbidden token = false := by
  obtain ⟨lexeme, place⟩ := token
  cases lexeme with
  | operator op => cases op <;> first | rfl | cases h
  | _ => rfl

theorem isPipe_of_endsPipeline (h : token.lexeme.endsPipeline = true) : isOperator .pipe token = false := by
  obtain ⟨lexeme, place⟩ := token
  cases lexeme with
  | operator op => cases op <;> first | rfl | cases h
  | _ => rfl

theorem isConnective_of_endsStatement (h : token.lexeme.endsStatement = true) : isConnective token = false := by
  obtain ⟨lexeme, place⟩ := token
  cases lexeme with
  | operator op => cases op <;> first | rfl | cases h
  | _ => rfl

/-- No newlines stand in front of a pipeline. -/
theorem Begins.pastNewlines (h : Begins Lexeme.startsPipeline ts) : pastNewlines ts = ts := by
  obtain ⟨token, hmem, hp⟩ := h
  obtain ⟨more, rfl⟩ := List.head?_eq_some_iff.mp hmem
  rw [pastNewlines_cons, isNewline_of_startsPipeline hp]
  rfl

/-- A list does not end where a pipeline starts. -/
theorem Begins.isOpen (h : Begins Lexeme.startsPipeline ts)
    (hclosers : ∀ closer ∈ closers, closer.isProper = true) :
    ∃ token ∈ ts.head?, isClosed closers token = false := by
  obtain ⟨token, hmem, hp⟩ := h
  exact ⟨token, hmem, isClosed_of_startsPipeline hclosers hp⟩

/-- No newlines stand where a list ends. -/
theorem pastNewlines_of_isClosed (h : ∀ token ∈ ts.head?, isClosed closers token = true) :
    pastNewlines ts = ts := by
  cases ts with
  | nil => rfl
  | cons token ts =>
    have hclosed := h token rfl
    obtain ⟨lexeme, place⟩ := token
    cases lexeme with
    | newline => cases hclosed
    | _ => rfl

end

end Shell
