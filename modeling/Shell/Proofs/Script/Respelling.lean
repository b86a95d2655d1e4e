/-
Scripts in which a word is spelled in another way.

Of most words the grammar reads only the parts. If the text of such a word changes, and what comes after is moved, the
tokens spell the same phrase but for its places (`Spells.respelled`). The text of a word is read in three ways: it is
compared with the keywords and with `in`, it is the name of the variable of a loop, or it is that of a function.
So a word that is respelled must have no place where a name is expected, and it must be no keyword, unless it is an
argument (`Respelled`).
-/
import Shell.Proofs.Script.Names
import Shell.Proofs.Script.Places

set_option autoImplicit false

namespace Shell

open Shell.Parser

variable {m : Move} {read : SourceReader}

/-! ## 1. Parts -/

/-- The parts are the same, but those from one on have been moved. -/
def MovedAfter (m : Move) (parts parts' : List WordPart) : Prop :=
  ∃ before later, parts = before ++ later ∧ parts' = before ++ moveParts m later ∧
    SourcesOf (fun _ place => m.Follows place) later

/-- All places may stay as they are. -/
theorem MovedAfter.same (m : Move) (parts : List WordPart) : MovedAfter m parts parts :=
  ⟨parts, [], (List.append_nil _).symm, (List.append_nil _).symm, trivial⟩

/-- All places may be moved, if the move goes along with them. -/
theorem MovedAfter.all {parts : List WordPart} (h : SourcesOf (fun _ place => m.Follows place) parts) :
    MovedAfter m parts (moveParts m parts) :=
  ⟨[], parts, rfl, rfl, h⟩

/-- A part before the change stays as it is. -/
theorem MovedAfter.cons {parts parts' : List WordPart} (h : MovedAfter m parts parts') (part : WordPart) :
    MovedAfter m (part :: parts) (part :: parts') := by
  obtain ⟨before, later, rfl, rfl, hs⟩ := h
  exact ⟨part :: before, later, rfl, rfl, hs⟩

/-- The same parts are quoted. -/
theorem MovedAfter.any_isQuoted {parts parts' : List WordPart} (h : MovedAfter m parts parts') :
    parts'.any WordPart.isQuoted = parts.any WordPart.isQuoted := by
  obtain ⟨before, later, rfl, rfl, -⟩ := h
  rw [List.any_append, List.any_append, any_isQuoted_move]

/-- The parts of a word are read one after another. -/
theorem resolveParts_append {parts parts' both : List WordPart} :
    resolveParts read (parts ++ parts') = .ok both ↔
      ∃ ps ps', resolveParts read parts = .ok ps ∧ resolveParts read parts' = .ok ps' ∧ both = ps ++ ps' := by
  induction parts generalizing both with
  | nil =>
    refine ⟨fun h => ⟨[], both, rfl, h, rfl⟩, ?_⟩
    rintro ⟨ps, ps', hps, hps', rfl⟩
    obtain rfl := Except.ok.inj hps
    exact hps'
  | cons part parts ih =>
    constructor
    · intro h
      obtain ⟨part', hpart, h⟩ := bind_eq_ok.mp h
      obtain ⟨more, hmore, h⟩ := bind_eq_ok.mp h
      obtain rfl := Except.ok.inj h
      obtain ⟨ps, ps', hps, hps', rfl⟩ := ih.mp hmore
      exact ⟨part' :: ps, ps', bind_eq_ok.mpr ⟨part', hpart, bind_eq_ok.mpr ⟨ps, hps, rfl⟩⟩, hps', rfl⟩
    · rintro ⟨all, ps', hall, hps', rfl⟩
      obtain ⟨part', hpart, h⟩ := bind_eq_ok.mp hall
      obtain ⟨ps, hps, h⟩ := bind_eq_ok.mp h
      obtain rfl := Except.ok.inj h
      exact bind_eq_ok.mpr ⟨part', hpart, bind_eq_ok.mpr ⟨_, ih.mpr ⟨ps, ps', hps, hps', rfl⟩, rfl⟩⟩

/-- **Moved parts have the same bodies**, but for their places. -/
theorem MovedAfter.resolve {parts parts' ps : List WordPart} (h : MovedAfter m parts parts')
    (hread : SourceReader.Moves m read read) (hr : resolveParts read parts = .ok ps) :
    ∃ ps', resolveParts read parts' = .ok ps' ∧ moveParts .away ps' = moveParts .away ps := by
  obtain ⟨before, later, rfl, rfl, hs⟩ := h
  obtain ⟨first, rest, hfirst, hrest, rfl⟩ := resolveParts_append.mp hr
  refine ⟨first ++ moveParts m rest,
    resolveParts_append.mpr ⟨first, _, hfirst, resolveParts_move hread later hs rest hrest, rfl⟩, ?_⟩
  rw [moveParts_append, moveParts_append, moveParts_andThen, Move.andThen_away]

/-- The word is resolved to the same word but for its places. -/
theorem MovedAfter.resolve_word {parts parts' : List WordPart} {line : Nat} {word : Word}
    (h : MovedAfter m parts parts') (hread : SourceReader.Moves m read read)
    (hr : Word.resolve read ⟨line, parts⟩ = .ok word) (line' : Nat) :
    ∃ word', Word.resolve read ⟨line', parts'⟩ = .ok word' ∧ word'.move .away = word.move .away := by
  obtain ⟨ps, hps, hr⟩ := bind_eq_ok.mp hr
  obtain rfl := Except.ok.inj hr
  obtain ⟨ps', hps', hsame⟩ := h.resolve hread hps
  exact ⟨⟨line', ps'⟩, bind_eq_ok.mpr ⟨ps', hps', rfl⟩, congrArg (Word.mk 0) hsame⟩

/-! ## 2. Tokens

The grammar asks for the shape of a token, for its text and for its parts. The shape stays the same, so all that is
asked of it does (`Token.OfShape`). -/

/-- A lexeme without the text and the parts that it has been read from. -/
def Lexeme.shape : Lexeme → Lexeme
  | .word _ _ => .word "" []
  | .arithmetic _ _ => .arithmetic "" []
  | lexeme => lexeme

/-- Tokens in which the grammar finds the same, but for places, if it does not look at their texts. -/
structure Token.Alike (m : Move) (token token' : Token) : Prop where
  shape : token'.lexeme.shape = token.lexeme.shape
  parts : MovedAfter m token.lexeme.parts token'.lexeme.parts

/-- Tokens that are the same keyword, and the same if it is asked for `in`, or neither of them is any. -/
structure Token.SameKeyword (token token' : Token) : Prop where
  keyword : ∀ keyword, isKeyword keyword token' = isKeyword keyword token
  isIn : isWordText "in" token' = isWordText "in" token

/-- A question about tokens that depends on the shape only. -/
def Token.OfShape {α : Type} (p : Token → α) : Prop :=
  ∀ (lexeme : Lexeme) (place place' : Place), p ⟨lexeme, place⟩ = p ⟨lexeme.shape, place'⟩

namespace Token

/-- What depends on the shape alone is the same for both tokens. -/
theorem OfShape.eq {α : Type} {p : Token → α} {token token' : Token} (h : OfShape p)
    (hs : token'.lexeme.shape = token.lexeme.shape) : p token' = p token := by
  obtain ⟨lexeme, place⟩ := token
  obtain ⟨lexeme', place'⟩ := token'
  rw [h lexeme' place' place, h lexeme place place]
  exact congrArg (fun shape => p ⟨shape, place⟩) hs

theorem isWord_ofShape : OfShape isWord := fun lexeme _ _ => by cases lexeme <;> rfl

theorem isReserved_ofShape (keyword : Keyword) : OfShape (isReserved keyword) := fun lexeme _ _ => by
  cases lexeme <;> rfl

theorem isOperator_ofShape (op : Operator) : OfShape (isOperator op) := fun lexeme _ _ => by cases lexeme <;> rfl

theorem isNewline_ofShape : OfShape fun token => Lexeme.isNewline token.lexeme := fun lexeme _ _ => by
  cases lexeme <;> rfl

theorem isArithmetic_ofShape : OfShape isArithmetic := fun lexeme _ _ => by cases lexeme <;> rfl

theorem isClosed_ofShape (closers : List Closer) : OfShape (isClosed closers) := fun lexeme _ _ => by
  cases lexeme <;> rfl

theorem connective?_ofShape : OfShape connective? := fun lexeme _ _ => by cases lexeme <;> rfl

theorem isConnective_ofShape : OfShape isConnective := fun lexeme _ _ => by cases lexeme <;> rfl

theorem isSeparator_ofShape : OfShape isSeparator := fun lexeme _ _ => by cases lexeme <;> rfl

theorem isForbidden_ofShape : OfShape isForbidden := fun lexeme _ _ => by cases lexeme <;> rfl

namespace Alike

variable {token token' : Token}

/-- What is asked of the shape has the same answer. -/
theorem same (h : token.Alike m token') {α : Type} {p : Token → α} (hp : OfShape p) : p token' = p token :=
  hp.eq h.shape

/-- A word is still one. -/
theorem keepsWord (h : token.Alike m token') (hw : isWord token = true) : isWord token' = true :=
  (h.same isWord_ofShape).trans hw

/-- What is no word is the same keyword. -/
theorem sameKeyword (h : token.Alike m token') (hw : isWord token = false) : token.SameKeyword token' := by
  have hw' := (h.same isWord_ofShape).trans hw
  have hother {text : String} {token : Token} (hw : isWord token = false) : isWordText text token = false := by
    unfold isWordText
    split
    · next hl => simp [isWord, hl] at hw
    · rfl
  refine ⟨fun keyword => ?_, by rw [hother hw, hother hw']⟩
  unfold isKeyword
  rw [hother hw, hother hw', h.same (isReserved_ofShape keyword)]

/-- It is quoted if it was. -/
theorem isQuoted (h : token.Alike m token') : token'.lexeme.isQuoted = token.lexeme.isQuoted := by
  have hshape := h.shape
  have hparts := h.parts.any_isQuoted
  cases hl : token.lexeme <;> cases hl' : token'.lexeme <;> rw [hl, hl'] at hshape hparts <;>
    first | exact hparts | rfl | cases hshape

/-- A word that has been found in a token is found in the other one. -/
theorem word (h : token.Alike m token') (hread : SourceReader.Moves m read read) {word : Word}
    (hr : token.word.resolve read = .ok word) :
    ∃ word', token'.word.resolve read = .ok word' ∧ word'.move .away = word.move .away :=
  h.parts.resolve_word hread hr _

/-- An assignment that has been found in a token is found in the other one. -/
theorem assignment? (h : token.Alike m token') :
    (token.assignment? = none → token'.assignment? = none) ∧
      ∀ name append parts, token.assignment? = some (name, append, parts) →
        ∃ parts', token'.assignment? = some (name, append, parts') ∧ MovedAfter m parts parts' := by
  obtain ⟨before, later, hparts, hparts', hs⟩ := h.parts
  -- The parts are moved from the first one on, or the first one is the same in both tokens.
  cases before with
  | nil =>
    have hmove : token'.assignment? = (token.move m).assignment? := by
      unfold Token.assignment?
      rw [hparts', Token.move, Lexeme.parts_move, hparts]
      rfl
    rw [hmove, assignment?_move]
    constructor
    · intro hnone
      rw [hnone]
      rfl
    · intro name append parts hsome
      exact ⟨moveParts m parts, by rw [hsome]; rfl, .all (sources_assignment hsome (hparts ▸ hs))⟩
  | cons part before =>
    unfold Token.assignment?
    rw [hparts, hparts', List.cons_append, List.cons_append]
    have hmoved : MovedAfter m (before ++ later) (before ++ moveParts m later) := ⟨before, later, rfl, rfl, hs⟩
    cases part with
    | literal head =>
      simp only
      cases assignmentHead? head.toList with
      | none => simp
      | some found =>
        constructor
        · simp
        · intro name append parts hsome
          simp only [Option.some.injEq, Prod.mk.injEq] at hsome ⊢
          obtain ⟨rfl, rfl, rfl⟩ := hsome
          refine ⟨_, ⟨rfl, rfl, rfl⟩, ?_⟩
          split
          · exact hmoved
          · exact hmoved.cons _
    | _ => simp

end Alike

end Token

/-- Whether a name comes after a token. -/
def namesNext (token : Token) : Bool := isReserved .for token || isReserved .function token

/-- A word does not ask for a name. -/
theorem namesNext_of_isWord {token : Token} (h : isWord token = true) : namesNext token = false := by
  obtain ⟨text, parts, hl⟩ := lexeme_of_isWord h
  simp [namesNext, isReserved, hl]

/-- A token of a kind that words and the keywords before names are not of. -/
theorem unnamed_of_kind {token : Token} {p : Token → Bool} (ht : p token = true)
    (hword : ∀ text parts place, p ⟨.word text parts, place⟩ = false)
    (hfor : ∀ place, p ⟨.reserved .for, place⟩ = false)
    (hfunction : ∀ place, p ⟨.reserved .function, place⟩ = false) :
    namesNext token = false ∧ isWord token = false := by
  obtain ⟨lexeme, place⟩ := token
  cases lexeme with
  | word text parts => exact absurd ht (by simp [hword])
  | reserved keyword => cases keyword <;> first | exact ⟨rfl, rfl⟩ | exact absurd ht (by simp [hfor, hfunction])
  | _ => exact ⟨rfl, rfl⟩

/-- An operator asks for no name and is no word. -/
theorem unnamed_of_isOperator {token : Token} {op : Operator} (h : isOperator op token = true) :
    namesNext token = false ∧ isWord token = false :=
  unnamed_of_kind h (fun _ _ _ => rfl) (fun _ => rfl) fun _ => rfl

theorem unnamed_of_isNewline {token : Token} (h : Lexeme.isNewline token.lexeme = true) :
    namesNext token = false ∧ isWord token = false :=
  unnamed_of_kind (p := fun token => Lexeme.isNewline token.lexeme) h (fun _ _ _ => rfl) (fun _ => rfl) fun _ => rfl

theorem unnamed_of_isArithmetic {token : Token} (h : isArithmetic token = true) :
    namesNext token = false ∧ isWord token = false :=
  unnamed_of_kind h (fun _ _ _ => rfl) (fun _ => rfl) fun _ => rfl

theorem unnamed_of_connective? {token : Token} {connective : Connective} (h : connective? token = some connective) :
    namesNext token = false ∧ isWord token = false :=
  unnamed_of_kind (p := isConnective) (Option.isSome_of_mem h) (fun _ _ _ => rfl) (fun _ => rfl) fun _ => rfl

/-- Nor does a keyword, if it is not the one of a loop over words or of a function. -/
theorem unnamed_of_isReserved {token : Token} {keyword : Keyword} (h : isReserved keyword token = true)
    (hfor : keyword ≠ .for) (hfunction : keyword ≠ .function) : namesNext token = false ∧ isWord token = false := by
  have hl := lexeme_of_isReserved h
  simp [namesNext, isReserved, isWord, hl, hfor, hfunction]

/-- What the grammar takes a token for as far as the tokens before it tell: a name, an argument, or anything. -/
inductive Role where
  | name | argument | anything
  deriving DecidableEq, Repr

/-- The role of what comes after a token. After a word that is no keyword, or no longer one, every word is an
argument. -/
def Role.next (role : Role) (token : Token) : Role :=
  if namesNext token then .name
  else if isWord token && role != .name &&
      (role == .argument || (Keyword.ofText? token.lexeme.text).isNone) then .argument
  else .anything

namespace Role

variable {role : Role} {token : Token}

/-- After a token that asks for a name comes a name. -/
theorem next_name (h : namesNext token = true) : role.next token = .name := if_pos h

/-- A name comes nowhere else. -/
theorem next_eq_name_iff : role.next token = .name ↔ namesNext token = true := by
  refine ⟨fun h => ?_, next_name⟩
  unfold next at h
  split at h
  · assumption
  · split at h <;> cases h

/-- What is no word has the same after it in every role. -/
theorem next_of_not_isWord (role' : Role) (h : isWord token = false) : role.next token = role'.next token := by
  simp [next, h]

theorem next_of_unnamed (h : namesNext token = false ∧ isWord token = false) : role.next token = .anything := by
  simp [next, h]

/-- A keyword is read as one, so anything may come after it. -/
theorem next_keyword {keyword : Keyword} (h : isKeyword keyword token = true) (hfor : keyword ≠ .for)
    (hfunction : keyword ≠ .function) : anything.next token = .anything := by
  rcases Bool.or_eq_true_iff.mp h with hr | ht
  · exact next_of_unnamed (unnamed_of_isReserved hr hfor hfunction)
  · obtain ⟨parts, hl, -⟩ := isWordText_iff.mp ht
    have hkeyword : (Keyword.ofText? token.lexeme.text).isNone = false := by
      rw [hl]
      cases keyword <;> rfl
    have hn := @namesNext_of_isWord token (by simp [isWord, hl])
    simp [next, hn, hkeyword]

/-- After a name there may be anything. -/
theorem next_after_name (h : isWord token = true) : name.next token = .anything := by
  simp [next, namesNext_of_isWord h]

end Role

/-- Tokens in which the grammar finds the same, but for places, if the first has a role. The text is the same where a
name is expected: after `for` and `function`, and before a parenthesis. An argument need not be the same keyword. -/
inductive Respelled (m : Move) : Role → List Token → List Token → Prop where
  | nil {role : Role} : Respelled m role [] []
  | cons {role : Role} {token token' : Token} {ts ts' : List Token} (alike : token.Alike m token')
      (keyword : role ≠ .argument → token.SameKeyword token')
      (named : role = .name → token'.lexeme.text = token.lexeme.text)
      (called : ¬ Unless (isOperator .leftParen) ts → token'.lexeme.text = token.lexeme.text)
      (more : Respelled m (role.next token) ts ts') : Respelled m role (token :: ts) (token' :: ts')

namespace Respelled

variable {role : Role} {token : Token} {ts ts' all' : List Token} {p : Token → Bool}

/-- What stops a loop of the grammar is still there. -/
theorem stops (h : Respelled m role ts ts') (hu : Unless p ts) (hp : Token.OfShape p) : Unless p ts' := by
  cases h with
  | nil => exact nofun
  | cons alike _ _ _ _ =>
    rintro _ ⟨⟩
    exact (alike.same hp).trans (hu _ rfl)

/-- A word that is no `in` has not become one. -/
theorem stopsIn (h : Respelled m .anything ts ts') (hu : Unless (isWordText "in") ts) :
    Unless (isWordText "in") ts' := by
  cases h with
  | nil => exact nofun
  | cons _ same _ _ _ =>
    rintro _ ⟨⟩
    exact (same (by decide)).isIn.trans (hu _ rfl)

/-- What is no word may be anything. -/
theorem pastWords (h : Respelled m role ts ts') (hu : Unless isWord ts) :
    Respelled m .anything ts ts' := by
  cases h with
  | nil => exact .nil
  | cons alike _ _ called more =>
    have hw := hu _ rfl
    rw [Role.next_of_not_isWord .anything hw] at more
    exact .cons alike (fun _ => alike.sameKeyword hw) nofun called more

/-- A token that is passed in both lists. -/
theorem passes {α : Type} {q : Token → α} (h : Respelled m .anything (token :: ts) all') (hq : Token.OfShape q)
    (hnext : Role.anything.next token = .anything) :
    ∃ token' ts', all' = token' :: ts' ∧ q token' = q token ∧ token.Alike m token' ∧ Respelled m .anything ts ts' := by
  obtain _ | ⟨alike, -, -, -, more⟩ := h
  exact ⟨_, _, rfl, alike.same hq, alike, hnext ▸ more⟩

/-- A keyword is passed on both sides. -/
theorem passesReserved {keyword : Keyword} (h : Respelled m .anything (token :: ts) all')
    (ht : isReserved keyword token = true) (hfor : keyword ≠ .for) (hfunction : keyword ≠ .function) :
    ∃ token' ts', all' = token' :: ts' ∧ isReserved keyword token' = true ∧ Respelled m .anything ts ts' := by
  obtain ⟨token', ts', rfl, ht', -, more⟩ := h.passes (Token.isReserved_ofShape keyword)
    (Role.next_of_unnamed (unnamed_of_isReserved ht hfor hfunction))
  exact ⟨token', ts', rfl, ht'.trans ht, more⟩

/-- So is a word that is read as a keyword. -/
theorem passesKeyword {keyword : Keyword} (h : Respelled m .anything (token :: ts) all')
    (ht : isKeyword keyword token = true) (hfor : keyword ≠ .for) (hfunction : keyword ≠ .function) :
    ∃ token' ts', all' = token' :: ts' ∧ isKeyword keyword token' = true ∧ Respelled m .anything ts ts' := by
  obtain _ | ⟨-, same, -, -, more⟩ := h
  exact ⟨_, _, rfl, ((same (by decide)).keyword keyword).trans ht, Role.next_keyword ht hfor hfunction ▸ more⟩

/-- So is an operator. -/
theorem passesOperator {op : Operator} (h : Respelled m .anything (token :: ts) all')
    (ht : isOperator op token = true) :
    ∃ token' ts', all' = token' :: ts' ∧ isOperator op token' = true ∧ Respelled m .anything ts ts' := by
  obtain ⟨token', ts', rfl, ht', -, more⟩ := h.passes (Token.isOperator_ofShape op)
    (Role.next_of_unnamed (unnamed_of_isOperator ht))
  exact ⟨token', ts', rfl, ht'.trans ht, more⟩

/-- So is a newline. -/
theorem passesNewline (h : Respelled m .anything (token :: ts) all')
    (ht : Lexeme.isNewline token.lexeme = true) :
    ∃ token' ts', all' = token' :: ts' ∧ Lexeme.isNewline token'.lexeme = true ∧ Respelled m .anything ts ts' := by
  obtain ⟨token', ts', rfl, ht', -, more⟩ := h.passes Token.isNewline_ofShape
    (Role.next_of_unnamed (unnamed_of_isNewline ht))
  exact ⟨token', ts', rfl, ht'.trans ht, more⟩

/-- A name is passed together with the keyword before it. -/
theorem passesName {start name : Token} (h : Respelled m .anything (start :: name :: ts) all')
    (hs : namesNext start = true) (hw : isWord name = true) :
    ∃ start' name' ts', all' = start' :: name' :: ts' ∧ start.Alike m start' ∧ name.Alike m name' ∧
      name'.lexeme.text = name.lexeme.text ∧ Respelled m .anything ts ts' := by
  obtain _ | ⟨alike, -, -, -, _ | ⟨alike_name, -, named, -, more⟩⟩ := h
  have hrole := @Role.next_name .anything _ hs
  rw [hrole, Role.next_after_name hw] at more
  exact ⟨_, _, _, rfl, alike, alike_name, named hrole, more⟩

/-- The same newlines are passed. -/
theorem pastNewlines (h : Respelled m .anything ts ts') :
    Respelled m .anything (pastNewlines ts) (pastNewlines ts') := by
  induction ts generalizing ts' with
  | nil =>
    cases h
    exact .nil
  | cons token ts ih =>
    rw [pastNewlines_cons]
    split
    · next hnewline =>
      obtain ⟨token', ts', rfl, hnewline', more⟩ := h.passesNewline hnewline
      rw [pastNewlines_cons, if_pos hnewline']
      exact ih more
    · next hnewline =>
      obtain _ | ⟨alike, keyword, named, called, more⟩ := h
      rw [pastNewlines_cons, alike.same Token.isNewline_ofShape, if_neg hnewline]
      exact .cons alike keyword named called more

/-- The same semicolon is passed, or none. -/
theorem pastSemicolon (h : Respelled m .anything ts ts') :
    Respelled m .anything (pastSemicolon ts) (pastSemicolon ts') := by
  cases ts with
  | nil =>
    cases h
    exact .nil
  | cons token ts =>
    cases hsemicolon : isOperator .semicolon token with
    | true =>
      obtain ⟨token', ts', rfl, hsemicolon', more⟩ := h.passesOperator hsemicolon
      simpa [Shell.pastSemicolon, hsemicolon, hsemicolon'] using more
    | false =>
      obtain _ | ⟨alike, keyword, named, called, more⟩ := h
      have hsemicolon' := (alike.same (Token.isOperator_ofShape .semicolon)).trans hsemicolon
      simpa [Shell.pastSemicolon, hsemicolon, hsemicolon'] using .cons alike keyword named called more

/-- A list is closed where it was. -/
theorem closed (h : Respelled m role ts ts') {closers : List Closer}
    (hc : ∀ token ∈ ts.head?, isClosed closers token = true) :
    ∀ token ∈ ts'.head?, isClosed closers token = true := by
  cases h with
  | nil => exact nofun
  | cons alike _ _ _ _ =>
    rintro _ ⟨⟩
    exact (alike.same (Token.isClosed_ofShape closers)).trans (hc _ rfl)

/-- A list goes on where it did. -/
theorem isOpen (h : Respelled m role ts ts') {closers : List Closer}
    (ho : ∃ token ∈ ts.head?, isClosed closers token = false) :
    ∃ token ∈ ts'.head?, isClosed closers token = false := by
  obtain ⟨token, hmem, hopen⟩ := ho
  cases h with
  | nil => cases hmem
  | @cons _ _ token' _ _ alike _ _ _ _ =>
    obtain rfl := Option.some.inj hmem
    exact ⟨token', rfl, (alike.same (Token.isClosed_ofShape closers)).trans hopen⟩

end Respelled

/-! ## 3. Phrases -/

/-- What holds of some phrase that is the same but for its places. -/
def Phrase.Elsewhere (P : Phrase → Prop) : Phrase → Prop
  | .words ws => ∃ ws', moveWords .away ws' = moveWords .away ws ∧ P (.words ws')
  | .simple named as ws => ∃ as' ws', moveAssignments .away as' = moveAssignments .away as ∧
    moveWords .away ws' = moveWords .away ws ∧ P (.simple named as' ws')
  | .branches bs => ∃ bs', moveBranches .away bs' = moveBranches .away bs ∧ P (.branches bs')
  | .otherwise body => ∃ body', moveBody .away body' = moveBody .away body ∧ P (.otherwise body')
  | .items ws => ∃ ws', moveItems .away ws' = moveItems .away ws ∧ P (.items ws')
  | .braces _ body => ∃ line' body', body'.unplaced = body.unplaced ∧ P (.braces line' body')
  | .parens _ body => ∃ line' body', body'.unplaced = body.unplaced ∧ P (.parens line' body')
  | .functionBody body => ∃ body', body'.unplaced = body.unplaced ∧ P (.functionBody body')
  | .form c => ∃ c', c'.move .away = c.move .away ∧ P (.form c')
  | .command c => ∃ c', c'.move .away = c.move .away ∧ P (.command c')
  | .pipes cs => ∃ cs', moveCommands .away cs' = moveCommands .away cs ∧ P (.pipes cs')
  | .pipeline p => ∃ p', p'.move .away = p.move .away ∧ P (.pipeline p')
  | .joined ps => ∃ ps', moveJoined .away ps' = moveJoined .away ps ∧ P (.joined ps')
  | .andOr l => ∃ l', l'.move .away = l.move .away ∧ P (.andOr l')
  | .statements closers ls =>
    ∃ ls', moveStatements .away ls' = moveStatements .away ls ∧ P (.statements closers ls')
  | .list closers s => ∃ s', s'.unplaced = s.unplaced ∧ P (.list closers s')

/-- The name of a simple command and its arguments are the same if its words are. -/
theorem moveWords_head {ws ws' : List Word} (h : moveWords .away ws' = moveWords .away ws) :
    moveName .away ws'.head? = moveName .away ws.head? ∧
      moveWords .away (ws'.drop 1) = moveWords .away (ws.drop 1) := by
  cases ws with
  | nil => cases ws' with
    | nil => exact ⟨rfl, rfl⟩
    | cons w' ws' => cases h
  | cons w ws => cases ws' with
    | nil => cases h
    | cons w' ws' =>
      obtain ⟨hw, hws⟩ := List.cons.inj h
      exact ⟨congrArg some hw, hws⟩

/-- The roles that the first token of a phrase can have. Arguments may come where the grammar reads words. -/
def Phrase.Begins (role : Role) : Phrase → Prop
  | .words _ | .simple _ _ _ => True
  | _ => role = .anything

/-- **Respelled tokens spell the same phrase**, but for its places. -/
theorem Spells.respelled {starts : List Token → Command → Prop} (hread : SourceReader.Moves m read read) {role : Role}
    {ts ts' rest : List Token} {phrase : Phrase} (h : Spells read starts ts phrase rest) (hrole : phrase.Begins role)
    (hts : Respelled m role ts ts') :
    ∃ rest', Respelled m .anything rest rest' ∧
      phrase.Elsewhere fun phrase' => Spelled read ts' phrase' rest' := by
  -- By induction on the grammar: a rule passes a token of each of the lists, and goes on with what is left of both.
  induction h generalizing role ts' with
  | noWord stop => exact ⟨ts', hts.pastWords stop, [], rfl, .noWord (hts.stops stop Token.isWord_ofShape)⟩
  | word isWord resolved more ih =>
    obtain _ | ⟨alike, -, -, -, hmore⟩ := hts
    obtain ⟨word', hword, hsame⟩ := alike.word hread resolved
    obtain ⟨rest', hrest, words', hwords, hspells⟩ := ih trivial hmore
    exact ⟨rest', hrest, word' :: words', congrArg₂ List.cons hsame hwords,
      .word (alike.keepsWord isWord) hword hspells⟩
  | simpleEnd stop =>
    exact ⟨ts', hts.pastWords stop, [], [], rfl, rfl, .simpleEnd (hts.stops stop Token.isWord_ofShape)⟩
  | assignment isWord head valid resolved more ih =>
    obtain _ | ⟨alike, -, -, -, hmore⟩ := hts
    obtain ⟨parts', hhead, hparts⟩ := alike.assignment?.2 _ _ _ head
    obtain ⟨value', hvalue, hsame⟩ := hparts.resolve_word hread resolved _
    obtain ⟨rest', hrest, assignments', words', hassignments, hwords, hspells⟩ := ih trivial hmore
    refine ⟨rest', hrest, _ :: assignments', words', ?_, hwords,
      .assignment (alike.keepsWord isWord) hhead valid hvalue hspells⟩
    simp only [moveAssignments, Assignment.move, hsame, hassignments]
    rfl
  | argument isWord plain resolved more ih =>
    obtain _ | ⟨alike, -, -, -, hmore⟩ := hts
    obtain ⟨word', hword, hsame⟩ := alike.word hread resolved
    obtain ⟨rest', hrest, assignments', words', hassignments, hwords, hspells⟩ := ih trivial hmore
    obtain rfl : assignments' = [] := by
      cases assignments' with
      | nil => rfl
      | cons assignment assignments => cases hassignments
    exact ⟨rest', hrest, [], word' :: words', rfl, congrArg₂ List.cons hsame hwords,
      .argument (alike.keepsWord isWord) (fun hnamed => alike.assignment?.1 (plain hnamed)) hword hspells⟩
  | simpleCommand isWord single words_spell follow ih =>
    obtain ⟨rest', hrest, assignments', words', hassignments, hwords, hspells⟩ := ih trivial hts
    obtain _ | ⟨alike, -, -, -, hmore⟩ := hts
    refine ⟨rest', hrest, _, ?_, .simpleCommand (alike.keepsWord isWord)
      (hmore.stops single (Token.isOperator_ofShape _)) hspells (hrest.stops follow Token.isForbidden_ofShape)⟩
    obtain ⟨hname, hargs⟩ := moveWords_head hwords
    simp only [Command.move, hname, hargs, hassignments]
    rfl
  | arithmeticCommand isArithmetic resolved =>
    obtain rfl := hrole
    obtain ⟨_, rest', rfl, isArithmetic', alike, hmore⟩ := hts.passes Token.isArithmetic_ofShape
      (Role.next_of_unnamed (unnamed_of_isArithmetic isArithmetic))
    obtain ⟨word', hword, hsame⟩ := alike.word hread resolved
    refine ⟨rest', hmore, _, ?_, .arithmeticCommand (isArithmetic'.trans isArithmetic) hword⟩
    exact congrArg (Command.arithmetic 0) hsame
  | choice isIf condition condition_ne isThen body body_ne branches otherwise isFi ih₁ ih₂ ih₃ ih₄ =>
    obtain rfl := hrole
    obtain ⟨_, _, rfl, isIf', hmore⟩ := hts.passesReserved isIf (by decide) (by decide)
    obtain ⟨_, hmore, condition', hcondition, hspells₁⟩ := ih₁ rfl hmore
    obtain ⟨_, _, rfl, isThen', hmore⟩ := hmore.passesKeyword isThen (by decide) (by decide)
    obtain ⟨_, hmore, body', hbody, hspells₂⟩ := ih₂ rfl hmore
    obtain ⟨_, hmore, branches', hbranches, hspells₃⟩ := ih₃ rfl hmore
    obtain ⟨_, hmore, otherwise', hotherwise, hspells₄⟩ := ih₄ rfl hmore
    obtain ⟨_, _, rfl, isFi', hmore⟩ := hmore.passesKeyword isFi (by decide) (by decide)
    refine ⟨_, hmore, _, ?_, .choice isIf' hspells₁ (statements_ne_nil hcondition condition_ne) isThen' hspells₂
      (statements_ne_nil hbody body_ne) hspells₃ hspells₄ isFi'⟩
    unfold Sequence.unplaced at hcondition hbody
    simp only [Command.move, hcondition, hbody, hbranches, hotherwise]
    rfl
  | noBranch stop =>
    obtain rfl := hrole
    exact ⟨ts', hts, [], rfl, .noBranch (hts.stops stop (Token.isReserved_ofShape _))⟩
  | branch isElif condition condition_ne isThen body body_ne more ih₁ ih₂ ih₃ =>
    obtain rfl := hrole
    obtain ⟨_, _, rfl, isElif', hmore⟩ := hts.passesReserved isElif (by decide) (by decide)
    obtain ⟨_, hmore, condition', hcondition, hspells₁⟩ := ih₁ rfl hmore
    obtain ⟨_, _, rfl, isThen', hmore⟩ := hmore.passesKeyword isThen (by decide) (by decide)
    obtain ⟨_, hmore, body', hbody, hspells₂⟩ := ih₂ rfl hmore
    obtain ⟨rest', hrest, branches', hbranches, hspells₃⟩ := ih₃ rfl hmore
    refine ⟨rest', hrest, _ :: branches', ?_, .branch isElif' hspells₁ (statements_ne_nil hcondition condition_ne)
      isThen' hspells₂ (statements_ne_nil hbody body_ne) hspells₃⟩
    exact congrArg₂ List.cons (congrArg₂ Branch.mk hcondition hbody) hbranches
  | noOtherwise stop =>
    obtain rfl := hrole
    exact ⟨ts', hts, none, rfl, .noOtherwise (hts.stops stop (Token.isReserved_ofShape _))⟩
  | otherwise isElse body body_ne ih =>
    obtain rfl := hrole
    obtain ⟨_, _, rfl, isElse', hmore⟩ := hts.passesReserved isElse (by decide) (by decide)
    obtain ⟨rest', hrest, body', hbody, hspells⟩ := ih rfl hmore
    exact ⟨rest', hrest, some body', congrArg some hbody,
      .otherwise isElse' hspells (statements_ne_nil hbody body_ne)⟩
  | @loop kind _ _ _ _ _ _ _ _ isLoop condition condition_ne isDo body body_ne isDone ih₁ ih₂ =>
    obtain rfl := hrole
    obtain ⟨_, _, rfl, isLoop', hmore⟩ :=
      hts.passesReserved isLoop (by cases kind <;> decide) (by cases kind <;> decide)
    obtain ⟨_, hmore, condition', hcondition, hspells₁⟩ := ih₁ rfl hmore
    obtain ⟨_, _, rfl, isDo', hmore⟩ := hmore.passesKeyword isDo (by decide) (by decide)
    obtain ⟨_, hmore, body', hbody, hspells₂⟩ := ih₂ rfl hmore
    obtain ⟨_, _, rfl, isDone', hmore⟩ := hmore.passesKeyword isDone (by decide) (by decide)
    refine ⟨_, hmore, _, ?_, .loop isLoop' hspells₁ (statements_ne_nil hcondition condition_ne) isDo' hspells₂
      (statements_ne_nil hbody body_ne) isDone'⟩
    unfold Sequence.unplaced at hcondition hbody
    simp only [Command.move, hcondition, hbody]
    rfl
  | noItems stop =>
    obtain rfl := hrole
    exact ⟨ts', hts, none, rfl, .noItems (hts.stopsIn stop)⟩
  | items isIn words ih =>
    obtain _ | ⟨-, keyword, -, -, hmore⟩ := hts
    obtain rfl := hrole
    obtain ⟨rest', hrest, words', hwords, hspells⟩ := ih trivial hmore
    exact ⟨rest', hrest, some words', congrArg some hwords, .items ((keyword (by decide)).isIn.trans isIn) hspells⟩
  | each isFor isWord valid items separated isDo body body_ne isDone ih₁ ih₂ =>
    obtain rfl := hrole
    obtain ⟨_, _, _, rfl, alike, alike_name, hname, hmore⟩ := hts.passesName (by simp [namesNext, isFor]) isWord
    obtain ⟨ts₁', hmore, words', hwords, hspells₁⟩ := ih₁ rfl hmore.pastNewlines
    have hseparated := hmore.pastSemicolon.pastNewlines
    rw [separated] at hseparated
    generalize hdo : pastNewlines (pastSemicolon ts₁') = after at hseparated
    obtain ⟨_, _, rfl, isDo', hmore⟩ := hseparated.passesKeyword isDo (by decide) (by decide)
    obtain ⟨_, hmore, body', hbody, hspells₂⟩ := ih₂ rfl hmore
    obtain ⟨_, _, rfl, isDone', hmore⟩ := hmore.passesKeyword isDone (by decide) (by decide)
    -- The text of the variable is in the phrase.
    rw [← hname] at valid ⊢
    refine ⟨_, hmore, _, ?_, .each ((alike.same (Token.isReserved_ofShape _)).trans isFor) (alike_name.keepsWord isWord)
      valid hspells₁ hdo isDo' hspells₂ (statements_ne_nil hbody body_ne) isDone'⟩
    unfold Sequence.unplaced at hbody
    simp only [Command.move, hwords, hbody]
    rfl
  | braces isBrace body body_ne isClose ih =>
    obtain rfl := hrole
    obtain ⟨_, _, rfl, isBrace', hmore⟩ := hts.passesReserved isBrace (by decide) (by decide)
    obtain ⟨_, hmore, body', hbody, hspells⟩ := ih rfl hmore
    obtain ⟨_, _, rfl, isClose', hmore⟩ := hmore.passesKeyword isClose (by decide) (by decide)
    exact ⟨_, hmore, _, body', hbody, .braces isBrace' hspells (statements_ne_nil hbody body_ne) isClose'⟩
  | parens isParen body body_ne isClose ih =>
    obtain rfl := hrole
    obtain ⟨_, _, rfl, isParen', hmore⟩ := hts.passesOperator isParen
    obtain ⟨_, hmore, body', hbody, hspells⟩ := ih rfl hmore
    obtain ⟨_, _, rfl, isClose', hmore⟩ := hmore.passesOperator isClose
    exact ⟨_, hmore, _, body', hbody, .parens isParen' hspells (statements_ne_nil hbody body_ne) isClose'⟩
  | group spells ih =>
    obtain ⟨rest', hrest, line', body', hbody, hspells⟩ := ih hrole hts
    exact ⟨rest', hrest, .group line' body', congrArg (Command.group 0) hbody, .group hspells⟩
  | subshell spells ih =>
    obtain ⟨rest', hrest, line', body', hbody, hspells⟩ := ih hrole hts
    exact ⟨rest', hrest, .subshell line' body', congrArg (Command.subshell 0) hbody, .subshell hspells⟩
  | bracedBody spells ih =>
    obtain ⟨rest', hrest, line', body', hbody, hspells⟩ := ih hrole hts
    exact ⟨rest', hrest, body', hbody, .bracedBody hspells⟩
  | subshellBody spells ih =>
    obtain ⟨rest', hrest, line', body', hbody, hspells⟩ := ih hrole hts
    refine ⟨rest', hrest, _, ?_, .subshellBody hspells⟩
    exact congrArg (fun body => ofCommand (.subshell 0 body)) hbody
  | keywordFunction isFunction isWord single unquoted valid body ih =>
    obtain rfl := hrole
    obtain ⟨_, _, _, rfl, alike, alike_name, hname, hmore⟩ := hts.passesName (by simp [namesNext, isFunction]) isWord
    obtain ⟨rest', hrest, body', hbody, hspells⟩ := ih rfl hmore.pastNewlines
    rw [← hname] at valid ⊢
    refine ⟨rest', hrest, _, ?_, .keywordFunction ((alike.same (Token.isReserved_ofShape _)).trans isFunction)
      (alike_name.keepsWord isWord) (hmore.stops single (Token.isOperator_ofShape _))
      (alike_name.isQuoted.trans unquoted) valid hspells⟩
    exact congrArg (Command.function 0 _) hbody
  | keywordFunctionParens isFunction isWord isLeft isRight unquoted valid body ih =>
    obtain rfl := hrole
    obtain ⟨_, _, _, rfl, alike, alike_name, hname, hmore⟩ := hts.passesName (by simp [namesNext, isFunction]) isWord
    obtain ⟨_, _, rfl, isLeft', hmore⟩ := hmore.passesOperator isLeft
    obtain ⟨_, _, rfl, isRight', hmore⟩ := hmore.passesOperator isRight
    obtain ⟨rest', hrest, body', hbody, hspells⟩ := ih rfl hmore.pastNewlines
    rw [← hname] at valid ⊢
    refine ⟨rest', hrest, _, ?_, .keywordFunctionParens ((alike.same (Token.isReserved_ofShape _)).trans isFunction)
      (alike_name.keepsWord isWord) isLeft' isRight' (alike_name.isQuoted.trans unquoted) valid hspells⟩
    exact congrArg (Command.function 0 _) hbody
  | namedFunction isWord isLeft isRight unquoted valid body ih =>
    obtain _ | ⟨alike, -, -, called, hmore⟩ := hts
    -- Here the parenthesis that comes next makes the word a name.
    have hname := called fun hunless => absurd (hunless _ rfl) (by simp [isLeft])
    have hmore := hmore.pastWords fun token hmem => by
      obtain rfl := Option.some.inj hmem
      exact (unnamed_of_isOperator isLeft).2
    obtain ⟨_, _, rfl, isLeft', hmore⟩ := hmore.passesOperator isLeft
    obtain ⟨_, _, rfl, isRight', hmore⟩ := hmore.passesOperator isRight
    obtain ⟨rest', hrest, body', hbody, hspells⟩ := ih rfl hmore.pastNewlines
    rw [← hname] at valid ⊢
    refine ⟨rest', hrest, _, ?_, .namedFunction (alike.keepsWord isWord) isLeft' isRight'
      (alike.isQuoted.trans unquoted) valid hspells⟩
    exact congrArg (Command.function 0 _) hbody
  | command start spells ih =>
    obtain ⟨rest', hrest, command', hcommand, hspells⟩ := ih hrole hts
    exact ⟨rest', hrest, command', hcommand, .command trivial hspells⟩
  | noPipe stop =>
    obtain rfl := hrole
    exact ⟨ts', hts, [], rfl, .noPipe (hts.stops stop (Token.isOperator_ofShape _))⟩
  | pipe isPipe command more ih₁ ih₂ =>
    obtain rfl := hrole
    obtain ⟨_, _, rfl, isPipe', hmore⟩ := hts.passesOperator isPipe
    obtain ⟨_, hmore, command', hcommand, hspells₁⟩ := ih₁ rfl hmore.pastNewlines
    obtain ⟨rest', hrest, commands', hcommands, hspells₂⟩ := ih₂ rfl hmore
    exact ⟨rest', hrest, command' :: commands', congrArg₂ List.cons hcommand hcommands,
      .pipe isPipe' hspells₁ hspells₂⟩
  | pipeline unnegated first more ih₁ ih₂ =>
    obtain ⟨_, hmore, first', hfirst, hspells₁⟩ := ih₁ hrole hts
    obtain ⟨rest', hrest, commands', hcommands, hspells₂⟩ := ih₂ rfl hmore
    exact ⟨rest', hrest, ⟨false, first', commands'⟩, congrArg₂ (Pipeline.mk false) hfirst hcommands,
      .pipeline (hts.stops unnegated (Token.isReserved_ofShape _)) hspells₁ hspells₂⟩
  | @bang _ _ _ p isBang spells ih =>
    obtain rfl := hrole
    obtain ⟨_, _, rfl, isBang', hmore⟩ := hts.passesReserved isBang (by decide) (by decide)
    obtain ⟨rest', hrest, p', hp, hspells⟩ := ih rfl hmore
    refine ⟨rest', hrest, _, ?_, .bang isBang' hspells⟩
    obtain ⟨negated, first, more⟩ := p
    obtain ⟨negated', first', more'⟩ := p'
    obtain ⟨rfl, hfirst, hmore⟩ := Pipeline.mk.inj hp
    exact congrArg₂ (Pipeline.mk _) hfirst hmore
  | noConnective stop =>
    obtain rfl := hrole
    exact ⟨ts', hts, [], rfl, .noConnective (hts.stops stop Token.isConnective_ofShape)⟩
  | connective isConnective pipeline more ih₁ ih₂ =>
    obtain rfl := hrole
    obtain ⟨_, _, rfl, isConnective', -, hmore⟩ := hts.passes Token.connective?_ofShape
      (Role.next_of_unnamed (unnamed_of_connective? isConnective))
    obtain ⟨_, hmore, pipeline', hpipeline, hspells₁⟩ := ih₁ rfl hmore.pastNewlines
    obtain ⟨rest', hrest, pipelines', hpipelines, hspells₂⟩ := ih₂ rfl hmore
    exact ⟨rest', hrest, ⟨_, pipeline'⟩ :: pipelines',
      congrArg₂ List.cons (congrArg (Joined.mk _) hpipeline) hpipelines,
      .connective (isConnective'.trans isConnective) hspells₁ hspells₂⟩
  | andOr first more ih₁ ih₂ =>
    obtain ⟨_, hmore, first', hfirst, hspells₁⟩ := ih₁ hrole hts
    obtain ⟨rest', hrest, pipelines', hpipelines, hspells₂⟩ := ih₂ rfl hmore
    exact ⟨rest', hrest, ⟨first', pipelines'⟩, congrArg₂ AndOrList.mk hfirst hpipelines, .andOr hspells₁ hspells₂⟩
  | closed stop =>
    obtain rfl := hrole
    exact ⟨ts', hts, [], rfl, .closed (hts.closed stop)⟩
  | last isOpen spells stop ih =>
    obtain ⟨rest', hrest, statement', hstatement, hspells⟩ := ih hrole hts
    exact ⟨rest', hrest, [statement'], congrArg (fun statement => [statement]) hstatement,
      .last (hts.isOpen isOpen) hspells (hrest.stops stop Token.isSeparator_ofShape)⟩
  | semicolon isOpen spells isSemicolon more ih₁ ih₂ =>
    obtain ⟨_, hmore, statement', hstatement, hspells₁⟩ := ih₁ hrole hts
    obtain ⟨_, _, rfl, isSemicolon', hmore⟩ := hmore.passesOperator isSemicolon
    obtain ⟨rest', hrest, statements', hstatements, hspells₂⟩ := ih₂ rfl hmore.pastNewlines
    exact ⟨rest', hrest, statement' :: statements', congrArg₂ List.cons hstatement hstatements,
      .semicolon (hts.isOpen isOpen) hspells₁ isSemicolon' hspells₂⟩
  | newline isOpen spells isNewline more ih₁ ih₂ =>
    obtain ⟨_, hmore, statement', hstatement, hspells₁⟩ := ih₁ hrole hts
    obtain ⟨_, _, rfl, isNewline', hmore⟩ := hmore.passesNewline isNewline
    obtain ⟨rest', hrest, statements', hstatements, hspells₂⟩ := ih₂ rfl hmore.pastNewlines
    exact ⟨rest', hrest, statement' :: statements', congrArg₂ List.cons hstatement hstatements,
      .newline (hts.isOpen isOpen) hspells₁ isNewline' hspells₂⟩
  | list spells ih =>
    obtain rfl := hrole
    obtain ⟨rest', hrest, statements', hstatements, hspells⟩ := ih rfl hts.pastNewlines
    exact ⟨rest', hrest, ⟨statements'⟩, congrArg Sequence.mk hstatements, .list hspells⟩

/-! ## 4. Names -/

/-- There is no backslash and no sign of an assignment in the text of a token. -/
def Token.IsPlain (token : Token) : Prop :=
  '\\' ∉ token.lexeme.text.toList ∧ '=' ∉ token.lexeme.text.toList

/-- A name that can be assigned to is written as it is. -/
theorem Token.isPlain_of_isValid {token : Token} (h : Name.isValid token.lexeme.text.toList = true) : token.IsPlain :=
  ⟨not_mem_of_isValid h (by decide) (by decide), not_mem_of_isValid h (by decide) (by decide)⟩

/-- So is the name of a function. -/
theorem Token.isPlain_of_isFunctionName {token : Token} (h : isFunctionName token.lexeme.text.toList = true) :
    token.IsPlain :=
  ⟨not_mem_of_isFunctionName h (by decide), not_mem_of_isFunctionName h (by decide)⟩

/-- A word is no parenthesis. -/
theorem unless_of_isWord {token : Token} {ts : List Token} (h : isWord token = true) :
    Unless (isOperator .leftParen) (token :: ts) := by
  rintro _ ⟨⟩
  obtain ⟨text, parts, hl⟩ := lexeme_of_isWord h
  simp [isOperator, hl]

/-- The words that stand where a name is expected are plain: those after `for` and `function`, and those before a
parenthesis. -/
inductive NamesPlain : List Token → Prop where
  | nil : NamesPlain []
  | token {token : Token} {ts : List Token} (next : namesNext token = false)
      (called : isWord token = true → ¬ Unless (isOperator .leftParen) ts → token.IsPlain) (more : NamesPlain ts) :
      NamesPlain (token :: ts)
  | name {token name : Token} {ts : List Token} (isWord : isWord name = true) (plain : name.IsPlain)
      (more : NamesPlain ts) : NamesPlain (token :: name :: ts)

namespace NamesPlain

variable {token : Token} {ts : List Token}

/-- A word that no parenthesis comes after need not be plain. -/
theorem word (hw : isWord token = true) (hc : ¬ Unless (isOperator .leftParen) ts → token.IsPlain)
    (h : NamesPlain ts) : NamesPlain (token :: ts) :=
  .token (namesNext_of_isWord hw) (fun _ => hc) h

/-- A token that asks for no name may stand before. -/
theorem skip (ht : namesNext token = false ∧ isWord token = false) (h : NamesPlain ts) : NamesPlain (token :: ts) :=
  .token ht.1 (fun hw => absurd (hw.symm.trans ht.2) nofun) h

/-- The text of a keyword is plain. -/
theorem skipKeyword {keyword : Keyword} (ht : isKeyword keyword token = true) (hfor : keyword ≠ .for)
    (hfunction : keyword ≠ .function) (h : NamesPlain ts) : NamesPlain (token :: ts) := by
  rcases Bool.or_eq_true_iff.mp ht with ht | ht
  · exact h.skip (unnamed_of_isReserved ht hfor hfunction)
  · obtain ⟨parts, hl, -⟩ := isWordText_iff.mp ht
    refine h.word (by simp [isWord, hl]) fun _ => ?_
    unfold Token.IsPlain
    rw [hl, Lexeme.text]
    cases keyword <;> decide

/-- So may newlines. -/
theorem pastNewlines (h : NamesPlain (pastNewlines ts)) : NamesPlain ts :=
  of_pastNewlines (fun _ _ hn h => h.skip (unnamed_of_isNewline hn)) h

/-- So may a semicolon. -/
theorem pastSemicolon (h : NamesPlain (pastSemicolon ts)) : NamesPlain ts :=
  of_pastSemicolon (fun _ _ hs h => h.skip (unnamed_of_isOperator hs)) h

/-- A word after `for` or `function` is plain. -/
theorem plain_after {all before after : List Token} {last : Token} (h : NamesPlain all)
    (hall : all = before ++ last :: token :: after) (hl : namesNext last = true) : token.IsPlain := by
  induction h generalizing before with
  | nil => cases before <;> cases hall
  | token next called more ih =>
    cases before with
    | nil =>
      obtain ⟨rfl, -⟩ := List.cons.inj hall
      rw [next] at hl
      cases hl
    | cons _ before => exact ih (List.cons.inj hall).2
  | name isWord plain more ih =>
    obtain _ | ⟨_, _ | ⟨_, before⟩⟩ := before
    · obtain ⟨rfl, -⟩ := List.cons.inj (List.cons.inj hall).2
      exact plain
    · obtain ⟨rfl, -⟩ := List.cons.inj (List.cons.inj hall).2
      rw [namesNext_of_isWord isWord] at hl
      cases hl
    · exact ih (List.cons.inj (List.cons.inj hall).2).2

/-- A word before a parenthesis is plain. -/
theorem plain_before {all before after : List Token} (h : NamesPlain all) (hall : all = before ++ token :: after)
    (ha : ¬ Unless (isOperator .leftParen) after) (hw : isWord token = true) : token.IsPlain := by
  induction h generalizing before with
  | nil => cases before <;> cases hall
  | token next called more ih =>
    cases before with
    | nil =>
      obtain ⟨rfl, rfl⟩ := List.cons.inj hall
      exact called hw ha
    | cons _ before => exact ih (List.cons.inj hall).2
  | name isWord plain more ih =>
    obtain _ | ⟨_, _ | ⟨_, before⟩⟩ := before
    · obtain ⟨rfl, rfl⟩ := List.cons.inj hall
      exact absurd (unless_of_isWord isWord) ha
    · obtain ⟨rfl, -⟩ := List.cons.inj (List.cons.inj hall).2
      exact plain
    · exact ih (List.cons.inj (List.cons.inj hall).2).2

end NamesPlain

/-- The phrases that may end with a word which is no name. -/
def Phrase.IsWords : Phrase → Prop
  | .words _ | .simple _ _ _ | .items _ => True
  | _ => False

/-- Words before what is no parenthesis are no functions. -/
theorem Spells.uncalled {starts : List Token → Command → Prop} {ts rest : List Token} {phrase : Phrase}
    (h : Spells read starts ts phrase rest) (hw : phrase.IsWords) (hrest : Unless (isOperator .leftParen) rest) :
    Unless (isOperator .leftParen) ts := by
  cases h with
  | noWord | simpleEnd | noItems => exact hrest
  | word isWord | assignment isWord | argument isWord => exact unless_of_isWord isWord
  | items isIn =>
    obtain ⟨parts, hl, -⟩ := isWordText_iff.mp isIn
    exact unless_of_isWord (by simp [isWord, hl])
  | _ => exact hw.elim

/-- The keyword `do` does not come after a parenthesis. -/
theorem unless_of_separated {doToken : Token} {ts ts' : List Token}
    (h : pastNewlines (pastSemicolon ts) = doToken :: ts') (hd : isKeyword .do doToken = true) :
    Unless (isOperator .leftParen) ts := by
  cases ts with
  | nil => exact nofun
  | cons token ts =>
    rintro _ ⟨⟩
    cases ht : isOperator .leftParen token with
    | false => rfl
    | true =>
      obtain ⟨lexeme, place⟩ := token
      obtain rfl : lexeme = .operator .leftParen := lexeme_of_isOperator ht
      obtain ⟨rfl, -⟩ := List.cons.inj h
      cases hd

/-- **In the tokens of a phrase the names are plain**, if nothing comes after its words that makes one a name. -/
theorem Spells.namesPlain {starts : List Token → Command → Prop} {ts rest : List Token} {phrase : Phrase}
    (h : Spells read starts ts phrase rest) (hnext : phrase.IsWords → Unless (isOperator .leftParen) rest)
    (hrest : NamesPlain rest) : NamesPlain ts := by
  have hoperator {op : Operator} {token : Token} {ts : List Token} (ht : isOperator op token = true)
      (h : NamesPlain ts) : NamesPlain (token :: ts) := h.skip (unnamed_of_isOperator ht)
  -- From the right to the left. Only words can be names, and what stands behind a word tells if it is one.
  induction h with
  | noWord | simpleEnd | noBranch | noOtherwise | noItems | noPipe | noConnective | closed => exact hrest
  | word isWord _ more ih | assignment isWord _ _ _ more ih | argument isWord _ _ more ih =>
    exact (ih hnext hrest).word isWord fun hcall => absurd (more.uncalled trivial (hnext trivial)) hcall
  | simpleCommand _ _ _ follow ih =>
    refine ih (fun _ token hmem => ?_) hrest
    have hforbidden := follow token hmem
    unfold isForbidden at hforbidden
    exact (Bool.or_eq_false_iff.mp hforbidden).2
  | arithmeticCommand isArithmetic => exact hrest.skip (unnamed_of_isArithmetic isArithmetic)
  | choice isIf _ _ isThen _ _ _ _ isFi ih₁ ih₂ ih₃ ih₄ =>
    have hfi := hrest.skipKeyword isFi (by decide) (by decide)
    have hthen := (ih₂ False.elim (ih₃ False.elim (ih₄ False.elim hfi))).skipKeyword isThen (by decide) (by decide)
    exact (ih₁ False.elim hthen).skip (unnamed_of_isReserved isIf (by decide) (by decide))
  | branch isElif _ _ isThen _ _ _ ih₁ ih₂ ih₃ =>
    have hthen := (ih₂ False.elim (ih₃ False.elim hrest)).skipKeyword isThen (by decide) (by decide)
    exact (ih₁ False.elim hthen).skip (unnamed_of_isReserved isElif (by decide) (by decide))
  | otherwise isElse _ _ ih => exact (ih False.elim hrest).skip (unnamed_of_isReserved isElse (by decide) (by decide))
  | @loop kind _ _ _ _ _ _ _ _ isLoop _ _ isDo _ _ isDone ih₁ ih₂ =>
    have hdone := hrest.skipKeyword isDone (by decide) (by decide)
    have hcondition := ih₁ False.elim ((ih₂ False.elim hdone).skipKeyword isDo (by decide) (by decide))
    cases kind <;> exact hcondition.skip (unnamed_of_isReserved isLoop (by decide) (by decide))
  | items isIn words ih =>
    obtain ⟨parts, hl, -⟩ := isWordText_iff.mp isIn
    exact (ih hnext hrest).word (by simp [isWord, hl]) fun hcall =>
      absurd (words.uncalled trivial (hnext trivial)) hcall
  | each isFor isWord valid _ separated isDo _ _ isDone ih₁ ih₂ =>
    have hdone := hrest.skipKeyword isDone (by decide) (by decide)
    have hbody := (ih₂ False.elim hdone).skipKeyword isDo (by decide) (by decide)
    rw [← separated] at hbody
    have hitems := ih₁ (fun _ => unless_of_separated separated isDo) hbody.pastNewlines.pastSemicolon
    exact .name isWord (Token.isPlain_of_isValid valid) hitems.pastNewlines
  | braces isBrace _ _ isClose ih =>
    have hclose := hrest.skipKeyword isClose (by decide) (by decide)
    exact (ih False.elim hclose).skip (unnamed_of_isReserved isBrace (by decide) (by decide))
  | parens isParen _ _ isClose ih => exact hoperator isParen (ih False.elim (hoperator isClose hrest))
  | group _ ih | subshell _ ih | bracedBody _ ih | subshellBody _ ih | command _ _ ih | last _ _ _ ih =>
    exact ih False.elim hrest
  | keywordFunction _ isWord _ _ valid _ ih =>
    exact .name isWord (Token.isPlain_of_isFunctionName valid) (ih False.elim hrest).pastNewlines
  | keywordFunctionParens _ isWord isLeft isRight _ valid _ ih =>
    exact .name isWord (Token.isPlain_of_isFunctionName valid)
      (hoperator isLeft (hoperator isRight (ih False.elim hrest).pastNewlines))
  | namedFunction isWord isLeft isRight _ valid _ ih =>
    exact (hoperator isLeft (hoperator isRight (ih False.elim hrest).pastNewlines)).word isWord fun _ =>
      Token.isPlain_of_isFunctionName valid
  | pipe isPipe _ _ ih₁ ih₂ => exact hoperator isPipe (ih₁ False.elim (ih₂ False.elim hrest)).pastNewlines
  | pipeline _ _ _ ih₁ ih₂ | andOr _ _ ih₁ ih₂ => exact ih₁ False.elim (ih₂ False.elim hrest)
  | bang isBang _ ih => exact (ih False.elim hrest).skip (unnamed_of_isReserved isBang (by decide) (by decide))
  | connective isConnective _ _ ih₁ ih₂ =>
    exact (ih₁ False.elim (ih₂ False.elim hrest)).pastNewlines.skip (unnamed_of_connective? isConnective)
  | semicolon _ _ isSemicolon _ ih₁ ih₂ =>
    exact ih₁ False.elim (hoperator isSemicolon (ih₂ False.elim hrest).pastNewlines)
  | newline _ _ isNewline _ ih₁ ih₂ =>
    exact ih₁ False.elim ((ih₂ False.elim hrest).pastNewlines.skip (unnamed_of_isNewline isNewline))
  | list _ ih => exact (ih False.elim hrest).pastNewlines

end Shell
