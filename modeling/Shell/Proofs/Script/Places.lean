/-
Scripts in a text at another place.

The grammar does not look at places. So moved tokens spell the moved phrase (`Spells.move`), and as a text
has the same tokens wherever it starts, it is the same script there, but for its places (`parseAt_move`). The sources
of command substitutions are moved with the text they stand in, at any depth.
-/
import Shell.Proofs.Script.Recognition
import Shell.Proofs.Script.Starts
import Shell.Proofs.Token.Moves

set_option autoImplicit false

namespace Shell

open Shell.Parser

variable {m : Move}

/-! ## 1. Words -/

section

variable {read read' : SourceReader}

/-- The readers do the same for sources that the move follows. -/
def SourceReader.Moves (m : Move) (read read' : SourceReader) : Prop :=
  ∀ source place body, m.Follows place → read source place = .ok body →
    read' source (m.place place) = .ok (body.move m)

mutual

/-- **A part with its sources** is resolved to the moved part. The place of a source goes with the move, so the
script read from it is the moved one. -/
theorem WordPart.resolve_move (h : SourceReader.Moves m read read') : ∀ part : WordPart,
    part.Sources (fun _ place => m.Follows place) → ∀ part', part.resolve read = .ok part' →
      (part.move m).resolve read' = .ok (part'.move m)
  | .literal _, _, _, hr => by
    obtain rfl := Except.ok.inj hr
    rfl
  | .singleQuoted _, _, _, hr => by
    obtain rfl := Except.ok.inj hr
    rfl
  | .escaped _, _, _, hr => by
    obtain rfl := Except.ok.inj hr
    rfl
  | .doubleQuoted parts, hs, _, hr => by
    obtain ⟨parts', hp, hr⟩ := bind_eq_ok.mp hr
    obtain rfl := Except.ok.inj hr
    exact bind_eq_ok.mpr ⟨_, resolveParts_move h parts hs parts' hp, rfl⟩
  | .parameter _, _, _, hr => by
    obtain rfl := Except.ok.inj hr
    rfl
  | .length _, _, _, hr => by
    obtain rfl := Except.ok.inj hr
    rfl
  | .conditional _ _ ⟨line, parts⟩, hs, _, hr => by
    obtain ⟨argument', ha, hr⟩ := bind_eq_ok.mp hr
    obtain rfl := Except.ok.inj hr
    obtain ⟨parts', hp, ha⟩ := bind_eq_ok.mp ha
    obtain rfl := Except.ok.inj ha
    exact bind_eq_ok.mpr ⟨⟨line, _⟩, bind_eq_ok.mpr ⟨_, resolveParts_move h parts hs parts' hp, rfl⟩, rfl⟩
  | .substitution source place none, hs, _, hr => by
    obtain ⟨body, hb, hr⟩ := bind_eq_ok.mp hr
    obtain rfl := Except.ok.inj hr
    exact bind_eq_ok.mpr ⟨_, h source place body hs hb, rfl⟩
  | .substitution _ _ (some _), _, _, hr => by
    obtain rfl := Except.ok.inj hr
    rfl
  | .arithmetic expression, hs, _, hr => by
    obtain ⟨expression', he, hr⟩ := bind_eq_ok.mp hr
    obtain rfl := Except.ok.inj hr
    exact bind_eq_ok.mpr ⟨_, Word.resolve_move h expression hs expression' he, rfl⟩

/-- Parts are resolved one by one. -/
theorem resolveParts_move (h : SourceReader.Moves m read read') : ∀ parts : List WordPart,
    SourcesOf (fun _ place => m.Follows place) parts → ∀ parts', resolveParts read parts = .ok parts' →
      resolveParts read' (moveParts m parts) = .ok (moveParts m parts')
  | [], _, _, hr => by
    obtain rfl := Except.ok.inj hr
    rfl
  | part :: parts, hs, _, hr => by
    obtain ⟨part', hp, hr⟩ := bind_eq_ok.mp hr
    obtain ⟨parts', hps, hr⟩ := bind_eq_ok.mp hr
    obtain rfl := Except.ok.inj hr
    exact bind_eq_ok.mpr ⟨_, WordPart.resolve_move h part hs.1 part' hp,
      bind_eq_ok.mpr ⟨_, resolveParts_move h parts hs.2 parts' hps, rfl⟩⟩

/-- **A moved word has the moved bodies.** -/
theorem Word.resolve_move (h : SourceReader.Moves m read read') : ∀ word : Word,
    word.Sources (fun _ place => m.Follows place) → ∀ word', word.resolve read = .ok word' →
      (word.move m).resolve read' = .ok (word'.move m)
  | ⟨line, parts⟩, hs, _, hr => by
    obtain ⟨parts', hp, hr⟩ := bind_eq_ok.mp hr
    obtain rfl := Except.ok.inj hr
    exact bind_eq_ok.mpr ⟨_, resolveParts_move h parts hs parts' hp, rfl⟩

end

end

/-! ## 2. Tokens

What the grammar asks of a token does not look at its place (`Token.Unplaced`). There is one lemma for each question
that it asks. -/

section

variable {token : Token} {tokens : List Token} {p : Token → Bool}

/-- The text of a lexeme has no place in it. -/
@[simp] theorem Lexeme.text_move (m : Move) (lexeme : Lexeme) : (lexeme.move m).text = lexeme.text := by
  cases lexeme <;> rfl

/-- The parts of a lexeme are moved with it. -/
@[simp] theorem Lexeme.parts_move (m : Move) (lexeme : Lexeme) :
    (lexeme.move m).parts = moveParts m lexeme.parts := by
  cases lexeme <;> rfl

/-- A lexeme is quoted at every place or at none. -/
@[simp] theorem Lexeme.isQuoted_move (m : Move) (lexeme : Lexeme) :
    (lexeme.move m).isQuoted = lexeme.isQuoted := by
  cases lexeme with
  | word text parts => exact any_isQuoted_move m parts
  | _ => rfl

namespace Token

/-- The word of a token is moved with it. -/
theorem word_move (m : Move) (token : Token) : (token.move m).word = token.word.move m := by
  simp only [word, move, Lexeme.parts_move, m.line_place, Word.move]

/-- A question about tokens to which the places do not matter. -/
def Unplaced (m : Move) (p : Token → Bool) : Prop := ∀ token : Token, p (token.move m) = p token

theorem isWord_move : Unplaced m isWord := fun ⟨lexeme, _⟩ => by cases lexeme <;> rfl

theorem isReserved_move (keyword : Keyword) : Unplaced m (isReserved keyword) := fun ⟨lexeme, _⟩ => by
  cases lexeme <;> rfl

theorem isOperator_move (op : Operator) : Unplaced m (isOperator op) := fun ⟨lexeme, _⟩ => by
  cases lexeme <;> rfl

theorem isNewline_move : Unplaced m fun token => Lexeme.isNewline token.lexeme := fun ⟨lexeme, _⟩ => by
  cases lexeme <;> rfl

theorem isArithmetic_move : Unplaced m isArithmetic := fun ⟨lexeme, _⟩ => by cases lexeme <;> rfl

theorem isClosed_move (closers : List Closer) : Unplaced m (isClosed closers) := fun ⟨lexeme, _⟩ => by
  cases lexeme <;> rfl

/-- A token joins pipelines in the same way anywhere. -/
theorem connective?_move (m : Move) : ∀ token : Token, connective? (token.move m) = connective? token
  | ⟨lexeme, _⟩ => by cases lexeme <;> rfl

theorem isWordText_move (text : String) : Unplaced m (isWordText text) := fun ⟨lexeme, _⟩ => by
  cases lexeme with
  | word text' parts => simp only [isWordText, move, Lexeme.move, Lexeme.isQuoted, any_isQuoted_move]
  | _ => rfl

theorem isKeyword_move (keyword : Keyword) : Unplaced m (isKeyword keyword) := fun token => by
  unfold isKeyword
  rw [isReserved_move, isWordText_move]

theorem isConnective_move : Unplaced m isConnective := fun token => by
  unfold isConnective
  rw [connective?_move]

theorem isSeparator_move : Unplaced m isSeparator := fun token => by
  have hnewline := isNewline_move (m := m) token
  simp only [isSeparator, isOperator_move _ token, hnewline]

theorem isForbidden_move : Unplaced m isForbidden := fun token => by
  unfold isForbidden
  rw [isOperator_move, isOperator_move, isOperator_move]

/-- The value of a moved assignment is moved. -/
theorem assignment?_move (m : Move) (token : Token) :
    (token.move m).assignment? =
      token.assignment?.map fun found => (found.1, found.2.1, moveParts m found.2.2) := by
  unfold assignment?
  simp only [move, Lexeme.parts_move]
  cases token.lexeme.parts with
  | nil => rfl
  | cons part parts =>
    cases part with
    | literal head =>
      simp only [moveParts, WordPart.move]
      cases assignmentHead? head.toList with
      | none => rfl
      | some found =>
        obtain ⟨name, append, rest⟩ := found
        simp only [Option.map_some]
        split <;> rfl
    | conditional name op argument =>
      cases argument
      rfl
    | _ => rfl

end Token

/-- What does not come next does not come next anywhere. -/
theorem Unless.move (h : Unless p tokens) (hp : Token.Unplaced m p) : Unless p (tokens.map (Token.move m)) := by
  cases tokens with
  | nil => exact h
  | cons token tokens =>
    rintro _ ⟨⟩
    rw [hp]
    exact h token rfl

/-- The newlines that are passed are the same. -/
theorem pastNewlines_move (m : Move) (tokens : List Token) :
    pastNewlines (tokens.map (Token.move m)) = (pastNewlines tokens).map (Token.move m) := by
  unfold pastNewlines
  rw [List.dropWhile_map]
  congr 2
  funext token
  exact Token.isNewline_move token

/-- So is the semicolon. -/
theorem pastSemicolon_move (m : Move) (tokens : List Token) :
    pastSemicolon (tokens.map (Token.move m)) = (pastSemicolon tokens).map (Token.move m) := by
  cases tokens with
  | nil => rfl
  | cons token tokens =>
    simp only [List.map_cons, pastSemicolon, Token.isOperator_move _ token]
    split <;> rfl

end

/-! ## 3. Phrases -/

/-- The phrase at another place. -/
def Phrase.move (m : Move) : Phrase → Phrase
  | .words ws => .words (moveWords m ws)
  | .simple named as ws => .simple named (moveAssignments m as) (moveWords m ws)
  | .branches bs => .branches (moveBranches m bs)
  | .otherwise body => .otherwise (moveBody m body)
  | .items ws => .items (moveItems m ws)
  | .braces line body => .braces (m.line line) (body.move m)
  | .parens line body => .parens (m.line line) (body.move m)
  | .functionBody body => .functionBody (body.move m)
  | .form c => .form (c.move m)
  | .command c => .command (c.move m)
  | .pipes cs => .pipes (moveCommands m cs)
  | .pipeline p => .pipeline (p.move m)
  | .joined ps => .joined (moveJoined m ps)
  | .andOr l => .andOr (l.move m)
  | .statements closers ls => .statements closers (moveStatements m ls)
  | .list closers s => .list closers (s.move m)

/-- A list with a statement in it has one anywhere. -/
theorem moveStatements_ne_nil {s : Sequence} (h : s.statements ≠ []) : (s.move m).statements ≠ [] := by
  obtain ⟨statements⟩ := s
  cases statements with
  | nil => exact absurd rfl h
  | cons statement statements => exact List.cons_ne_nil _ _

/-- What is in the tokens of a phrase can be moved. -/
def Movable (m : Move) (ts : List Token) : Prop :=
  ∀ token ∈ ts, SourcesOf (fun _ place => m.Follows place) token.lexeme.parts

/-- Tokens that are left can be moved if all can. -/
theorem Movable.suffix {ts ts' : List Token} (h : Movable m ts) (hs : ts' <:+ ts) : Movable m ts' :=
  fun token hmem => h token (hs.subset hmem)

/-- The tokens after the first can be moved. -/
theorem Movable.tail {token : Token} {ts : List Token} (h : Movable m (token :: ts)) : Movable m ts :=
  h.suffix (List.suffix_cons _ _)

/-- The tokens after the newlines can be moved. -/
theorem Movable.pastNewlines {ts : List Token} (h : Movable m ts) : Movable m (pastNewlines ts) :=
  h.suffix (pastNewlines_suffix ts)

/-- **Moved tokens spell the moved phrase.** -/
theorem Spells.move {read read' : SourceReader} {starts : List Token → Command → Prop}
    (hread : SourceReader.Moves m read read') {ts rest : List Token} {phrase : Phrase}
    (h : Spells read starts ts phrase rest) (hs : Movable m ts) :
    Spelled read' (ts.map (Token.move m)) (phrase.move m) (rest.map (Token.move m)) := by
  have hword {token : Token} {ts : List Token} {word : Word} (hs : Movable m (token :: ts))
      (hr : token.word.resolve read = .ok word) : (token.move m).word.resolve read' = .ok (word.move m) := by
    rw [Token.word_move]
    exact Word.resolve_move hread token.word (hs token List.mem_cons_self) word hr
  have hskip {ts rest : List Token} {phrase : Phrase}
      (h : Spelled read' ((pastNewlines ts).map (Token.move m)) phrase rest) :
      Spelled read' (pastNewlines (ts.map (Token.move m))) phrase rest := by
    rwa [pastNewlines_move]
  have hopen {closers : List Closer} {ts : List Token}
      (h : ∃ token ∈ ts.head?, isClosed closers token = false) :
      ∃ token ∈ (ts.map (Token.move m)).head?, isClosed closers token = false := by
    obtain ⟨token, hmem, hopen⟩ := h
    exact ⟨token.move m, by rw [List.head?_map, Option.mem_def.mp hmem]; rfl,
      (Token.isClosed_move _ _).trans hopen⟩
  have hname (token : Token) : (token.move m).lexeme.text = token.lexeme.text := Lexeme.text_move m _
  have hquoted (token : Token) : (token.move m).lexeme.isQuoted = token.lexeme.isQuoted :=
    Lexeme.isQuoted_move m _
  -- By induction on the derivation: the same rule, with its tokens and its phrases moved. What a rule asks of
  -- tokens does not depend on places.
  induction h with
  | noWord stop => exact .noWord (stop.move Token.isWord_move)
  | word isWord resolved more ih =>
    exact .word ((Token.isWord_move _).trans isWord) (hword hs resolved) (ih hs.tail)
  | simpleEnd stop => exact .simpleEnd (stop.move Token.isWord_move)
  | @assignment token _ _ name append parts value _ _ isWord head valid resolved more ih =>
    have hhead : (token.move m).assignment? = some (name, append, moveParts m parts) := by
      rw [Token.assignment?_move, head]
      rfl
    have hvalue := Word.resolve_move hread ⟨token.place.line, parts⟩
      (Token.sources_assignment head (hs _ List.mem_cons_self)) _ resolved
    simp only [Word.move, ← m.line_place] at hvalue
    simp only [Phrase.move, moveAssignments, Assignment.move, ← m.line_place]
    exact .assignment ((Token.isWord_move _).trans isWord) hhead valid hvalue (ih hs.tail)
  | @argument named token _ _ _ _ isWord plain resolved more ih =>
    have hplain (hnamed : named = false) : (token.move m).assignment? = none := by
      rw [Token.assignment?_move, plain hnamed]
      rfl
    exact .argument ((Token.isWord_move _).trans isWord) hplain (hword hs resolved) (ih hs.tail)
  | @simpleCommand _ _ _ assignments words isWord single words_spell follow ih =>
    have hmoved := Spells.simpleCommand ((Token.isWord_move (m := m) _).trans isWord)
      (single.move (Token.isOperator_move _)) (ih hs) (follow.move Token.isForbidden_move)
    simp only [Phrase.move, Command.move, ← m.line_place]
    cases words <;> exact hmoved
  | arithmeticCommand isArithmetic resolved =>
    simp only [Phrase.move, Command.move, ← m.line_place]
    exact .arithmeticCommand ((Token.isArithmetic_move _).trans isArithmetic) (hword hs resolved)
  | choice isIf condition condition_ne isThen body body_ne branches otherwise isFi ih₁ ih₂ ih₃ ih₄ =>
    have hs₁ := (hs.tail.suffix condition.suffix).tail
    have hs₂ := hs₁.suffix body.suffix
    simp only [Phrase.move, Command.move, ← m.line_place]
    exact .choice ((Token.isReserved_move _ _).trans isIf) (ih₁ hs.tail) (moveStatements_ne_nil condition_ne)
      ((Token.isKeyword_move _ _).trans isThen) (ih₂ hs₁) (moveStatements_ne_nil body_ne) (ih₃ hs₂)
      (ih₄ (hs₂.suffix branches.suffix)) ((Token.isKeyword_move _ _).trans isFi)
  | noBranch stop => exact .noBranch (stop.move (Token.isReserved_move _))
  | branch isElif condition condition_ne isThen body body_ne more ih₁ ih₂ ih₃ =>
    have hs₁ := (hs.tail.suffix condition.suffix).tail
    exact .branch ((Token.isReserved_move _ _).trans isElif) (ih₁ hs.tail)
      (moveStatements_ne_nil condition_ne) ((Token.isKeyword_move _ _).trans isThen) (ih₂ hs₁)
      (moveStatements_ne_nil body_ne) (ih₃ (hs₁.suffix body.suffix))
  | noOtherwise stop => exact .noOtherwise (stop.move (Token.isReserved_move _))
  | otherwise isElse body body_ne ih =>
    exact .otherwise ((Token.isReserved_move _ _).trans isElse) (ih hs.tail) (moveStatements_ne_nil body_ne)
  | loop isLoop condition condition_ne isDo body body_ne isDone ih₁ ih₂ =>
    simp only [Phrase.move, Command.move, ← m.line_place]
    exact .loop ((Token.isReserved_move _ _).trans isLoop) (ih₁ hs.tail) (moveStatements_ne_nil condition_ne)
      ((Token.isKeyword_move _ _).trans isDo) (ih₂ (hs.tail.suffix condition.suffix).tail)
      (moveStatements_ne_nil body_ne) ((Token.isKeyword_move _ _).trans isDone)
  | noItems stop => exact .noItems (stop.move (Token.isWordText_move _))
  | items isIn words ih => exact .items ((Token.isWordText_move _ _).trans isIn) (ih hs.tail)
  | @each _ name doToken _ _ ts₁ ts₂ _ _ _ isFor isWord valid items separated isDo body body_ne isDone ih₁ ih₂ =>
    have hs₁ := hs.tail.tail.pastNewlines.suffix items.suffix
    have hs₂ := hs₁.suffix ((pastNewlines_suffix _).trans (pastSemicolon_suffix ts₁))
    rw [separated] at hs₂
    simp only [Phrase.move, Command.move, ← m.line_place, ← hname name]
    rw [← hname name] at valid
    have hseparated : pastNewlines (pastSemicolon (ts₁.map (Token.move m))) =
        (doToken :: ts₂).map (Token.move m) := by
      rw [pastSemicolon_move, pastNewlines_move, separated]
    exact .each ((Token.isReserved_move _ _).trans isFor) ((Token.isWord_move _).trans isWord) valid
      (hskip (ih₁ hs.tail.tail.pastNewlines)) hseparated ((Token.isKeyword_move _ _).trans isDo) (ih₂ hs₂.tail)
      (moveStatements_ne_nil body_ne) ((Token.isKeyword_move _ _).trans isDone)
  | braces isBrace body body_ne isClose ih =>
    simp only [Phrase.move, ← m.line_place]
    exact .braces ((Token.isReserved_move _ _).trans isBrace) (ih hs.tail) (moveStatements_ne_nil body_ne)
      ((Token.isKeyword_move _ _).trans isClose)
  | parens isParen body body_ne isClose ih =>
    simp only [Phrase.move, ← m.line_place]
    exact .parens ((Token.isOperator_move _ _).trans isParen) (ih hs.tail) (moveStatements_ne_nil body_ne)
      ((Token.isOperator_move _ _).trans isClose)
  | group spells ih => exact .group (ih hs)
  | subshell spells ih => exact .subshell (ih hs)
  | bracedBody spells ih => exact .bracedBody (ih hs)
  | subshellBody spells ih => exact .subshellBody (ih hs)
  | @keywordFunction _ name _ _ _ isFunction isWord single unquoted valid body ih =>
    simp only [Phrase.move, Command.move, ← m.line_place, ← hname name]
    rw [← hname name] at valid
    exact .keywordFunction ((Token.isReserved_move _ _).trans isFunction) ((Token.isWord_move _).trans isWord)
      (single.move (Token.isOperator_move _)) ((hquoted name).trans unquoted) valid
      (hskip (ih hs.tail.tail.pastNewlines))
  | @keywordFunctionParens _ name _ _ _ _ _ isFunction isWord isLeft isRight unquoted valid body ih =>
    simp only [Phrase.move, Command.move, ← m.line_place, ← hname name]
    rw [← hname name] at valid
    exact .keywordFunctionParens ((Token.isReserved_move _ _).trans isFunction)
      ((Token.isWord_move _).trans isWord) ((Token.isOperator_move _ _).trans isLeft)
      ((Token.isOperator_move _ _).trans isRight) ((hquoted name).trans unquoted) valid
      (hskip (ih hs.tail.tail.tail.tail.pastNewlines))
  | @namedFunction name _ _ _ _ _ isWord isLeft isRight unquoted valid body ih =>
    simp only [Phrase.move, Command.move, ← m.line_place, ← hname name]
    rw [← hname name] at valid
    exact .namedFunction ((Token.isWord_move _).trans isWord) ((Token.isOperator_move _ _).trans isLeft)
      ((Token.isOperator_move _ _).trans isRight) ((hquoted name).trans unquoted) valid
      (hskip (ih hs.tail.tail.tail.pastNewlines))
  | command start spells ih => exact .command trivial (ih hs)
  | noPipe stop => exact .noPipe (stop.move (Token.isOperator_move _))
  | pipe isPipe command more ih₁ ih₂ =>
    exact .pipe ((Token.isOperator_move _ _).trans isPipe) (hskip (ih₁ hs.tail.pastNewlines))
      (ih₂ (hs.tail.pastNewlines.suffix command.suffix))
  | pipeline unnegated first more ih₁ ih₂ =>
    exact .pipeline (unnegated.move (Token.isReserved_move _)) (ih₁ hs) (ih₂ (hs.suffix first.suffix))
  | @bang _ _ _ p isBang spells ih =>
    cases p
    exact .bang ((Token.isReserved_move _ _).trans isBang) (ih hs.tail)
  | noConnective stop => exact .noConnective (stop.move Token.isConnective_move)
  | connective isConnective pipeline more ih₁ ih₂ =>
    exact .connective ((Token.connective?_move m _).trans isConnective) (hskip (ih₁ hs.tail.pastNewlines))
      (ih₂ (hs.tail.pastNewlines.suffix pipeline.suffix))
  | andOr first more ih₁ ih₂ => exact .andOr (ih₁ hs) (ih₂ (hs.suffix first.suffix))
  | @closed closers ts stop =>
    refine .closed fun token hmem => ?_
    cases ts with
    | nil => cases hmem
    | cons first ts =>
      obtain rfl := Option.some.inj hmem
      exact (Token.isClosed_move _ _).trans (stop first rfl)
  | last isOpen spells stop ih => exact .last (hopen isOpen) (ih hs) (stop.move Token.isSeparator_move)
  | semicolon isOpen spells isSemicolon more ih₁ ih₂ =>
    exact .semicolon (hopen isOpen) (ih₁ hs) ((Token.isOperator_move _ _).trans isSemicolon)
      (hskip (ih₂ (hs.suffix spells.suffix).tail.pastNewlines))
  | newline isOpen spells isNewline more ih₁ ih₂ =>
    exact .newline (hopen isOpen) (ih₁ hs) ((Token.isNewline_move _).trans isNewline)
      (hskip (ih₂ (hs.suffix spells.suffix).tail.pastNewlines))
  | list spells ih => exact .list (hskip (ih hs.pastNewlines))

/-! ## 4. Scripts -/

/-- **A text is the same script wherever it starts**, but for its places, which are moved with it. -/
theorem parseAt_move {n : Nat} {origin : Place} {text : List Char} {sequence : Sequence}
    (h : parseAt n origin text = .ok sequence) (hm : m.Follows origin) :
    parseAt n (m.place origin) text = .ok (sequence.move m) := by
  induction n generalizing origin text sequence with
  | zero => cases h
  | succ n ih =>
    obtain ⟨inside, stop, htokens, hsound, hmax, hspells⟩ := parseAt_spells h
    have hread : SourceReader.Moves m (fun source place => parseAt n place source.toList)
        fun source place => parseAt n place source.toList := fun source place body hm hbody => ih hbody hm
    have hmovable : Movable m inside := fun token hmem =>
      tokensFrom_sources (fun used _ h => h.advance used) (fun _ _ h => h) (tokenize_eq_ok_iff.mp htokens).2 hm
        nofun token (List.mem_append_left _ hmem)
    have hmoved := hspells.move hread hmovable
    unfold parseAt
    rw [tokenize_move htokens hm]
    show parseTokens _ _ = _
    rw [List.map_append]
    exact Spells.parseTokens hmoved (by rwa [List.length_map]) _

end Shell
