/-
Where commands start.

The reader of tokens notes where a command may start, and the parser begins commands where the grammar has them.
The two go together but for one case. The grammar may have a command at the start of a script, after a newline,
after an operator, after a keyword, and after a plain word that it takes for `then` or `do`
(`Spells.transfer`). In the last case, and in no other, the reader of tokens was not ready for a command: keywords
are plain words there, and two parentheses are two operators (`parse_inPosition`).

So there are scripts with a command named `!`, or with a subshell in a subshell where an arithmetic command is
written (`plainThen_commands`).
-/
import Shell.Proofs.Script.Lines
import Shell.Proofs.Token.Starts

set_option autoImplicit false

namespace Shell

open Shell.Parser

/-! ## 1. Other readers of sources -/

section

variable {P : List Char → Place → Prop} {read read' : SourceReader}

mutual

/-- A part has the same bodies from a reader that does the same for its sources. -/
theorem WordPart.resolve_transfer (h : ∀ source place body, P source.toList place →
    read source place = .ok body → read' source place = .ok body) : ∀ part : WordPart,
    part.Sources P → ∀ part', part.resolve read = .ok part' → part.resolve read' = .ok part'
  | .literal _, _, _, hr => hr
  | .singleQuoted _, _, _, hr => hr
  | .escaped _, _, _, hr => hr
  | .doubleQuoted parts, hs, _, hr => by
    obtain ⟨parts', hp, hr⟩ := bind_eq_ok.mp hr
    exact bind_eq_ok.mpr ⟨parts', resolveParts_transfer h parts hs parts' hp, hr⟩
  | .parameter _, _, _, hr => hr
  | .length _, _, _, hr => hr
  | .conditional _ _ argument, hs, _, hr => by
    obtain ⟨argument', ha, hr⟩ := bind_eq_ok.mp hr
    exact bind_eq_ok.mpr ⟨argument', Word.resolve_transfer h argument hs argument' ha, hr⟩
  | .substitution source place none, hs, _, hr => by
    obtain ⟨body, hb, hr⟩ := bind_eq_ok.mp hr
    exact bind_eq_ok.mpr ⟨body, h source place body hs hb, hr⟩
  | .substitution _ _ (some _), _, _, hr => hr
  | .arithmetic expression, hs, _, hr => by
    obtain ⟨expression', he, hr⟩ := bind_eq_ok.mp hr
    exact bind_eq_ok.mpr ⟨expression', Word.resolve_transfer h expression hs expression' he, hr⟩

theorem resolveParts_transfer (h : ∀ source place body, P source.toList place →
    read source place = .ok body → read' source place = .ok body) : ∀ parts : List WordPart,
    SourcesOf P parts → ∀ parts', resolveParts read parts = .ok parts' →
      resolveParts read' parts = .ok parts'
  | [], _, _, hr => hr
  | part :: parts, hs, _, hr => by
    obtain ⟨part', hp, hr⟩ := bind_eq_ok.mp hr
    obtain ⟨parts', hps, hr⟩ := bind_eq_ok.mp hr
    exact bind_eq_ok.mpr ⟨part', WordPart.resolve_transfer h part hs.1 part' hp,
      bind_eq_ok.mpr ⟨parts', resolveParts_transfer h parts hs.2 parts' hps, hr⟩⟩

theorem Word.resolve_transfer (h : ∀ source place body, P source.toList place →
    read source place = .ok body → read' source place = .ok body) : ∀ word : Word,
    word.Sources P → ∀ word', word.resolve read = .ok word' → word.resolve read' = .ok word'
  | ⟨_, parts⟩, hs, _, hr => by
    obtain ⟨parts', hp, hr⟩ := bind_eq_ok.mp hr
    exact bind_eq_ok.mpr ⟨parts', resolveParts_transfer h parts hs parts' hp, hr⟩

end

/-- The parts of the value of an assignment have no other sources than the word has. -/
theorem Token.sources_assignment {token : Token} {name : List Char} {append : Bool} {parts : List WordPart}
    (h : token.assignment? = some (name, append, parts)) (hs : SourcesOf P token.lexeme.parts) :
    SourcesOf P parts := by
  unfold assignment? at h
  split at h
  · next head more hparts =>
    rw [hparts] at hs
    split at h
    · cases h
    · simp only [Option.some.injEq, Prod.mk.injEq] at h
      obtain ⟨-, -, rfl⟩ := h
      split
      · exact hs.2
      · exact ⟨trivial, hs.2⟩
  · cases h

end

/-! ## 2. Where the grammar has commands -/

/-- The phrases that begin with a command. -/
def Phrase.beginsCommand : Phrase → Bool
  | .command _ | .pipeline _ | .andOr _ | .statements .. | .list .. => true
  | _ => false

/-- Whether a token is a plain word that counts as `then` or `do`. -/
def isPlainKeyword (token : Token) : Bool := isWordText "then" token || isWordText "do" token

/-- Whether the grammar may have a command after a token. -/
def mayPrecede (token : Token) : Bool :=
  match token.lexeme with
  | .newline | .operator _ | .reserved _ => true
  | _ => isPlainKeyword token

/-- The grammar may have a command at the end `ts` of the tokens of a script. -/
def MayStart (all ts : List Token) : Prop :=
  ∀ before token, all = before ++ token :: ts → mayPrecede token = true

section

variable {all ts : List Token} {token : Token}

theorem mayStart_cons (hs : token :: ts <:+ all) (h : mayPrecede token = true) : MayStart all ts := by
  intro before token' heq
  obtain ⟨before', heq'⟩ := hs
  obtain ⟨-, h'⟩ := List.append_inj' (heq'.trans heq) rfl
  rwa [← (List.cons.inj h').1]

theorem mayPrecede_of_isReserved {keyword : Keyword} (h : isReserved keyword token = true) :
    mayPrecede token = true := by
  unfold isReserved at h
  unfold mayPrecede
  cases hl : token.lexeme with
  | reserved => rfl
  | _ => simp [hl] at h

theorem mayPrecede_of_isOperator {op : Operator} (h : isOperator op token = true) :
    mayPrecede token = true := by
  unfold isOperator at h
  unfold mayPrecede
  cases hl : token.lexeme with
  | operator => rfl
  | _ => simp [hl] at h

theorem mayPrecede_of_isNewline (h : Lexeme.isNewline token.lexeme = true) :
    mayPrecede token = true := by
  unfold mayPrecede
  cases hl : token.lexeme with
  | newline => rfl
  | _ => simp [hl, Lexeme.isNewline] at h

theorem mayPrecede_of_connective? {connective : Connective}
    (h : connective? token = some connective) : mayPrecede token = true := by
  unfold connective? at h
  unfold mayPrecede
  cases hl : token.lexeme with
  | operator => rfl
  | _ => simp [hl] at h

theorem mayPrecede_of_isKeyword {keyword : Keyword} (hk : keyword = .then ∨ keyword = .do)
    (h : isKeyword keyword token = true) : mayPrecede token = true := by
  rcases Bool.or_eq_true_iff.mp h with h | h
  · exact mayPrecede_of_isReserved h
  · have hplain : isPlainKeyword token = true := by
      rcases hk with rfl | rfl
      · exact Bool.or_eq_true_iff.mpr (.inl h)
      · exact Bool.or_eq_true_iff.mpr (.inr h)
    unfold mayPrecede
    split
    · rfl
    · rfl
    · rfl
    · exact hplain

theorem MayStart.pastNewlines (h : MayStart all ts) (hs : ts <:+ all) :
    MayStart all (Shell.pastNewlines ts) := by
  induction ts with
  | nil => exact h
  | cons token ts ih =>
    rw [pastNewlines_cons]
    split
    · next hn => exact ih (mayStart_cons hs (mayPrecede_of_isNewline hn)) ((List.suffix_cons _ _).trans hs)
    · exact h

end

/-- **Commands start only where the grammar may have them.** What holds of all commands there can be asked of
them; and a reader that does the same for the sources in the tokens may take the place of another. -/
theorem Spells.transfer {P : List Char → Place → Prop} {read read' : SourceReader}
    {starts starts' : List Token → Command → Prop} {all : List Token}
    (hread : ∀ source place body, P source.toList place → read source place = .ok body →
      read' source place = .ok body)
    (hsources : ∀ token ∈ all, SourcesOf P token.lexeme.parts)
    (hstarts : ∀ ts c rest, ts <:+ all → MayStart all ts → Spells read starts ts (.form c) rest →
      starts' ts c)
    {ts rest : List Token} {phrase : Phrase} (h : Spells read starts ts phrase rest) (hs : ts <:+ all)
    (hb : phrase.beginsCommand = true → MayStart all ts) : Spells read' starts' ts phrase rest := by
  -- Every phrase is read from tokens that end all tokens, so what is known of those is known of its own.
  have hmem {token : Token} {ts : List Token} (hs : token :: ts <:+ all) : token ∈ all :=
    hs.subset List.mem_cons_self
  have htail {token : Token} {ts : List Token} (hs : token :: ts <:+ all) : ts <:+ all :=
    (List.suffix_cons _ _).trans hs
  have hskip {ts : List Token} (hs : ts <:+ all) : pastNewlines ts <:+ all :=
    (pastNewlines_suffix ts).trans hs
  have hword {token : Token} {ts : List Token} {word : Word} (hs : token :: ts <:+ all)
      (hr : token.word.resolve read = .ok word) : token.word.resolve read' = .ok word :=
    Word.resolve_transfer hread token.word (hsources token (hmem hs)) word hr
  -- What may precede a command is passed before each of them.
  have hstart {token : Token} {ts : List Token} (hs : token :: ts <:+ all)
      (h : mayPrecede token = true) : MayStart all (pastNewlines ts) :=
    (mayStart_cons hs h).pastNewlines (htail hs)
  induction h with
  | noWord stop => exact .noWord stop
  | word isWord resolved more ih => exact .word isWord (hword hs resolved) (ih (htail hs) nofun)
  | simpleEnd stop => exact .simpleEnd stop
  | @assignment token _ _ _ _ parts _ _ _ isWord head valid resolved more ih =>
    have hvalue := Word.resolve_transfer hread ⟨token.place.line, parts⟩
      (Token.sources_assignment head (hsources _ (hmem hs))) _ resolved
    exact .assignment isWord head valid hvalue (ih (htail hs) nofun)
  | argument isWord plain resolved more ih =>
    exact .argument isWord plain (hword hs resolved) (ih (htail hs) nofun)
  | simpleCommand isWord single words_spell follow ih =>
    exact .simpleCommand isWord single (ih hs nofun) follow
  | arithmeticCommand isArithmetic resolved => exact .arithmeticCommand isArithmetic (hword hs resolved)
  | choice isIf condition condition_ne isThen body body_ne branches otherwise isFi ih₁ ih₂ ih₃ ih₄ =>
    have hs₁ := condition.suffix.trans (htail hs)
    have hs₂ := body.suffix.trans (htail hs₁)
    exact .choice isIf (ih₁ (htail hs) fun _ => mayStart_cons hs (mayPrecede_of_isReserved isIf))
      condition_ne isThen
      (ih₂ (htail hs₁) fun _ => mayStart_cons hs₁ (mayPrecede_of_isKeyword (.inl rfl) isThen)) body_ne
      (ih₃ hs₂ nofun) (ih₄ (branches.suffix.trans hs₂) nofun) isFi
  | noBranch stop => exact .noBranch stop
  | branch isElif condition condition_ne isThen body body_ne more ih₁ ih₂ ih₃ =>
    have hs₁ := condition.suffix.trans (htail hs)
    exact .branch isElif (ih₁ (htail hs) fun _ => mayStart_cons hs (mayPrecede_of_isReserved isElif))
      condition_ne isThen
      (ih₂ (htail hs₁) fun _ => mayStart_cons hs₁ (mayPrecede_of_isKeyword (.inl rfl) isThen)) body_ne
      (ih₃ (body.suffix.trans (htail hs₁)) nofun)
  | noOtherwise stop => exact .noOtherwise stop
  | otherwise isElse body body_ne ih =>
    exact .otherwise isElse (ih (htail hs) fun _ => mayStart_cons hs (mayPrecede_of_isReserved isElse))
      body_ne
  | loop isLoop condition condition_ne isDo body body_ne isDone ih₁ ih₂ =>
    have hs₁ := condition.suffix.trans (htail hs)
    exact .loop isLoop (ih₁ (htail hs) fun _ => mayStart_cons hs (mayPrecede_of_isReserved isLoop))
      condition_ne isDo
      (ih₂ (htail hs₁) fun _ => mayStart_cons hs₁ (mayPrecede_of_isKeyword (.inr rfl) isDo)) body_ne isDone
  | noItems stop => exact .noItems stop
  | items isIn words ih => exact .items isIn (ih (htail hs) nofun)
  | @each _ _ _ _ _ ts₁ _ _ _ _ isFor isWord valid items separated isDo body body_ne isDone ih₁ ih₂ =>
    have hs₁ := items.suffix.trans (hskip (htail (htail hs)))
    have hs₂ := (pastNewlines_suffix _).trans ((pastSemicolon_suffix ts₁).trans hs₁)
    rw [separated] at hs₂
    exact .each isFor isWord valid (ih₁ (hskip (htail (htail hs))) nofun) separated isDo
      (ih₂ (htail hs₂) fun _ => mayStart_cons hs₂ (mayPrecede_of_isKeyword (.inr rfl) isDo)) body_ne isDone
  | braces isBrace body body_ne isClose ih =>
    exact .braces isBrace (ih (htail hs) fun _ => mayStart_cons hs (mayPrecede_of_isReserved isBrace))
      body_ne isClose
  | parens isParen body body_ne isClose ih =>
    exact .parens isParen (ih (htail hs) fun _ => mayStart_cons hs (mayPrecede_of_isOperator isParen))
      body_ne isClose
  | group spells ih => exact .group (ih hs nofun)
  | subshell spells ih => exact .subshell (ih hs nofun)
  | bracedBody spells ih => exact .bracedBody (ih hs nofun)
  | subshellBody spells ih => exact .subshellBody (ih hs nofun)
  | keywordFunction isFunction isWord single unquoted valid body ih =>
    exact .keywordFunction isFunction isWord single unquoted valid (ih (hskip (htail (htail hs))) nofun)
  | keywordFunctionParens isFunction isWord isLeft isRight unquoted valid body ih =>
    exact .keywordFunctionParens isFunction isWord isLeft isRight unquoted valid
      (ih (hskip (htail (htail (htail (htail hs))))) nofun)
  | namedFunction isWord isLeft isRight unquoted valid body ih =>
    exact .namedFunction isWord isLeft isRight unquoted valid (ih (hskip (htail (htail (htail hs)))) nofun)
  | command start spells ih => exact .command (hstarts _ _ _ hs (hb rfl) spells) (ih hs nofun)
  | noPipe stop => exact .noPipe stop
  | pipe isPipe command more ih₁ ih₂ =>
    exact .pipe isPipe (ih₁ (hskip (htail hs)) fun _ => hstart hs (mayPrecede_of_isOperator isPipe))
      (ih₂ (command.suffix.trans (hskip (htail hs))) nofun)
  | pipeline unnegated first more ih₁ ih₂ =>
    exact .pipeline unnegated (ih₁ hs hb) (ih₂ (first.suffix.trans hs) nofun)
  | bang isBang spells ih =>
    exact .bang isBang (ih (htail hs) fun _ => mayStart_cons hs (mayPrecede_of_isReserved isBang))
  | noConnective stop => exact .noConnective stop
  | connective isConnective pipeline more ih₁ ih₂ =>
    exact .connective isConnective
      (ih₁ (hskip (htail hs)) fun _ => hstart hs (mayPrecede_of_connective? isConnective))
      (ih₂ (pipeline.suffix.trans (hskip (htail hs))) nofun)
  | andOr first more ih₁ ih₂ => exact .andOr (ih₁ hs hb) (ih₂ (first.suffix.trans hs) nofun)
  | closed stop => exact .closed stop
  | last isOpen spells stop ih => exact .last isOpen (ih hs hb) stop
  | semicolon isOpen spells isSemicolon more ih₁ ih₂ =>
    have hs₁ := spells.suffix.trans hs
    exact .semicolon isOpen (ih₁ hs hb) isSemicolon
      (ih₂ (hskip (htail hs₁)) fun _ => hstart hs₁ (mayPrecede_of_isOperator isSemicolon))
  | newline isOpen spells isNewline more ih₁ ih₂ =>
    have hs₁ := spells.suffix.trans hs
    exact .newline isOpen (ih₁ hs hb) isNewline
      (ih₂ (hskip (htail hs₁)) fun _ => hstart hs₁ (mayPrecede_of_isNewline isNewline))
  | list spells ih => exact .list (ih (hskip hs) fun _ => (hb rfl).pastNewlines hs)

/-! ## 3. Names of commands -/

/-- The word is the text of a keyword, without quotes. -/
def Word.IsKeyword (word : Word) : Prop :=
  ∃ text, word.parts = [.literal text] ∧ (Keyword.ofText? text).isSome = true

/-- A simple command whose name is the text of a keyword. -/
def Command.NamedByKeyword (command : Command) : Prop :=
  ∃ line name args assignments, command = .simple line (some name) args assignments ∧ name.IsKeyword

/-- A literal comes from nothing but itself. -/
theorem resolve_literal {read : SourceReader} {word : Word} {line : Nat} {text : String}
    (h : word.resolve read = .ok ⟨line, [.literal text]⟩) : word.parts = [.literal text] := by
  obtain ⟨line', parts⟩ := word
  unfold Word.resolve at h
  obtain ⟨parts', hp, heq⟩ := bind_eq_ok.mp h
  obtain ⟨-, rfl⟩ := Word.mk.inj (Except.ok.inj heq)
  cases parts with
  | nil => cases hp
  | cons part parts =>
    unfold resolveParts at hp
    obtain ⟨part', hpart, hp⟩ := bind_eq_ok.mp hp
    obtain ⟨parts', hparts, heq⟩ := bind_eq_ok.mp hp
    obtain ⟨rfl, rfl⟩ := List.cons.inj (Except.ok.inj heq)
    -- Resolving keeps the number of the parts, and makes no literal part of another.
    obtain rfl : parts = [] := by
      cases parts with
      | nil => rfl
      | cons part parts =>
        unfold resolveParts at hparts
        obtain ⟨_, -, hparts⟩ := bind_eq_ok.mp hparts
        obtain ⟨_, -, hparts⟩ := bind_eq_ok.mp hparts
        cases Except.ok.inj hparts
    have hliteral : part = .literal text := by
      unfold WordPart.resolve at hpart
      split at hpart
      · obtain ⟨_, -, hpart⟩ := bind_eq_ok.mp hpart
        cases Except.ok.inj hpart
      · obtain ⟨_, -, hpart⟩ := bind_eq_ok.mp hpart
        cases Except.ok.inj hpart
      · obtain ⟨_, -, hpart⟩ := bind_eq_ok.mp hpart
        cases Except.ok.inj hpart
      · obtain ⟨_, -, hpart⟩ := bind_eq_ok.mp hpart
        cases Except.ok.inj hpart
      · exact Except.ok.inj hpart
    rw [hliteral]

/-- What the grammar takes for an assignment is one for the reader of tokens. -/
theorem startsAssignment_of_assignment? {token : Token} {text : String} {parts parts' : List WordPart}
    {name : List Char} {append : Bool} (hl : token.lexeme = .word text parts)
    (hheads : Reading.Heads text.toList parts)
    (h : token.assignment? = some (name, append, parts')) (hvalid : Name.isValid name = true) :
    startsAssignment text.toList = true := by
  unfold Token.assignment? at h
  rw [hl] at h
  simp only [Lexeme.parts] at h
  split at h
  · next head more =>
    split at h
    · cases h
    next name' append' rest hhead =>
    simp only [Option.some.injEq, Prod.mk.injEq] at h
    obtain ⟨rfl, rfl, -⟩ := h
    have hname := isIdentifier_of_assignmentHead? hhead hvalid
    obtain ⟨tail, htail, -⟩ := hheads head more rfl
    -- The head is a name and a sign.
    have hsplit : ∃ after, head.toList = name' ++ after ∧
        (after.head? = some '=' ∨ ∃ rest, after = '+' :: '=' :: rest) := by
      unfold assignmentHead? at hhead
      have hparts := List.takeWhile_append_dropWhile (p := isAssignmentName) (l := head.toList)
      refine ⟨head.toList.dropWhile isAssignmentName, ?_, ?_⟩
      · grind
      · grind
    obtain ⟨after, hafter, hsign⟩ := hsplit
    rw [htail, hafter]
    have hrest := Name.isRest_of_isIdentifier hname
    cases name' with
    | nil => cases hname
    | cons c cs =>
      unfold Name.isIdentifier at hname
      rw [Bool.and_eq_true] at hname
      have hcs : ∀ d ∈ cs, Name.isRest d = true := fun d hd => hrest d (List.mem_cons_of_mem _ hd)
      simp only [List.cons_append, startsAssignment, hname.1, Bool.true_and]
      rw [List.append_assoc, List.dropWhile_append_of_pos hcs]
      -- The sign is that of an assignment, or of one that appends.
      rcases hsign with hsign | ⟨rest', rfl⟩
      · obtain ⟨rest', rfl⟩ := List.head?_eq_some_iff.mp hsign
        rw [List.cons_append, List.dropWhile_cons_of_neg (by decide)]
        rfl
      · rw [List.cons_append, List.cons_append, List.dropWhile_cons_of_neg (by decide)]
        rfl
  · cases h

/-- **The name of a command is no keyword**, if the reader of tokens was ready for the command. Assignments
leave it ready. -/
theorem name_of_simple {read : SourceReader} {starts : List Token → Command → Prop} {ts rest : List Token}
    {assignments : List Assignment} {words : List Word} {before : List Token}
    (h : Spells read starts ts (.simple false assignments words) rest) (hl : Lexed before ts)
    (ho : opensCommand before = true) : ∀ word ∈ words.head?, ¬ word.IsKeyword := by
  -- Assignments keep the position of a command open, so the first word after them was read there.
  induction assignments generalizing ts before with
  | nil =>
    cases h with
    | simpleEnd stop => exact nofun
    | @argument _ token _ _ _ _ hword plain resolved more =>
      rintro ⟨line, parts⟩ ⟨⟩ ⟨text, rfl, hkeyword⟩
      have hparts := resolve_literal resolved
      cases hlexeme : token.lexeme with
      | word text' parts' =>
        obtain rfl : parts' = [.literal text] := by
          simpa only [Token.word, hlexeme, Lexeme.parts] using hparts
        -- A word of one literal part has its text, so it has been compared with the keywords.
        obtain ⟨tail, htail, hnil⟩ := hl.1.heads _ _ hlexeme text [] rfl
        obtain rfl := hnil rfl
        rw [List.append_nil, String.toList_inj] at htail
        subst htail
        have hnone := hl.1.word _ _ hlexeme ho (by rw [hlexeme]; rfl)
        rw [hnone] at hkeyword
        cases hkeyword
      | _ => simp [isWord, hlexeme] at hword
  | cons assignment assignments ih =>
    cases h with
    | @assignment token _ _ _ _ _ _ _ _ hword head valid resolved more =>
      refine ih more hl.2 ?_
      cases hlexeme : token.lexeme with
      | word text parts =>
        have hstarts := startsAssignment_of_assignment? hlexeme (hl.1.heads _ _ hlexeme) head valid
        simp only [opensCommand, hlexeme, ho, hstarts]
        simp
      | _ => simp [isWord, hlexeme] at hword

/-! ## 4. Commands in position -/

/-- Two parentheses with nothing between them. -/
def StartWithParens (ts : List Token) : Prop :=
  ∃ first second rest, ts = first :: second :: rest ∧ isOperator .leftParen first = true ∧
    isOperator .leftParen second = true ∧ second.place = first.place.after '('

/-- The end `ts` of the tokens comes right after a plain word that counts as `then` or `do`. -/
def AfterPlainKeyword (all ts : List Token) : Prop :=
  ∃ before token, all = before ++ token :: ts ∧ isPlainKeyword token = true

/-- How a command starts at the end `ts` of the tokens of a script. -/
structure StartsInPosition (all ts : List Token) (command : Command) : Prop where
  /-- Its name is no keyword, and it is an arithmetic command if it is written as one. -/
  ready : ¬ AfterPlainKeyword all ts → ¬ command.NamedByKeyword ∧ ¬ StartWithParens ts
  /-- After a plain word that counts as `then` or `do` there are neither keywords nor arithmetic commands. -/
  unready : AfterPlainKeyword all ts → ∀ token ∈ ts.head?,
    (∀ keyword, token.lexeme ≠ .reserved keyword) ∧ isArithmetic token = false

section

variable {all before ts : List Token}

theorem opensCommand_of_mayStart (hl : Lexed [] all) (hall : all = before ++ ts) (hm : MayStart all ts)
    (hn : ¬ AfterPlainKeyword all ts) : opensCommand before.reverse = true := by
  cases hr : before.reverse with
  | nil => rfl
  | cons token before' =>
    obtain rfl : before = before'.reverse ++ [token] := by
      rw [← List.reverse_reverse before, hr, List.reverse_cons]
    rw [List.append_assoc, List.singleton_append] at hall
    subst hall
    have hprecede := hm _ _ rfl
    have hplain : isPlainKeyword token = false :=
      Bool.eq_false_iff.mpr fun h => hn ⟨_, _, rfl, h⟩
    have hlexed := hl.drop
    rw [List.reverse_reverse, List.append_nil] at hlexed
    unfold mayPrecede at hprecede
    unfold opensCommand
    cases hlexeme : token.lexeme with
    | newline => rfl
    | operator op => rfl
    | reserved keyword => exact hlexed.1.reserved _ hlexeme
    | _ => simp [hlexeme, hplain] at hprecede

theorem isWordText_iff {text : String} {token : Token} :
    isWordText text token = true ↔
      ∃ parts, token.lexeme = .word text parts ∧ token.lexeme.isQuoted = false := by
  unfold isWordText
  cases token.lexeme with
  | word text' parts => simp [and_comm]
  | _ => simp

/-- After a plain word that is the text of `then` or `do` no command may start. -/
theorem opensCommand_of_plainKeyword {token : Token} (hl : Lexed [] (before ++ token :: ts))
    (h : isPlainKeyword token = true) : opensCommand (token :: before.reverse) = false := by
  have htext : ∃ text parts, token.lexeme = .word text parts ∧ token.lexeme.isQuoted = false ∧
      Keyword.ofText? text ≠ none ∧ startsAssignment text.toList = false := by
    rcases Bool.or_eq_true_iff.mp h with h | h
    · obtain ⟨parts, hlexeme, hquoted⟩ := isWordText_iff.mp h
      exact ⟨_, parts, hlexeme, hquoted, by decide, by decide⟩
    · obtain ⟨parts, hlexeme, hquoted⟩ := isWordText_iff.mp h
      exact ⟨_, parts, hlexeme, hquoted, by decide, by decide⟩
  obtain ⟨text, parts, hlexeme, hquoted, hkeyword, hassignment⟩ := htext
  have hlexed := hl.drop
  rw [List.append_nil] at hlexed
  have hclosed : opensCommand before.reverse = false :=
    Bool.eq_false_iff.mpr fun hopen => hkeyword (hlexed.1.word _ _ hlexeme hopen hquoted)
  -- After the keyword `function` it would have been a keyword too.
  have hfunction : Tokens.isAfterFunction ⟨before.reverse, true⟩ = false := by
    refine Bool.eq_false_iff.mpr fun hafter => ?_
    unfold Tokens.isAfterFunction at hafter
    split at hafter
    · next place before' hr =>
      simp only at hr
      obtain rfl : before = before'.reverse ++ [⟨.reserved .function, place⟩] := by
        rw [← List.reverse_reverse before, hr, List.reverse_cons]
      rw [List.append_assoc] at hl
      have hlexed' := hl.drop
      rw [List.reverse_reverse, List.append_nil] at hlexed'
      have hopen := hlexed'.1.reserved _ rfl
      rw [hr] at hclosed
      exact absurd hopen (by rw [show opensCommand before' = false from hclosed]; decide)
    · cases hafter
  simp only [opensCommand, hlexeme, hfunction, hclosed, Bool.false_and, Bool.or_self]

/-- **Every command starts in position.** -/
theorem startsInPosition {read : SourceReader} {starts : List Token → Command → Prop}
    {rest : List Token} {command : Command} (hl : Lexed [] all) (hs : ts <:+ all) (hm : MayStart all ts)
    (h : Spells read starts ts (.form command) rest) : StartsInPosition all ts command := by
  constructor
  · intro hn
    obtain ⟨before, rfl⟩ := hs
    have ho := opensCommand_of_mayStart hl rfl hm hn
    have hlexed := hl.drop
    rw [List.append_nil] at hlexed
    constructor
    · rintro ⟨line, name, args, assignments, rfl, hkeyword⟩
      -- The name is that of the words, the first of which is no keyword.
      generalize hwords : some name = words? at h
      cases h with
      | simpleCommand isWord single words_spell follow =>
        exact name_of_simple words_spell hlexed ho name hwords.symm hkeyword
    · rintro ⟨first, second, rest, rfl, hfirst, hsecond, hplace⟩
      have hparen {token : Token} (h : isOperator .leftParen token = true) :
          token.lexeme = .operator .leftParen := by
        unfold isOperator at h
        cases hlexeme : token.lexeme with
        | operator op => rw [hlexeme] at h; rw [beq_iff_eq.mp h]
        | _ => simp [hlexeme] at h
      exact hlexed.1.paren (hparen hfirst) ho second rfl (hparen hsecond) hplace
  · rintro ⟨before, token, rfl, hplain⟩ token' hmem
    obtain ⟨rest', rfl⟩ := List.head?_eq_some_iff.mp (Option.mem_def.mp hmem)
    -- A plain keyword closes the position, so the token behind it is neither reserved nor arithmetic.
    have hclosed := opensCommand_of_plainKeyword hl hplain
    have hlexed : Lexed (token :: before.reverse) (token' :: rest') := by
      have hdrop := Lexed.drop (before ++ [token]) (by rwa [List.append_assoc])
      rwa [List.reverse_append, List.append_nil] at hdrop
    refine ⟨fun keyword hlexeme => ?_, ?_⟩
    · have hopen := hlexed.1.reserved keyword hlexeme
      rw [hclosed] at hopen
      cases hopen
    · unfold isArithmetic
      split
      · next text parts hlexeme =>
        have hopen := hlexed.1.arithmetic _ _ hlexeme
        rw [hclosed] at hopen
        cases hopen
      · rfl

theorem Token.IsLexed.left {before after more : List Token} {token : Token}
    (h : token.IsLexed before (after ++ more)) : token.IsLexed before after :=
  { h with
    paren := fun hparen ho next hnext => by
      obtain ⟨rest, rfl⟩ := List.head?_eq_some_iff.mp (Option.mem_def.mp hnext)
      exact h.paren hparen ho next rfl }

theorem Lexed.left {before after more : List Token} (h : Lexed before (after ++ more)) :
    Lexed before after := by
  induction after generalizing before with
  | nil => trivial
  | cons token after ih => exact ⟨h.1.left, ih h.2⟩

end

/-- A script read from a text at a place, in which all commands start in position, also those of the sources of
its command substitutions. -/
inductive InPosition : Place → List Char → Sequence → Prop where
  | script {read : SourceReader} {origin stop : Place} {text : List Char} {inside : List Token}
      {sequence : Sequence} (tokens : tokenize text origin = .ok (inside ++ [⟨.endOfInput, stop⟩]))
      (spells : Spells read (StartsInPosition inside) inside (.list [] sequence) [])
      (sources : ∀ source place body, read source place = .ok body →
        InPosition place source.toList body) :
      InPosition origin text sequence

/-- The reader of sources takes those in which no line is continued. The others do not occur. -/
theorem parseAt_inPosition {n : Nat} {origin : Place} {text : List Char} {sequence : Sequence}
    (h : parseAt n origin text = .ok sequence) (hu : Unbroken text) :
    InPosition origin text sequence := by
  classical
  induction n generalizing origin text sequence with
  | zero => cases h
  | succ n ih =>
    obtain ⟨inside, stop, ht, -, -, hspells⟩ := parseAt_spells h
    have htokens := (tokenize_eq_ok_iff.mp ht).2
    have hlexed : Lexed [] (inside ++ [⟨.endOfInput, stop⟩]) := by
      obtain ⟨new, hnew, hlexed⟩ := tokensFrom_lexed htokens rfl hu
      exact hnew ▸ hlexed
    have hsources : ∀ token ∈ inside, SourcesOf (fun cs _ => Unbroken cs) token.lexeme.parts := fun token hmem =>
      tokensFrom_sources (fun _ h hcs => hcs.within h) (fun _ _ => .unescape) htokens hu nofun token
        (List.mem_append_left _ hmem)
    -- Only sources that are whole are read, so that the induction applies to each.
    let read : SourceReader := fun source place =>
      if Unbroken source.toList then parseAt n place source.toList else .error ⟨.tooManySteps, place⟩
    have hread (source : String) (place : Place) (body : Sequence) (hsource : Unbroken source.toList)
        (hbody : parseAt n place source.toList = .ok body) : read source place = .ok body := by
      simp only [read, if_pos hsource, hbody]
    have hspells' : Spells read (StartsInPosition inside) inside (.list [] sequence) [] := by
      refine hspells.transfer hread hsources ?_ (List.suffix_refl _) fun _ before token heq => ?_
      · exact fun ts command rest hs hm hform => startsInPosition hlexed.left hs hm hform
      · have hlength := congrArg List.length heq
        simp only [List.length_append, List.length_cons] at hlength
        omega
    refine .script ht hspells' fun source place body hbody => ?_
    simp only [read] at hbody
    split at hbody
    · next hsource => exact ih hbody hsource
    · cases hbody

/-- **Lexer and parser agree on where commands start, but for one case.** In a script in which no line is
continued, and in the sources of its command substitutions, at any depth, every command that does not come right
after a plain word that counts as `then` or `do` has a name that is no keyword, and is an arithmetic command if
it is written as one. After such a word no command starts with a keyword, nor is it an arithmetic command. -/
theorem parse_inPosition {text : String} {sequence : Sequence} (h : parse text = .ok sequence)
    (hu : Unbroken text.toList) : InPosition ⟨1, 1⟩ text.toList sequence :=
  parseAt_inPosition h hu

/-- After an arithmetic command `then` is a plain word. So a command after it may be named `!`, and what is written
as an arithmetic command is a subshell in a subshell. -/
theorem plainThen_commands :
    Unbroken "if ((1)) then ! true; fi".toList ∧ Unbroken "if ((1)) then ((0)); fi".toList ∧
      ∃ expression : Word,
      parse "if ((1)) then ! true; fi" = .ok (ofCommand (.choice 1
        (ofCommand (.arithmetic 1 expression))
        (ofCommand (.simple 1 (some ⟨1, [.literal "!"]⟩) [⟨1, [.literal "true"]⟩] [])) [] none)) ∧
      parse "if ((1)) then ((0)); fi" = .ok (ofCommand (.choice 1
        (ofCommand (.arithmetic 1 expression))
        (ofCommand (.subshell 1 (ofCommand (.subshell 1
          (ofCommand (.simple 1 (some ⟨1, [.literal "0"]⟩) [] [])))))) [] none)) := by
  refine ⟨by unfold Unbroken; decide +kernel, by unfold Unbroken; decide +kernel,
    ⟨1, [.literal "1"]⟩, ?_, ?_⟩
  · rw [parse, parseFrom_eq_parseWithin]
    cbv
  · rw [parse, parseFrom_eq_parseWithin]
    cbv

/-- The commands of such a script are where the theorem says. -/
theorem plainThen_inPosition :
    ∃ sequence, parse "if ((1)) then ! true; fi" = .ok sequence ∧
      Unbroken "if ((1)) then ! true; fi".toList ∧
      InPosition ⟨1, 1⟩ "if ((1)) then ! true; fi".toList sequence := by
  have hunbroken : Unbroken "if ((1)) then ! true; fi".toList := by
    unfold Unbroken
    decide +kernel
  have hok : (parse "if ((1)) then ! true; fi").isOk = true := by
    rw [parse, parseFrom_eq_parseWithin]
    cbv
  cases h : parse "if ((1)) then ! true; fi" with
  | error e =>
    rw [h] at hok
    cases hok
  | ok sequence => exact ⟨sequence, rfl, hunbroken, parse_inPosition h hunbroken⟩

end Shell
