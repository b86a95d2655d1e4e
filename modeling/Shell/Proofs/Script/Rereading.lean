/-
Scripts made into tokens and read again.

The parser takes the tokens of a script back to it, up to the numbers of lines (`parseTokens_render`).

The proof follows the script. Of each kind of phrase it is said before what it is spelled by its tokens: a command
before a pipe and all that may come after a pipeline, a body before what closes it. One lemma for each form of command
puts it together from its parts, and the last block of theorems, which takes the script apart, only names them.
-/
import Shell.Proofs.Script.Rendering

set_option autoImplicit false

namespace Shell

open Shell.Parser

/-! ## 1. Simple commands -/

section

variable {read : SourceReader} {spell : List WordPart → String} {used rest : List Token}

/-- The grammar, with nothing else asked for. -/
abbrev SpellsAny (read : SourceReader) : List Token → Phrase → List Token → Prop := Spells read fun _ _ => True

/-- The words of a command are spelled by their tokens, as words and as arguments. -/
theorem words_render (read : SourceReader) {words : List Word} (hw : ∀ word ∈ words, word.IsFilled)
    (hused : used.map Token.lexeme = words.map (Word.lexeme spell)) (hrest : Unless isWord rest) :
    ∃ words', SpellsAny read (used ++ rest) (.words words') rest ∧
      SpellsAny read (used ++ rest) (.simple true [] words') rest ∧
      moveWords .toColumns words' = moveWords .toColumns words := by
  induction words generalizing used with
  | nil =>
    obtain rfl := List.map_eq_nil_iff.mp hused
    exact ⟨[], .noWord hrest, .simpleEnd hrest, rfl⟩
  | cons word words ih =>
    obtain ⟨token, used, rfl, htoken, hused⟩ := List.map_eq_cons_iff.mp hused
    obtain ⟨hword, hw⟩ := List.forall_mem_cons.mp hw
    obtain ⟨hisWord, hresolved, hmove⟩ := Word.of_lexeme read htoken hword
    obtain ⟨words', hwords, hsimple, hmoves⟩ := ih hw hused
    exact ⟨token.word :: words', .word hisWord hresolved hwords, .argument hisWord nofun hresolved hsimple,
      congrArg₂ List.cons hmove hmoves⟩

/-- So are its assignments, before the words. -/
theorem assignments_render {assignments : List Assignment} {ts : List Token} {words : List Word}
    (ha : ∀ assignment ∈ assignments, assignment.IsPrintable)
    (hused : used.map Token.lexeme = assignments.map (Assignment.lexeme spell))
    (hwords : SpellsAny read ts (.simple false [] words) rest) :
    ∃ assignments', SpellsAny read (used ++ ts) (.simple false assignments' words) rest ∧
      moveAssignments .toColumns assignments' = moveAssignments .toColumns assignments := by
  induction assignments generalizing used with
  | nil =>
    obtain rfl := List.map_eq_nil_iff.mp hused
    exact ⟨[], hwords, rfl⟩
  | cons assignment assignments ih =>
    obtain ⟨token, used, rfl, htoken, hused⟩ := List.map_eq_cons_iff.mp hused
    obtain ⟨hassignment, ha⟩ := List.forall_mem_cons.mp ha
    obtain ⟨hisWord, hhead, hresolved, hmove⟩ := Assignment.of_lexeme read htoken hassignment
    obtain ⟨assignments', hspells, hmoves⟩ := ih ha hused
    have hvalid : Name.isValid assignment.name.toList = true := Bool.or_eq_true_iff.mpr (.inl hassignment.name)
    have hmore := Spells.assignment hisWord hhead hvalid hresolved hspells
    rw [String.ofList_toList] at hmore
    exact ⟨assignment.at token.place.line :: assignments', hmore, congrArg₂ List.cons hmove hmoves⟩

/-- The tokens of a command start with one that starts commands. -/
theorem Command.render_begins {command : Command} (hc : command.IsPrintable)
    (hused : used.map Token.lexeme = command.render spell) : Begins Lexeme.startsCommand used := by
  have hcons {lexeme : Lexeme} {lexemes : List Lexeme} (hused : used.map Token.lexeme = lexeme :: lexemes)
      (hl : lexeme.startsCommand = true) : Begins Lexeme.startsCommand used := by
    obtain ⟨token, more, rfl, rfl, -⟩ := List.map_eq_cons_iff.mp hused
    exact .cons hl
  cases command with
  | simple line name args assignments =>
    unfold Command.render at hused
    obtain ⟨hsome, -⟩ := hc
    cases assignments with
    | cons assignment assignments => exact hcons hused rfl
    | nil =>
      cases name with
      | some word => exact hcons hused rfl
      | none => exact absurd hsome (by simp)
  | loop line kind condition body => cases kind <;> exact hcons (by simpa only [Command.render] using hused) rfl
  | _ => exact hcons (by simpa only [Command.render] using hused) rfl

/-- The tokens of a pipeline begin with what may start one. -/
theorem Pipeline.render_begins {p : Pipeline} (hp : p.IsPrintable)
    (hused : used.map Token.lexeme = p.render spell) : Begins Lexeme.startsPipeline used := by
  obtain ⟨negated, first, more⟩ := p
  unfold Pipeline.render at hused
  cases negated with
  | true =>
    obtain ⟨token, more, rfl, htoken, -⟩ := List.map_eq_cons_iff.mp hused
    exact .cons (htoken ▸ rfl)
  | false =>
    have hused : used.map Token.lexeme = first.render spell ++ renderPipes spell more := hused
    obtain ⟨head, pipes, rfl, hhead, -⟩ := List.map_eq_append_iff.mp hused
    exact ((Command.render_begins hp.1 hhead).append pipes).mono fun _ => Lexeme.startsPipeline_of_startsCommand

/-- So do those of a statement. -/
theorem AndOrList.render_begins {statement : AndOrList} (hs : statement.IsPrintable)
    (hused : used.map Token.lexeme = statement.render spell) : Begins Lexeme.startsPipeline used := by
  obtain ⟨first, more⟩ := statement
  unfold AndOrList.render at hused
  obtain ⟨used, joined, rfl, hused, -⟩ := List.map_eq_append_iff.mp hused
  exact (Pipeline.render_begins hs.1 hused).append joined

/-- No newlines stand in front of statements. -/
theorem pastNewlines_render {closers : List Closer} {statements : List AndOrList}
    (hs : StatementsArePrintable statements) (hused : used.map Token.lexeme = renderStatements spell statements)
    (hrest : ∀ token ∈ rest.head?, isClosed closers token = true) : pastNewlines (used ++ rest) = used ++ rest := by
  cases statements with
  | nil =>
    obtain rfl := List.map_eq_nil_iff.mp hused
    exact pastNewlines_of_isClosed hrest
  | cons statement statements =>
    obtain ⟨first, more, rfl, hfirst, -⟩ := List.map_eq_append_iff.mp hused
    rw [List.append_assoc]
    exact ((AndOrList.render_begins hs.1 hfirst).append _).pastNewlines

/-- Words that spell the words of a simple command spell the command. -/
theorem simple_form {assignments : List Assignment} {words : List Word}
    (hspells : SpellsAny read (used ++ rest) (.simple false assignments words) rest)
    (hused : ∀ token ∈ used, isWord token = true) (hne : used ≠ []) (hrest : Begins Lexeme.endsCommand rest) :
    ∃ line, SpellsAny read (used ++ rest) (.form (.simple line words.head? (words.drop 1) assignments)) rest := by
  obtain ⟨token, used, rfl⟩ := List.exists_cons_of_ne_nil hne
  obtain ⟨htoken, hused⟩ := List.forall_mem_cons.mp hused
  have hsingle : Unless (isOperator .leftParen) (used ++ rest) := by
    cases used with
    | nil => exact hrest.unless fun token h => (Bool.or_eq_false_iff.mp (isForbidden_of_endsCommand h)).2
    | cons next used =>
      intro token hmem
      obtain rfl := Option.some.inj hmem
      obtain ⟨text, parts, hl⟩ := lexeme_of_isWord (hused next List.mem_cons_self)
      simp [isOperator, hl]
  exact ⟨token.place.line,
    .simpleCommand htoken hsingle hspells (hrest.unless fun _ => isForbidden_of_endsCommand)⟩

/-- A simple command is spelled by its assignments and words. -/
theorem simple_render {line : Nat} {name : Option Word} {args : List Word} {assignments : List Assignment}
    (hc : (Command.simple line name args assignments).IsPrintable)
    (hused : used.map Token.lexeme = (Command.simple line name args assignments).render spell)
    (hrest : Begins Lexeme.endsCommand rest) :
    ∃ command', SpellsAny read (used ++ rest) (.form command') rest ∧
      command'.move .toColumns = (Command.simple line name args assignments).move .toColumns := by
  obtain ⟨hsome, hname, hword, hargs, hassignments⟩ := hc
  -- All tokens of the command are words, so none of them closes it.
  have hwords : ∀ token ∈ used, isWord token = true := by
    intro token hmem
    have hl : token.lexeme ∈ (Command.simple line name args assignments).render spell :=
      hused ▸ List.mem_map_of_mem hmem
    obtain ⟨text, parts, hl⟩ : ∃ text parts, token.lexeme = .word text parts := by
      rcases List.mem_append.mp hl with hl | hl
      · obtain ⟨assignment, -, hl⟩ := List.mem_map.mp hl
        exact ⟨_, _, hl.symm⟩
      · obtain ⟨word, -, hl⟩ := List.mem_map.mp hl
        exact ⟨_, _, hl.symm⟩
    simp [isWord, hl]
  -- A command has a name or an assignment, and so it has a token.
  have hne : used ≠ [] := by
    rintro rfl
    have hnil : (assignments.map (Assignment.lexeme spell)) ++ (name.toList ++ args).map (Word.lexeme spell) = [] :=
      hused.symm
    cases name <;> simp_all
  obtain ⟨heads, more, rfl, hheads, hmore⟩ := List.map_eq_append_iff.mp hused
  have hstop := hrest.unless fun _ => isWord_of_endsCommand
  cases name with
  | none =>
    obtain rfl := hname rfl
    obtain rfl := List.map_eq_nil_iff.mp hmore
    rw [List.append_nil] at hwords hne ⊢
    have hend : SpellsAny read rest (.simple false [] []) rest := .simpleEnd hstop
    obtain ⟨assignments', hspells, hmoves⟩ := assignments_render hassignments hheads hend
    obtain ⟨line', hform⟩ := simple_form hspells hwords hne hrest
    exact ⟨_, hform, congrArg (Command.simple 0 none []) hmoves⟩
  | some word =>
    obtain ⟨token, more, rfl, htoken, hmore⟩ := List.map_eq_cons_iff.mp hmore
    obtain ⟨hfilled, hnames⟩ := hword word rfl
    obtain ⟨hisWord, hresolved, hmove⟩ := Word.of_lexeme read htoken hfilled
    obtain ⟨words', -, hargs, hmoves⟩ := words_render read hargs hmore hstop
    -- A name that is rendered is no assignment.
    have hplain (_ : false = false) : token.assignment? = none := hnames.assignment? htoken
    have hspells := Spells.argument hisWord hplain hresolved hargs
    obtain ⟨assignments', hspells, hmoves'⟩ := assignments_render hassignments hheads hspells
    have happend : heads ++ token :: (more ++ rest) = (heads ++ token :: more) ++ rest := by simp
    rw [happend] at hspells
    obtain ⟨line', hform⟩ := simple_form hspells hwords hne hrest
    refine ⟨_, hform, ?_⟩
    show Command.simple 0 (some (token.word.move .toColumns)) (moveWords .toColumns words') _ = _
    rw [hmove, hmoves, hmoves']
    rfl

/-! ## 2. Bodies -/

section

variable {token : Token} {closers : List Closer} {keyword : Keyword}

/-- A keyword is one by its lexeme. -/
theorem isReserved_of_lexeme (h : token.lexeme = .reserved keyword) : isReserved keyword token = true := by
  simp [isReserved, h]

theorem isKeyword_of_lexeme (h : token.lexeme = .reserved keyword) : isKeyword keyword token = true :=
  Bool.or_eq_true_iff.mpr (.inl (isReserved_of_lexeme h))

theorem isOperator_of_lexeme {op : Operator} (h : token.lexeme = .operator op) : isOperator op token = true := by
  simp [isOperator, h]

theorem isClosed_of_lexeme (h : token.lexeme = .reserved keyword) (hk : .keyword keyword ∈ closers) :
    isClosed closers token = true := by
  simp [isClosed, h, hk]

/-- A list ends at a keyword that closes it. -/
theorem head_isClosed (h : token.lexeme = .reserved keyword) (hk : .keyword keyword ∈ closers) :
    ∀ next ∈ (token :: rest).head?, isClosed closers next = true := by
  rintro next hmem
  obtain rfl := Option.some.inj hmem
  exact isClosed_of_lexeme h hk

/-- A plain text is a word without quotes. -/
theorem isWord_of_plain {text : String} (h : token.lexeme = .plain text) :
    isWord token = true ∧ token.lexeme.text = text ∧ token.lexeme.isQuoted = false := by
  rw [h]
  refine ⟨?_, rfl, rfl⟩
  rw [isWord, h]
  rfl

/-- After the branches of a choice comes `else` or `fi`. -/
theorem otherwise_head {otherwise : Option Sequence}
    (hused : used.map Token.lexeme = renderOtherwise spell otherwise)
    (hrest : ∀ token ∈ rest.head?, token.lexeme = .reserved .fi) :
    ∀ token ∈ (used ++ rest).head?, token.lexeme = .reserved .else ∨ token.lexeme = .reserved .fi := by
  cases otherwise with
  | none =>
    obtain rfl := List.map_eq_nil_iff.mp hused
    exact fun token hmem => .inr (hrest token hmem)
  | some body =>
    obtain ⟨first, more, rfl, hfirst, -⟩ := List.map_eq_cons_iff.mp hused
    rintro token hmem
    obtain rfl := Option.some.inj hmem
    exact .inl hfirst

/-- After the body of a branch comes another branch, or what comes after the branches. -/
theorem branches_head {branches : List Branch} (hused : used.map Token.lexeme = renderBranches spell branches)
    (hrest : ∀ token ∈ rest.head?, token.lexeme = .reserved .else ∨ token.lexeme = .reserved .fi) :
    ∀ token ∈ (used ++ rest).head?,
      isClosed [.keyword .elif, .keyword .else, .keyword .fi] token = true := by
  cases branches with
  | nil =>
    obtain rfl := List.map_eq_nil_iff.mp hused
    exact fun token hmem => (hrest token hmem).elim (isClosed_of_lexeme · (by decide))
      (isClosed_of_lexeme · (by decide))
  | cons branch branches =>
    obtain ⟨condition, body⟩ := branch
    obtain ⟨first, more, rfl, hfirst, -⟩ := List.map_eq_cons_iff.mp hused
    rintro token hmem
    obtain rfl := Option.some.inj hmem
    exact isClosed_of_lexeme hfirst (by decide)

end

/-- A list is spelled by its tokens as a body, before any of what closes it. -/
def Sequence.SpellsBody (read : SourceReader) (spell : List WordPart → String) (closers : List Closer)
    (body : Sequence) : Prop :=
  ∀ {used rest : List Token}, used.map Token.lexeme = body.render spell →
    (∀ token ∈ rest.head?, isClosed closers token = true) →
    ∃ body', SpellsAny read (used ++ rest) (.list closers body') rest ∧ body'.statements ≠ [] ∧
      body'.move .toColumns = body.move .toColumns

section

variable {condition body : Sequence} {branches : List Branch} {otherwise : Option Sequence}

/-- A body is spelled up to the keyword that closes it. -/
theorem Sequence.SpellsBody.upTo {closers : List Closer} {keyword : Keyword} {lexemes : List Lexeme}
    (hbody : body.SpellsBody read spell closers) (hk : .keyword keyword ∈ closers)
    (hused : used.map Token.lexeme = body.render spell ++ .reserved keyword :: lexemes) (rest : List Token) :
    ∃ close more body', SpellsAny read (used ++ rest) (.list closers body') (close :: (more ++ rest)) ∧
      body'.statements ≠ [] ∧ body'.move .toColumns = body.move .toColumns ∧ isKeyword keyword close = true ∧
      more.map Token.lexeme = lexemes := by
  obtain ⟨inside, more, rfl, hinside, hmore⟩ := List.map_eq_append_iff.mp hused
  obtain ⟨close, more, rfl, hclose, hmore⟩ := List.map_eq_cons_iff.mp hmore
  have hclosed : ∀ token ∈ (close :: (more ++ rest)).head?, isClosed closers token = true := head_isClosed hclose hk
  obtain ⟨body', hspells, hne, hmove⟩ := hbody hinside hclosed
  rw [List.append_assoc, List.cons_append]
  exact ⟨close, more, body', hspells, hne, hmove, isKeyword_of_lexeme hclose, hmore⟩

/-- A body between braces. -/
theorem braces_render (rest : List Token) (hbody : body.SpellsBody read spell [.keyword .rightBrace])
    (hused : used.map Token.lexeme = .reserved .leftBrace :: (body.render spell ++ [.reserved .rightBrace])) :
    ∃ line body', SpellsAny read (used ++ rest) (.braces line body') rest ∧
      body'.move .toColumns = body.move .toColumns := by
  obtain ⟨start, used, rfl, hstart, hused⟩ := List.map_eq_cons_iff.mp hused
  obtain ⟨close, more, body', hspells, hne, hmove, hclose, hmore⟩ := hbody.upTo (by decide) hused rest
  obtain rfl := List.map_eq_nil_iff.mp hmore
  exact ⟨_, body', .braces (isReserved_of_lexeme hstart) hspells hne hclose, hmove⟩

/-- A body between parentheses. -/
theorem parens_render (hbody : body.SpellsBody read spell [.rightParen])
    (hused : used.map Token.lexeme = .operator .leftParen :: (body.render spell ++ [.operator .rightParen])) :
    ∃ line body', SpellsAny read (used ++ rest) (.parens line body') rest ∧
      body'.move .toColumns = body.move .toColumns := by
  obtain ⟨start, more, rfl, hstart, hmore⟩ := List.map_eq_cons_iff.mp hused
  obtain ⟨inside, last, rfl, hinside, hlast⟩ := List.map_eq_append_iff.mp hmore
  obtain ⟨close, last, rfl, hclose, hlast⟩ := List.map_eq_cons_iff.mp hlast
  obtain rfl := List.map_eq_nil_iff.mp hlast
  have hclosed : ∀ token ∈ (close :: rest).head?, isClosed [.rightParen] token = true := by
    rintro token hmem
    obtain rfl := Option.some.inj hmem
    simp [isClosed, hclose]
  obtain ⟨body', hspells, hne, hmove⟩ := hbody hinside hclosed
  rw [List.cons_append, List.append_assoc, List.singleton_append]
  exact ⟨_, body', .parens (isOperator_of_lexeme hstart) hspells hne (isOperator_of_lexeme hclose), hmove⟩

/-- **A function** is rendered with its keyword and with parentheses. -/
theorem function_render {line : Nat} {name : String} (hname : isFunctionName name.toList = true)
    (hbody : body.SpellsBody read spell [.keyword .rightBrace])
    (hused : used.map Token.lexeme = (Command.function line name body).render spell) :
    ∃ command', SpellsAny read (used ++ rest) (.form command') rest ∧
      command'.move .toColumns = (Command.function line name body).move .toColumns := by
  obtain ⟨token, more, rfl, htoken, hmore⟩ := List.map_eq_cons_iff.mp hused
  obtain ⟨left, more, rfl, hleft, hmore⟩ := List.map_eq_cons_iff.mp hmore
  obtain ⟨right, more, rfl, hright, hmore⟩ := List.map_eq_cons_iff.mp hmore
  obtain ⟨line', body', hbraces, hmove⟩ := braces_render rest hbody hmore
  obtain ⟨hword, htext, hquoted⟩ := isWord_of_plain htoken
  have hbegins : Begins Lexeme.startsPipeline (more ++ rest) := by
    obtain ⟨first, more, rfl, hfirst, -⟩ := List.map_eq_cons_iff.mp hmore
    exact .cons (hfirst ▸ rfl)
  have hbraces : SpellsAny read (pastNewlines (more ++ rest)) (.functionBody body') rest :=
    hbegins.pastNewlines.symm ▸ .bracedBody hbraces
  refine ⟨_, .namedFunction hword (isOperator_of_lexeme hleft) (isOperator_of_lexeme hright) hquoted
    (htext ▸ hname) hbraces, ?_⟩
  rw [htext]
  exact congrArg (Command.function 0 name) hmove

/-- **A loop** with a condition. -/
theorem loop_render {line : Nat} {kind : LoopKind} (hcondition : condition.SpellsBody read spell [.keyword .do])
    (hbody : body.SpellsBody read spell [.keyword .done])
    (hused : used.map Token.lexeme = (Command.loop line kind condition body).render spell) :
    ∃ command', SpellsAny read (used ++ rest) (.form command') rest ∧
      command'.move .toColumns = (Command.loop line kind condition body).move .toColumns := by
  obtain ⟨start, used, rfl, hstart, hused⟩ := List.map_eq_cons_iff.mp hused
  obtain ⟨doToken, more, condition', hcondition, hne, hmove, hdo, hmore⟩ := hcondition.upTo (by decide) hused rest
  obtain ⟨done, last, body', hbody, hne', hmove', hdone, hlast⟩ := hbody.upTo (by decide) hmore rest
  obtain rfl := List.map_eq_nil_iff.mp hlast
  exact ⟨_, .loop (isReserved_of_lexeme hstart) hcondition hne hdo hbody hne' hdone,
    congrArg₂ (Command.loop 0 kind) hmove hmove'⟩

/-- The words that a loop goes over, before a semicolon. -/
theorem items_render (read : SourceReader) (rest : List Token) {words : Option (List Word)} (hwords : ∀ list ∈ words, ∀ word ∈ list, word.IsFilled)
    {semicolon : Token} (hsemicolon : semicolon.lexeme = .operator .semicolon)
    (hused : used.map Token.lexeme = renderItems spell words) :
    ∃ words', SpellsAny read (pastNewlines (used ++ semicolon :: rest)) (.items words') (semicolon :: rest) ∧
      moveItems .toColumns words' = moveItems .toColumns words := by
  cases words with
  | none =>
    obtain rfl := List.map_eq_nil_iff.mp hused
    have hhead : pastNewlines (semicolon :: rest) = semicolon :: rest := by
      simp [pastNewlines_cons, hsemicolon, Lexeme.isNewline]
    -- Without words, the semicolon comes next, which is no `in`.
    have hstop : Unless (isWordText "in") (semicolon :: rest) := by
      intro token hmem
      obtain rfl := Option.some.inj hmem
      simp [isWordText, hsemicolon]
    exact ⟨none, hhead.symm ▸ .noItems hstop, rfl⟩
  | some words =>
    obtain ⟨inToken, more, rfl, hin, hmore⟩ := List.map_eq_cons_iff.mp hused
    have hbegins : Begins Lexeme.startsPipeline (inToken :: more ++ semicolon :: rest) := .cons (hin ▸ rfl)
    have hstop : Unless isWord (semicolon :: rest) := by
      intro token hmem
      obtain rfl := Option.some.inj hmem
      simp [isWord, hsemicolon]
    obtain ⟨words', hspells, -, hmove⟩ := words_render read (hwords words rfl) hmore hstop
    have hisIn : isWordText "in" inToken = true := by
      simp [isWordText, hin, Lexeme.plain, Lexeme.isQuoted, WordPart.isQuoted]
    exact ⟨some words', hbegins.pastNewlines.symm ▸ .items hisIn hspells, congrArg some hmove⟩

/-- **A loop** over words. -/
theorem each_render {line : Nat} {name : String} {words : Option (List Word)}
    (hname : Name.isIdentifier name.toList = true) (hwords : ∀ list ∈ words, ∀ word ∈ list, word.IsFilled)
    (hbody : body.SpellsBody read spell [.keyword .done])
    (hused : used.map Token.lexeme = (Command.each line name words body).render spell) :
    ∃ command', SpellsAny read (used ++ rest) (.form command') rest ∧
      command'.move .toColumns = (Command.each line name words body).move .toColumns := by
  obtain ⟨start, used, rfl, hstart, hused⟩ := List.map_eq_cons_iff.mp hused
  obtain ⟨token, used, rfl, htoken, hused⟩ := List.map_eq_cons_iff.mp hused
  obtain ⟨items, more, rfl, hitems, hmore⟩ := List.map_eq_append_iff.mp hused
  obtain ⟨semicolon, more, rfl, hsemicolon, hmore⟩ := List.map_eq_cons_iff.mp hmore
  obtain ⟨doToken, more, rfl, hdo, hmore⟩ := List.map_eq_cons_iff.mp hmore
  obtain ⟨words', hitems, hmove⟩ :=
    items_render read (doToken :: (more ++ rest)) hwords hsemicolon hitems
  obtain ⟨done, last, body', hbody, hne, hmove', hdone, hlast⟩ := hbody.upTo (by decide) hmore rest
  obtain rfl := List.map_eq_nil_iff.mp hlast
  obtain ⟨hword, htext, -⟩ := isWord_of_plain htoken
  have hvalid : Name.isValid token.lexeme.text.toList = true := htext ▸ Bool.or_eq_true_iff.mpr (.inl hname)
  -- There is one semicolon, and no newline behind it.
  have hseparated : pastNewlines (pastSemicolon (semicolon :: doToken :: (more ++ rest))) =
      doToken :: (more ++ rest) := by
    simp [pastSemicolon, isOperator_of_lexeme hsemicolon, pastNewlines_cons, hdo, Lexeme.isNewline]
  have hspells := Spells.each (isReserved_of_lexeme hstart) hword hvalid hitems hseparated
    (isKeyword_of_lexeme hdo) hbody hne hdone
  have happend : start :: token :: (items ++ semicolon :: doToken :: (more ++ rest)) =
      start :: token :: (items ++ semicolon :: doToken :: more) ++ rest := by simp
  rw [happend, htext] at hspells
  exact ⟨_, hspells, congrArg₂ (Command.each 0 name) hmove hmove'⟩

/-- Branches are spelled by their tokens before `else` or `fi`. -/
def SpellsBranches (read : SourceReader) (spell : List WordPart → String) (branches : List Branch) : Prop :=
  ∀ {used rest : List Token}, used.map Token.lexeme = renderBranches spell branches →
    (∀ token ∈ rest.head?, token.lexeme = .reserved .else ∨ token.lexeme = .reserved .fi) →
    ∃ branches', SpellsAny read (used ++ rest) (.branches branches') rest ∧
      moveBranches .toColumns branches' = moveBranches .toColumns branches

/-- There are no branches. -/
theorem noBranch_render : SpellsBranches read spell [] := by
  intro used rest hused hrest
  obtain rfl := List.map_eq_nil_iff.mp hused
  refine ⟨[], .noBranch fun token hmem => ?_, rfl⟩
  rcases hrest token hmem with hl | hl <;> simp [isReserved, hl]

/-- One more branch. -/
theorem branch_render (hcondition : condition.SpellsBody read spell [.keyword .then])
    (hbody : body.SpellsBody read spell [.keyword .elif, .keyword .else, .keyword .fi])
    (hbranches : SpellsBranches read spell branches) :
    SpellsBranches read spell (⟨condition, body⟩ :: branches) := by
  intro used rest hused hrest
  obtain ⟨elif, used, rfl, helif, hused⟩ := List.map_eq_cons_iff.mp hused
  obtain ⟨thenToken, more, condition', hcondition, hne, hmove, hthen, hmore⟩ :=
    hcondition.upTo (by decide) hused rest
  obtain ⟨inside, more, rfl, hinside, hmore⟩ := List.map_eq_append_iff.mp hmore
  obtain ⟨body', hbody, hne', hmove'⟩ := hbody hinside (branches_head hmore hrest)
  obtain ⟨branches', hbranches, hmoves⟩ := hbranches hmore hrest
  rw [List.append_assoc] at hcondition
  exact ⟨⟨condition', body'⟩ :: branches',
    .branch (isReserved_of_lexeme helif) hcondition hne hthen hbody hne' hbranches,
    congrArg₂ List.cons (congrArg₂ Branch.mk hmove hmove') hmoves⟩

/-- The body after `else`, if there is one. -/
theorem otherwise_render (hotherwise : ∀ body ∈ otherwise, body.SpellsBody read spell [.keyword .fi])
    (hused : used.map Token.lexeme = renderOtherwise spell otherwise)
    (hrest : ∀ token ∈ rest.head?, token.lexeme = .reserved .fi) :
    ∃ otherwise', SpellsAny read (used ++ rest) (.otherwise otherwise') rest ∧
      moveBody .toColumns otherwise' = moveBody .toColumns otherwise := by
  cases otherwise with
  | none =>
    obtain rfl := List.map_eq_nil_iff.mp hused
    exact ⟨none, .noOtherwise fun token hmem => by simp [isReserved, hrest token hmem], rfl⟩
  | some body =>
    obtain ⟨elseToken, used, rfl, helse, hused⟩ := List.map_eq_cons_iff.mp hused
    obtain ⟨body', hbody, hne, hmove⟩ := hotherwise body rfl hused
      fun token hmem => isClosed_of_lexeme (hrest token hmem) (by decide)
    exact ⟨some body', .otherwise (isReserved_of_lexeme helse) hbody hne, congrArg some hmove⟩

/-- **A choice**, put together from its condition, its branches and its end. -/
theorem choice_render {line : Nat} (hcondition : condition.SpellsBody read spell [.keyword .then])
    (hbody : body.SpellsBody read spell [.keyword .elif, .keyword .else, .keyword .fi])
    (hbranches : SpellsBranches read spell branches)
    (hotherwise : ∀ body ∈ otherwise, body.SpellsBody read spell [.keyword .fi])
    (hused : used.map Token.lexeme = (Command.choice line condition body branches otherwise).render spell) :
    ∃ command', SpellsAny read (used ++ rest) (.form command') rest ∧
      command'.move .toColumns = (Command.choice line condition body branches otherwise).move .toColumns := by
  obtain ⟨start, used, rfl, hstart, hused⟩ := List.map_eq_cons_iff.mp hused
  -- The tokens are taken apart from the left, and the parts spelled from the right: each list has to know what
  -- closes it.
  obtain ⟨thenToken, more, condition', hcondition, hne, hmove, hthen, hmore⟩ :=
    hcondition.upTo (by decide) hused rest
  obtain ⟨inside, more, rfl, hinside, hmore⟩ := List.map_eq_append_iff.mp hmore
  obtain ⟨between, more, rfl, hbetween, hmore⟩ := List.map_eq_append_iff.mp hmore
  obtain ⟨last, more, rfl, hlast, hmore⟩ := List.map_eq_append_iff.mp hmore
  obtain ⟨fi, more, rfl, hfi, hmore⟩ := List.map_eq_cons_iff.mp hmore
  obtain rfl := List.map_eq_nil_iff.mp hmore
  have hclose : ∀ token ∈ (fi :: rest).head?, token.lexeme = .reserved .fi := by
    rintro token hmem
    obtain rfl := Option.some.inj hmem
    exact hfi
  have hhead := otherwise_head hlast hclose
  obtain ⟨otherwise', hotherwise, hmoves'⟩ := otherwise_render hotherwise hlast hclose
  obtain ⟨branches', hbranches, hmoves⟩ := hbranches hbetween hhead
  obtain ⟨body', hbody, hne', hmove'⟩ := hbody hinside (branches_head hbetween hhead)
  simp only [List.append_assoc, List.singleton_append] at hcondition
  refine ⟨_, .choice (isReserved_of_lexeme hstart) hcondition hne hthen hbody hne' hbranches hotherwise
    (isKeyword_of_lexeme hfi), ?_⟩
  show Command.choice 0 _ _ _ _ = Command.choice 0 _ _ _ _
  rw [hmove, hmove', hmoves, hmoves']

/-- An arithmetic command is one token. -/
theorem arithmetic_render {line : Nat} {expression : Word} (he : expression.IsFilled)
    (hused : used.map Token.lexeme = (Command.arithmetic line expression).render spell) :
    ∃ command', SpellsAny read (used ++ rest) (.form command') rest ∧
      command'.move .toColumns = (Command.arithmetic line expression).move .toColumns := by
  obtain ⟨line', parts⟩ := expression
  obtain ⟨⟨lexeme, place⟩, more, rfl, rfl, hmore⟩ := List.map_eq_cons_iff.mp hused
  obtain rfl := List.map_eq_nil_iff.mp hmore
  exact ⟨_, .arithmeticCommand rfl (Word.resolve_filled ⟨place.line, parts⟩ he), rfl⟩

/-! ## 3. Pipelines and lists -/

/-- A command is spelled by its tokens, before what may come after it. -/
def Command.IsSpelled (read : SourceReader) (spell : List WordPart → String) (command : Command) : Prop :=
  ∀ {used rest : List Token}, used.map Token.lexeme = command.render spell → Begins Lexeme.endsCommand rest →
    ∃ command', SpellsAny read (used ++ rest) (.form command') rest ∧
      command'.move .toColumns = command.move .toColumns

/-- The further commands of a pipeline are spelled. -/
def PipesAreSpelled (read : SourceReader) (spell : List WordPart → String) (commands : List Command) : Prop :=
  ∀ {used rest : List Token}, used.map Token.lexeme = renderPipes spell commands →
    Begins Lexeme.endsPipeline rest →
    ∃ commands', SpellsAny read (used ++ rest) (.pipes commands') rest ∧
      moveCommands .toColumns commands' = moveCommands .toColumns commands

/-- A pipeline is spelled by its tokens, before what may come after it. -/
def Pipeline.IsSpelled (read : SourceReader) (spell : List WordPart → String) (pipeline : Pipeline) : Prop :=
  ∀ {used rest : List Token}, used.map Token.lexeme = pipeline.render spell → Begins Lexeme.endsPipeline rest →
    ∃ pipeline', SpellsAny read (used ++ rest) (.pipeline pipeline') rest ∧
      pipeline'.move .toColumns = pipeline.move .toColumns

/-- The further pipelines of an and-or list are spelled. -/
def JoinedAreSpelled (read : SourceReader) (spell : List WordPart → String) (joined : List Joined) : Prop :=
  ∀ {used rest : List Token}, used.map Token.lexeme = renderJoined spell joined →
    Begins Lexeme.endsStatement rest →
    ∃ joined', SpellsAny read (used ++ rest) (.joined joined') rest ∧
      moveJoined .toColumns joined' = moveJoined .toColumns joined

/-- An and-or list is spelled by its tokens, before a semicolon. -/
def AndOrList.IsSpelled (read : SourceReader) (spell : List WordPart → String) (statement : AndOrList) : Prop :=
  ∀ {used rest : List Token}, used.map Token.lexeme = statement.render spell → Begins Lexeme.endsStatement rest →
    ∃ statement', SpellsAny read (used ++ rest) (.andOr statement') rest ∧
      statement'.move .toColumns = statement.move .toColumns

/-- Statements are spelled by their tokens, before what closes their list. -/
def StatementsAreSpelled (read : SourceReader) (spell : List WordPart → String) (statements : List AndOrList) :
    Prop :=
  ∀ {closers : List Closer}, (∀ closer ∈ closers, closer.isProper = true) → ∀ {used rest : List Token},
    used.map Token.lexeme = renderStatements spell statements →
    (∀ token ∈ rest.head?, isClosed closers token = true) →
    ∃ statements', SpellsAny read (used ++ rest) (.statements closers statements') rest ∧
      moveStatements .toColumns statements' = moveStatements .toColumns statements

/-- After a command comes a pipe, or what comes after the pipeline. -/
theorem pipes_begins {commands : List Command} (hused : used.map Token.lexeme = renderPipes spell commands)
    (hrest : Begins Lexeme.endsPipeline rest) : Begins Lexeme.endsCommand (used ++ rest) := by
  cases commands with
  | nil =>
    obtain rfl := List.map_eq_nil_iff.mp hused
    exact hrest.mono fun _ => Lexeme.endsCommand_of_endsPipeline
  | cons command commands =>
    obtain ⟨token, more, rfl, htoken, -⟩ := List.map_eq_cons_iff.mp hused
    exact .cons (htoken ▸ rfl)

/-- After a pipeline comes a connective, or what comes after the statement. -/
theorem joined_begins {joined : List Joined} (hused : used.map Token.lexeme = renderJoined spell joined)
    (hrest : Begins Lexeme.endsStatement rest) : Begins Lexeme.endsPipeline (used ++ rest) := by
  cases joined with
  | nil =>
    obtain rfl := List.map_eq_nil_iff.mp hused
    exact hrest.mono fun _ => Lexeme.endsPipeline_of_endsStatement
  | cons first joined =>
    obtain ⟨connective, pipeline⟩ := first
    obtain ⟨token, more, rfl, htoken, -⟩ := List.map_eq_cons_iff.mp hused
    refine .cons ?_
    rw [htoken]
    cases connective <;> rfl

/-- There are no more commands. -/
theorem noPipe_render : PipesAreSpelled read spell [] := by
  intro used rest hused hrest
  obtain rfl := List.map_eq_nil_iff.mp hused
  exact ⟨[], .noPipe (hrest.unless fun _ => isPipe_of_endsPipeline), rfl⟩

/-- One more command after a bar. -/
theorem pipe_render {command : Command} {commands : List Command} (hc : command.IsPrintable)
    (hcommand : command.IsSpelled read spell) (hcommands : PipesAreSpelled read spell commands) :
    PipesAreSpelled read spell (command :: commands) := by
  intro used rest hused hrest
  obtain ⟨pipe, used, rfl, hpipe, hused⟩ := List.map_eq_cons_iff.mp hused
  obtain ⟨first, more, rfl, hfirst, hmore⟩ := List.map_eq_append_iff.mp hused
  obtain ⟨command', hspells, hmove⟩ := hcommand hfirst (pipes_begins hmore hrest)
  obtain ⟨commands', hpipes, hmoves⟩ := hcommands hmore hrest
  have hbegins := ((Command.render_begins hc hfirst).append (more ++ rest)).mono
    fun _ => Lexeme.startsPipeline_of_startsCommand
  rw [List.cons_append, List.append_assoc]
  exact ⟨command' :: commands',
    .pipe (isOperator_of_lexeme hpipe) (hbegins.pastNewlines.symm ▸ .command trivial hspells) hpipes,
    congrArg₂ List.cons hmove hmoves⟩

/-- **A pipeline**, with a sign if it is negated. -/
theorem pipeline_render {negated : Bool} {first : Command} {commands : List Command} (hc : first.IsPrintable)
    (hfirst : first.IsSpelled read spell) (hcommands : PipesAreSpelled read spell commands) :
    Pipeline.IsSpelled read spell ⟨negated, first, commands⟩ := by
  -- Without its sign, the pipeline is its first command and the rest.
  have hplain {used rest : List Token}
      (hused : used.map Token.lexeme = first.render spell ++ renderPipes spell commands)
      (hrest : Begins Lexeme.endsPipeline rest) :
      ∃ first' commands', SpellsAny read (used ++ rest) (.pipeline ⟨false, first', commands'⟩) rest ∧
        first'.move .toColumns = first.move .toColumns ∧
        moveCommands .toColumns commands' = moveCommands .toColumns commands := by
    obtain ⟨head, more, rfl, hhead, hmore⟩ := List.map_eq_append_iff.mp hused
    obtain ⟨first', hspells, hmove⟩ := hfirst hhead (pipes_begins hmore hrest)
    obtain ⟨commands', hpipes, hmoves⟩ := hcommands hmore hrest
    have hbegins := (Command.render_begins hc hhead).append (more ++ rest)
    rw [List.append_assoc]
    exact ⟨first', commands',
      .pipeline (hbegins.unless fun _ => isBang_of_startsCommand) (.command trivial hspells) hpipes, hmove, hmoves⟩
  intro used rest hused hrest
  cases negated with
  | false =>
    obtain ⟨first', commands', hspells, hmove, hmoves⟩ := hplain hused hrest
    exact ⟨_, hspells, congrArg₂ (Pipeline.mk false) hmove hmoves⟩
  | true =>
    obtain ⟨bang, used, rfl, hbang, hused⟩ := List.map_eq_cons_iff.mp hused
    obtain ⟨first', commands', hspells, hmove, hmoves⟩ := hplain hused hrest
    exact ⟨_, .bang (isReserved_of_lexeme hbang) hspells, congrArg₂ (Pipeline.mk true) hmove hmoves⟩

/-- There are no more pipelines. -/
theorem noJoined_render : JoinedAreSpelled read spell [] := by
  intro used rest hused hrest
  obtain rfl := List.map_eq_nil_iff.mp hused
  exact ⟨[], .noConnective (hrest.unless fun _ => isConnective_of_endsStatement), rfl⟩

/-- One more pipeline after a connective. -/
theorem joined_render {connective : Connective} {pipeline : Pipeline} {joined : List Joined}
    (hp : pipeline.IsPrintable) (hpipeline : pipeline.IsSpelled read spell)
    (hjoined : JoinedAreSpelled read spell joined) :
    JoinedAreSpelled read spell (⟨connective, pipeline⟩ :: joined) := by
  intro used rest hused hrest
  obtain ⟨sign, used, rfl, hsign, hused⟩ := List.map_eq_cons_iff.mp hused
  obtain ⟨head, more, rfl, hhead, hmore⟩ := List.map_eq_append_iff.mp hused
  obtain ⟨pipeline', hspells, hmove⟩ := hpipeline hhead (joined_begins hmore hrest)
  obtain ⟨joined', hmoreSpells, hmoves⟩ := hjoined hmore hrest
  have hconnective : connective? sign = some connective := by
    rw [connective?, hsign]
    cases connective <;> rfl
  have hbegins := (Pipeline.render_begins hp hhead).append (more ++ rest)
  rw [List.cons_append, List.append_assoc]
  exact ⟨⟨connective, pipeline'⟩ :: joined',
    .connective hconnective (hbegins.pastNewlines.symm ▸ hspells) hmoreSpells,
    congrArg₂ List.cons (congrArg (Joined.mk connective) hmove) hmoves⟩

/-- **A statement** is its first pipeline and the rest. -/
theorem andOr_render {first : Pipeline} {joined : List Joined} (hfirst : first.IsSpelled read spell)
    (hjoined : JoinedAreSpelled read spell joined) : AndOrList.IsSpelled read spell ⟨first, joined⟩ := by
  intro used rest hused hrest
  obtain ⟨head, more, rfl, hhead, hmore⟩ := List.map_eq_append_iff.mp hused
  obtain ⟨first', hspells, hmove⟩ := hfirst hhead (joined_begins hmore hrest)
  obtain ⟨joined', hmoreSpells, hmoves⟩ := hjoined hmore hrest
  rw [List.append_assoc]
  exact ⟨⟨first', joined'⟩, .andOr hspells hmoreSpells, congrArg₂ AndOrList.mk hmove hmoves⟩

/-- There are no more statements. -/
theorem noStatement_render : StatementsAreSpelled read spell [] := by
  intro closers hclosers used rest hused hrest
  obtain rfl := List.map_eq_nil_iff.mp hused
  exact ⟨[], .closed hrest, rfl⟩

/-- One more statement before a newline. -/
theorem statement_render {statement : AndOrList} {statements : List AndOrList} (hs : statement.IsPrintable)
    (hss : StatementsArePrintable statements) (hstatement : statement.IsSpelled read spell)
    (hstatements : StatementsAreSpelled read spell statements) :
    StatementsAreSpelled read spell (statement :: statements) := by
  intro closers hclosers used rest hused hrest
  obtain ⟨head, more, rfl, hhead, hmore⟩ := List.map_eq_append_iff.mp hused
  obtain ⟨semicolon, more, rfl, hsemicolon, hmore⟩ := List.map_eq_cons_iff.mp hmore
  have hends : Begins Lexeme.endsStatement (semicolon :: (more ++ rest)) := .cons (hsemicolon ▸ rfl)
  obtain ⟨statement', hspells, hmove⟩ := hstatement hhead hends
  obtain ⟨statements', hmoreSpells, hmoves⟩ := hstatements hclosers hmore hrest
  have hbegins := (AndOrList.render_begins hs hhead).append (semicolon :: (more ++ rest))
  rw [List.append_assoc, List.cons_append]
  exact ⟨statement' :: statements',
    .semicolon (hbegins.isOpen hclosers) hspells (isOperator_of_lexeme hsemicolon)
      ((pastNewlines_render hss hmore hrest).symm ▸ hmoreSpells),
    congrArg₂ List.cons hmove hmoves⟩

/-- A list of statements is spelled with them. -/
theorem list_render {closers : List Closer} {statements : List AndOrList} (hss : StatementsArePrintable statements)
    (hstatements : StatementsAreSpelled read spell statements)
    (hclosers : ∀ closer ∈ closers, closer.isProper = true)
    (hused : used.map Token.lexeme = renderStatements spell statements)
    (hrest : ∀ token ∈ rest.head?, isClosed closers token = true) :
    ∃ sequence', SpellsAny read (used ++ rest) (.list closers sequence') rest ∧
      sequence'.move .toColumns = Sequence.move .toColumns ⟨statements⟩ := by
  obtain ⟨statements', hspells, hmoves⟩ := hstatements hclosers hused hrest
  exact ⟨⟨statements'⟩, .list ((pastNewlines_render hss hused hrest).symm ▸ hspells),
    congrArg Sequence.mk hmoves⟩

end

/-! ## 4. Scripts

The recursion goes along the script. The lemmas above say what is made of the parts, so there is nothing left to
show but that the parts are smaller. -/

mutual

/-- Every command is spelled by its tokens, by the lemma for its form. -/
theorem Command.isSpelled : ∀ command : Command, command.IsPrintable → command.IsSpelled read spell
  | .simple _ _ _ _, hc, _, _, hused, hrest => simple_render hc hused hrest
  | .choice _ condition body branches none, ⟨hcondition, hbody, hbranches, _⟩, _, _, hused, _ =>
    choice_render (Sequence.spellsBody condition hcondition (by decide)) (Sequence.spellsBody body hbody (by decide))
      (spellsBranches branches hbranches) nofun hused
  | .choice _ condition body branches (some otherwise), ⟨hcondition, hbody, hbranches, hotherwise⟩, _, _, hused,
      _ =>
    choice_render (Sequence.spellsBody condition hcondition (by decide)) (Sequence.spellsBody body hbody (by decide))
      (spellsBranches branches hbranches)
      (fun _ hmem => Option.some.inj hmem ▸ Sequence.spellsBody otherwise hotherwise (by decide)) hused
  | .loop _ _ condition body, ⟨hcondition, hbody⟩, _, _, hused, _ =>
    loop_render (Sequence.spellsBody condition hcondition (by decide))
      (Sequence.spellsBody body hbody (by decide)) hused
  | .each _ _ _ body, ⟨hname, hwords, hbody⟩, _, _, hused, _ =>
    each_render hname hwords (Sequence.spellsBody body hbody (by decide)) hused
  | .group _ body, hbody, _, _, hused, _ => by
    obtain ⟨line, body', hbraces, hmove⟩ := braces_render _ (Sequence.spellsBody body hbody (by decide)) hused
    exact ⟨.group line body', .group hbraces, congrArg (Command.group 0) hmove⟩
  | .subshell _ body, hbody, _, _, hused, _ => by
    obtain ⟨line, body', hparens, hmove⟩ := parens_render (Sequence.spellsBody body hbody (by decide)) hused
    exact ⟨.subshell line body', .subshell hparens, congrArg (Command.subshell 0) hmove⟩
  | .function _ _ body, ⟨hname, hbody⟩, _, _, hused, _ =>
    function_render hname (Sequence.spellsBody body hbody (by decide)) hused
  | .arithmetic _ _, he, _, _, hused, _ => arithmetic_render he hused

theorem spellsBranches : ∀ branches : List Branch, BranchesArePrintable branches →
    SpellsBranches read spell branches
  | [], _ => noBranch_render
  | ⟨condition, body⟩ :: branches, ⟨hcondition, hbody, hbranches⟩ =>
    branch_render (Sequence.spellsBody condition hcondition (by decide)) (Sequence.spellsBody body hbody (by decide))
      (spellsBranches branches hbranches)

theorem Pipeline.isSpelled : ∀ pipeline : Pipeline, pipeline.IsPrintable → pipeline.IsSpelled read spell
  | ⟨_, first, commands⟩, ⟨hfirst, hcommands⟩ =>
    pipeline_render hfirst (Command.isSpelled first hfirst) (pipesAreSpelled commands hcommands)

theorem pipesAreSpelled : ∀ commands : List Command, CommandsArePrintable commands →
    PipesAreSpelled read spell commands
  | [], _ => noPipe_render
  | command :: commands, ⟨hcommand, hcommands⟩ =>
    pipe_render hcommand (Command.isSpelled command hcommand) (pipesAreSpelled commands hcommands)

theorem AndOrList.isSpelled : ∀ statement : AndOrList, statement.IsPrintable → statement.IsSpelled read spell
  | ⟨first, joined⟩, ⟨hfirst, hjoined⟩ =>
    andOr_render (Pipeline.isSpelled first hfirst) (joinedAreSpelled joined hjoined)

theorem joinedAreSpelled : ∀ joined : List Joined, JoinedArePrintable joined → JoinedAreSpelled read spell joined
  | [], _ => noJoined_render
  | ⟨_, pipeline⟩ :: joined, ⟨hpipeline, hjoined⟩ =>
    joined_render hpipeline (Pipeline.isSpelled pipeline hpipeline) (joinedAreSpelled joined hjoined)

theorem statementsAreSpelled : ∀ statements : List AndOrList, StatementsArePrintable statements →
    StatementsAreSpelled read spell statements
  | [], _ => noStatement_render
  | statement :: statements, ⟨hstatement, hstatements⟩ =>
    statement_render hstatement hstatements (AndOrList.isSpelled statement hstatement)
      (statementsAreSpelled statements hstatements)

/-- A body is spelled by its tokens before what closes it. -/
theorem Sequence.spellsBody : ∀ body : Sequence, body.statements ≠ [] ∧ body.IsPrintable →
    ∀ {closers : List Closer}, (∀ closer ∈ closers, closer.isProper = true) → body.SpellsBody read spell closers
  | ⟨statements⟩, ⟨hne, hs⟩, closers, hclosers, used, rest, hused, hrest => by
    obtain ⟨body', hspells, hmove⟩ := list_render hs (statementsAreSpelled statements hs) hclosers hused hrest
    exact ⟨body', hspells, statements_ne_nil hmove hne, hmove⟩

end

end

/-- **The parser takes the tokens of a script back to it**, up to the numbers of lines. The script can be any that the
grammar has. The places of the tokens can be any, and the texts of words that are no names. -/
theorem parseTokens_render (read : SourceReader) (spell : List WordPart → String) {sequence : Sequence}
    (hs : sequence.IsPrintable) {tokens : List Token}
    (htokens : tokens.map Token.lexeme = sequence.render spell ++ [.endOfInput]) (hmax : tokens.length ≤ maxTokens) :
    ∃ sequence', parseTokens read tokens = .ok sequence' ∧ sequence'.unlined = sequence.unlined := by
  obtain ⟨inside, last, rfl, hinside, hlast⟩ := List.map_eq_append_iff.mp htokens
  obtain ⟨⟨lexeme, stop⟩, more, rfl, rfl, hmore⟩ := List.map_eq_cons_iff.mp hlast
  obtain rfl := List.map_eq_nil_iff.mp hmore
  obtain ⟨statements⟩ := sequence
  obtain ⟨sequence', hspells, hmove⟩ : ∃ sequence', SpellsAny read (inside ++ []) (.list [] sequence') [] ∧
      sequence'.move .toColumns = Sequence.move .toColumns ⟨statements⟩ :=
    list_render hs (statementsAreSpelled statements hs) nofun hinside nofun
  rw [List.append_nil] at hspells
  rw [List.length_append, List.length_singleton] at hmax
  exact ⟨sequence', hspells.parseTokens hmax stop, hmove⟩

/-- A function around a loop with a command named `then`, as in `! f() { a+=b$x | for y in fi; do then; done; }`. -/
def loopInFunction : Sequence :=
  let loop : Command := .each 4 "y" (some [⟨4, [.literal "fi"]⟩])
    (ofCommand (.simple 5 (some ⟨5, [.literal "then"]⟩) [] []))
  let assignment : Assignment := ⟨"a", true, ⟨3, [.literal "b", .parameter "x"]⟩, 3⟩
  let body : Sequence := ⟨[⟨⟨false, .simple 3 none [] [assignment], [loop]⟩, []⟩]⟩
  ⟨[⟨⟨true, .function 3 "f" body, []⟩, []⟩]⟩

theorem loopInFunction_render :
    ∃ tokens sequence', tokens.map Token.lexeme = loopInFunction.render (fun _ => "") ++ [.endOfInput] ∧
      loopInFunction.IsPrintable ∧ parseTokens (fun _ _ => .ok default) tokens = .ok sequence' ∧
      sequence'.unlined = loopInFunction.unlined := by
  have hprintable : loopInFunction.IsPrintable := by
    simp only [loopInFunction, ofCommand, Sequence.IsPrintable, StatementsArePrintable, AndOrList.IsPrintable,
      Pipeline.IsPrintable, CommandsArePrintable, JoinedArePrintable, Command.IsPrintable]
    have hassignment : (⟨"a", true, ⟨3, [.literal "b", .parameter "x"]⟩, 3⟩ : Assignment).IsPrintable :=
      ⟨by decide, ⟨trivial, trivial, trivial⟩, by simp⟩
    simp [hassignment, Word.IsFilled, AreFilled, WordPart.IsFilled, Word.NamesCommand]
    decide
  let lexemes : List Lexeme := loopInFunction.render (fun _ => "") ++ [.endOfInput]
  have htokens : (lexemes.map fun lexeme => Token.mk lexeme ⟨1, 1⟩).map Token.lexeme = lexemes := by
    rw [List.map_map]
    exact List.map_id _
  obtain ⟨sequence', hparse, hsame⟩ :=
    parseTokens_render (fun _ _ => .ok default) (fun _ => "") hprintable htokens (by decide)
  exact ⟨_, sequence', htokens, hprintable, hparse, hsame⟩

end Shell
