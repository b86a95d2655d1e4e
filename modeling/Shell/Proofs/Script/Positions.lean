/-
Positions in a script and in all scripts inside it.

The source of a command substitution is a script of its own, whose tokens are read from the place at which the source
stands. Sources stand in tokens (`Token.Holds`), tokens stand in texts (`tokenize_layout`), and the place behind one
text and then another is the place behind both. So, from the outermost text to the sources inside, all tokens
have the line and the column of their first character in the outermost text (`parse_positions`).

All the sources in a script are read when it is parsed, since all of its tokens are passed and each word that
is passed has its sources read (`Spells.sourcesRead`).
-/
import Shell.Proofs.Script.Names
import Shell.Proofs.Script.Substitutions
import Shell.Proofs.Token.Occurrences

set_option autoImplicit false

namespace Shell

open Shell.Parser

/-! ## 1. Sources that are read -/

section

variable {read : SourceReader}

/-- All sources of a list are read. -/
def AllRead (read : SourceReader) (sources : List (String × Place)) : Prop :=
  ∀ source ∈ sources, ∃ body, read source.1 source.2 = .ok body

/-- All of both are read. -/
theorem AllRead.append {sources sources' : List (String × Place)} (h : AllRead read sources)
    (h' : AllRead read sources') : AllRead read (sources ++ sources') :=
  List.forall_mem_append.mpr ⟨h, h'⟩

mutual

/-- A part gets its bodies only if its sources are read. -/
theorem WordPart.allRead : ∀ (part : WordPart) (part' : WordPart), part.resolve read = .ok part' →
    AllRead read part.sources
  | .literal _, _, _ | .singleQuoted _, _, _ | .escaped _, _, _ | .parameter _, _, _ | .length _, _, _ => nofun
  | .doubleQuoted parts, _, h => by
    obtain ⟨parts', hparts, -⟩ := bind_eq_ok.mp h
    exact allRead_sourcesIn parts parts' hparts
  | .conditional _ _ argument, _, h => by
    obtain ⟨argument', hargument, -⟩ := bind_eq_ok.mp h
    exact Word.allRead argument argument' hargument
  | .substitution source place none, _, h => by
    obtain ⟨body, hbody, -⟩ := bind_eq_ok.mp h
    exact List.forall_mem_singleton.mpr ⟨body, hbody⟩
  | .substitution _ _ (some _), _, _ => nofun
  | .arithmetic expression, _, h => by
    obtain ⟨expression', hexpression, -⟩ := bind_eq_ok.mp h
    exact Word.allRead expression expression' hexpression

/-- Where parts have been resolved, their sources have been read. -/
theorem allRead_sourcesIn : ∀ (parts parts' : List WordPart), resolveParts read parts = .ok parts' →
    AllRead read (sourcesIn parts)
  | [], _, _ => nofun
  | part :: parts, _, h => by
    obtain ⟨part', hpart, h⟩ := bind_eq_ok.mp h
    obtain ⟨parts', hparts, -⟩ := bind_eq_ok.mp h
    exact (WordPart.allRead part part' hpart).append (allRead_sourcesIn parts parts' hparts)

/-- So it is with a word. -/
theorem Word.allRead : ∀ (word word' : Word), word.resolve read = .ok word' → AllRead read word.sources
  | ⟨_, parts⟩, _, h => by
    obtain ⟨parts', hparts, -⟩ := bind_eq_ok.mp h
    exact allRead_sourcesIn parts parts' hparts

end

mutual

/-- And it does get them if they are. -/
theorem WordPart.exists_resolve : ∀ part : WordPart, AllRead read part.sources → ∃ part', part.resolve read = .ok part'
  | .literal _, _ | .singleQuoted _, _ | .escaped _, _ | .parameter _, _ | .length _, _ => ⟨_, rfl⟩
  | .doubleQuoted parts, h => by
    obtain ⟨parts', hparts⟩ := exists_resolveParts parts h
    exact ⟨_, bind_eq_ok.mpr ⟨parts', hparts, rfl⟩⟩
  | .conditional _ _ argument, h => by
    obtain ⟨argument', hargument⟩ := Word.exists_resolve argument h
    exact ⟨_, bind_eq_ok.mpr ⟨argument', hargument, rfl⟩⟩
  | .substitution source place none, h => by
    obtain ⟨body, hbody⟩ := h (source, place) List.mem_cons_self
    exact ⟨_, bind_eq_ok.mpr ⟨body, hbody, rfl⟩⟩
  | .substitution _ _ (some _), _ => ⟨_, rfl⟩
  | .arithmetic expression, h => by
    obtain ⟨expression', hexpression⟩ := Word.exists_resolve expression h
    exact ⟨_, bind_eq_ok.mpr ⟨expression', hexpression, rfl⟩⟩

/-- If all sources can be read, the parts can be resolved. -/
theorem exists_resolveParts : ∀ parts : List WordPart, AllRead read (sourcesIn parts) →
    ∃ parts', resolveParts read parts = .ok parts'
  | [], _ => ⟨_, rfl⟩
  | part :: parts, h => by
    obtain ⟨hpart, hparts⟩ := List.forall_mem_append.mp h
    obtain ⟨part', hpart⟩ := WordPart.exists_resolve part hpart
    obtain ⟨parts', hparts⟩ := exists_resolveParts parts hparts
    exact ⟨_, bind_eq_ok.mpr ⟨part', hpart, bind_eq_ok.mpr ⟨parts', hparts, rfl⟩⟩⟩

/-- So it is with a word. -/
theorem Word.exists_resolve : ∀ word : Word, AllRead read word.sources → ∃ word', word.resolve read = .ok word'
  | ⟨_, parts⟩, h => by
    obtain ⟨parts', hparts⟩ := exists_resolveParts parts h
    exact ⟨_, bind_eq_ok.mpr ⟨parts', hparts, rfl⟩⟩

end

/-- The reader is asked for a source, from a place: the parts do not get their bodies unless it reads that. -/
def IsAsked (parts : List WordPart) (source : String × Place) : Prop :=
  ∀ (read : SourceReader) parts', resolveParts read parts = .ok parts' → ∃ body, read source.1 source.2 = .ok body

/-- **A reader is asked for the sources in the parts, each from the place at which it stands**, and for nothing else. -/
theorem isAsked_iff {parts : List WordPart} {source : String × Place} :
    IsAsked parts source ↔ source ∈ sourcesIn parts := by
  refine ⟨fun h => ?_, fun hmem read parts' hr => allRead_sourcesIn parts parts' hr source hmem⟩
  by_contra hmem
  -- A reader that fails for this source alone would do.
  let read : SourceReader := fun text place =>
    if (text, place) = source then .error ⟨.tooManySteps, place⟩ else .ok ⟨[]⟩
  have hall : AllRead read (sourcesIn parts) := by
    intro other hother
    have hne : (other.1, other.2) ≠ source := fun heq => hmem (heq ▸ hother)
    exact ⟨⟨[]⟩, if_neg hne⟩
  obtain ⟨parts', hparts⟩ := exists_resolveParts parts hall
  obtain ⟨body, hbody⟩ := h read parts' hparts
  have hfails : read source.1 source.2 = .error ⟨.tooManySteps, source.2⟩ := if_pos rfl
  rw [hfails] at hbody
  cases hbody

/-- The value of an assignment has the sources that the word has. -/
theorem Token.sourcesIn_assignment {token : Token} {name : List Char} {append : Bool} {parts : List WordPart}
    (h : token.assignment? = some (name, append, parts)) : sourcesIn token.lexeme.parts = sourcesIn parts := by
  unfold assignment? at h
  split at h
  · next head more hparts =>
    rw [hparts]
    split at h
    · cases h
    · simp only [Option.some.injEq, Prod.mk.injEq] at h
      obtain ⟨-, -, rfl⟩ := h
      split <;> rfl
  · cases h

end

/-! ## 2. The tokens of a phrase -/

section

variable {read : SourceReader} {token : Token} {ts : List Token}

/-- The sources in a token are read, if it has none but those that its text shows. -/
def Token.SourcesRead (read : SourceReader) (token : Token) : Prop :=
  ('$' ∉ token.lexeme.text.toList → sourcesIn token.lexeme.parts = []) →
    AllRead read (sourcesIn token.lexeme.parts)

/-- The sources of a word token are read with its word. -/
theorem Token.sourcesRead_of_word {word : Word} (h : token.word.resolve read = .ok word) : token.SourcesRead read :=
  fun _ => Word.allRead token.word word h

/-- A token that is no word has no sources. -/
theorem Token.sourcesRead_of_parts (h : sourcesIn token.lexeme.parts = []) : token.SourcesRead read := by
  intro _
  rw [h]
  exact nofun

/-- A text without a dollar sign has no sources. -/
theorem Token.sourcesRead_of_text (h : '$' ∉ token.lexeme.text.toList) : token.SourcesRead read := by
  intro hquiet
  rw [hquiet h]
  exact nofun

theorem sourcesRead_of_isReserved {keyword : Keyword} (h : isReserved keyword token = true) :
    token.SourcesRead read :=
  Token.sourcesRead_of_parts (by rw [lexeme_of_isReserved h]; rfl)

theorem sourcesRead_of_isOperator {op : Operator} (h : isOperator op token = true) : token.SourcesRead read :=
  Token.sourcesRead_of_parts (by rw [lexeme_of_isOperator h]; rfl)

theorem sourcesRead_of_isNewline (h : Lexeme.isNewline token.lexeme = true) : token.SourcesRead read := by
  refine Token.sourcesRead_of_parts ?_
  unfold Lexeme.isNewline at h
  split at h
  · next heq =>
    rw [heq]
    rfl
  · cases h

theorem sourcesRead_of_connective? {connective : Connective} (h : connective? token = some connective) :
    token.SourcesRead read := by
  refine Token.sourcesRead_of_parts ?_
  unfold connective? at h
  split at h
  · next heq =>
    rw [heq]
    rfl
  · next heq =>
    rw [heq]
    rfl
  · cases h

theorem sourcesRead_of_isWordText {text : String} (ht : '$' ∉ text.toList) (h : isWordText text token = true) :
    token.SourcesRead read := by
  refine Token.sourcesRead_of_text ?_
  unfold isWordText at h
  split at h
  · next heq =>
    obtain ⟨htext, -⟩ := Bool.and_eq_true_iff.mp h
    rw [heq]
    rwa [Lexeme.text, eq_of_beq htext]
  · cases h

theorem sourcesRead_of_isKeyword {keyword : Keyword} (h : isKeyword keyword token = true) :
    token.SourcesRead read := by
  rcases Bool.or_eq_true_iff.mp h with h | h
  · exact sourcesRead_of_isReserved h
  · refine sourcesRead_of_isWordText ?_ h
    cases keyword <;> decide

/-- The sources in all of the tokens are read. -/
def AllSourcesRead (read : SourceReader) (ts : List Token) : Prop := ∀ token ∈ ts, token.SourcesRead read

/-- The first token and those after it. -/
theorem AllSourcesRead.cons (h : token.SourcesRead read) (hs : AllSourcesRead read ts) :
    AllSourcesRead read (token :: ts) :=
  List.forall_mem_cons.mpr ⟨h, hs⟩

/-- Newlines have no sources. -/
theorem AllSourcesRead.pastNewlines (h : AllSourcesRead read (pastNewlines ts)) : AllSourcesRead read ts :=
  of_pastNewlines (fun _ _ hn h => h.cons (sourcesRead_of_isNewline hn)) h

/-- Nor has a semicolon. -/
theorem AllSourcesRead.pastSemicolon (h : AllSourcesRead read (pastSemicolon ts)) : AllSourcesRead read ts :=
  of_pastSemicolon (fun _ _ hs h => h.cons (sourcesRead_of_isOperator hs)) h

end

/-- **Reading a phrase reads the sources in its tokens.** Words are resolved; other tokens have no sources. -/
theorem Spells.sourcesRead {read : SourceReader} {starts : List Token → Command → Prop} {ts rest : List Token}
    {phrase : Phrase} (h : Spells read starts ts phrase rest) (hrest : AllSourcesRead read rest) :
    AllSourcesRead read ts := by
  -- Names, keywords and operators have no sources in them.
  have hfor {token : Token} {ts : List Token} (h : Name.isValid token.lexeme.text.toList = true)
      (hs : AllSourcesRead read ts) : AllSourcesRead read (token :: ts) :=
    hs.cons (Token.sourcesRead_of_text (not_mem_of_isValid h (by decide) (by decide)))
  have hfunction {token : Token} {ts : List Token} (h : isFunctionName token.lexeme.text.toList = true)
      (hs : AllSourcesRead read ts) : AllSourcesRead read (token :: ts) :=
    hs.cons (Token.sourcesRead_of_text (not_mem_of_isFunctionName h (by decide)))
  have hreserved {keyword : Keyword} {token : Token} {ts : List Token} (h : isReserved keyword token = true)
      (hs : AllSourcesRead read ts) : AllSourcesRead read (token :: ts) :=
    hs.cons (sourcesRead_of_isReserved h)
  have hoperator {op : Operator} {token : Token} {ts : List Token} (h : isOperator op token = true)
      (hs : AllSourcesRead read ts) : AllSourcesRead read (token :: ts) :=
    hs.cons (sourcesRead_of_isOperator h)
  have hkeyword {keyword : Keyword} {token : Token} {ts : List Token} (h : isKeyword keyword token = true)
      (hs : AllSourcesRead read ts) : AllSourcesRead read (token :: ts) :=
    hs.cons (sourcesRead_of_isKeyword h)
  -- From the right to the left: a phrase adds its tokens in front of what follows it.
  induction h with
  | noWord | simpleEnd | noBranch | noOtherwise | noItems | noPipe | noConnective | closed => exact hrest
  | word _ resolved _ ih => exact (ih hrest).cons (Token.sourcesRead_of_word resolved)
  | assignment _ head _ resolved _ ih =>
    refine (ih hrest).cons fun _ => ?_
    rw [Token.sourcesIn_assignment head]
    exact Word.allRead _ _ resolved
  | argument _ _ resolved _ ih => exact (ih hrest).cons (Token.sourcesRead_of_word resolved)
  | simpleCommand _ _ _ _ ih => exact ih hrest
  | arithmeticCommand _ resolved => exact hrest.cons (Token.sourcesRead_of_word resolved)
  | choice isIf _ _ isThen _ _ _ _ isFi ih₁ ih₂ ih₃ ih₄ =>
    have hbranches := ih₂ (ih₃ (ih₄ (hkeyword isFi hrest)))
    exact hreserved isIf (ih₁ (hkeyword isThen hbranches))
  | branch isElif _ _ isThen _ _ _ ih₁ ih₂ ih₃ =>
    exact hreserved isElif (ih₁ (hkeyword isThen (ih₂ (ih₃ hrest))))
  | otherwise isElse _ _ ih => exact hreserved isElse (ih hrest)
  | loop isLoop _ _ isDo _ _ isDone ih₁ ih₂ =>
    exact hreserved isLoop (ih₁ (hkeyword isDo (ih₂ (hkeyword isDone hrest))))
  | items isIn _ ih => exact (ih hrest).cons (sourcesRead_of_isWordText (by decide) isIn)
  | each isFor _ valid _ separated isDo _ _ isDone ih₁ ih₂ =>
    have hbody := hkeyword isDo (ih₂ (hkeyword isDone hrest))
    rw [← separated] at hbody
    exact hreserved isFor (hfor valid (ih₁ hbody.pastNewlines.pastSemicolon).pastNewlines)
  | braces isBrace _ _ isClose ih => exact hreserved isBrace (ih (hkeyword isClose hrest))
  | parens isParen _ _ isClose ih => exact hoperator isParen (ih (hoperator isClose hrest))
  | group _ ih | subshell _ ih | bracedBody _ ih | subshellBody _ ih | command _ _ ih => exact ih hrest
  | keywordFunction isFunction _ _ _ valid _ ih =>
    exact hreserved isFunction (hfunction valid (ih hrest).pastNewlines)
  | keywordFunctionParens isFunction _ isLeft isRight _ valid _ ih =>
    have hparens := hoperator isLeft (hoperator isRight (ih hrest).pastNewlines)
    exact hreserved isFunction (hfunction valid hparens)
  | namedFunction _ isLeft isRight _ valid _ ih =>
    exact hfunction valid (hoperator isLeft (hoperator isRight (ih hrest).pastNewlines))
  | pipe isPipe _ _ ih₁ ih₂ => exact hoperator isPipe (ih₁ (ih₂ hrest)).pastNewlines
  | pipeline _ _ _ ih₁ ih₂ | andOr _ _ ih₁ ih₂ => exact ih₁ (ih₂ hrest)
  | bang isBang _ ih => exact hreserved isBang (ih hrest)
  | connective isConnective _ _ ih₁ ih₂ =>
    exact (ih₁ (ih₂ hrest)).pastNewlines.cons (sourcesRead_of_connective? isConnective)
  | last _ _ _ ih => exact ih hrest
  | semicolon _ _ isSemicolon _ ih₁ ih₂ => exact ih₁ (hoperator isSemicolon (ih₂ hrest).pastNewlines)
  | newline _ _ isNewline _ ih₁ ih₂ =>
    exact ih₁ ((ih₂ hrest).pastNewlines.cons (sourcesRead_of_isNewline isNewline))
  | list _ ih => exact (ih hrest).pastNewlines

/-! ## 3. Texts in texts -/

/-- A text stands in another one, which starts at `origin`, at a place. -/
def StandsAt (origin : Place) (whole : List Char) (place : Place) (cs : List Char) : Prop :=
  ∃ before after, whole = before ++ (cs ++ after) ∧ place = origin.behind before

/-- **Places add up**: a place in a text that stands in another is a place in that one. -/
theorem StandsAt.trans {origin place place' : Place} {whole cs ds : List Char} (h : StandsAt origin whole place cs)
    (h' : StandsAt place cs place' ds) : StandsAt origin whole place' ds := by
  obtain ⟨before, after, rfl, rfl⟩ := h
  obtain ⟨before', after', rfl, rfl⟩ := h'
  refine ⟨before ++ before', after' ++ after, by simp, ?_⟩
  rw [← Place.advance_eq_behind, ← Place.advance_eq_behind, ← Place.advance_append, Place.advance_eq_behind]

section

variable {origin : Place} {text : List Char} {tokens : List Token} {token : Token}

/-- A token stands where its text does. -/
theorem tokenize_standsAt (h : tokenize text origin = .ok tokens) (hmem : token ∈ tokens) :
    StandsAt origin text token.place token.lexeme.span := by
  obtain ⟨pieces, rfl, rfl, -, hpieces⟩ := tokenize_layout h
  obtain ⟨⟨gap, token⟩, hpiece, rfl⟩ := List.mem_map.mp hmem
  obtain ⟨front, back, rfl⟩ := List.append_of_mem hpiece
  obtain ⟨-, -, -, hplace⟩ := hpieces front gap token back rfl
  refine ⟨written front ++ gap, written back, ?_, hplace⟩
  simp [written]

/-- A source stands in its token, which has characters before and after it. -/
theorem Token.Holds.standsAt {occurrences : List Occurrence} (h : token.Holds occurrences) {source : String × Place}
    (hs : source ∈ sourcesIn token.lexeme.parts) :
    StandsAt token.place token.lexeme.span source.2 source.1.toList ∧
      source.1.toList.length < token.lexeme.span.length := by
  obtain ⟨hstand, hsources⟩ := h
  rw [hsources] at hs
  obtain ⟨occurrence, ho, rfl⟩ := List.mem_map.mp hs
  obtain ⟨front, after, hfront, hspan⟩ := hstand.of_mem ho
  rw [List.nil_append] at hspan
  refine ⟨⟨occurrence.1, ')' :: after, hspan, Place.advance_eq_behind _ _⟩, ?_⟩
  rw [hspan, hfront]
  simp only [List.length_append, List.length_cons]
  omega

/-- No dollar sign, no sources: two parentheses around an expression are not one either. -/
theorem Token.Holds.quiet {occurrences : List Occurrence} (h : token.Holds occurrences)
    (htext : '$' ∉ token.lexeme.text.toList) : sourcesIn token.lexeme.parts = [] := by
  obtain ⟨hstand, hsources⟩ := h
  have hspan : '$' ∉ token.lexeme.span := by
    obtain ⟨lexeme, place⟩ := token
    cases lexeme with
    | arithmetic content parts => simpa [Lexeme.span, Lexeme.text] using htext
    | _ => exact htext
  rw [hsources, hstand.eq_nil hspan]
  rfl

/-- **The sources in the tokens of a script are scripts**, read from where they stand. -/
theorem parseFrom_sources {sequence : Sequence} (h : parseFrom origin text = .ok sequence) (htext : '\x60' ∉ text)
    (htokens : tokenize text origin = .ok tokens) (hmem : token ∈ tokens) {source : String × Place}
    (hs : source ∈ sourcesIn token.lexeme.parts) : ∃ body, parseFrom source.2 source.1.toList = .ok body := by
  obtain ⟨inside, stop, hinside, -, -, hspells⟩ := parseAt_spells h
  obtain rfl := Except.ok.inj (htokens.symm.trans hinside)
  obtain ⟨occurrences, hholds⟩ := tokenize_holds htokens htext token hmem
  rcases List.mem_append.mp hmem with hinside | hstop
  · obtain ⟨body, hbody⟩ := hspells.sourcesRead nofun token hinside hholds.quiet source hs
    -- The bound for the text is one for the source, which is shorter than its token.
    have hlength : source.1.toList.length < text.length := by
      obtain ⟨front, back, htext, -⟩ := tokenize_standsAt htokens hmem
      have hspan := congrArg List.length htext
      have hshorter := (hholds.standsAt hs).2
      simp only [List.length_append] at hspan
      omega
    exact ⟨body, parseAt_eq_parseFrom hlength ▸ hbody⟩
  · obtain rfl := List.mem_singleton.mp hstop
    cases hs

end

/-! ## 4. Tokens at any depth -/

/-- The tokens that are read when a text is parsed that starts at a place: those of the text, and those of the sources
in them, to any depth. -/
inductive LexedIn : Place → List Char → Token → Prop where
  | here {origin : Place} {text : List Char} {tokens : List Token} {token : Token}
      (tokens_of : tokenize text origin = .ok tokens) (mem : token ∈ tokens) : LexedIn origin text token
  | inside {origin : Place} {text : List Char} {tokens : List Token} {outer token : Token}
      {source : String × Place} (tokens_of : tokenize text origin = .ok tokens) (mem : outer ∈ tokens)
      (source_of : source ∈ sourcesIn outer.lexeme.parts) (within : LexedIn source.2 source.1.toList token) :
      LexedIn origin text token

/-- One token, with the scripts in it. -/
theorem LexedIn.standsAt {origin : Place} {text : List Char} {token : Token} (hl : LexedIn origin text token)
    {sequence : Sequence} (h : parseFrom origin text = .ok sequence) (htext : '\x60' ∉ text) :
    StandsAt origin text token.place token.lexeme.span ∧
      ∀ source ∈ sourcesIn token.lexeme.parts, ∃ body, parseFrom source.2 source.1.toList = .ok body := by
  induction hl generalizing sequence with
  | here tokens_of mem =>
    exact ⟨tokenize_standsAt tokens_of mem, fun source hs => parseFrom_sources h htext tokens_of mem hs⟩
  | @inside _ text _ outer _ source tokens_of mem source_of _ ih =>
    obtain ⟨body, hbody⟩ := parseFrom_sources h htext tokens_of mem source_of
    obtain ⟨occurrences, hholds⟩ := tokenize_holds tokens_of htext outer mem
    have hsource := (tokenize_standsAt tokens_of mem).trans (hholds.standsAt source_of).1
    have hquiet : '\x60' ∉ source.1.toList := by
      obtain ⟨before, after, rfl, -⟩ := hsource
      intro hmem
      exact htext (by simp [hmem])
    obtain ⟨hplace, hsources⟩ := ih hbody hquiet
    exact ⟨hsource.trans hplace, hsources⟩

/-- **Positions are absolute at every depth.** Each token that is read when a script is parsed has the line and the
column of its first character in the whole text, however deep the substitution is that it stands in. The sources in the
token are what the parser asks for when it gives the token's word its bodies, from these places, and each is
a script that is parsed from there. -/
theorem parse_positions {text : String} {script : Sequence} (h : parse text = .ok script)
    (htext : '\x60' ∉ text.toList) {token : Token} (hl : LexedIn ⟨1, 1⟩ text.toList token) :
    (∃ before after, text.toList = before ++ (token.lexeme.span ++ after) ∧
        token.place = Place.behind ⟨1, 1⟩ before) ∧
      (∀ source, IsAsked token.lexeme.parts source ↔ source ∈ sourcesIn token.lexeme.parts) ∧
      ∀ source ∈ sourcesIn token.lexeme.parts, ∃ body, parseFrom source.2 source.1.toList = .ok body :=
  let ⟨hplace, hsources⟩ := hl.standsAt h htext
  ⟨hplace, fun _ => isAsked_iff, hsources⟩

/-- A word on the second line with a substitution that goes on in the third, in an expression in an argument in double
quotes. -/
def nestedWord : String := "x\n \"$\x7by:-$((1+$(a\n b)))\x7d\""

/-- Its tokens, with the substitution where `a` stands. -/
def nestedWordTokens : List Token :=
  [⟨.word "x" [.literal "x"], ⟨1, 1⟩⟩, ⟨.newline, ⟨1, 2⟩⟩,
    ⟨.word "\"$\x7by:-$((1+$(a\n b)))\x7d\"" [.doubleQuoted [.conditional "y" ⟨true, .substitute⟩
      ⟨0, [.arithmetic ⟨2, [.literal "1+", .substitution "a\n b" ⟨2, 15⟩ none]⟩]⟩]], ⟨2, 2⟩⟩,
    ⟨.endOfInput, ⟨3, 8⟩⟩]

theorem tokenize_nestedWord : tokenize nestedWord.toList ⟨1, 1⟩ = .ok nestedWordTokens := by
  rw [tokenize, if_neg (by decide), tokensFrom_eq_tokensWithin (Nat.le_refl _)]
  cbv

theorem tokenize_nestedBody : tokenize "a\n b".toList ⟨2, 15⟩ =
    .ok [⟨.word "a" [.literal "a"], ⟨2, 15⟩⟩, ⟨.newline, ⟨2, 16⟩⟩, ⟨.word "b" [.literal "b"], ⟨3, 2⟩⟩,
      ⟨.endOfInput, ⟨3, 3⟩⟩] := by
  rw [tokenize, if_neg (by decide), tokensFrom_eq_tokensWithin (Nat.le_refl _)]
  cbv

/-- The last word, `b`, is the second character of the third line. -/
theorem nestedWord_positions :
    '\x60' ∉ nestedWord.toList ∧ ∃ script token, parse nestedWord = .ok script ∧
      LexedIn ⟨1, 1⟩ nestedWord.toList token ∧ token.lexeme.text = "b" ∧ token.place = ⟨3, 2⟩ ∧
      (∃ before after, nestedWord.toList = before ++ (token.lexeme.span ++ after) ∧
        token.place = Place.behind ⟨1, 1⟩ before) ∧
      (∀ source, IsAsked token.lexeme.parts source ↔ source ∈ sourcesIn token.lexeme.parts) ∧
      ∀ source ∈ sourcesIn token.lexeme.parts, ∃ body, parseFrom source.2 source.1.toList = .ok body := by
  have hquiet : '\x60' ∉ nestedWord.toList := by decide
  have hok : (parse nestedWord).isOk = true := by
    rw [parse, parseFrom_eq_parseWithin]
    cbv
  have houter : nestedWordTokens[2] ∈ nestedWordTokens := List.getElem_mem _
  have hsource : ("a\n b", ⟨2, 15⟩) ∈ sourcesIn nestedWordTokens[2].lexeme.parts := List.mem_singleton.mpr rfl
  have hlexed : LexedIn ⟨1, 1⟩ nestedWord.toList ⟨.word "b" [.literal "b"], ⟨3, 2⟩⟩ :=
    .inside tokenize_nestedWord houter hsource (.here tokenize_nestedBody (.tail _ (.tail _ (.head _))))
  cases h : parse nestedWord with
  | error e =>
    rw [h] at hok
    cases hok
  | ok script => exact ⟨hquiet, script, _, rfl, hlexed, rfl, rfl, parse_positions h hquiet hlexed⟩

end Shell
