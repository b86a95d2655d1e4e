/-
What a command substitution contains.

The end of `$(...)` is found by the scan for regions, before the script in it is read. The substitution contains the
script written in it if the scan passes over all of its text (`parse_substituting`). It does so if the text is quiet:
the tokens of a script open and close parentheses in pairs (`Spells.nests`), and the scan sees the parentheses that are
tokens.

Not every script is quiet. A quote in a comment is a quote to the scan (`parse_quoteInComment`), and so is one in a
substitution in double quotes.
-/
import Shell.Proofs.Script.Places
import Shell.Proofs.Token.Regions

set_option autoImplicit false

namespace Shell

open Shell.Parser

/-! ## 1. The parentheses of a script -/

section

variable {token : Token} {ts : List Token} {depth depth' : Nat}

/-- A token of a kind that no parenthesis is of. -/
theorem Nests.skip {p : Token → Bool} (ht : p token = true) (hopen : ∀ place, p ⟨.operator .leftParen, place⟩ = false)
    (hclose : ∀ place, p ⟨.operator .rightParen, place⟩ = false) (h : Nests depth ts depth') :
    Nests depth (token :: ts) depth' := by
  obtain ⟨lexeme, place⟩ := token
  refine .cons (.other ?_ ?_) h
  · rintro rfl
    exact Bool.false_ne_true ((hopen place).symm.trans ht)
  · rintro rfl
    exact Bool.false_ne_true ((hclose place).symm.trans ht)

/-- A word opens and closes nothing. -/
theorem Nests.skipWord (ht : isWord token = true) (h : Nests depth ts depth') : Nests depth (token :: ts) depth' :=
  h.skip ht (fun _ => rfl) fun _ => rfl

/-- Nor does a keyword. -/
theorem Nests.skipReserved {keyword : Keyword} (ht : isReserved keyword token = true) (h : Nests depth ts depth') :
    Nests depth (token :: ts) depth' :=
  h.skip ht (fun _ => rfl) fun _ => rfl

/-- Nor does a word that is read as one. -/
theorem Nests.skipKeyword {keyword : Keyword} (ht : isKeyword keyword token = true) (h : Nests depth ts depth') :
    Nests depth (token :: ts) depth' :=
  h.skip ht (fun _ => rfl) fun _ => rfl

/-- A parenthesis opens one level. -/
theorem Nests.opener (ht : isOperator .leftParen token = true) (h : Nests (depth + 1) ts depth') :
    Nests depth (token :: ts) depth' :=
  .cons (lexeme_of_isOperator ht ▸ .opened) h

/-- Another closes one. -/
theorem Nests.closer (ht : isOperator .rightParen token = true) (h : Nests depth ts depth') :
    Nests (depth + 1) (token :: ts) depth' :=
  .cons (lexeme_of_isOperator ht ▸ .closed) h

/-- Levels are counted from one text to the next. -/
theorem Nests.append {more : List Token} {depth₁ : Nat} (h : Nests depth ts depth₁) (hmore : Nests depth₁ more depth') :
    Nests depth (ts ++ more) depth' := by
  induction h with
  | nil => exact hmore
  | cons first _ ih => exact .cons first (ih hmore)

/-- Newlines do not count. -/
theorem Nests.pastNewlines (h : Nests depth (pastNewlines ts) depth') : Nests depth ts depth' :=
  of_pastNewlines (P := (Nests depth · depth')) (fun _ _ hn h =>
    h.skip (p := fun token => Lexeme.isNewline token.lexeme) hn (fun _ => rfl) fun _ => rfl) h

/-- Nor does a semicolon. -/
theorem Nests.pastSemicolon (h : Nests depth (pastSemicolon ts) depth') : Nests depth ts depth' :=
  of_pastSemicolon (P := (Nests depth · depth')) (fun _ _ hs h => h.skip hs (fun _ => rfl) fun _ => rfl) h

end

/-- **Phrases open and close parentheses in pairs.** -/
theorem Spells.nests {read : SourceReader} {starts : List Token → Command → Prop} {ts rest : List Token}
    {phrase : Phrase} (h : Spells read starts ts phrase rest) {depth depth' : Nat} (hrest : Nests depth rest depth') :
    Nests depth ts depth' := by
  -- A subshell and the parentheses of a function open and close one level each. All other tokens stay at their
  -- level.
  induction h generalizing depth with
  | noWord | simpleEnd | noBranch | noOtherwise | noItems | noPipe | noConnective | closed => exact hrest
  | word isWord _ _ ih | assignment isWord _ _ _ _ ih | argument isWord _ _ _ ih => exact (ih hrest).skipWord isWord
  | simpleCommand _ _ _ _ ih => exact ih hrest
  | arithmeticCommand isArithmetic => exact hrest.skip isArithmetic (fun _ => rfl) fun _ => rfl
  | choice isIf _ _ isThen _ _ _ _ isFi ih₁ ih₂ ih₃ ih₄ =>
    exact (ih₁ ((ih₂ (ih₃ (ih₄ (hrest.skipKeyword isFi)))).skipKeyword isThen)).skipReserved isIf
  | branch isElif _ _ isThen _ _ _ ih₁ ih₂ ih₃ =>
    exact (ih₁ ((ih₂ (ih₃ hrest)).skipKeyword isThen)).skipReserved isElif
  | otherwise isElse _ _ ih => exact (ih hrest).skipReserved isElse
  | loop isLoop _ _ isDo _ _ isDone ih₁ ih₂ =>
    exact (ih₁ ((ih₂ (hrest.skipKeyword isDone)).skipKeyword isDo)).skipReserved isLoop
  | items isIn _ ih => exact (ih hrest).skip isIn (fun _ => rfl) fun _ => rfl
  | each isFor isWord _ _ separated isDo _ _ isDone ih₁ ih₂ =>
    have hbody := (ih₂ (hrest.skipKeyword isDone)).skipKeyword isDo
    rw [← separated] at hbody
    exact ((ih₁ hbody.pastNewlines.pastSemicolon).pastNewlines.skipWord isWord).skipReserved isFor
  | braces isBrace _ _ isClose ih => exact (ih (hrest.skipKeyword isClose)).skipReserved isBrace
  | parens isParen _ _ isClose ih => exact (ih (hrest.closer isClose)).opener isParen
  | group _ ih | subshell _ ih | bracedBody _ ih | subshellBody _ ih | command _ _ ih => exact ih hrest
  | keywordFunction isFunction isWord _ _ _ _ ih =>
    exact ((ih hrest).pastNewlines.skipWord isWord).skipReserved isFunction
  | keywordFunctionParens isFunction isWord isLeft isRight _ _ _ ih =>
    exact ((((ih hrest).pastNewlines.closer isRight).opener isLeft).skipWord isWord).skipReserved isFunction
  | namedFunction isWord isLeft isRight _ _ _ ih =>
    exact (((ih hrest).pastNewlines.closer isRight).opener isLeft).skipWord isWord
  | pipe isPipe _ _ ih₁ ih₂ => exact (ih₁ (ih₂ hrest)).pastNewlines.skip isPipe (fun _ => rfl) fun _ => rfl
  | pipeline _ _ _ ih₁ ih₂ | andOr _ _ ih₁ ih₂ => exact ih₁ (ih₂ hrest)
  | bang isBang _ ih => exact (ih hrest).skipReserved isBang
  | connective isConnective _ _ ih₁ ih₂ =>
    have hconnective := Option.isSome_of_mem isConnective
    exact (ih₁ (ih₂ hrest)).pastNewlines.skip (p := Shell.isConnective) hconnective (fun _ => rfl) fun _ => rfl
  | last _ _ _ ih => exact ih hrest
  | semicolon _ _ isSemicolon _ ih₁ ih₂ =>
    exact ih₁ ((ih₂ hrest).pastNewlines.skip isSemicolon (fun _ => rfl) fun _ => rfl)
  | newline _ _ isNewline _ ih₁ ih₂ =>
    exact ih₁ ((ih₂ hrest).pastNewlines.skip (p := fun token => Lexeme.isNewline token.lexeme) isNewline
      (fun _ => rfl) fun _ => rfl)
  | list _ ih => exact (ih hrest).pastNewlines

/-- **A scan passes over a script** that is read as it is scanned, and leaves as many parentheses open as before. -/
theorem parseAt_passes {n : Nat} {origin : Place} {text : List Char} {sequence : Sequence}
    (h : parseAt n origin text = .ok sequence) (hq : isQuiet none true text = true) (depth : Nat) :
    Scan.Passes none depth text none depth := by
  cases n with
  | zero => cases h
  | succ n =>
    obtain ⟨inside, stop, htokens, -, -, hspells⟩ := parseAt_spells h
    obtain ⟨new, hnew, hpasses⟩ := tokensFrom_passes (tokenize_eq_ok_iff.mp htokens).2 hq
    obtain rfl : inside ++ [⟨.endOfInput, stop⟩] = new := hnew
    have hinside : Nests depth inside depth := hspells.nests .nil
    exact hpasses depth depth (hinside.append (.cons (.other nofun nofun) .nil))

/-! ## 2. The tokens of a substitution -/

section

variable {cs : List Char}

/-- A scan that passes over the text stops at the parenthesis behind it. -/
theorem balanced_of_passes (h : Scan.Passes none 0 cs none 0) (missing : ScriptError) (place : Place)
    (rest : List Char) :
    ∃ place', Scan.balanced '(' ')' missing .none 0 [] place (cs ++ ')' :: rest) = .ok ⟨cs, rest, place'⟩ := by
  have hunquoted : Scan.Quotation.none.sign = none := rfl
  obtain ⟨quotation, hsign, heq⟩ := h.balanced hunquoted missing [] place (')' :: rest)
  obtain rfl := Scan.Quotation.eq_none hsign
  refine ⟨(place.advance cs).after ')', ?_⟩
  rw [heq]
  unfold Scan.balanced
  simp [Scan.Quotation.next?]

/-- A command substitution of a text that is passed over. -/
theorem at?_substitution (h : Scan.Passes none 0 cs none 0) (hparen : cs.head? ≠ some '(') (place : Place) :
    ∃ stop, Opening.at? place '$' ('(' :: (cs ++ [')'])) =
      .ok (some ⟨.command, cs, place.advance ['$', '('], '$' :: '(' :: (cs ++ [')']), [], stop⟩) := by
  obtain ⟨stop, hbalanced⟩ :=
    balanced_of_passes h ⟨.unterminated .commandSubstitution, place⟩ (place.advance ['$', '(']) []
  have hhead : (cs ++ [')']).head? ≠ some '(' := by
    cases cs with
    | nil => decide
    | cons c cs => exact hparen
  exact ⟨stop, Opening.at?_eq_some_iff.mpr (.command hhead hbalanced)⟩

/-- The word that it is. -/
theorem readParts_substitution (h : Scan.Passes none 0 cs none 0) (hparen : cs.head? ≠ some '(') (place : Place) :
    ∃ stop, readParts isMetacharacter {} place ('$' :: '(' :: (cs ++ [')'])) =
      .ok ⟨[.substitution (String.ofList cs) (place.advance ['$', '(']) none], '$' :: '(' :: (cs ++ [')']), [],
        stop⟩ := by
  obtain ⟨stop, hopening⟩ := at?_substitution h hparen place
  refine ⟨stop, ?_⟩
  have htook : Reading.Took isMetacharacter {} place '$' ('(' :: (cs ++ [')'])) _ :=
    .expanded (by decide) (by decide) (fun _ => by decide)
      (Reading.expand_eq_ok_iff.mpr (.part hopening (readPart_eq_ok_iff.mpr (.command rfl))))
  rw [readParts_of_took htook, readParts_nil rfl]
  simp [Reading.finish, Reading.push, Reading.skip, Reading.flushed]

/-- The script `: $(...)`. -/
def substituting (cs : List Char) : List Char := ':' :: ' ' :: '$' :: '(' :: (cs ++ [')'])

/-- The name of its command. -/
def colonToken : Token := ⟨.word ":" [.literal ":"], ⟨1, 1⟩⟩

/-- Its argument. -/
def substitutionToken (cs : List Char) : Token :=
  ⟨.word (String.ofList ('$' :: '(' :: (cs ++ [')']))) [.substitution (String.ofList cs) ⟨1, 5⟩ none], ⟨1, 3⟩⟩

/-- A word of one character, with a blank after it. -/
theorem readParts_colon (cs : List Char) :
    readParts isMetacharacter {} ⟨1, 1⟩ (':' :: ' ' :: cs) = .ok ⟨[.literal ":"], [':'], ' ' :: cs, ⟨1, 2⟩⟩ := by
  have hfirst : Reading.Took isMetacharacter {} ⟨1, 1⟩ ':' (' ' :: cs)
      (⟨none, [], [':'], [':']⟩, ⟨1, 2⟩, ' ' :: cs) :=
    .expanded (by decide) (by decide) (fun _ => by decide) rfl
  rw [readParts_of_took hfirst, readParts_of_over rfl (by simp [isMetacharacter])]
  rfl

/-- The command has two tokens, and the second holds the text. -/
theorem tokenize_substituting (h : Scan.Passes none 0 cs none 0) (hparen : cs.head? ≠ some '(')
    (hsize : cs.length + 5 ≤ maxScriptSize) :
    ∃ stop, tokenize (substituting cs) ⟨1, 1⟩ =
      .ok ([colonToken, substitutionToken cs] ++ [⟨.endOfInput, stop⟩]) := by
  obtain ⟨stop, hword⟩ := readParts_substitution h hparen ⟨1, 3⟩
  have hsize' : (substituting cs).length ≤ maxScriptSize := by
    simp only [substituting, List.length_cons, List.length_append, List.length_nil]
    omega
  refine ⟨stop, tokenize_eq_ok_iff.mpr ⟨hsize', ?_⟩⟩
  calc tokensFrom {} ⟨1, 1⟩ (substituting cs)
    _ = tokensFrom ⟨[colonToken], false⟩ ⟨1, 2⟩ ((substituting cs).drop 1) :=
      tokensFrom_of_took (.word (by decide) (by decide) (fun h => absurd h.1 (by decide)) (readParts_colon _))
    _ = tokensFrom ⟨[colonToken], false⟩ ⟨1, 3⟩ ((substituting cs).drop 2) := tokensFrom_of_took (.blank (.inl rfl))
    _ = tokensFrom ⟨[substitutionToken cs, colonToken], false⟩ stop [] :=
      tokensFrom_of_took (.word (by decide) (by decide) (fun h => absurd h.1 (by decide)) hword)
    _ = _ := tokensFrom_end _ _

end

/-! ## 3. The script in a substitution -/

/-- The script of a command `:` with a command substitution for its only argument. -/
def ofSubstitution (source : String) (body : Sequence) : Sequence :=
  ofCommand (.simple 1 (some ⟨1, [.literal ":"]⟩) [⟨1, [.substitution source ⟨1, 5⟩ (some body)]⟩] [])

/-- The tokens spell the command with the script in it. -/
theorem substitution_spells {read : SourceReader} {cs : List Char} {body : Sequence}
    (hbody : read (String.ofList cs) ⟨1, 5⟩ = .ok body) :
    Spelled read [colonToken, substitutionToken cs]
      (.list [] (ofSubstitution (String.ofList cs) body)) [] := by
  have hend {p : Token → Bool} : Unless p [] := fun token hmem => by cases hmem
  have hname : colonToken.word.resolve read = .ok ⟨1, [.literal ":"]⟩ := rfl
  have hargument : (substitutionToken cs).word.resolve read =
      .ok ⟨1, [.substitution (String.ofList cs) ⟨1, 5⟩ (some body)]⟩ := by
    unfold Word.resolve resolveParts WordPart.resolve
    simp only [Token.word, substitutionToken, Lexeme.parts, hbody]
    rfl
  have hwords : Spelled read [colonToken, substitutionToken cs]
      (.simple false [] [⟨1, [.literal ":"]⟩, ⟨1, [.substitution (String.ofList cs) ⟨1, 5⟩ (some body)]⟩]) [] :=
    .argument rfl (fun _ => by decide) hname (.argument rfl (fun h => by cases h) hargument (.simpleEnd hend))
  have hcommand : Spelled read [colonToken, substitutionToken cs] (.command _) [] :=
    .command trivial (.simpleCommand rfl (fun token hmem => by cases hmem; rfl) hwords hend)
  have hpipeline : Spelled read [colonToken, substitutionToken cs] (.pipeline ⟨false, _, []⟩) [] :=
    .pipeline (fun token hmem => by cases hmem; rfl) hcommand (.noPipe hend)
  exact .list (.last ⟨colonToken, rfl, rfl⟩ (.andOr hpipeline (.noConnective hend)) hend)

/-- Any bound above the length of a text leads to the script in it. -/
theorem parseAt_eq_parseFrom {n : Nat} {origin : Place} {text : List Char} (hn : text.length < n) :
    parseAt n origin text = parseFrom origin text :=
  (parseAt_agrees (Nat.lt_succ_self _) hn).eq

/-- **A substitution contains the script written in it**, at the place where it stands, if the scan for its end passes
over the text. -/
theorem parse_substituting {text : String} {script : Sequence} (h : parse text = .ok script)
    (hpasses : Scan.Passes none 0 text.toList none 0) (hparen : text.toList.head? ≠ some '(')
    (hsize : text.length + 5 ≤ maxScriptSize) :
    parse (": $(" ++ text ++ ")") = .ok (ofSubstitution text (script.move (.shift 0 4))) := by
  rw [← String.length_toList] at hsize
  obtain ⟨stop, htokens⟩ := tokenize_substituting hpasses hparen hsize
  have hlonger : text.toList.length < (substituting text.toList).length := by
    simp only [substituting, List.length_cons, List.length_append]
    omega
  have hbody : parseAt (substituting text.toList).length ⟨1, 5⟩ text.toList =
      .ok (script.move (.shift 0 4)) := by
    rw [parse, ← parseAt_eq_parseFrom hlonger] at h
    exact parseAt_move h (.shift 0 4 (Nat.le_refl 1))
  let read : SourceReader := fun source place => parseAt (substituting text.toList).length place source.toList
  have hread : read (String.ofList text.toList) ⟨1, 5⟩ = .ok (script.move (.shift 0 4)) := by
    rwa [String.ofList_toList]
  have hspells := substitution_spells hread
  have htext : (": $(" ++ text ++ ")").toList = substituting text.toList := by
    simp [substituting]
  rw [String.ofList_toList] at hspells
  rw [parse, parseFrom, htext]
  unfold parseAt
  rw [htokens]
  exact hspells.parseTokens (Nat.lt_of_lt_of_le (Nat.lt_succ_self 2) (by decide)) stop

/-- **A substitution contains exactly the script written in it**, up to the places, if the text is quiet. It may hold
quotes, functions, subshells, arithmetic and substitutions; but no comments and backquotes, and no quotes and
parentheses in what a dollar sign opens in double quotes or with a brace. -/
theorem parse_quietSubstitution {text : String} {script : Sequence} (h : parse text = .ok script)
    (hquiet : isQuiet none true text.toList = true) (hparen : text.toList.head? ≠ some '(')
    (hsize : text.length + 5 ≤ maxScriptSize) :
    ∃ body, parse (": $(" ++ text ++ ")") = .ok (ofSubstitution text body) ∧ body.unplaced = script.unplaced :=
  ⟨script.move (.shift 0 4), parse_substituting h (parseAt_passes h hquiet 0) hparen hsize,
    script.unplaced_move (.shift 0 4)⟩

set_option maxRecDepth 4000 in
/-- A script with parentheses of all kinds. -/
theorem parse_functionSubstitution :
    ∃ script, parse "f() (a ')' \\( $((2*(3))) \"$(b)\")\n" = .ok script ∧
      ∃ body, parse (": $(" ++ "f() (a ')' \\( $((2*(3))) \"$(b)\")\n" ++ ")") =
        .ok (ofSubstitution "f() (a ')' \\( $((2*(3))) \"$(b)\")\n" body) ∧ body.unplaced = script.unplaced := by
  cases h : parse "f() (a ')' \\( $((2*(3))) \"$(b)\")\n" with
  | error e =>
    have hok : (parse "f() (a ')' \\( $((2*(3))) \"$(b)\")\n").isOk = true := by
      rw [parse, parseFrom_eq_parseWithin]
      cbv
    rw [h] at hok
    cases hok
  | ok script => exact ⟨script, rfl, parse_quietSubstitution h (by decide +kernel) (by decide) (by decide)⟩

/-- **A quote in a comment** is a quote to the scan that looks for the end of a substitution, and does not end. -/
theorem parse_quoteInComment :
    (parse "echo a # it's\n").isOk = true ∧ "echo a # it's\n".toList.head? ≠ some '(' ∧
      EndsLine "echo a # it's\n".toList ∧
      parse (": $(" ++ "echo a # it's\n" ++ ")") = .error ⟨.unterminatedSingleQuote, ⟨1, 16⟩⟩ := by
  refine ⟨?_, by decide, ⟨by decide, by decide⟩, ?_⟩
  · rw [parse, parseFrom_eq_parseWithin]
    cbv
  · rw [parse, parseFrom_eq_parseWithin]
    cbv

end Shell
