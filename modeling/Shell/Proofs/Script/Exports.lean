/-
The listing of exported variables, read as a script.

`export` lists a variable on a line of its own, as a command that exports it, with its value in double
quotes. The quote and the backslash are escaped there, the dollar sign and the backquote are not. So a
value comes back as it is if it has no backquote and no dollar sign that opens an expansion (`isInert`), and
otherwise the word of its line is not a text at all.

`tokensFrom_exports_iff` says this of the tokens of a whole listing. From such tokens the parser makes one
command for each variable and nothing else (`parse_exportListing`).
-/
import Shell.Proofs.Script.Listing
import Shell.Proofs.Token.DoubleQuotes

set_option autoImplicit false

namespace Shell

open Shell.Text Shell.Text.Quoted Shell.Parser

/-! ## 1. Values -/

/-- Whether a value has nothing in it that is still active between double quotes once quotes and backslashes
are escaped. -/
def isInert : List Char → Bool
  | [] => true
  | c :: cs => c != '\x60' && !(c == '$' && cs.head?.any opensExpansion) && isInert cs

/-- Escaping does not change what a dollar sign before a value opens. -/
theorem any_head?_flatMap_exportChar (v rest : List Char) (hrest : rest.head?.any opensExpansion = false) :
    (v.flatMap exportChar ++ rest).head?.any opensExpansion = v.head?.any opensExpansion := by
  cases v with
  | nil => exact hrest
  | cons c v =>
    have hslash : opensExpansion '\\' = false := by decide
    have hquote : opensExpansion '"' = false := by decide
    rw [List.flatMap_cons]
    unfold exportChar
    split
    · next h =>
      show opensExpansion '\\' = opensExpansion c
      rcases h with rfl | rfl
      · rfl
      · rw [hslash, hquote]
    · rfl

/-- The parts of `isInert`, of the first character. -/
theorem isInert_cons {c : Char} {v : List Char} :
    isInert (c :: v) = true ↔ c ≠ '\x60' ∧ (c = '$' → v.head?.any opensExpansion = false) ∧ isInert v = true := by
  simp only [isInert, Bool.and_eq_true, bne_iff_ne, Bool.not_eq_true', Bool.and_eq_false_iff,
    beq_eq_false_iff_ne, and_assoc]
  tauto

/-- In double quotes the escapes are read back, and nothing else is an escape. -/
theorem inside_flatMap_exportChar {v : List Char} (h : isInert v = true) :
    Inside (v.flatMap exportChar) v := by
  induction v with
  | nil => exact .nil
  | cons c v ih =>
    obtain ⟨hback, hdollar, hv⟩ := isInert_cons.mp h
    rw [List.flatMap_cons]
    by_cases hescape : c = '\\' ∨ c = '"'
    · have hc : isDoubleQuoteEscape c = true := by
        rcases hescape with rfl | rfl <;> rfl
      rw [exportChar, if_pos hescape]
      exact .escaped hc (ih hv)
    · rw [exportChar, if_neg hescape]
      by_cases hd : c = '$'
      · subst hd
        -- What follows the dollar sign is escaped or not, but it opens an expansion in neither case.
        have hhead := any_head?_flatMap_exportChar v [] rfl
        rw [List.append_nil, hdollar rfl] at hhead
        have hnone : ∀ d ∈ (v.flatMap exportChar).head?, opensExpansion d = false := by
          intro d hd
          rw [Option.mem_def.mp hd] at hhead
          exact hhead
        exact .dollar hnone (ih hv)
      · obtain ⟨hslash, hquote⟩ := not_or.mp hescape
        refine .plain ?_ (ih hv)
        simp [isDoubleQuoteEscape, hslash, hquote, hd, hback]

namespace Reading

variable {r : Reading}

/-- A value that is not inert leaves an expansion in its word. The induction goes to the first character
that is active; those before it are read as themselves. -/
theorem literalTexts?_of_not_inert {v : List Char} (h : isInert v = false) (ho : r.outer ≠ none)
    {stop : Char → Bool} {place : Place} {rest : List Char} {piece : Piece}
    (hr : readParts stop r place (v.flatMap exportChar ++ '"' :: rest) = .ok piece) :
    WordPart.literalTexts? piece.parts = none := by
  induction v generalizing r place with
  | nil => cases h
  | cons c v ih =>
    rw [List.flatMap_cons, List.append_assoc] at hr
    have hhead := any_head?_flatMap_exportChar v ('"' :: rest) rfl
    -- The induction stops at the first character that is expanded, and before it everything is read as it was
    -- written.
    generalize hmore : v.flatMap exportChar ++ '"' :: rest = more at hr ih hhead
    by_cases hescape : c = '\\' ∨ c = '"'
    · have hc : isDoubleQuoteEscape c = true := by
        rcases hescape with rfl | rfl <;> rfl
      have hv : isInert v = false := by
        rcases hescape with rfl | rfl <;> simpa [isInert] using h
      rw [exportChar, if_pos hescape, List.cons_append, List.singleton_append,
        readParts_of_took_plain ['\\', c] (.escapedInside ho (ne_newline_of_isDoubleQuoteEscape hc) hc)] at hr
      exact ih hv (r := (r.plains [c]).skip _) ho hr
    rw [exportChar, if_neg hescape, List.singleton_append] at hr
    by_cases hback : c = '\x60'
    · exact literalTexts?_of_expansion ho (.inl hback) hr
    by_cases hdollar : c = '$'
    · subst hdollar
      cases more with
      | nil => exact absurd hmore (by simp)
      | cons d ds =>
        by_cases hopens : opensExpansion d = true
        · exact literalTexts?_of_expansion ho (.inr ⟨rfl, d, ds, rfl, hopens⟩) hr
        · have hopens := Bool.eq_false_iff.mpr hopens
          have hv : isInert v = false := by
            have hnone : v.head?.any opensExpansion = false := hhead.symm.trans hopens
            simpa [isInert, hnone] using h
          rw [readParts_of_took_plain ['$'] (took_quiet_dollar hopens ho place ds)] at hr
          exact ih hv (r := (r.plains ['$']).skip _) ho hr
    · obtain ⟨hslash, hquote⟩ := not_or.mp hescape
      have hc : isDoubleQuoteEscape c = false := by
        simp [isDoubleQuoteEscape, hslash, hquote, hdollar, hback]
      have hv : isInert v = false := by
        simpa [isInert, hback, hdollar] using h
      rw [readParts_of_took_plain [c] (took_inside hc ho place more)] at hr
      exact ih hv (r := (r.plains [c]).skip _) ho hr

end Reading

/-! ## 2. Lines -/

/-- The word that exports a variable. -/
def exportedWord (entry : String × String) : List Char :=
  entry.1.toList ++ '=' :: exportValue entry.2.toList

/-- The name of the command that exports. -/
def exportName : List Char := ['e', 'x', 'p', 'o', 'r', 't']

/-- An exported variable on its line. -/
def exportedLine (entry : String × String) : List Char :=
  exportName ++ ' ' :: exportedWord entry ++ ['\n']

/-- A line of the listing, as characters. -/
theorem exportLine_toList (name value : String) :
    (Variables.exportLine name value ++ "\n").toList = exportedLine (name, value) := by
  have hcommand : "export " = String.ofList (exportName ++ [' ']) := by decide
  have hsign : "=" = String.ofList ['='] := by decide
  have hend : "\n" = String.ofList ['\n'] := by decide
  unfold Variables.exportLine exportedLine exportedWord
  rw [hcommand, hsign, hend]
  simp only [String.toList_append, String.toList_ofList, List.append_assoc, List.cons_append,
    List.nil_append]

/-- The listing is its lines, one after the other. -/
theorem exportListing_toList (env : Environment) :
    (Variables.exportListing env).toList = env.exportedVariables.flatMap exportedLine := by
  unfold Variables.exportListing unlines
  induction env.exportedVariables with
  | nil => rfl
  | cons entry entries ih =>
    rw [List.map_cons, List.map_cons, String.join_cons, String.toList_append, ih, List.flatMap_cons]
    exact congrArg (· ++ _) (exportLine_toList entry.1 entry.2)

section

variable {name : String} (hname : Name.isIdentifier name.toList = true) (value : String) (place : Place)
  (behind : List Char)

include hname

/-- The word of an inert value is the name, a sign and the value. -/
theorem exists_readParts_exportedWord (hinert : isInert value.toList = true) :
    ∃ piece, readParts isMetacharacter {} place (exportedWord (name, value) ++ '\n' :: behind) = .ok piece ∧
      piece.rest = '\n' :: behind ∧ literal? piece.parts = some (name.toList ++ '=' :: value.toList) := by
  have hplain : ∀ c ∈ name.toList ++ ['='], isMetacharacter c = false ∧ isGuard c = false :=
    fun c hc => plain_of_isBare (isBare_of_mem_head hname hc)
  obtain ⟨r₁, hhead⟩ := Reading.exists_reads_plain hplain (r := {}) rfl
  have hvalue := Reading.reads_doubleQuoted hhead.outside (inside_flatMap_exportChar hinert)
  have hread := hhead.trans hvalue
  have hword : exportedWord (name, value) =
      name.toList ++ ['='] ++ ('"' :: value.toList.flatMap exportChar ++ ['"']) := by
    simp [exportedWord, exportValue]
  rw [hword, hread.readParts rfl]
  refine ⟨_, rfl, rfl, ?_⟩
  have hliteral := hread.literal [] rfl
  rw [List.append_assoc, List.singleton_append] at hliteral
  exact hliteral

/-- The word of any other value is no text. -/
theorem literalTexts?_exportedWord (hinert : isInert value.toList = false) {piece : Piece}
    (hr : readParts isMetacharacter {} place (exportedWord (name, value) ++ '\n' :: behind) = .ok piece) :
    WordPart.literalTexts? piece.parts = none := by
  have hplain : ∀ c ∈ name.toList ++ ['='], isMetacharacter c = false ∧ isGuard c = false :=
    fun c hc => plain_of_isBare (isBare_of_mem_head hname hc)
  obtain ⟨r₁, hhead⟩ := Reading.exists_reads_plain hplain (r := {}) rfl
  have hword : exportedWord (name, value) ++ '\n' :: behind =
      name.toList ++ ['='] ++ ('"' :: (value.toList.flatMap exportChar ++ '"' :: '\n' :: behind)) := by
    simp [exportedWord, exportValue]
  rw [hword, hhead.goesOn, readParts_of_took (.entered hhead.outside rfl)] at hr
  exact Reading.literalTexts?_of_not_inert hinert (Option.some_ne_none _) hr

end

/-! ## 3. Tokens -/

/-- The tokens of a line: the word `export`, a word that says what is exported, and a newline. -/
def exportedTokens (start place stop : Place) (text : String) (parts : List WordPart) : List Token :=
  [⟨.word "export" [.literal "export"], start⟩, ⟨.word text parts, place⟩, ⟨.newline, stop⟩]

/-- The tokens of a listing of exported variables, of which every word is a text: a name, a sign, and the
value of the variable. -/
inductive Exports : List (String × String) → List Token → Prop where
  | nil : Exports [] []
  | cons {name value : String} {entries : List (String × String)} {start place stop : Place} {text : String}
      {parts : List WordPart} {tokens : List Token}
      (argument : literal? parts = some (name.toList ++ '=' :: value.toList)) (more : Exports entries tokens) :
      Exports ((name, value) :: entries) (exportedTokens start place stop text parts ++ tokens)

/-- There are three tokens to a line. -/
theorem Exports.length {entries : List (String × String)} {tokens : List Token} (h : Exports entries tokens) :
    tokens.length = 3 * entries.length := by
  induction h with
  | nil => rfl
  | cons argument more ih =>
    rw [List.length_append, List.length_cons, ih, exportedTokens, List.length_cons, List.length_cons,
      List.length_singleton]
    omega

/-- The word `export` and the blank behind it. -/
theorem tokensFrom_exportWord {ts : Tokens} (hf : ts.isAfterFunction = false) (place : Place) (cs : List Char) :
    tokensFrom ts place (exportName ++ ' ' :: cs) =
      tokensFrom (ts.push (.word "export" [.literal "export"]) place false)
        (place.advance (exportName ++ [' '])) cs := by
  have hplain : ∀ c ∈ exportName, isMetacharacter c = false ∧ isGuard c = false := by
    simp [exportName, isMetacharacter, isGuard]
  have hread := (Reading.reads_plains (r := {}) rfl hplain).readParts (c := ' ') rfl place cs
  have hbegins : BeginsWord (exportName ++ ' ' :: cs) := ⟨'e', _, rfl, rfl, by decide, by simp⟩
  have hpush (rest : List Char) (stop : Place) :
      ts.pushWord place (((({} : Reading).plains exportName).skip exportName).finish rest stop) =
        ts.push (.word "export" [.literal "export"]) place false := by
    unfold Tokens.pushWord
    rw [hf]
    cases ts.commandStart <;> rfl
  rw [tokensFrom_word hbegins, hread]
  show tokensFrom (ts.pushWord place _) _ (' ' :: cs) = _
  rw [hpush, tokensFrom_of_took (.blank (.inl rfl))]
  rfl

section

variable {ts : Tokens} (hf : ts.isAfterFunction = false) {name : String}
  (hname : Name.isIdentifier name.toList = true) (value : String) (place : Place) (behind : List Char)

include hf hname

/-- Up to the word that says what is exported, a line is read as it is written. -/
theorem tokensFrom_exportedLine :
    tokensFrom ts place (exportedLine (name, value) ++ behind) =
      match readParts isMetacharacter {} (place.advance (exportName ++ [' ']))
        (exportedWord (name, value) ++ '\n' :: behind) with
      | .error e => .error e
      | .ok piece =>
        tokensFrom ((ts.push (.word "export" [.literal "export"]) place false).push
          (.word (String.ofList piece.text) piece.parts) (place.advance (exportName ++ [' '])) false)
          piece.place piece.rest := by
  have hline : exportedLine (name, value) ++ behind =
      exportName ++ ' ' :: (exportedWord (name, value) ++ '\n' :: behind) := by
    simp [exportedLine]
  have hbegins : BeginsWord (exportedWord (name, value) ++ '\n' :: behind) := by
    rw [exportedWord, List.append_assoc]
    exact beginsWord_of_isIdentifier hname _
  rw [hline, tokensFrom_exportWord hf, tokensFrom_word hbegins]
  cases readParts isMetacharacter {} (place.advance (exportName ++ [' '])) _ with
  | error e => rfl
  | ok piece =>
    show tokensFrom (Tokens.pushWord _ _ piece) _ _ = _
    rw [Tokens.pushWord_argument rfl rfl]

/-- The tokens of a line with an inert value. -/
theorem exists_tokensFrom_exportedLine (hinert : isInert value.toList = true) :
    ∃ start stop text parts place', literal? parts = some (name.toList ++ '=' :: value.toList) ∧
      tokensFrom ts place (exportedLine (name, value) ++ behind) =
        tokensFrom ⟨(exportedTokens place start stop text parts).reverse ++ ts.done, true⟩ place' behind := by
  obtain ⟨piece, hpiece, hrest, hliteral⟩ :=
    exists_readParts_exportedWord hname value (place.advance (exportName ++ [' '])) behind hinert
  refine ⟨place.advance (exportName ++ [' ']), piece.place, String.ofList piece.text, piece.parts,
    piece.place.after '\n', hliteral, ?_⟩
  rw [tokensFrom_exportedLine hf hname]
  simp only [hpiece, hrest]
  rw [tokensFrom_of_took .newline]
  rfl

/-- The tokens of a line with any other value. -/
theorem tokens_of_exportedLine (hinert : isInert value.toList = false) {tokens : List Token}
    (h : tokensFrom ts place (exportedLine (name, value) ++ behind) = .ok tokens) :
    ∃ command argument more, tokens = ts.done.reverse ++ command :: argument :: more ∧
      literal? argument.lexeme.parts = none := by
  rw [tokensFrom_exportedLine hf hname] at h
  split at h
  · cases h
  · next piece hpiece =>
    obtain ⟨pieces, htokens, -⟩ := tokensFrom_laidOut h
    refine ⟨⟨.word "export" [.literal "export"], place⟩,
      ⟨.word (String.ofList piece.text) piece.parts, place.advance (exportName ++ [' '])⟩,
      pieces.map Prod.snd, ?_, ?_⟩
    · rw [htokens]
      simp [Tokens.push]
    · show literal? piece.parts = none
      unfold literal?
      rw [literalTexts?_exportedWord hname value _ behind hinert hpiece]
      rfl

/-- The value on a line is inert if the line is read as it is meant. -/
theorem Exports.isInert_head {entries : List (String × String)} {tokens : List Token} {stop : Place}
    (h : Exports ((name, value) :: entries) tokens)
    (htokens : tokensFrom ts place (exportedLine (name, value) ++ behind) =
      .ok (ts.done.reverse ++ tokens ++ [⟨.endOfInput, stop⟩])) : isInert value.toList = true := by
  by_contra hinert
  obtain ⟨command, argument, more, heq, hnone⟩ :=
    tokens_of_exportedLine hf hname value place behind (Bool.eq_false_iff.mpr hinert) htokens
  cases h with
  | cons hliteral _ =>
    rw [List.append_assoc] at heq
    obtain ⟨-, hrest⟩ := List.cons.inj (List.append_cancel_left heq)
    obtain ⟨rfl, -⟩ := List.cons.inj hrest
    cases hliteral.symm.trans hnone

end

/-- **A listing is read back as it is meant exactly if all values are inert.** -/
theorem tokensFrom_exports_iff {entries : List (String × String)}
    (hnames : ∀ entry ∈ entries, Name.isIdentifier entry.1.toList = true) {ts : Tokens}
    (hf : ts.isAfterFunction = false) (place : Place) :
    (∃ tokens stop, Exports entries tokens ∧ tokensFrom ts place (entries.flatMap exportedLine) =
        .ok (ts.done.reverse ++ tokens ++ [⟨.endOfInput, stop⟩])) ↔
      ∀ entry ∈ entries, isInert entry.2.toList = true := by
  induction entries generalizing ts place with
  | nil =>
    refine ⟨fun _ => nofun, fun _ => ⟨[], place, .nil, ?_⟩⟩
    rw [List.flatMap_nil, tokensFrom]
    simp [Tokens.push]
  | cons entry entries ih =>
    obtain ⟨name, value⟩ := entry
    have hname : Name.isIdentifier name.toList = true := hnames (name, value) List.mem_cons_self
    rw [List.flatMap_cons, List.forall_mem_cons]
    by_cases hinert : isInert value.toList = true
    · obtain ⟨start, stop', text, parts, place', hliteral, hgo⟩ :=
        exists_tokensFrom_exportedLine hf hname value place (entries.flatMap exportedLine) hinert
      let read : Tokens := ⟨(exportedTokens place start stop' text parts).reverse ++ ts.done, true⟩
      have hdone : read.done.reverse = ts.done.reverse ++ exportedTokens place start stop' text parts := by
        simp [read]
      have hafter := @ih (fun entry hentry => hnames entry (List.mem_cons_of_mem _ hentry)) read rfl place'
      rw [hdone] at hafter
      rw [hgo]
      constructor
      · rintro ⟨tokens, stop, hexports, htokens⟩
        refine ⟨hinert, hafter.mp ?_⟩
        cases hexports with
        | @cons _ _ _ _ _ _ _ _ tokens argument more =>
          refine ⟨tokens, stop, more, htokens.trans ?_⟩
          -- The tokens of the line are those that have been read.
          obtain ⟨pieces, hpieces, -⟩ := tokensFrom_laidOut htokens
          rw [hdone, List.append_assoc, List.append_assoc, List.append_assoc] at hpieces
          obtain ⟨hline, -⟩ := List.append_inj (List.append_cancel_left hpieces) rfl
          rw [hline]
          simp only [List.append_assoc]
      · rintro ⟨-, hall⟩
        obtain ⟨tokens, stop, hexports, htokens⟩ := hafter.mpr hall
        refine ⟨exportedTokens place start stop' text parts ++ tokens, stop, .cons hliteral hexports, ?_⟩
        rw [htokens, List.append_assoc ts.done.reverse]
    · refine ⟨?_, fun hall => absurd hall.1 hinert⟩
      rintro ⟨tokens, stop, hexports, htokens⟩
      exact absurd (hexports.isInert_head hf hname value place _ htokens) hinert

/-- The same of a whole script. -/
theorem tokenize_exportListing_iff {env : Environment}
    (hnames : ∀ entry ∈ env.exportedVariables, Name.isIdentifier entry.1.toList = true) :
    (∃ tokens stop, Exports env.exportedVariables tokens ∧
        tokenize (Variables.exportListing env).toList ⟨1, 1⟩ = .ok (tokens ++ [⟨.endOfInput, stop⟩])) ↔
      (∀ entry ∈ env.exportedVariables, isInert entry.2.toList = true) ∧
        (Variables.exportListing env).toList.length ≤ maxScriptSize := by
  have hread := @tokensFrom_exports_iff _ hnames {} rfl ⟨1, 1⟩
  rw [← exportListing_toList] at hread
  simp only [tokenize_eq_ok_iff, ← hread]
  constructor
  · rintro ⟨tokens, stop, hexports, hsize, htokens⟩
    exact ⟨⟨tokens, stop, hexports, htokens⟩, hsize⟩
  · rintro ⟨⟨tokens, stop, hexports, htokens⟩, hsize⟩
    exact ⟨tokens, stop, hexports, hsize, htokens⟩

/-! ## 4. Statements -/

/-- A command that exports a name with a text, without expansions and with nothing around it. -/
def AndOrList.Exports (name value : String) (statement : AndOrList) : Prop :=
  ∃ line command argument,
    statement = ⟨⟨false, .simple line (some command) [argument] [], []⟩, []⟩ ∧
      literal? command.parts = some exportName ∧ command.parts ≠ [] ∧
      literal? argument.parts = some (name.toList ++ '=' :: value.toList) ∧ argument.parts ≠ []

/-- A word with some text has a part. -/
theorem parts_ne_nil_of_literal? {parts : List WordPart} {cs : List Char} (h : literal? parts = some cs)
    (hne : cs ≠ []) : parts ≠ [] := by
  rintro rfl
  exact hne (Option.some.inj h).symm

/-- The tokens of a line are a statement. -/
theorem spells_exportedTokens {name value : String} {parts : List WordPart}
    (h : literal? parts = some (name.toList ++ '=' :: value.toList)) (read : SourceReader)
    (start place stop : Place) (text : String) (tokens : List Token) :
    ∃ statement : AndOrList, statement.Exports name value ∧
      Spelled read (exportedTokens start place stop text parts ++ tokens)
        (.andOr statement) (⟨.newline, stop⟩ :: tokens) := by
  have hcommand : literal? [.literal "export"] = some exportName :=
    literal?_singleton rfl (by decide)
  have hstop {p : Token → Bool} (hp : ∀ place, p ⟨.newline, place⟩ = false) :
      Unless p (⟨.newline, stop⟩ :: tokens) := unless_of_isNewline rfl hp tokens
  have hunless {p : Token → Bool} {token : Token} {more : List Token} (hp : p token = false) :
      Unless p (token :: more) := by
    intro first hfirst
    obtain rfl := Option.some.inj hfirst
    exact hp
  have hplain : Token.assignment? ⟨.word "export" [.literal "export"], start⟩ = none := by
    have hhead : assignmentHead? ['e', 'x', 'p', 'o', 'r', 't'] = none := by decide
    simp [Token.assignment?, Lexeme.parts, hhead]
  refine ⟨_, ⟨start.line, ⟨start.line, [.literal "export"]⟩, ⟨place.line, parts⟩, rfl, hcommand,
    List.cons_ne_nil _ _, h, parts_ne_nil_of_literal? h (by simp)⟩, ?_⟩
  -- From the right to the left: nothing comes behind the argument, and the name of the command comes first.
  have hend : Spelled read (⟨.newline, stop⟩ :: tokens) (.simple true [] [])
      (⟨.newline, stop⟩ :: tokens) :=
    .simpleEnd (hstop (p := Parser.isWord) fun _ => rfl)
  have hargument : Spelled read (⟨.word text parts, place⟩ :: ⟨.newline, stop⟩ :: tokens)
      (.simple true [] [⟨place.line, parts⟩]) (⟨.newline, stop⟩ :: tokens) :=
    .argument rfl (fun h => absurd h (by decide)) (Word.resolve_of_literal? h) hend
  have hwords : Spelled read (exportedTokens start place stop text parts ++ tokens)
      (.simple false [] [⟨start.line, [.literal "export"]⟩, ⟨place.line, parts⟩])
      (⟨.newline, stop⟩ :: tokens) :=
    .argument rfl (fun _ => hplain) (Word.resolve_of_literal? hcommand) hargument
  have hsimple := Spells.simpleCommand rfl (hunless rfl) hwords (hstop fun _ => rfl)
  exact .andOr (.pipeline (hunless rfl) (.command trivial hsimple) (.noPipe (hstop fun _ => rfl)))
    (.noConnective (hstop fun _ => rfl))

/-- A listing starts with no newline. -/
theorem Exports.pastNewlines {entries : List (String × String)} {tokens : List Token}
    (h : Exports entries tokens) : pastNewlines tokens = tokens := by
  cases h <;> rfl

/-- The tokens of a listing are its statements. -/
theorem Exports.spells {entries : List (String × String)} {tokens : List Token} (h : Exports entries tokens)
    (read : SourceReader) :
    ∃ statements, List.Forall₂ (fun entry statement => AndOrList.Exports entry.1 entry.2 statement)
        entries statements ∧
      Spelled read tokens (.statements [] statements) [] := by
  induction h with
  | nil => exact ⟨[], .nil, .closed nofun⟩
  | @cons name value entries start place stop text parts tokens argument more ih =>
    obtain ⟨statements, hexport, hspells⟩ := ih
    obtain ⟨statement, hfirst, hstatement⟩ := spells_exportedTokens argument read start place stop text tokens
    refine ⟨statement :: statements, .cons hfirst hexport, .newline ⟨_, rfl, rfl⟩ hstatement rfl ?_⟩
    rw [more.pastNewlines]
    exact hspells

/-- **What the parser makes of a listing of inert values**: a command for each variable and nothing else, if the
listing is not too long. -/
theorem parse_exportListing {env : Environment}
    (hnames : ∀ entry ∈ env.exportedVariables, Name.isIdentifier entry.1.toList = true)
    (hinert : ∀ entry ∈ env.exportedVariables, isInert entry.2.toList = true)
    (hsize : (Variables.exportListing env).toList.length ≤ maxScriptSize)
    (hmax : 3 * env.exportedVariables.length < maxTokens) :
    ∃ statements, List.Forall₂ (fun entry statement => AndOrList.Exports entry.1 entry.2 statement)
        env.exportedVariables statements ∧
      parse (Variables.exportListing env) = .ok ⟨statements⟩ := by
  obtain ⟨tokens, stop, hexports, htokens⟩ := (tokenize_exportListing_iff hnames).mpr ⟨hinert, hsize⟩
  let text := (Variables.exportListing env).toList
  let read : SourceReader := fun source place => parseAt text.length place source.toList
  obtain ⟨statements, hexport, hspells⟩ := hexports.spells read
  refine ⟨statements, hexport, ?_⟩
  have hlist : Spelled read tokens (.list [] ⟨statements⟩) [] :=
    .list (by rw [hexports.pastNewlines]; exact hspells)
  show (tokenize text ⟨1, 1⟩ >>= fun tokens => parseTokens read tokens) = _
  rw [show tokenize text ⟨1, 1⟩ = _ from htokens]
  exact hlist.parseTokens (hexports.length ▸ hmax) stop

end Shell
