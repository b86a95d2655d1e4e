/-
The listing of variables, read as a script.

`set` lists a variable on a line of its own, as an assignment. Here it is said what the parser makes of such a
listing: one statement for each variable, which assigns it the text that its value is read as
(`Spells.parse_listing`). The two halves meet in `Listed`, which says what the tokens of a listing are. The first half finds
these tokens in the text of a listing, line by line; the second half finds the statements in the tokens.

The text that a value is read as is the value itself, with one exception. A value is listed bare if all its
characters are harmless, and the pattern that decides this lets a newline at the end through. What is behind
the bare characters then ends the line, and the newline of the value is lost (`readAs`).
-/
import Shell.Builtin.Variables
import Shell.Proofs.Script.Recognition
import Shell.Proofs.Token.Literals

set_option autoImplicit false

namespace Shell

open Shell.Text Shell.Text.Quoted Shell.Parser

/-! ## 1. Values -/

/-- A value of bare characters, with a newline behind them. -/
def EndsBareLine (value : String) : Prop :=
  ∃ body, body ≠ [] ∧ (∀ c ∈ body, isBare c = true) ∧ value.toList = body ++ ['\n']

/-- What the value of a variable in the listing of `set` is read as. -/
def readAs (value : String) : String :=
  if isBareValue value.toList = true ∧ value.toList.getLast? = some '\n' then
    String.ofList value.toList.dropLast
  else value

/-- It can be computed whether a value loses its last newline. -/
theorem endsBareLine_iff {value : String} :
    EndsBareLine value ↔ isBareValue value.toList = true ∧ value.toList.getLast? = some '\n' := by
  constructor
  · rintro ⟨body, hne, hbare, hvalue⟩
    rw [hvalue]
    have hlast : (body ++ ['\n']).getLast? = some '\n' := List.getLast?_concat
    refine ⟨?_, hlast⟩
    unfold isBareValue
    rw [if_pos hlast, List.dropLast_concat]
    simpa [hne] using hbare
  · rintro ⟨hbare, hlast⟩
    unfold isBareValue at hbare
    rw [if_pos hlast] at hbare
    obtain ⟨hne, hall⟩ : value.toList.dropLast ≠ [] ∧ ∀ c ∈ value.toList.dropLast, isBare c = true := by
      simpa using hbare
    refine ⟨value.toList.dropLast, hne, hall, ?_⟩
    obtain ⟨front, hfront⟩ := List.getLast?_eq_some_iff.mp hlast
    rw [hfront, List.dropLast_concat]

instance (value : String) : Decidable (EndsBareLine value) := decidable_of_iff _ endsBareLine_iff.symm

/-- Only a newline after bare characters is lost. -/
theorem readAs_eq_iff {value : String} : readAs value = value ↔ ¬ EndsBareLine value := by
  rw [endsBareLine_iff]
  unfold readAs
  split
  · next h =>
    refine ⟨fun he => ?_, fun hn => absurd h hn⟩
    obtain ⟨body, hbody⟩ := List.getLast?_eq_some_iff.mp h.2
    have hlist := congrArg String.toList he
    rw [String.toList_ofList, hbody, List.dropLast_concat] at hlist
    exact absurd hlist (by simp)
  · next h => exact ⟨fun _ => h, fun _ => rfl⟩

/-- A bare character is not one that the reader of words looks for. -/
theorem plain_of_isBare {c : Char} (h : isBare c = true) :
    isMetacharacter c = false ∧ isGuard c = false := by
  have hnone : ¬ (isMetacharacter c || isGuard c) = true := by
    intro hs
    simp only [isMetacharacter, isGuard, Bool.or_eq_true, beq_iff_eq] at hs
    casesm* _ ∨ _
    all_goals
      subst c
      revert h
      decide
  simpa using hnone

namespace Reading

/-- Bare characters stand for themselves. -/
theorem exists_reads_plain {cs : List Char}
    (h : ∀ c ∈ cs, isMetacharacter c = false ∧ isGuard c = false) {r : Reading} (ho : r.outer = none) :
    ∃ r', r.Reads cs cs r' := by
  have hreads : ∃ r', r.Reads (cs.flatMap fun c => [c]) cs r' :=
    exists_reads_flatMap (fun c hc r ho => ⟨_, reads_plain ho (h c hc).1 (h c hc).2⟩) ho
  rw [List.flatMap_singleton'] at hreads
  exact hreads

/-- A text in single quotes, with each quote in it written outside of them. Before the text stand characters
that have been written already. -/
theorem exists_reads_quotedFrom {cs : List Char} (chunk : List Char) (hchunk : '\'' ∉ chunk) {r : Reading}
    (ho : r.outer = none) :
    ∃ r', r.Reads ('\'' :: (chunk ++ cs.flatMap singleQuotedChar) ++ ['\'']) (chunk ++ cs) r' := by
  induction cs generalizing chunk r with
  | nil =>
    rw [List.flatMap_nil, List.append_nil]
    exact ⟨_, reads_singleQuoted ho hchunk⟩
  | cons c cs ih =>
    by_cases hc : c = '\''
    · subst hc
      -- The quotes are closed before the quote and opened again after it.
      have hfront := reads_singleQuoted ho hchunk
      have hquote := reads_escaped hfront.outside (c := '\'') (by decide)
      obtain ⟨r', hrest⟩ := ih [] List.not_mem_nil hquote.outside
      refine ⟨r', ?_⟩
      have hall := (hfront.trans hquote).trans hrest
      simpa [singleQuotedChar] using hall
    · have hmore : '\'' ∉ chunk ++ [c] := by
        rw [List.mem_append, List.mem_singleton]
        exact not_or.mpr ⟨hchunk, Ne.symm hc⟩
      obtain ⟨r', hr⟩ := ih (chunk ++ [c]) hmore ho
      refine ⟨r', ?_⟩
      simpa [singleQuotedChar, hc] using hr

/-- A listed value is read as its text. What is left is the newline that is lost. -/
theorem exists_reads_setValue (value : String) :
    ∃ written lost, setValue value.toList = written ++ lost ∧ (∀ c ∈ lost, c = '\n') ∧
      (readAs value = value → lost = []) ∧
      ∀ r : Reading, r.outer = none → ∃ r', r.Reads written (readAs value).toList r' := by
  -- A bare value is written as it is, and a newline at its end is lost. Any other value is quoted.
  by_cases hbare : isBareValue value.toList = true
  · have hset : setValue value.toList = value.toList := if_pos hbare
    by_cases hlast : value.toList.getLast? = some '\n'
    · have hends : EndsBareLine value := endsBareLine_iff.mpr ⟨hbare, hlast⟩
      obtain ⟨body, hne, hall, hvalue⟩ := hends
      have hread : (readAs value).toList = body := by
        unfold readAs
        rw [if_pos ⟨hbare, hlast⟩, String.toList_ofList, hvalue, List.dropLast_concat]
      refine ⟨body, ['\n'], hset.trans hvalue, by simp, ?_, ?_⟩
      · intro hsame
        exact absurd ⟨body, hne, hall, hvalue⟩ (readAs_eq_iff.mp hsame)
      · intro r ho
        rw [hread]
        exact exists_reads_plain (fun c hc => plain_of_isBare (hall c hc)) ho
    · have hread : readAs value = value := if_neg fun h => hlast h.2
      have hall : ∀ c ∈ value.toList, isBare c = true := by
        unfold isBareValue at hbare
        rw [if_neg hlast] at hbare
        have hboth : value.toList ≠ [] ∧ ∀ c ∈ value.toList, isBare c = true := by simpa using hbare
        exact hboth.2
      refine ⟨value.toList, [], by rw [hset, List.append_nil], nofun, fun _ => rfl, ?_⟩
      intro r ho
      rw [hread]
      exact exists_reads_plain (fun c hc => plain_of_isBare (hall c hc)) ho
  · have hread : readAs value = value := if_neg fun h => hbare h.1
    refine ⟨setValue value.toList, [], (List.append_nil _).symm, nofun, fun _ => rfl, ?_⟩
    intro r ho
    rw [hread]
    unfold setValue
    rw [if_neg hbare]
    exact exists_reads_quotedFrom [] List.not_mem_nil ho

/-! ## 2. Lines -/

/-- A word that begins with characters that mean nothing begins with unquoted text that begins with them. -/
theorem exists_reads_head {cs : List Char} (hne : cs ≠ [])
    (h : ∀ c ∈ cs, isMetacharacter c = false ∧ isGuard c = false) :
    ∃ r', ({} : Reading).Reads cs cs r' ∧ r'.Heads? cs := by
  have hrun (r : Reading) (ho : r.outer = none) (hp : r.parts = []) :
      ∃ r', r.Reads cs cs r' ∧ r'.parts = [] ∧ r'.run = cs.reverse ++ r.run := by
    clear hne
    induction cs generalizing r with
    | nil => exact ⟨r, .refl ho, hp, rfl⟩
    | cons c cs ih =>
      obtain ⟨hm, hg⟩ := h c List.mem_cons_self
      have hfirst := reads_plain ho hm hg
      obtain ⟨r', hr, hparts, hrun⟩ :=
        ih (fun d hd => h d (List.mem_cons_of_mem c hd)) _ hfirst.outside hp
      refine ⟨r', hfirst.trans hr, hparts, ?_⟩
      rw [hrun, List.reverse_cons, List.append_assoc]
      rfl
  obtain ⟨r', hr, hparts, hrun⟩ := hrun {} rfl rfl
  refine ⟨r', hr, String.ofList cs, [], ?_, ?_⟩
  · unfold flushed
    rw [hrun, hparts, List.append_nil, List.reverse_reverse]
    simp [hne]
  · simp

end Reading

/-- A variable on its line. -/
def listedLine (entry : String × String) : List Char :=
  entry.1.toList ++ '=' :: setValue entry.2.toList ++ ['\n']

/-- The listing is its lines, one after the other. -/
theorem setListing_toList (env : Environment) :
    (Variables.setListing env).toList = env.vars.entries.flatMap listedLine := by
  unfold Variables.setListing unlines
  induction env.vars.entries with
  | nil => rfl
  | cons entry entries ih =>
    rw [List.map_cons, List.map_cons, List.flatMap_cons, ← ih]
    simp [Variables.setLine, listedLine, String.join_cons]

/-- The token of a word that assigns a value to a name. -/
structure Token.Assigns (name value : String) (token : Token) : Prop where
  isWord : Parser.isWord token = true
  assigns : ∃ parts, token.assignment? = some (name.toList, false, parts) ∧
    literal? parts = some value.toList

/-- The tokens of a listing: for each variable a word that assigns it what its value is read as, and newlines.
There is no more than one newline if none is lost. -/
inductive Listed : List (String × String) → List Token → Prop where
  | nil : Listed [] []
  | cons {name value : String} {entries : List (String × String)} {token newline : Token}
      {lost tokens : List Token} (word : token.Assigns name (readAs value))
      (ends : Lexeme.isNewline newline.lexeme = true)
      (newlines : ∀ t ∈ lost, Lexeme.isNewline t.lexeme = true)
      (kept : readAs value = value → lost = []) (more : Listed entries tokens) :
      Listed ((name, value) :: entries) (token :: newline :: (lost ++ tokens))

/-- There are two tokens to a line, if every value is read back. -/
theorem Listed.length {entries : List (String × String)} {tokens : List Token} (h : Listed entries tokens)
    (hkept : ∀ entry ∈ entries, readAs entry.2 = entry.2) : tokens.length = 2 * entries.length := by
  induction h with
  | nil => rfl
  | @cons name value entries token newline lost tokens word ends newlines kept more ih =>
    obtain rfl := kept (hkept (name, value) List.mem_cons_self)
    have hmore := ih fun entry hentry => hkept entry (List.mem_cons_of_mem _ hentry)
    rw [List.length_cons, List.length_cons, List.length_cons, List.nil_append, hmore]
    omega

/-! ## 3. From the text to the tokens -/

/-- The characters of names need no quotes. -/
theorem isBare_of_isRest {c : Char} (h : Name.isRest c = true) : isBare c = true := by
  unfold Name.isRest Name.isStart at h
  unfold isBare
  rcases Bool.or_eq_true_iff.mp h with h | h
  · rcases Bool.or_eq_true_iff.mp h with h | h
    · rw [h, Bool.true_or, Bool.true_or]
    · rw [eq_of_beq h]
      decide
  · rw [h, Bool.or_true, Bool.true_or]

/-- An identifier is not empty, and has characters of names only. -/
theorem isRest_of_isIdentifier {name : List Char} (h : Name.isIdentifier name = true) :
    name ≠ [] ∧ ∀ c ∈ name, Name.isRest c = true := by
  cases name with
  | nil => cases h
  | cons c cs =>
    obtain ⟨hstart, hrest⟩ := Bool.and_eq_true_iff.mp h
    refine ⟨List.cons_ne_nil c cs, fun d hd => ?_⟩
    rcases List.mem_cons.mp hd with rfl | hd
    · unfold Name.isRest
      rw [hstart, Bool.true_or]
    · exact List.all_eq_true.mp hrest d hd

/-- The head of a listed line: a name, and the sign behind it. -/
theorem isBare_of_mem_head {name : List Char} (h : Name.isIdentifier name = true) {c : Char}
    (hc : c ∈ name ++ ['=']) : isBare c = true := by
  rcases List.mem_append.mp hc with hc | hc
  · exact isBare_of_isRest ((isRest_of_isIdentifier h).2 c hc)
  · rw [List.mem_singleton.mp hc]
    decide

/-- So it begins a word. -/
theorem beginsWord_of_isIdentifier {name : List Char} (h : Name.isIdentifier name = true) (rest : List Char) :
    BeginsWord (name ++ rest) := by
  obtain ⟨c, cs, rfl⟩ := List.exists_cons_of_ne_nil (isRest_of_isIdentifier h).1
  have hbare := isBare_of_isRest ((isRest_of_isIdentifier h).2 c List.mem_cons_self)
  obtain ⟨hm, hg⟩ := plain_of_isBare hbare
  refine ⟨c, cs ++ rest, rfl, hm, ?_, ?_⟩
  · rintro rfl
    exact absurd hbare (by decide)
  · rintro ⟨rfl, -⟩
    exact absurd hg (by decide)

/-- Before a sign of equality it is what is assigned to. -/
theorem assignmentHead?_of_isIdentifier {name : List Char} (h : Name.isIdentifier name = true)
    (rest : List Char) : assignmentHead? (name ++ '=' :: rest) = some (name, false, rest) := by
  obtain ⟨hne, hall⟩ := isRest_of_isIdentifier h
  have hname : ∀ c ∈ name, isAssignmentName c = true := by
    intro c hc
    have hrest := hall c hc
    unfold Name.isRest Name.isStart at hrest
    unfold isAssignmentName
    rwa [Bool.or_right_comm]
  have hsign : isAssignmentName '=' = false := by decide
  have htake : (name ++ '=' :: rest).takeWhile isAssignmentName = name := by
    rw [List.takeWhile_append_of_pos hname, List.takeWhile_cons_of_neg (by simp [hsign]), List.append_nil]
  have hdrop : (name ++ '=' :: rest).dropWhile isAssignmentName = '=' :: rest := by
    rw [List.dropWhile_append_of_pos hname, List.dropWhile_cons_of_neg (by simp [hsign])]
  unfold assignmentHead?
  simp [htake, hdrop, hne]

/-- A word that begins with a name and a sign assigns the text after them. -/
theorem Reading.assigns {r : Reading} {name value : String} (hname : Name.isIdentifier name.toList = true)
    (hhead : r.Heads? (name.toList ++ ['=']))
    (hliteral : r.literal? = some (name.toList ++ ['='] ++ value.toList)) (text : String) (place : Place) :
    Token.Assigns name value ⟨.word text r.flushed.reverse, place⟩ := by
  obtain ⟨head, more, hparts, behind, hbehind⟩ := hhead
  rw [List.append_assoc, List.singleton_append] at hbehind
  refine ⟨rfl, if behind.isEmpty then more else .literal (String.ofList behind) :: more, ?_, ?_⟩
  · unfold Token.assignment?
    simp only [Lexeme.parts, hparts, ← hbehind, assignmentHead?_of_isIdentifier hname]
  · -- What the first part says after the sign and what the other parts say is the value.
    unfold Reading.literal? at hliteral
    rw [hparts, literal?_cons] at hliteral
    obtain ⟨others, hothers⟩ : ∃ others, Shell.literal? more = some others := by
      cases hmore : Shell.literal? more with
      | none => simp [hmore, WordPart.literalText?] at hliteral
      | some others => exact ⟨others, rfl⟩
    have hvalue : behind ++ others = value.toList := by
      simp only [WordPart.literalText?, Option.map_some, Option.bind_eq_bind, Option.bind_some, hothers,
        Option.pure_def, Option.some.injEq, ← hbehind] at hliteral
      simpa using hliteral
    split
    · next hempty =>
      rw [hothers, ← hvalue, List.isEmpty_iff.mp hempty, List.nil_append]
    · rw [← hvalue]
      exact literal?_append_of_some (literal?_literal behind) hothers

/-- A word with an equals sign in it is no keyword. -/
theorem Keyword.ofText?_of_mem {text : List Char} (h : '=' ∈ text) :
    Keyword.ofText? (String.ofList text) = none := by
  refine List.find?_eq_none.mpr fun keyword hkeyword htext => ?_
  have hplain : ∀ keyword ∈ Keyword.all, '=' ∉ keyword.text.toList := by decide
  have hno := hplain keyword hkeyword
  rw [eq_of_beq htext, String.toList_ofList] at hno
  exact hno h

/-- A word with such a sign in it is no keyword, so it stays a word. -/
theorem Tokens.exists_pushWord (piece : Piece) (h : '=' ∈ piece.text) (ts : Tokens) (place : Place) :
    ∃ start, ts.pushWord place piece =
      ts.push (.word (String.ofList piece.text) piece.parts) place start := by
  unfold pushWord
  simp only [Keyword.ofText?_of_mem h, ite_self]
  exact ⟨_, rfl⟩

/-- Newlines are tokens of their own, and behind them a command may start. -/
theorem tokensFrom_newlines {lost : List Char} (h : ∀ c ∈ lost, c = '\n') (ts : Tokens) (place : Place)
    (cs : List Char) :
    ∃ newline newlines place', Lexeme.isNewline newline.lexeme = true ∧
      (∀ t ∈ newlines, Lexeme.isNewline t.lexeme = true) ∧ newlines.length = lost.length ∧
      tokensFrom ts place (lost ++ '\n' :: cs) =
        tokensFrom ⟨(newline :: newlines).reverse ++ ts.done, true⟩ place' cs := by
  have hstep (ts : Tokens) (place : Place) (cs : List Char) :
      tokensFrom ts place ('\n' :: cs) = tokensFrom (ts.push .newline place true) (place.after '\n') cs :=
    tokensFrom_of_took .newline
  induction lost generalizing ts place with
  | nil => exact ⟨⟨.newline, place⟩, [], place.after '\n', rfl, nofun, rfl, hstep ts place cs⟩
  | cons c lost ih =>
    obtain rfl := h c List.mem_cons_self
    obtain ⟨newline, newlines, place', hnewline, hall, hlength, hgo⟩ :=
      ih (fun d hd => h d (List.mem_cons_of_mem _ hd)) (ts.push .newline place true) (place.after '\n')
    refine ⟨⟨.newline, place⟩, newline :: newlines, place', rfl, ?_, by simp [hlength], ?_⟩
    · intro t ht
      rcases List.mem_cons.mp ht with rfl | ht
      · exact hnewline
      · exact hall t ht
    · rw [List.cons_append, hstep, hgo]
      simp [Tokens.push]

/-- **The word of a listed line** assigns what is read back for the value. Newlines at the end of the value are
left over, and there are none if the value is kept. -/
theorem exists_readParts_listedLine {name : String} (hname : Name.isIdentifier name.toList = true)
    (value : String) (place : Place) (behind : List Char) :
    ∃ piece lost, readParts isMetacharacter {} place (listedLine (name, value) ++ behind) = .ok piece ∧
      piece.rest = lost ++ '\n' :: behind ∧ (∀ c ∈ lost, c = '\n') ∧ (readAs value = value → lost = []) ∧
      '=' ∈ piece.text ∧
      Token.Assigns name (readAs value) ⟨.word (String.ofList piece.text) piece.parts, place⟩ := by
  obtain ⟨written, lost, hwritten, hlost, hkept, hvalue⟩ := Reading.exists_reads_setValue value
  have hplain : ∀ c ∈ name.toList ++ ['='], isMetacharacter c = false ∧ isGuard c = false :=
    fun c hc => plain_of_isBare (isBare_of_mem_head hname hc)
  obtain ⟨r₁, hread₁, hhead⟩ := Reading.exists_reads_head (by simp) hplain
  obtain ⟨r₂, hread₂⟩ := hvalue r₁ hread₁.outside
  have hread := hread₁.trans hread₂
  have hline : listedLine (name, value) ++ behind =
      name.toList ++ ['='] ++ written ++ (lost ++ '\n' :: behind) := by
    simp [listedLine, hwritten]
  -- A newline ends the word: one of the value, or the one of the line.
  obtain ⟨rest, hrest⟩ : ∃ rest, lost ++ '\n' :: behind = '\n' :: rest := by
    cases lost with
    | nil => exact ⟨_, rfl⟩
    | cons c lost =>
      obtain rfl := hlost c List.mem_cons_self
      exact ⟨_, rfl⟩
  have htext : r₂.text.reverse = name.toList ++ ['='] ++ written := by
    rw [hread.taken]
    simp
  rw [hline, hrest, hread.readParts rfl]
  refine ⟨_, lost, rfl, hrest.symm, hlost, hkept, ?_, ?_⟩
  · show '=' ∈ r₂.text.reverse
    rw [htext]
    simp
  · exact Reading.assigns hname (hread₂.heads _ hhead) (hread.literal [] rfl) _ _

/-- **The tokens of a listing** are those of its lines. -/
theorem tokensFrom_listing {entries : List (String × String)}
    (hnames : ∀ entry ∈ entries, Name.isIdentifier entry.1.toList = true) (ts : Tokens) (place : Place) :
    ∃ tokens stop, Listed entries tokens ∧ tokensFrom ts place (entries.flatMap listedLine) =
      .ok (ts.done.reverse ++ tokens ++ [⟨.endOfInput, stop⟩]) := by
  induction entries generalizing ts place with
  | nil =>
    refine ⟨[], place, .nil, ?_⟩
    rw [List.flatMap_nil, tokensFrom]
    simp [Tokens.push]
  | cons entry entries ih =>
    obtain ⟨name, value⟩ := entry
    have hname : Name.isIdentifier name.toList = true := hnames (name, value) List.mem_cons_self
    obtain ⟨piece, lost, hpiece, hrest, hlost, hkept, hsign, hassigns⟩ :=
      exists_readParts_listedLine hname value place (entries.flatMap listedLine)
    -- The line begins with a name, so a word is read here.
    have hbegins : BeginsWord (listedLine (name, value) ++ entries.flatMap listedLine) := by
      rw [listedLine, List.append_assoc, List.append_assoc]
      exact beginsWord_of_isIdentifier hname _
    obtain ⟨start, hpush⟩ := Tokens.exists_pushWord piece hsign ts place
    obtain ⟨newline, newlines, place', hnewline, hnewlines, hlength, hgo⟩ :=
      tokensFrom_newlines hlost (ts.pushWord place piece) piece.place (entries.flatMap listedLine)
    obtain ⟨tokens, stop, hlisted, htokens⟩ :=
      ih (fun entry hentry => hnames entry (List.mem_cons_of_mem _ hentry))
        ⟨(newline :: newlines).reverse ++ (ts.pushWord place piece).done, true⟩ place'
    refine ⟨_, stop, .cons hassigns hnewline hnewlines (fun h => ?_) hlisted, ?_⟩
    · rw [hkept h] at hlength
      exact List.length_eq_zero_iff.mp hlength
    · rw [List.flatMap_cons, tokensFrom_word hbegins, hpiece]
      show tokensFrom (ts.pushWord place piece) piece.place piece.rest = _
      rw [hrest, hgo, htokens, hpush]
      simp [Tokens.push]

/-! ## 4. From the tokens to the statements -/

mutual

/-- A part without expansions has no bodies to find. -/
theorem WordPart.resolve_of_literalText? (read : SourceReader) : ∀ (part : WordPart) (text : String),
    part.literalText? = some text → part.resolve read = .ok part
  | .literal _, _, _ | .singleQuoted _, _, _ | .escaped _, _, _ => rfl
  | .doubleQuoted parts, text, h => by
    rw [WordPart.resolve, resolveParts_of_literalTexts? read parts text h]
    rfl

/-- Literal parts have no sources. -/
theorem resolveParts_of_literalTexts? (read : SourceReader) : ∀ (parts : List WordPart) (text : String),
    WordPart.literalTexts? parts = some text → resolveParts read parts = .ok parts
  | [], _, _ => rfl
  | part :: parts, text, h => by
    rw [WordPart.literalTexts?] at h
    obtain ⟨first, hfirst, h⟩ := Option.bind_eq_some_iff.mp h
    obtain ⟨others, hothers, -⟩ := Option.bind_eq_some_iff.mp h
    rw [resolveParts, WordPart.resolve_of_literalText? read part first hfirst,
      resolveParts_of_literalTexts? read parts others hothers]
    rfl

end

/-- A literal word is resolved to itself. -/
theorem Word.resolve_of_literal? {read : SourceReader} {word : Word} {text : List Char}
    (h : literal? word.parts = some text) : word.resolve read = .ok word := by
  obtain ⟨text, htext, -⟩ := Option.map_eq_some_iff.mp h
  cases word
  rw [Word.resolve, resolveParts_of_literalTexts? read _ text htext]
  rfl

/-- A statement that gives a name a text, and does nothing else. -/
def AndOrList.Gives (name text : String) (statement : AndOrList) : Prop :=
  ∃ line word, statement = ⟨⟨false, .simple line none [] [⟨name, false, word, line⟩], []⟩, []⟩ ∧
    literal? word.parts = some text.toList

/-- What comes before a newline is over. -/
theorem unless_of_isNewline {p : Token → Bool} {newline : Token}
    (h : Lexeme.isNewline newline.lexeme = true) (hp : ∀ place, p ⟨.newline, place⟩ = false)
    (tokens : List Token) : Unless p (newline :: tokens) := by
  intro token htoken
  obtain rfl := Option.some.inj htoken
  obtain ⟨lexeme, place⟩ := newline
  unfold Lexeme.isNewline at h
  split at h
  · next heq =>
    obtain rfl : lexeme = .newline := heq
    exact hp place
  · cases h

/-- A token that assigns a text is a statement. -/
theorem Token.Assigns.spells {name text : String} {token newline : Token} (h : token.Assigns name text)
    (hname : Name.isIdentifier name.toList = true) (hnewline : Lexeme.isNewline newline.lexeme = true)
    (read : SourceReader) (tokens : List Token) :
    ∃ statement : AndOrList, statement.Gives name text ∧
      Spelled read (token :: newline :: tokens) (.andOr statement) (newline :: tokens) := by
  obtain ⟨parts, hassignment, hliteral⟩ := h.assigns
  have hvalid := Name.isValid_of_isIdentifier hname
  have hresolved : Word.resolve read ⟨token.place.line, parts⟩ = .ok ⟨token.place.line, parts⟩ :=
    Word.resolve_of_literal? hliteral
  -- The newline stops every loop of the grammar.
  have hstop {p : Token → Bool} (hp : ∀ place, p ⟨.newline, place⟩ = false) :
      Unless p (newline :: tokens) := unless_of_isNewline hnewline hp tokens
  have hunnegated : Unless (isReserved .bang) (token :: newline :: tokens) := by
    intro first hfirst
    obtain rfl := Option.some.inj hfirst
    obtain ⟨text, parts, hlexeme⟩ := lexeme_of_isWord h.isWord
    simp [isReserved, hlexeme]
  refine ⟨_, ⟨token.place.line, ⟨token.place.line, parts⟩, rfl, hliteral⟩, ?_⟩
  -- The assignment is the only word, so the command has no name.
  have hend : Spelled read (newline :: tokens)
      (.simple false [] []) (newline :: tokens) :=
    .simpleEnd (hstop (p := Parser.isWord) fun _ => rfl)
  have hwords := Spells.assignment h.isWord hassignment hvalid hresolved hend
  rw [String.ofList_toList] at hwords
  have hsimple := Spells.simpleCommand h.isWord (hstop fun _ => rfl) hwords (hstop fun _ => rfl)
  exact .andOr (.pipeline hunnegated (.command trivial hsimple) (.noPipe (hstop fun _ => rfl)))
    (.noConnective (hstop fun _ => rfl))

/-- Newlines that are left over are passed. -/
theorem Listed.pastNewlines {entries : List (String × String)} {tokens : List Token}
    (lost : List Token) (h : Listed entries tokens) (hlost : ∀ t ∈ lost, Lexeme.isNewline t.lexeme = true) :
    pastNewlines (lost ++ tokens) = tokens := by
  unfold Shell.pastNewlines
  rw [List.dropWhile_append_of_pos hlost]
  cases h with
  | nil => rfl
  | @cons _ _ _ token _ _ _ word =>
    obtain ⟨text, parts, hlexeme⟩ := lexeme_of_isWord word.isWord
    exact List.dropWhile_cons_of_neg (by simp [hlexeme, Lexeme.isNewline])

/-- The tokens of a listing are its statements. -/
theorem Listed.spells {entries : List (String × String)} {tokens : List Token} (h : Listed entries tokens)
    (hnames : ∀ entry ∈ entries, Name.isIdentifier entry.1.toList = true) (read : SourceReader) :
    ∃ statements, List.Forall₂ (fun entry statement => AndOrList.Gives entry.1 (readAs entry.2) statement)
        entries statements ∧
      Spelled read tokens (.statements [] statements) [] := by
  induction h with
  | nil => exact ⟨[], .nil, .closed nofun⟩
  | @cons name value entries token newline lost tokens word ends newlines kept more ih =>
    obtain ⟨statements, hgive, hspells⟩ :=
      ih fun entry hentry => hnames entry (List.mem_cons_of_mem _ hentry)
    have hname := hnames (name, value) List.mem_cons_self
    obtain ⟨statement, hfirst, hstatement⟩ := word.spells hname ends read (lost ++ tokens)
    refine ⟨statement :: statements, .cons hfirst hgive, .newline ⟨token, rfl, ?_⟩ hstatement ends ?_⟩
    · obtain ⟨text, parts, hlexeme⟩ := lexeme_of_isWord word.isWord
      simp [isClosed, hlexeme]
    · rw [more.pastNewlines _ newlines]
      exact hspells

/-- **What the parser makes of a listing**: a statement for each variable, unless the listing is too long. -/
theorem parse_setListing {env : Environment}
    (hnames : ∀ entry ∈ env.vars.entries, Name.isIdentifier entry.1.toList = true) :
    ∃ tokens statements, Listed env.vars.entries tokens ∧
      List.Forall₂ (fun entry statement => AndOrList.Gives entry.1 (readAs entry.2) statement)
        env.vars.entries statements ∧
      ∀ script, parse (Variables.setListing env) = .ok script ↔
        ((Variables.setListing env).toList.length ≤ maxScriptSize ∧ tokens.length < maxTokens) ∧
          script = ⟨statements⟩ := by
  obtain ⟨tokens, stop, hlisted, htokens⟩ := tokensFrom_listing hnames {} ⟨1, 1⟩
  rw [← setListing_toList] at htokens
  change _ = Except.ok (tokens ++ [_]) at htokens
  let text := (Variables.setListing env).toList
  let read : SourceReader := fun source place => parseAt text.length place source.toList
  obtain ⟨statements, hgive, hspells⟩ := hlisted.spells hnames read
  refine ⟨tokens, statements, hlisted, hgive, fun script => ?_⟩
  -- Sources may be nested as deep as the text is long, though there are none.
  have hparse : parse (Variables.setListing env) =
      (tokenize text ⟨1, 1⟩ >>= fun tokens => parseTokens read tokens) := rfl
  rw [hparse]
  by_cases hsize : text.length ≤ maxScriptSize
  · have htokenize : tokenize text ⟨1, 1⟩ = .ok (tokens ++ [⟨.endOfInput, stop⟩]) :=
      tokenize_eq_ok_iff.mpr ⟨hsize, htokens⟩
    rw [htokenize]
    show parseTokens read (tokens ++ [⟨.endOfInput, stop⟩]) = .ok script ↔ _
    by_cases hmax : tokens.length < maxTokens
    · have hlist : Spelled read tokens (.list [] ⟨statements⟩) [] := by
        have hpast := Listed.pastNewlines [] hlisted nofun
        exact .list (by rw [show pastNewlines tokens = tokens from hpast]; exact hspells)
      rw [hlist.parseTokens hmax stop]
      refine ⟨fun h => ⟨⟨hsize, hmax⟩, (Except.ok.inj h).symm⟩, ?_⟩
      rintro ⟨-, rfl⟩
      rfl
    -- With the end of the input there is one token too many.
    · have herror : maxTokens < (tokens ++ [(⟨.endOfInput, stop⟩ : Token)]).length := by
        rw [List.length_append, List.length_singleton]
        omega
      unfold parseTokens
      rw [if_pos herror]
      exact ⟨fun h => (by cases h), fun h => absurd h.1.2 hmax⟩
  · refine ⟨fun h => ?_, fun h => absurd h.1.1 hsize⟩
    obtain ⟨tokens', htokens', -⟩ := bind_eq_ok.mp h
    exact absurd (tokenize_eq_ok_iff.mp htokens').1 hsize

end Shell
