/-
Scripts and their parts.

What the grammar makes of tokens (`Parser.script_goes`) and what is known of the tokens of a text
(`tokensFrom_isSound`) come together here. A text that is a script has the tokens of a list (`parseAt_spells`), so the
script is well formed (`parse_wellFormed`), by induction on the number of texts it is nested in: the sources of command
substitutions are shorter than the text around them, so the bound for their lengths plays no part.

Then scripts are put together. A text of complete lines and a text after them make a script of the
statements of both (`parse_append`). On the side of the tokens this is because a newline leaves no
trace (`tokensFrom_lines`). On the side of the grammar it is because no statement ends with a newline: so each
statement of the lines is over before their last token, and the parser does not see what comes after
it.

Mathlib is imported as a whole for the scripts of single texts, which are computed (`cbv`) here and in the modules that
follow: the steps of the parser's monad are unfolded by equations that no single file of it has.
-/
import Mathlib
import Shell.Proofs.Script.Grammar

set_option autoImplicit false

namespace Shell

/-! ## 1. Scripts are well formed -/

namespace Parser

variable {P : Pairing} {α : Type} {V : α → List Token → Prop} {e : Extent} {p p' : Parser α} {s s' : Parsing}

/-- Runs that are compared on the same tokens come to the same. -/
theorem Goes.agree (h : Goes P V e p p' s s') (hexact : P.exact) (hr : s.HasRoom) (hr' : s'.HasRoom)
    (hle : s.rest.length ≤ s'.rest.length) : Agree P.honest ((p s).map (·.1)) ((p' s').map (·.1)) := by
  cases h with
  | ok passes le value used passes' =>
    rw [passes.run_ok (hr.within le), (passes' (.inl hexact)).run_ok (hr'.within (Nat.le_trans le hle))]
    exact .ok _
  | error passes le mistake passes' =>
    rw [passes.run_error (hr.within le), (passes' hexact).run_error (hr'.within (Nat.le_trans le hle))]
    exact .error mistake

/-- What is said of the value of a parser holds where its run comes to one. -/
theorem Goes.value_of_ok (h : Goes P V e p p' s s') (hr : s.HasRoom) {a : α} {t : Parsing} (run : p s = .ok (a, t)) :
    V a t.rest := by
  cases h with
  | ok passes le value used passes' =>
    obtain ⟨rfl, rfl⟩ := Prod.mk.inj (Except.ok.inj ((passes.run_ok (hr.within le)).symm.trans run))
    exact value
  | error passes le mistake passes' =>
    rw [passes.run_error (hr.within le)] at run
    cases run

end Parser

/-- The tokens of a script, before the end of the input, and the place of the end. -/
def Parsing.start (inside : List Token) (stop : Place) : Parsing := ⟨inside, stop, inside.length + 1, 0⟩

theorem Parsing.start_hasRoom {inside : List Token} (stop : Place) (h : inside.length < maxTokens) :
    (start inside stop).HasRoom := by
  refine ⟨Nat.lt_succ_self _, ?_⟩
  have hmax : maxTokens ≤ maxSteps := by decide
  simp only [start]
  omega

theorem parseTokens_eq (read : SourceReader) {inside : List Token} (stop : Place)
    (h : inside.length < maxTokens) :
    parseTokens read (inside ++ [⟨.endOfInput, stop⟩]) =
      (Parser.script read (.start inside stop)).map (·.1) := by
  unfold parseTokens
  rw [List.length_append, List.length_singleton, if_neg (Nat.not_lt_of_le h)]
  simp [StateT.run, Parsing.start]

theorem tokenize_isSound {text : List Char} {origin : Place} {tokens : List Token}
    (h : tokenize text origin = .ok tokens) :
    ∃ (inside : List Token) (stop : Place), tokens = inside ++ [⟨.endOfInput, stop⟩] ∧
      ∀ token ∈ inside, token.IsSound text.length := by
  unfold tokenize at h
  split at h
  · cases h
  · exact tokensFrom_isSound h (Nat.le_refl _) nofun

/-- A place compared with itself. -/
theorem Twin.start {P : Pairing} {inside : List Token} (stop : Place)
    (hinside : ∀ token ∈ inside, token.lexeme ≠ .endOfInput)
    (hsound : P.sound → ∀ token ∈ inside, token.IsSound P.size) :
    Twin P inside.length inside.length (.start inside stop) (.start inside stop) :=
  ⟨List.prefix_refl _, fun _ => ⟨rfl, rfl⟩, hinside, hsound, Nat.le_refl _, Nat.le_refl _, Nat.lt_succ_self _,
    Nat.lt_succ_self _⟩

/-- Readers of the sources in a text. The same tokens are compared, or the second parser may have more of them. -/
def Pairing.ofText (exact : Prop) (n : Nat) : Pairing := ⟨exact, True, n, True⟩

/-- The script that the tokens of a text make up is the same for two readers that agree on shorter texts. -/
theorem parseTokens_agrees {n : Nat} {read read' : SourceReader} (hread : (Pairing.ofText True n).Readers read read')
    {inside : List Token} (hsound : ∀ token ∈ inside, token.IsSound n) (stop : Place) :
    Agree True (parseTokens read (inside ++ [⟨.endOfInput, stop⟩]))
      (parseTokens read' (inside ++ [⟨.endOfInput, stop⟩])) := by
  by_cases hmax : inside.length < maxTokens
  · rw [parseTokens_eq _ stop hmax, parseTokens_eq _ stop hmax]
    have hroom := Parsing.start_hasRoom stop hmax
    have htwin : Twin (Pairing.ofText True n) _ _ (.start inside stop) (.start inside stop) :=
      .start stop (fun token hmem => (hsound token hmem).inside) fun _ => hsound
    exact (Parser.script_goes hread htwin).agree trivial hroom hroom (Nat.le_refl _)
  · have hlength : maxTokens < (inside ++ [(⟨.endOfInput, stop⟩ : Token)]).length := by
      rw [List.length_append, List.length_singleton]
      omega
    unfold parseTokens
    rw [if_pos hlength, if_pos hlength]
    exact .error fun _ => nofun

/-- **Any two bounds above the length of a text lead to the same script in it**, or to the same mistake. -/
theorem parseAt_agrees {n n' : Nat} {origin : Place} {text : List Char} (hn : text.length < n)
    (hn' : text.length < n') : Agree True (parseAt n origin text) (parseAt n' origin text) := by
  induction n generalizing n' origin text with
  | zero => exact absurd hn (Nat.not_lt_zero _)
  | succ n ih =>
    obtain ⟨n', rfl⟩ := Nat.exists_eq_succ_of_ne_zero (Nat.ne_zero_of_lt hn')
    have hread : (Pairing.ofText True text.length).Readers (fun source place => parseAt n place source.toList)
        fun source place => parseAt n' place source.toList := by
      intro source place hlength
      rw [← String.length_toList] at hlength
      have hlength : source.toList.length < text.length := hlength trivial
      exact ih (by omega) (by omega)
    unfold parseAt
    cases ht : tokenize text origin with
    | error e => exact .error fun _ => tokenize_isMistake ht
    | ok tokens =>
      obtain ⟨inside, stop, rfl, hsound⟩ := tokenize_isSound ht
      exact parseTokens_agrees hread hsound stop

/-- The tokens of a text, found in as many turns as there are characters. -/
def tokenizeWithin (text : List Char) (origin : Place) : Except ScriptError (List Token) :=
  if maxScriptSize < text.length then
    .error ⟨.inputTooLarge text.length maxScriptSize, ⟨0, 0⟩⟩
  else tokensWithin text.length {} origin text

/-- The script in a text, which is nested less than `n` deep. With `tokenizeWithin` it can be computed. -/
def parseWithin : (n : Nat) → (origin : Place) → (text : List Char) → Except ScriptError Sequence
  | 0, _, _ => .error ⟨.tooManySteps, ⟨0, 0⟩⟩
  | n + 1, origin, text => do
    parseTokens (fun source place => parseWithin n place source.toList) (← tokenizeWithin text origin)

theorem tokenize_eq_tokenizeWithin : tokenize = tokenizeWithin := by
  funext text origin
  unfold tokenize tokenizeWithin
  rw [tokensFrom_eq_tokensWithin (Nat.le_refl _)]

theorem parseFrom_eq_parseWithin (origin : Place) (text : List Char) :
    parseFrom origin text = parseWithin (text.length + 1) origin text := by
  have hparse (n : Nat) : parseAt n = parseWithin n := by
    induction n with
    | zero => rfl
    | succ n ih =>
      funext origin text
      unfold parseAt parseWithin
      rw [ih, tokenize_eq_tokenizeWithin]
  exact congrFun (congrFun (hparse _) _) _

/-- The tokens of a script are not too many, and are those of a list. -/
theorem parseTokens_spells {read : SourceReader} {inside : List Token} {stop : Place} {sequence : Sequence}
    (hinside : ∀ token ∈ inside, token.lexeme ≠ .endOfInput)
    (h : parseTokens read (inside ++ [⟨.endOfInput, stop⟩]) = .ok sequence) :
    inside.length < maxTokens ∧ Spelled read inside (.list [] sequence) [] := by
  have hmax : inside.length < maxTokens := by
    refine Nat.lt_of_not_le fun hle => ?_
    unfold parseTokens at h
    rw [if_pos (by simpa using Nat.lt_succ_of_le hle)] at h
    cases h
  rw [parseTokens_eq _ _ hmax] at h
  refine ⟨hmax, ?_⟩
  cases hs : Parser.script read (.start inside stop) with
  | error e =>
    rw [hs] at h
    cases h
  | ok r =>
    rw [hs] at h
    obtain rfl := Except.ok.inj h
    -- No two readers are compared, so nothing is asked of their errors.
    have hread : (⟨True, False, 0, False⟩ : Pairing).Readers read read := fun _ _ _ => .refl not_false _
    have htwin : Twin ⟨True, False, 0, False⟩ _ _ (.start inside stop) (.start inside stop) :=
      .start stop hinside False.elim
    have hvalue := (Parser.script_goes hread htwin).value_of_ok (Parsing.start_hasRoom stop hmax) hs
    exact hvalue.2 ▸ hvalue.1

/-- The tokens of a text that is a script are those of a list. -/
theorem parseAt_spells {n : Nat} {origin : Place} {text : List Char} {sequence : Sequence}
    (h : parseAt (n + 1) origin text = .ok sequence) :
    ∃ inside stop, tokenize text origin = .ok (inside ++ [⟨.endOfInput, stop⟩]) ∧
      (∀ token ∈ inside, token.IsSound text.length) ∧ inside.length < maxTokens ∧
      Spelled (fun source place => parseAt n place source.toList) inside
        (.list [] sequence) [] := by
  unfold parseAt at h
  obtain ⟨tokens, ht, h⟩ := bind_eq_ok.mp h
  obtain ⟨inside, stop, rfl, hsound⟩ := tokenize_isSound ht
  obtain ⟨hmax, hspells⟩ := parseTokens_spells (fun token hmem => (hsound token hmem).inside) h
  exact ⟨inside, stop, ht, hsound, hmax, hspells⟩

/-- The script in a text is well formed, whatever the bound for the texts in it. -/
theorem parseAt_wellFormed {n : Nat} {origin : Place} {text : List Char} {sequence : Sequence}
    (h : parseAt n origin text = .ok sequence) : sequence.WellFormed := by
  induction n generalizing origin text sequence with
  | zero => cases h
  | succ n ih =>
    obtain ⟨inside, stop, -, hsound, -, hspells⟩ := parseAt_spells h
    exact hspells.wellFormed (fun _ _ _ _ hread => ih hread) hsound

/-- **Every script that is parsed is well formed.** -/
theorem parse_wellFormed {text : String} {script : Sequence} (h : parse text = .ok script) :
    script.WellFormed :=
  parseAt_wellFormed h

/-- A substitution in the argument of a parameter, in double quotes, in a substitution, in an assignment, in a
function. -/
def nestedSource : String := "f() \x7b x=$(g \"$\x7by:-$(h)\x7d\"); \x7d"

set_option maxRecDepth 4000 in
/-- All bodies are there at any depth. -/
theorem nestedSource_wellFormed : ∃ script, parse nestedSource = .ok script ∧ script.WellFormed := by
  have hok : (parse nestedSource).isOk = true := by
    rw [parse, parseFrom_eq_parseWithin]
    cbv
  cases h : parse nestedSource with
  | error e =>
    rw [h] at hok
    cases hok
  | ok script => exact ⟨script, rfl, parse_wellFormed h⟩

/-! ## 2. Lists in two parts -/

namespace Parser

variable {P : Pairing} {k k' : Nat} {s s' : Parsing} {read : SourceReader} {command command' : Parser Command}

theorem statements_succ (command : Parser Command) (closers : List Closer) (m : Nat)
    (done : List AndOrList) (s : Parsing) :
    statements command closers (m + 1) done s =
      if isClosed closers (s.ahead 0) then .ok (done.reverse, s)
      else match andOr command s with
        | .error e => .error e
        | .ok (statement, t) =>
          match (t.ahead 0).lexeme with
          | .operator .ampersand => .error ⟨.backgroundExecution, (t.ahead 0).place⟩
          | .operator .semicolon =>
            (advance >>= fun _ => skipNewlines >>= fun _ =>
              statements command closers m (statement :: done)) t
          | .newline =>
            (skipNewlines >>= fun _ => statements command closers m (statement :: done)) t
          | _ => .ok ((statement :: done).reverse, t) := by
  conv => lhs; unfold statements
  show (if isClosed closers (s.ahead 0) then _ else _ : Parser _) s = _
  split
  · rfl
  -- The token after the statement says whether the list goes on.
  cases h : andOr command s with
  | error e => exact bind_of_error h
  | ok r =>
    rw [bind_of_ok h, peek_bind]
    simp only
    generalize (r.2.ahead 0).lexeme = lexeme
    cases lexeme with
    | operator op => cases op <;> rfl
    | _ => rfl

/-- Statements read before are put in front. -/
theorem statements_done (command : Parser Command) (closers : List Closer) (m : Nat)
    (done : List AndOrList) (s : Parsing) :
    statements command closers m done s =
      (statements command closers m [] s).map fun r => (done.reverse ++ r.1, r.2) := by
  induction m generalizing done s with
  | zero => exact congrArg (fun list => Except.ok (list, s)) (List.append_nil done.reverse).symm
  | succ m ih =>
    -- What is put before the statements does not matter to those that follow.
    have hskip (done : List AndOrList) (t : Parsing) :
        (skipNewlines >>= fun _ => statements command closers m done) t =
          ((skipNewlines >>= fun _ => statements command closers m []) t).map
            fun r => (done.reverse ++ r.1, r.2) := by
      cases h : skipNewlines t with
      | error e => rw [bind_of_error h, bind_of_error h]; rfl
      | ok r => rw [bind_of_ok h, bind_of_ok h, ih]
    have hadvance (done : List AndOrList) (t : Parsing) :
        (advance >>= fun _ => skipNewlines >>= fun _ => statements command closers m done) t =
          ((advance >>= fun _ => skipNewlines >>= fun _ => statements command closers m []) t).map
            fun r => (done.reverse ++ r.1, r.2) := by
      cases h : advance t with
      | error e => rw [bind_of_error h, bind_of_error h]; rfl
      | ok r => rw [bind_of_ok h, bind_of_ok h, hskip]
    rw [statements_succ, statements_succ]
    split
    · simp [Except.map]
    cases andOr command s with
    | error e => rfl
    | ok r =>
      simp only
      split
      · rfl
      · rw [hadvance, hadvance [r.1]]
        cases (advance >>= fun _ => skipNewlines >>= fun _ => statements command closers m []) r.2 <;>
          simp [Except.map]
      · rw [hskip, hskip [r.1]]
        cases (skipNewlines >>= fun _ => statements command closers m []) r.2 <;> simp [Except.map]
      · simp [Except.map]

/-- The end of a script with the given statements. -/
def scriptEnd (statements : List AndOrList) : Parser Sequence := do
  let token ← peek
  match token.lexeme with
  | .endOfInput => return ⟨statements⟩
  | _ => unexpected token none

/-- What is left of a script after the given statements, which are backwards. -/
def scriptRest (command : Parser Command) (m : Nat) (done : List AndOrList) : Parser Sequence :=
  skipNewlines >>= fun _ => statements command [] m done >>= scriptEnd

theorem scriptEnd_run (statements : List AndOrList) (s : Parsing) :
    scriptEnd statements s =
      match (s.ahead 0).lexeme with
      | .endOfInput => .ok (⟨statements⟩, s)
      | _ => .error ⟨.unexpected (found (s.ahead 0)) none, (s.ahead 0).place⟩ := by
  unfold scriptEnd
  rw [peek_bind]
  generalize (s.ahead 0).lexeme = lexeme
  cases lexeme <;> rfl

theorem scriptEnd_of_ok {statements : List AndOrList} {all : Sequence} {t : Parsing}
    (h : scriptEnd statements s = .ok (all, t)) :
    all = ⟨statements⟩ ∧ t = s ∧ (s.ahead 0).lexeme = .endOfInput := by
  rw [scriptEnd_run] at h
  split at h
  · next heq =>
    obtain ⟨rfl, rfl⟩ := Prod.mk.inj (Except.ok.inj h)
    exact ⟨rfl, rfl, heq⟩
  · cases h

theorem scriptEnd_done (done statements : List AndOrList) (s : Parsing) :
    (scriptEnd (done ++ statements) s).map (·.1) =
      ((scriptEnd statements s).map (·.1)).map fun rest => ⟨done ++ rest.statements⟩ := by
  rw [scriptEnd_run, scriptEnd_run]
  split <;> rfl

theorem script_eq (read : SourceReader) (hr : s.HasRoom) :
    script read s = scriptRest (commandAt read (s.bound + 1)) s.bound [] s := by
  have hscript : script read s =
      (skipNewlines >>= fun _ => bound >>= fun m =>
        statements (commandAt read (s.bound + 1)) [] m [] >>= scriptEnd) s := by
    unfold script Parser.list scriptEnd
    simp only [bind_assoc, pure_bind]
    rfl
  rw [hscript]
  unfold scriptRest
  rw [bind_of_ok (skipNewlines_run hr), bind_of_ok (skipNewlines_run hr)]
  rfl

theorem scriptRest_done (command : Parser Command) (m : Nat) (done : List AndOrList) (s : Parsing) :
    (scriptRest command m done s).map (·.1) =
      ((scriptRest command m [] s).map (·.1)).map fun rest => ⟨done.reverse ++ rest.statements⟩ := by
  unfold scriptRest
  cases h : skipNewlines s with
  | error e =>
    rw [bind_of_error h, bind_of_error h]
    rfl
  | ok r =>
    rw [bind_of_ok h, bind_of_ok h]
    have hdone := statements_done command [] m done r.2
    cases hs : statements command [] m [] r.2 with
    | error e =>
      rw [hs] at hdone
      rw [bind_of_error hdone, bind_of_error hs]
      rfl
    | ok r' =>
      rw [hs] at hdone
      rw [bind_of_ok hdone, bind_of_ok hs]
      exact scriptEnd_done done.reverse r'.1 r'.2

theorem scriptRest_succ (command : Parser Command) (m : Nat) (done : List AndOrList) (hr : s.HasRoom) :
    scriptRest command (m + 1) done s =
      let t := s.pass (newlines s.rest)
      if isClosed [] (t.ahead 0) then scriptEnd done.reverse t
      else match andOr command t with
        | .error e => .error e
        | .ok (statement, u) =>
          match (u.ahead 0).lexeme with
          | .operator .ampersand => .error ⟨.backgroundExecution, (u.ahead 0).place⟩
          | .operator .semicolon =>
            (advance >>= fun _ => scriptRest command m (statement :: done)) u
          | .newline => scriptRest command m (statement :: done) u
          | _ => scriptEnd (statement :: done).reverse u := by
  -- The end of the script is asked for after the statements, so it goes into each branch.
  have hbind {x : Except ScriptError (List AndOrList × Parsing)} {t : Parsing}
      (h : statements command [] (m + 1) done t = x) :
      (statements command [] (m + 1) done >>= scriptEnd) t =
        x.bind fun r => scriptEnd r.1 r.2 := by
    cases x with
    | error e => exact bind_of_error h
    | ok r => exact bind_of_ok h
  conv => lhs; unfold scriptRest
  rw [bind_of_ok (skipNewlines_run hr), hbind (statements_succ ..)]
  simp only
  split
  · rfl
  cases andOr command (s.pass (newlines s.rest)) with
  | error e => rfl
  | ok r =>
    simp only
    split
    · rfl
    · show ((advance >>= fun _ => skipNewlines >>= fun _ => statements command [] m _) >>= scriptEnd) _ = _
      simp only [bind_assoc]
      rfl
    · show ((skipNewlines >>= fun _ => statements command [] m _) >>= scriptEnd) _ = _
      simp only [bind_assoc]
      rfl
    · rfl

theorem scriptRest_goes (hc : CommandsGo P k k' read command command') {m m' : Nat} (hm : k < m)
    (hm' : k' < m') (hs : Twin P k k' s s') :
    Goes P (fun _ _ => True) .any (scriptRest command m []) (scriptRest command' m' []) s s' := by
  unfold scriptRest
  refine .bind hs (.skipNewlines hs) fun _ {t t'} ht _ => ?_
  refine .bind ht (statements_goes hc (Nat.le_refl _) (Nat.le_refl _) hm hm' ht) fun statements {t t'} ht _ => ?_
  unfold scriptEnd
  refine .peek ht ?_
  split
  · exact .pure nofun trivial
  · exact .unexpected

/-! ## 3. Scripts after complete lines -/

/-- Tokens that come to the end of a line, or none. -/
def EndLine (tokens : List Token) : Prop := ∀ token ∈ tokens.getLast?, token.lexeme = .newline

theorem EndLine.drop {tokens : List Token} (h : EndLine tokens) (m : Nat) : EndLine (tokens.drop m) := by
  intro token hmem
  rw [List.getLast?_drop] at hmem
  split at hmem
  · cases hmem
  · exact h token hmem

/-- Where only newlines are left, the statements before them are all. -/
theorem scriptRest_newlines {m m' : Nat} {done : List AndOrList} (hs : Twin P k k' s s')
    (hr : s.HasRoom) (hr' : s'.HasRoom) (hall : newlines s.rest = s.rest.length) {all : Sequence} {t : Parsing}
    (run : scriptRest command (m + 1) done s = .ok (all, t)) :
    scriptRest command' m' done s' = scriptRest command' m' all.statements.reverse (s'.pass s.rest.length) := by
  obtain ⟨more, hmore⟩ := hs.ahead
  have hnil : (s.pass (newlines s.rest)).rest = [] := by rw [Parsing.rest_pass, hall, List.drop_length]
  have hclosed : isClosed [] ((s.pass (newlines s.rest)).ahead 0) = true := by
    rw [Parsing.ahead, hnil]
    rfl
  rw [scriptRest_succ _ _ _ hr] at run
  simp only [hclosed, if_true] at run
  obtain ⟨rfl, -, -⟩ := scriptEnd_of_ok run
  have hlines : newlines s'.rest = s.rest.length + newlines more := by
    rw [← hmore, newlines_append, if_pos hall]
  have hrest : (s'.pass s.rest.length).rest = more := by rw [Parsing.rest_pass, ← hmore, List.drop_left]
  unfold scriptRest
  rw [bind_of_ok (skipNewlines_run hr'), bind_of_ok (skipNewlines_run (hr'.pass hs.ahead.length_le)),
    Parsing.pass_pass, hlines, hrest, List.reverse_reverse]

/-- **The lines are parsed as if nothing came after them**, and then parsing goes on behind them. -/
theorem scriptRest_lines (hc : CommandsGo P k k' read command command') {m m' : Nat}
    {done : List AndOrList} {j j' : Nat} (hj : j ≤ k) (hj' : j' ≤ k') (hm : j < m) (hm' : j' < m')
    (hs : Twin P j j' s s') (hr : s.HasRoom) (hr' : s'.HasRoom) (hline : EndLine s.rest) {all : Sequence}
    {t : Parsing} (run : scriptRest command m done s = .ok (all, t)) :
    ∃ i, s'.rest.length - s.rest.length < i ∧
      scriptRest command' m' done s' =
        scriptRest command' i all.statements.reverse (s'.pass s.rest.length) := by
  induction m generalizing m' j j' s s' done with
  | zero => exact absurd hm (Nat.not_lt_zero _)
  | succ m ih =>
    obtain ⟨m', rfl⟩ := Nat.exists_eq_succ_of_ne_zero (Nat.ne_zero_of_lt hm')
    obtain ⟨more, hmore⟩ := hs.ahead
    have hle := newlines_le s.rest
    have hlength := hs.length
    have hlength' := hs.length'
    have hlonger := hs.ahead.length_le
    have hbehind {q : Nat} (hq : q ≤ s.rest.length) {x : Except ScriptError (Sequence × Parsing)}
        (h : ∃ i, (s'.pass q).rest.length - (s.pass q).rest.length < i ∧
          x = scriptRest command' i all.statements.reverse
            ((s'.pass q).pass (s.pass q).rest.length)) :
        ∃ i, s'.rest.length - s.rest.length < i ∧
          x = scriptRest command' i all.statements.reverse (s'.pass s.rest.length) := by
      obtain ⟨i, hi, rfl⟩ := h
      rw [Parsing.rest_pass, Parsing.rest_pass, List.length_drop, List.length_drop] at hi
      refine ⟨i, by omega, ?_⟩
      rw [Parsing.pass_pass, Parsing.rest_pass, List.length_drop, Nat.add_sub_cancel' hq]
    by_cases hall : newlines s.rest = s.rest.length
    · exact ⟨m' + 1, by omega, scriptRest_newlines hs hr hr' hall run⟩
    rw [scriptRest_succ _ _ _ hr] at run
    have hskip : newlines s'.rest = newlines s.rest := by rw [← hmore, newlines_append, if_neg hall]
    have hu := (hs.pass hle).mono (Nat.sub_le j _) (Nat.sub_le j' _)
    have hne : (s.pass (newlines s.rest)).rest ≠ [] := by
      rw [Parsing.rest_pass, Ne, List.drop_eq_nil_iff]
      omega
    rw [scriptRest_succ _ _ _ hr', hskip]
    simp only at run ⊢
    rw [hu.ahead_zero (.inr hne)]
    split at run
    · exact absurd (scriptEnd_of_ok run).2.2 (hu.inside hne)
    next hopen =>
    rw [if_neg hopen]
    have hru := hr.pass hle
    have hru' := hr'.pass (Nat.le_trans hle hlonger)
    cases andOr_goes hc hj hj' hu with
    | error passes le _ _ =>
      rw [passes.run_error (hru.within le)] at run
      cases run
    | @ok statement i passes hi value used passes' =>
      -- The last token is a newline, and a statement does not end with one.
      have hlt : i < (s.pass (newlines s.rest)).rest.length := by
        refine Nat.lt_of_le_of_ne hi fun heq => ?_
        obtain ⟨token, hlast⟩ := Option.ne_none_iff_exists'.mp (mt List.getLast?_eq_none_iff.mp hne)
        have hused := used.2 token
        rw [heq, List.take_length] at hused
        exact hused hlast (hline.drop _ token hlast)
      have hv := hu.pass hi
      have hi' := Nat.le_trans hi hu.ahead.length_le
      have hrv := hru.pass hi
      have hrv' := hru'.pass hi'
      have hne : ((s.pass (newlines s.rest)).pass i).rest ≠ [] := by
        rw [Parsing.rest_pass, Ne, List.drop_eq_nil_iff]
        omega
      have hpos : 0 < i := Nat.pos_of_ne_zero fun hzero => used.1 (by rw [hzero, List.take_zero])
      rw [passes.run_ok (hru.within hi)] at run
      rw [(passes' (.inr hlt)).run_ok (hru'.within hi')]
      simp only at run ⊢
      rw [hv.ahead_zero (.inr hne)]
      rw [Parsing.rest_pass, List.length_drop] at hlt
      rw [Parsing.pass_pass] at run hne
      rw [Parsing.pass_pass] at hrv hrv'
      rw [Parsing.pass_pass, Parsing.pass_pass] at hv ⊢
      have hlineq := hline.drop (newlines s.rest + i)
      split at run
      · cases run
      · next hsemicolon =>
        have hsolid : ((s.pass (newlines s.rest + i)).ahead 0).IsSolid :=
          ⟨by simp [hsemicolon], by simp [hsemicolon]⟩
        have hpass := List.length_pos_iff.mpr hne
        have hne' : (s'.pass (newlines s.rest + i)).rest ≠ [] :=
          fun hnil => hne (List.prefix_nil.mp (hnil ▸ hv.ahead))
        have hw := hv.pass hpass
        have hrw := hrv.pass hpass
        have hrw' := hrv'.pass (List.length_pos_iff.mpr hne')
        rw [bind_of_ok (advance_run hrv hne)] at run
        rw [bind_of_ok (advance_run hrv' hne')]
        rw [Parsing.pass_pass] at run hrw hrw' ⊢
        rw [Parsing.pass_pass, Parsing.pass_pass] at hw
        rw [Parsing.rest_pass, List.length_drop] at hpass
        refine hbehind (q := newlines s.rest + i + 1) (by omega)
          (ih ?_ ?_ ?_ ?_ hw hrw hrw' (hline.drop _) run)
        all_goals omega
      · refine hbehind (q := newlines s.rest + i) (by omega) (ih ?_ ?_ ?_ ?_ hv hrv hrv' hlineq run)
        all_goals omega
      · exact absurd (scriptEnd_of_ok run).2.2 (hv.inside hne)

end Parser

/-- Tokens of complete lines, and tokens after them. The readers of sources do the same for the sources of
either. -/
theorem parseTokens_append {n n' : Nat} {read read' read'' : SourceReader}
    (hread : (Pairing.ofText False n).Readers read read'') (hread' : (Pairing.ofText True n').Readers read' read'')
    {line inside : List Token} (hline : Parser.EndLine line) (hsound : ∀ token ∈ line, token.IsSound n)
    (hsound' : ∀ token ∈ inside, token.IsSound n') (hmax : (line ++ inside).length < maxTokens)
    {middle stop : Place} {script : Sequence}
    (h : parseTokens read (line ++ [⟨.endOfInput, middle⟩]) = .ok script) :
    parseTokens read'' (line ++ inside ++ [⟨.endOfInput, stop⟩]) =
      (parseTokens read' (inside ++ [⟨.endOfInput, stop⟩])).map
        fun rest => ⟨script.statements ++ rest.statements⟩ := by
  have hlength : line.length < maxTokens := Nat.lt_of_le_of_lt (by simp) hmax
  have hlength' : inside.length < maxTokens := Nat.lt_of_le_of_lt (by simp) hmax
  have hroom := Parsing.start_hasRoom middle hlength
  have hroom' := Parsing.start_hasRoom stop hlength'
  have hroom'' := Parsing.start_hasRoom stop hmax
  rw [parseTokens_eq _ _ hlength, Parser.script_eq _ hroom] at h
  rw [parseTokens_eq _ _ hmax, parseTokens_eq _ _ hlength', Parser.script_eq _ hroom',
    Parser.script_eq _ hroom'']
  cases run : Parser.scriptRest (Parser.commandAt read ((Parsing.start line middle).bound + 1))
      (Parsing.start line middle).bound [] (.start line middle) with
  | error e =>
    rw [run] at h
    cases h
  | ok r =>
    rw [run] at h
    obtain rfl := Except.ok.inj h
    -- The line with the tokens behind it is a twin of the line alone, up to its end.
    have htwin : Twin (Pairing.ofText False n) line.length (line ++ inside).length (.start line middle)
        (.start (line ++ inside) stop) :=
      ⟨List.prefix_append _ _, False.elim, fun token hmem => (hsound token hmem).inside, fun _ => hsound,
        Nat.le_refl _, Nat.le_refl _, hroom.bound, hroom''.bound⟩
    -- The statements of the line have been read, and the script goes on behind it.
    obtain ⟨i, hi, heq⟩ := Parser.scriptRest_lines
      (Parser.commandAt_goes hread (Nat.lt_succ_of_le (Nat.le_succ _)) (Nat.lt_succ_of_le (Nat.le_succ _)))
      (Nat.le_refl _) (Nat.le_refl _) (Nat.lt_succ_self _) (Nat.lt_succ_self _) htwin hroom hroom''
      hline run
    have hrest : ((Parsing.start (line ++ inside) stop).pass line.length).rest = inside :=
      List.drop_left
    have hbehind : ((Parsing.start (line ++ inside) stop).pass line.length).HasRoom :=
      hroom''.pass (by simp [Parsing.start])
    -- What is behind the line is a script of its own, with more steps taken and more nesting allowed.
    have htwin' : Twin (Pairing.ofText True n') inside.length inside.length (.start inside stop)
        ((Parsing.start (line ++ inside) stop).pass line.length) :=
      ⟨by rw [hrest]; exact List.prefix_refl _, fun _ => ⟨hrest, rfl⟩, fun token hmem => (hsound' token hmem).inside,
        fun _ => hsound', Nat.le_refl _, by rw [hrest], hroom'.bound, hbehind.bound⟩
    have hi' : inside.length < i := by simpa [Parsing.start] using hi
    have hdepth : inside.length < (Parsing.start (line ++ inside) stop).bound + 1 := by
      simp [Parsing.start]
      omega
    have hagree := (Parser.scriptRest_goes
      (Parser.commandAt_goes hread' (Nat.lt_succ_of_le (Nat.le_succ _)) hdepth)
      (Nat.lt_succ_self _) hi' htwin').agree trivial hroom' hbehind (by rw [hrest]; exact Nat.le_refl _)
    refine (congrArg (Except.map (·.1)) heq).trans ?_
    rw [Parser.scriptRest_done, List.reverse_reverse]
    exact congrArg _ hagree.eq

theorem tokenize_lines {text more : List Char} {origin : Place} {tokens : List Token}
    (hline : EndsLine text) (ht : tokenize text origin = .ok tokens)
    (hsize : (text ++ more).length ≤ maxScriptSize) :
    ∃ (line : List Token) (p : Place),
      tokens = line ++ [⟨.newline, p⟩] ++ [⟨.endOfInput, origin.advance text⟩] ∧
      tokenize (text ++ more) origin =
        (tokenize more (origin.advance text)).map (line ++ [⟨.newline, p⟩] ++ ·) := by
  unfold tokenize at ht ⊢
  rw [List.length_append] at hsize
  rw [if_neg (by omega)] at ht
  obtain ⟨line, p, rfl, happend⟩ := tokensFrom_lines hline ht
  refine ⟨line, p, by simp, ?_⟩
  rw [List.length_append, if_neg (by omega), if_neg (by omega), happend]

/-- **Scripts compose by lines.** If a text ends with a newline, not after a backslash, and is a script, then
with a text after it it is the script of the statements of both, and it has the mistake of the second text if that
is none. The second text then starts on the line after those of the first. -/
theorem parse_append {a b : String} {script : Sequence} (ha : parse a = .ok script)
    (hline : EndsLine a.toList) (hsize : (a ++ b).length ≤ maxScriptSize)
    (htokens : ∀ tokens, tokenize (a ++ b).toList ⟨1, 1⟩ = .ok tokens → tokens.length ≤ maxTokens) :
    parse (a ++ b) =
      (parseFrom ⟨1 + a.toList.count '\n', 1⟩ b.toList).map
        fun rest => ⟨script.statements ++ rest.statements⟩ := by
  -- Sources are shorter than the text, so it does not matter how far they may be nested.
  have hread {exact : Prop} {k n : Nat} (hk : k ≤ n) : (Pairing.ofText exact k).Readers
      (fun source place => parseAt k place source.toList)
      (fun source place => parseAt n place source.toList) := by
    intro source place hlength
    rw [← String.length_toList] at hlength
    have hlength : source.toList.length < k := hlength trivial
    exact parseAt_agrees hlength (Nat.lt_of_lt_of_le hlength hk)
  have hrun (origin : Place) (text : List Char) : parseFrom origin text =
      tokenize text origin >>= parseTokens fun source place => parseAt text.length place source.toList :=
    rfl
  rw [← String.length_toList, String.toList_append] at hsize
  rw [String.toList_append] at htokens
  unfold parse at ha ⊢
  rw [hrun] at ha
  -- The second text starts on the line after those of the first.
  have hplace : (⟨1 + a.toList.count '\n', 1⟩ : Place) = Place.advance ⟨1, 1⟩ a.toList := by
    rw [Place.advance_lines hline]
  rw [String.toList_append, hrun, hrun, hplace]
  cases ht : tokenize a.toList ⟨1, 1⟩ with
  | error e =>
    rw [ht] at ha
    cases ha
  | ok tokens =>
    rw [ht] at ha
    obtain ⟨line, p, rfl, happend⟩ := tokenize_lines hline ht hsize
    rw [happend] at htokens ⊢
    cases ht' : tokenize b.toList (Place.advance ⟨1, 1⟩ a.toList) with
    | error e => rfl
    | ok tokens' =>
      obtain ⟨inside, stop, rfl, hsound'⟩ := tokenize_isSound ht'
      obtain ⟨before, stop', heq, hsound⟩ := tokenize_isSound ht
      obtain ⟨rfl, -⟩ := List.append_inj' heq rfl
      have hmax := htokens _ (by rw [ht']; rfl)
      have hmax : (line ++ [(⟨.newline, p⟩ : Token)] ++ inside).length < maxTokens := by
        simp only [List.length_append, List.length_singleton] at hmax ⊢
        omega
      -- The line ends with a newline, which is a token.
      have hend : Parser.EndLine (line ++ [⟨.newline, p⟩]) := by
        intro token hmem
        rw [List.getLast?_concat] at hmem
        obtain rfl := Option.some.inj hmem
        rfl
      show parseTokens _ (_ ++ (inside ++ _)) = _
      rw [← List.append_assoc]
      exact parseTokens_append (hread (by simp)) (hread (by simp)) hend hsound hsound' hmax ha

/-- A line and a mistake after it: the mistake is found where it stands, on the second line. -/
theorem parse_append_mistake :
    EndsLine "f a\n".toList ∧ ("f a\n" ++ "| g").length ≤ maxScriptSize ∧
      parse ("f a\n" ++ "| g") =
        .error ⟨.unexpected (.text "|") (some "a command"), ⟨2, 1⟩⟩ := by
  have hscript : parse "f a\n" = .ok
      ⟨[⟨⟨false, .simple 1 (some ⟨1, [.literal "f"]⟩) [⟨1, [.literal "a"]⟩] [], []⟩, []⟩]⟩ := by
    rw [parse, parseFrom_eq_parseWithin]
    cbv
  have hline : EndsLine "f a\n".toList := ⟨by decide, by decide⟩
  have hsize : ("f a\n" ++ "| g").length ≤ maxScriptSize := by decide
  have htokens (tokens : List Token)
      (h : tokenize ("f a\n" ++ "| g").toList ⟨1, 1⟩ = .ok tokens) : tokens.length ≤ maxTokens := by
    have hlength : (tokenize ("f a\n" ++ "| g").toList ⟨1, 1⟩).map List.length = .ok 6 := by
      rw [tokenize_eq_tokenizeWithin]
      cbv
    rw [h] at hlength
    rw [Except.ok.inj hlength]
    decide
  refine ⟨hline, hsize, (parse_append hscript hline hsize htokens).trans ?_⟩
  rw [parseFrom_eq_parseWithin]
  cbv

end Shell
