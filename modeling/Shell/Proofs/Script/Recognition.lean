/-
The parser recognizes the grammar.

The module on phrases shows that what the parser reads is as the grammar says. Here is the other half: from tokens
that spell a list the parser reads that list (`Spells.recognized`). So the tokens of a script are not too many, and
such that they spell a list (`parseTokens_spells`), and all such tokens are those of a script (`Spells.parseTokens`).

The proof is by induction on the derivation. For each phrase it is said which function of the parser reads it, and
how often its loops may turn (`Recognizes`): more often than there are tokens left, so that a bound is never met.
-/
import Shell.Proofs.Script.Lines

set_option autoImplicit false

namespace Shell

open Shell.Parser

/-! ## 1. Reading tokens -/

namespace Parser

variable {α β γ : Type}

/-- Wherever the tokens `ts` are left, the parser comes to the value `a`, and then `rest` are left. -/
def Reads (p : Parser α) (ts : List Token) (a : α) (rest : List Token) : Prop :=
  ∀ s : Parsing, s.HasRoom → s.rest = ts → ∃ t, p s = .ok (a, t) ∧ t.HasRoom ∧ t.rest = rest

/-- A loop that has put one more result before those done has one less to come. -/
theorem reverse_cons_append (x : α) (xs ys : List α) : (x :: xs).reverse ++ ys = xs.reverse ++ x :: ys := by
  rw [List.reverse_cons, List.append_assoc, List.singleton_append]

/-- The first of the tokens left is ahead. -/
theorem ahead_of_cons {s : Parsing} {token : Token} {ts : List Token} (hs : s.rest = token :: ts) :
    s.ahead 0 = token := by
  rw [Parsing.ahead, hs]
  rfl

/-- What does not come next is not ahead. -/
theorem ahead_of_unless {s : Parsing} {p : Token → Bool} (h : Unless p s.rest)
    (hend : ∀ place, p ⟨.endOfInput, place⟩ = false) : p (s.ahead 0) = false := by
  cases hs : s.rest with
  | nil =>
    rw [Parsing.ahead, hs]
    exact hend _
  | cons token ts =>
    rw [ahead_of_cons hs]
    exact h token (by rw [hs]; rfl)

namespace Reads

variable {p : Parser α} {a : α} {b : β} {ts ts₁ rest : List Token} {token : Token}

/-- Nothing is passed. -/
theorem pure (ts : List Token) (a : α) : Reads (pure a) ts a ts := fun s hr hs => ⟨s, rfl, hr, hs⟩

/-- **One parser after the other.** -/
theorem bind {f : α → Parser β} (h : Reads p ts a ts₁) (hf : Reads (f a) ts₁ b rest) :
    Reads (p >>= f) ts b rest := by
  intro s hr hs
  -- The second parser starts where the first one stops.
  obtain ⟨t, hp, hr, ht⟩ := h s hr hs
  obtain ⟨u, hf, hr, hu⟩ := hf t hr ht
  exact ⟨u, (bind_of_ok hp).trans hf, hr, hu⟩

/-- Two parsers that belong together and are read before a third are read one after the other. -/
theorem assoc {f : α → Parser β} {g : β → Parser γ} {c : γ}
    (h : Reads (p >>= fun a => f a >>= g) ts c rest) : Reads ((p >>= f) >>= g) ts c rest := by
  rwa [bind_assoc]

/-- A value that is there already needs no token. -/
theorem pure_bind {f : α → Parser β} (h : Reads (f a) ts b rest) :
    Reads (Pure.pure a >>= f) ts b rest := h

/-- The parser reads what it does where the condition holds. -/
theorem pos {c : Prop} [Decidable c] {q : Parser α} (hc : c) (h : Reads p ts a rest) :
    Reads (if c then p else q) ts a rest := by
  rwa [if_pos hc]

/-- The parser reads what it does where the condition fails. -/
theorem neg {c : Prop} [Decidable c] {q : Parser α} (hc : ¬ c) (h : Reads q ts a rest) :
    Reads (if c then p else q) ts a rest := by
  rwa [if_neg hc]

/-- The next token is looked at. -/
theorem peek {f : Token → Parser β} (h : Reads (f token) (token :: ts) b rest) :
    Reads (Parser.peek >>= f) (token :: ts) b rest := by
  intro s hr hs
  have hahead := ahead_of_cons hs
  subst hahead
  exact h s hr hs

/-- Another token is seen not to come next, or the end. -/
theorem peek_unless {q : Token → Bool} (hstop : Unless q ts) (hend : ∀ place, q ⟨.endOfInput, place⟩ = false)
    {f : Token → Parser β} (h : ∀ token, q token = false → Reads (f token) ts b rest) :
    Reads (Parser.peek >>= f) ts b rest := fun s hr hs =>
  h _ (ahead_of_unless (hs ▸ hstop) hend) s hr hs

/-- The token after the next is looked at. -/
theorem second_pos {next : Token} {c : Token → Bool} {q : Parser α} (hnext : c next = true)
    (h : Reads p (token :: next :: ts) a rest) :
    Reads (get >>= fun s => if c (s.ahead 1) then p else q) (token :: next :: ts) a rest := by
  intro s hr hs
  have hahead : s.ahead 1 = next := by
    rw [Parsing.ahead, hs]
    rfl
  obtain ⟨t, hp, ht⟩ := h s hr hs
  refine ⟨t, ?_, ht⟩
  rw [← hp]
  show (if c (s.ahead 1) then p else q) s = p s
  rw [hahead, if_pos hnext]

/-- Another token is seen not to come after the next, or the end. -/
theorem second_neg {c : Token → Bool} {q : Parser α} (hstop : Unless c ts)
    (hend : ∀ place, c ⟨.endOfInput, place⟩ = false) (h : Reads q (token :: ts) a rest) :
    Reads (get >>= fun s => if c (s.ahead 1) then p else q) (token :: ts) a rest := by
  intro s hr hs
  have hahead : c (s.ahead 1) = false := by
    -- At the end of the tokens the sign of the end is ahead.
    cases ts with
    | nil =>
      rw [Parsing.ahead, hs]
      exact hend _
    | cons next ts =>
      rw [Parsing.ahead, hs]
      exact hstop next rfl
  obtain ⟨t, hq, ht⟩ := h s hr hs
  refine ⟨t, ?_, ht⟩
  rw [← hq]
  show (if c (s.ahead 1) then p else q) s = q s
  rw [hahead, if_neg Bool.false_ne_true]

/-- A loop is started with a bound that is not met: it is more than the tokens left. -/
theorem bound {f : Nat → Parser β} (h : ∀ m, ts.length < m → Reads (f m) ts b rest) :
    Reads (Parser.bound >>= f) ts b rest := fun s hr hs =>
  h s.bound (hs ▸ hr.bound) s hr hs

/-- **A loop is over** where no token comes next that a turn starts with. -/
theorem stop {f : Nat → Parser α} {turn : Nat → Token → Parser α} {q : Token → Bool} {m : Nat}
    (hf : ∀ m, f (m + 1) = Parser.peek >>= turn m) (hturn : ∀ m token, q token = false → turn m token = Pure.pure a)
    (hend : ∀ place, q ⟨.endOfInput, place⟩ = false) (hm : ts.length < m) (hstop : Unless q ts) :
    Reads (f m) ts a ts := by
  obtain ⟨m, rfl⟩ := Nat.exists_eq_succ_of_ne_zero (Nat.ne_zero_of_lt hm)
  rw [Nat.succ_eq_add_one, hf]
  exact .peek_unless hstop hend fun token ht => by
    rw [hturn m token ht]
    exact .pure ts a

/-- **A token is passed.** -/
theorem advance {f : Token → Parser β} (h : Reads (f token) ts b rest) :
    Reads (Parser.advance >>= f) (token :: ts) b rest := by
  intro s hr hs
  have hne : s.rest ≠ [] := hs ▸ List.cons_ne_nil _ _
  have hrun := advance_run hr hne
  rw [ahead_of_cons hs] at hrun
  obtain ⟨t, hf, ht⟩ := h (s.pass 1) (hr.pass (List.length_pos_iff.mpr hne)) (by rw [Parsing.rest_pass, hs]; rfl)
  exact ⟨t, (bind_of_ok hrun).trans hf, ht⟩

/-- The newlines that come next are passed. -/
theorem skipNewlines {f : Unit → Parser β} (h : Reads (f ()) (pastNewlines ts) b rest) :
    Reads (Parser.skipNewlines >>= f) ts b rest := by
  intro s hr hs
  have hrun := skipNewlines_run hr
  obtain ⟨t, hf, ht⟩ := h (s.pass (newlines s.rest)) (hr.pass (List.takeWhile_prefix _).length_le)
    (by rw [Parsing.rest_pass, ← pastNewlines_eq, hs])
  exact ⟨t, (bind_of_ok hrun).trans hf, ht⟩

/-- A keyword that must come next does. -/
theorem expectKeyword {keyword : Keyword} {context : String} (hk : isKeyword keyword token = true)
    {f : Unit → Parser β} (h : Reads (f ()) ts b rest) :
    Reads (Parser.expectKeyword keyword context >>= f) (token :: ts) b rest :=
  bind (peek (pos hk (advance (pure ts ())))) h

/-- An operator that must come next does. -/
theorem expectOperator {op : Operator} {context : String} (hop : isOperator op token = true)
    {f : Unit → Parser β} (h : Reads (f ()) ts b rest) :
    Reads (Parser.expectOperator op context >>= f) (token :: ts) b rest :=
  bind (peek (pos hop (advance (pure ts ())))) h

/-- The result of a turn is put before those done, and is the first of those to come. -/
theorem onto {p : Parser (List α)} {done more : List α} {x : α}
    (h : Reads p ts ((x :: done).reverse ++ more) rest) : Reads p ts (done.reverse ++ x :: more) rest := by
  rwa [reverse_cons_append] at h

/-- A word that can be resolved is resolved. -/
theorem lift {x : Except ScriptError α} (hx : x = .ok a) {f : α → Parser β} (h : Reads (f a) ts b rest) :
    Reads ((liftM x : Parser α) >>= f) ts b rest := by
  subst hx
  exact bind (fun s hr hs => ⟨s, rfl, hr, hs⟩) h

end Reads

/-- The body of a function that is called `text` and starts on a line. -/
def functionStart (list : List Closer → Parser Sequence) (text : String) (line : Nat) : Parser Command := do
  let token ← peek
  if isReserved .leftBrace token then
    return .function line text (← group list).2
  else if isOperator .leftParen token then
    let (start, sequence) ← subshell list
    return .function line text (ofCommand (.subshell start sequence))
  else unexpected token (some ("'\x7b' to start the body of function '" ++ text ++ "'"))

/-- A pipeline after the signs that negate it. -/
def pipelineEnd (command : Parser Command) (negated : Bool) : Parser Pipeline := do
  let first ← command
  return ⟨negated, first, ← pipelineRest command (← bound) []⟩

end Parser

/-! ## 2. What reads a phrase -/

/-- The phrase is read by the function of the parser for it, if its loops may turn more often than there are tokens,
and if commands may be nested `n` deep. -/
def Recognizes (read : SourceReader) (n : Nat) (ts rest : List Token) : Phrase → Prop
  | .words words => ∀ m done, ts.length < m → Reads (forWords read m done) ts (done.reverse ++ words) rest
  | .simple named assignments words => ∀ m assignments' words', ts.length < m → named = !words'.isEmpty →
      Reads (simpleWords read m assignments' words') ts
        (assignments'.reverse ++ assignments, words'.reverse ++ words) rest
  | .branches branches => ∀ m done, ts.length < m →
      Reads (Parser.branches (list (commandAt read (n + 1))) m done) ts (done.reverse ++ branches) rest
  | .otherwise none => Unless (isReserved .else) ts ∧ ts = rest
  | .otherwise (some body) => ∃ token ts', ts = token :: ts' ∧ isReserved .else token = true ∧
      Reads (Parser.body (list (commandAt read (n + 1))) [.keyword .fi] "after 'else'") ts' body rest
  | .items none => Unless (isWordText "in") ts ∧ ts = rest
  | .items (some words) => ∃ token ts', ts = token :: ts' ∧ isWordText "in" token = true ∧
      ∀ m, ts'.length < m → Reads (forWords read m []) ts' words rest
  | .braces line body => Reads (group (list (commandAt read n))) ts (line, body) rest
  | .parens line body => Reads (subshell (list (commandAt read n))) ts (line, body) rest
  | .functionBody body => ∀ text line,
      Reads (functionStart (list (commandAt read n)) text line) ts (.function line text body) rest
  | .form command => Reads (Parser.command read (list (commandAt read n))) ts command rest
  | .command command => Reads (commandAt read (n + 1)) ts command rest
  | .pipes commands => ∀ m done, ts.length < m →
      Reads (pipelineRest (commandAt read (n + 1)) m done) ts (done.reverse ++ commands) rest
  | .pipeline p => ∀ m negated, ts.length < m →
      Reads (negations m negated >>= pipelineEnd (commandAt read (n + 1))) ts
        { p with negated := negated != p.negated } rest
  | .joined pipelines => ∀ m done, ts.length < m →
      Reads (andOrRest (commandAt read (n + 1)) m done) ts (done.reverse ++ pipelines) rest
  | .andOr statement => Reads (Parser.andOr (commandAt read (n + 1))) ts statement rest
  | .statements closers statements => ∀ m done, ts.length < m →
      Reads (Parser.statements (commandAt read (n + 1)) closers m done) ts (done.reverse ++ statements) rest
  | .list closers sequence => Reads (list (commandAt read (n + 1)) closers) ts sequence rest

namespace Parser

variable {read : SourceReader} {m : Nat} {ts ts₁ ts₂ ts₃ rest : List Token}
  {start token name thenToken doToken fi done left right : Token}
  {list : List Closer → Parser Sequence} {command : Parser Command} {closers : List Closer}
  {condition repeated : Sequence}

/-! ### Words

Each loop of the parser has one lemma for a turn that goes on. That it is over is the same for all of them
(`Reads.stop`). -/

/-- One more word of the list of a `for`. -/
theorem forWords_turn (hword : isWord token = true) {word : Word} (hresolved : token.word.resolve read = .ok word)
    {words all : List Word} (h : Reads (forWords read m (word :: words)) ts all rest) :
    Reads (forWords read (m + 1) words) (token :: ts) all rest :=
  .peek (.neg (by simp [hword]) (.advance (.lift hresolved h)))

/-- One more assignment, before any word has come. -/
theorem simpleWords_assignment (hword : isWord token = true) {name : List Char} {append : Bool}
    {parts : List WordPart} (hhead : token.assignment? = some (name, append, parts))
    (hvalid : Name.isValid name = true) {value : Word}
    (hresolved : Word.resolve read ⟨token.place.line, parts⟩ = .ok value) {assignments : List Assignment}
    {all : List Assignment × List Word}
    (h : Reads (simpleWords read m (⟨String.ofList name, append, value, token.place.line⟩ :: assignments) [])
      ts all rest) :
    Reads (simpleWords read (m + 1) assignments []) (token :: ts) all rest := by
  have hassignment : Reads (assignment? read token) ts
      (some ⟨String.ofList name, append, value, token.place.line⟩) ts := by
    rw [assignment?_eq, hhead]
    refine .neg ?_ (.lift hresolved (.pure ts _))
    simp [hvalid]
  exact .peek (.neg (by simp [hword]) (.advance (.pos rfl (.bind hassignment h))))

/-- One more word of a simple command. It is no assignment, or it is not the first. -/
theorem simpleWords_word (hword : isWord token = true) {assignments : List Assignment} {words : List Word}
    (hplain : words = [] → token.assignment? = none) {word : Word}
    (hresolved : token.word.resolve read = .ok word) {all : List Assignment × List Word}
    (h : Reads (simpleWords read m assignments (word :: words)) ts all rest) :
    Reads (simpleWords read (m + 1) assignments words) (token :: ts) all rest := by
  refine .peek (.neg (by simp [hword]) (.advance ?_))
  have hrest : Reads (Parser.word read token >>= fun word => simpleWords read m assignments (word :: words)) ts
      all rest := .lift hresolved h
  -- Only the first word is looked at for an assignment.
  cases words with
  | nil =>
    refine .pos rfl ?_
    rw [assignment?_eq, hplain rfl]
    exact .pure_bind hrest
  | cons first words => exact .neg Bool.false_ne_true (.pure_bind hrest)

/-- A simple command is its assignments and words, and no redirection and no parenthesis comes after it. -/
theorem simple_reads {assignments : List Assignment} {words : List Word}
    (hsimple : ∀ m, (token :: ts).length < m →
      Reads (simpleWords read m [] []) (token :: ts) (assignments, words) rest)
    (hfollow : Unless isForbidden rest) :
    Reads (simple read) (token :: ts)
      (.simple token.place.line words.head? (words.drop 1) assignments) rest := by
  refine .peek (.bound fun m hm => .bind (hsimple m hm) (.peek_unless hfollow (fun _ => rfl) fun token h => ?_))
  obtain ⟨hredirection, hparen⟩ := Bool.or_eq_false_iff.mp h
  refine .neg ?_ (.neg ?_ (.pure rest _))
  · simp [hredirection]
  · simp [hparen]

/-! ### Compound commands -/

/-- A body is a list with a statement in it. -/
theorem body_reads (h : Reads (list closers) ts repeated rest) (hne : repeated.statements ≠ [])
    (context : String) : Reads (body list closers context) ts repeated rest :=
  .bind h (.neg (by simpa using hne) (.pure rest _))

/-- One more `elif` with its condition and its body. -/
theorem branches_turn (helif : isReserved .elif token = true)
    (hcondition : Reads (list [.keyword .then]) ts condition (thenToken :: ts₁))
    (hcondition_ne : condition.statements ≠ []) (hthen : isKeyword .then thenToken = true)
    (hbody : Reads (list [.keyword .elif, .keyword .else, .keyword .fi]) ts₁ repeated ts₂)
    (hbody_ne : repeated.statements ≠ []) {branches all : List Branch}
    (h : Reads (Parser.branches list m (⟨condition, repeated⟩ :: branches)) ts₂ all rest) :
    Reads (Parser.branches list (m + 1) branches) (token :: ts) all rest :=
  .peek (.neg (by simp [helif]) (.advance (.bind (body_reads hcondition hcondition_ne _)
    (.expectKeyword hthen (.bind (body_reads hbody hbody_ne _) h)))))

/-- An `if` is read from its condition to its `fi`. -/
theorem choice_reads (hcondition : Reads (list [.keyword .then]) ts condition (thenToken :: ts₁))
    (hcondition_ne : condition.statements ≠ []) (hthen : isKeyword .then thenToken = true)
    (hbody : Reads (list [.keyword .elif, .keyword .else, .keyword .fi]) ts₁ repeated ts₂)
    (hbody_ne : repeated.statements ≠ []) {branches : List Branch}
    (hbranches : ∀ m, ts₂.length < m → Reads (Parser.branches list m []) ts₂ branches ts₃)
    {otherwise : Option Sequence}
    (hotherwise : match otherwise with
      | none => Unless (isReserved .else) ts₃ ∧ ts₃ = fi :: rest
      | some body => ∃ token ts', ts₃ = token :: ts' ∧ isReserved .else token = true ∧
        Reads (Parser.body list [.keyword .fi] "after 'else'") ts' body (fi :: rest))
    (hfi : isKeyword .fi fi = true) :
    Reads (choice list) (start :: ts)
      (.choice start.place.line condition repeated branches otherwise) rest := by
  refine .advance (.bind (body_reads hcondition hcondition_ne _) (.expectKeyword hthen
    (.bind (body_reads hbody hbody_ne _) (.bound fun m hm => .bind (hbranches m hm) ?_))))
  -- What comes after the branches is read in the same way with an `else` and without one.
  cases otherwise with
  | none =>
    obtain ⟨hstop, rfl⟩ := hotherwise
    exact .peek_unless hstop (fun _ => rfl) fun token ht =>
      .neg (by simp [ht]) (.pure_bind (.expectKeyword hfi (.pure rest _)))
  | some body =>
    obtain ⟨token, ts', rfl, helse, hbody⟩ := hotherwise
    exact .peek (.pos helse (.advance (.bind hbody (.pure_bind (.expectKeyword hfi (.pure rest _))))))

/-- A `while` or an `until` is read from its condition to its `done`. -/
theorem loop_reads {kind : LoopKind} {keyword : String}
    (hcondition : Reads (list [.keyword .do]) ts condition (doToken :: ts₁))
    (hcondition_ne : condition.statements ≠ []) (hdo : isKeyword .do doToken = true)
    (hbody : Reads (list [.keyword .done]) ts₁ repeated (done :: rest))
    (hbody_ne : repeated.statements ≠ []) (hdone : isKeyword .done done = true) :
    Reads (loop list kind keyword) (start :: ts) (.loop start.place.line kind condition repeated) rest :=
  .advance (.bind (body_reads hcondition hcondition_ne _) (.expectKeyword hdo
    (.bind (body_reads hbody hbody_ne _) (.expectKeyword hdone (.pure rest _)))))

/-- What comes after the words of a `for`: a semicolon or none, newlines, and the body between `do` and `done`. -/
theorem eachRest_reads (hseparated : pastNewlines (pastSemicolon ts₁) = doToken :: ts₂)
    (hdo : isKeyword .do doToken = true)
    (hbody : Reads (list [.keyword .done]) ts₂ repeated (done :: rest))
    (hbody_ne : repeated.statements ≠ []) (hdone : isKeyword .done done = true)
    (words : Option (List Word)) :
    Reads (eachRest list start name words) ts₁
      (.each start.place.line name.lexeme.text words repeated) rest := by
  -- What comes after the semicolon does not depend on whether there is one.
  have hend {ts : List Token} (hts : pastNewlines ts = doToken :: ts₂) {context : String} :
      Reads (skipNewlines >>= fun _ => expectKeyword .do context >>= fun _ =>
        body list [.keyword .done] "after 'do'" >>= fun repeated =>
          expectKeyword .done ("to close 'for' " ++ onLine start) >>= fun _ =>
            Pure.pure (Command.each start.place.line name.lexeme.text words repeated)) ts
        (.each start.place.line name.lexeme.text words repeated) rest := by
    refine .skipNewlines ?_
    rw [hts]
    exact .expectKeyword hdo (.bind (body_reads hbody hbody_ne _) (.expectKeyword hdone (.pure rest _)))
  cases ts₁ with
  | nil => cases hseparated
  | cons token ts =>
    by_cases hsemicolon : isOperator .semicolon token = true
    · rw [pastSemicolon, if_pos hsemicolon] at hseparated
      exact .peek (.pos hsemicolon (.advance (hend hseparated)))
    · rw [pastSemicolon, if_neg hsemicolon] at hseparated
      exact .peek (.neg hsemicolon (hend hseparated))

/-- A `for` is read from its name to its `done`. Its words are given after `in`, or there are none. -/
theorem each_reads (hword : isWord name = true) (hvalid : Name.isValid name.lexeme.text.toList = true)
    {words : Option (List Word)}
    (hitems : match words with
      | none => Unless (isWordText "in") (pastNewlines ts) ∧ pastNewlines ts = ts₁
      | some words => ∃ token ts', pastNewlines ts = token :: ts' ∧ isWordText "in" token = true ∧
        ∀ m, ts'.length < m → Reads (forWords read m []) ts' words ts₁)
    (hrest : Reads (eachRest list start name words) ts₁
      (.each start.place.line name.lexeme.text words repeated) rest) :
    Reads (each read list) (start :: name :: ts)
      (.each start.place.line name.lexeme.text words repeated) rest := by
  refine .advance (.peek (.neg (by simp [hword, hvalid]) (.advance (.skipNewlines ?_))))
  cases words with
  | none =>
    obtain ⟨hstop, hts⟩ := hitems
    rw [← hts] at hrest
    exact .peek_unless hstop (fun _ => rfl) fun token ht => .neg (by simp [ht]) hrest
  | some words =>
    obtain ⟨token, ts', hts, hin, hwords⟩ := hitems
    rw [hts]
    exact .peek (.pos hin (.advance (.bound fun m hm => .bind (hwords m hm) hrest)))

/-- A group is a body between braces. -/
theorem group_reads (hbody : Reads (list [.keyword .rightBrace]) ts repeated (done :: rest))
    (hne : repeated.statements ≠ []) (hclose : isKeyword .rightBrace done = true) :
    Reads (group list) (start :: ts) (start.place.line, repeated) rest :=
  .advance (.bind (body_reads hbody hne _) (.expectKeyword hclose (.pure rest _)))

/-- A subshell is a body between parentheses. -/
theorem subshell_reads (hbody : Reads (list [.rightParen]) ts repeated (done :: rest))
    (hne : repeated.statements ≠ []) (hclose : isOperator .rightParen done = true) :
    Reads (subshell list) (start :: ts) (start.place.line, repeated) rest :=
  .advance (.bind (body_reads hbody hne _) (.expectOperator hclose (.pure rest _)))

/-! ### Functions -/

/-- The body of a function with a good name starts after the newlines. -/
theorem functionBody_reads (hquoted : name.lexeme.isQuoted = false)
    (hvalid : isFunctionName name.lexeme.text.toList = true) {line : Nat} {c : Command}
    (h : Reads (functionStart list name.lexeme.text line) (pastNewlines ts) c rest) :
    Reads (functionBody list name line) ts c rest :=
  .neg (by simp [hquoted, hvalid]) (.skipNewlines h)

/-- A function that starts with its keyword and has no parentheses. -/
theorem functionKeyword_reads (hword : isWord name = true) (hsingle : Unless (isOperator .leftParen) ts)
    {c : Command} (h : Reads (functionBody list name start.place.line) ts c rest) :
    Reads (functionKeyword list) (start :: name :: ts) c rest :=
  .advance (.peek (.neg (by simp [hword]) (.advance (.peek_unless hsingle (fun _ => rfl) fun token ht =>
    .neg (by simp [ht]) h))))

/-- A function that starts with its keyword and has parentheses as well. -/
theorem functionKeyword_reads_parens (hword : isWord name = true) (hleft : isOperator .leftParen left = true)
    (hright : isOperator .rightParen right = true) {c : Command}
    (h : Reads (functionBody list name start.place.line) ts c rest) :
    Reads (functionKeyword list) (start :: name :: left :: right :: ts) c rest :=
  .advance (.peek (.neg (by simp [hword]) (.advance (.peek (.pos hleft (.advance (.expectOperator hright h)))))))

/-- A function that starts with its name. -/
theorem functionDefinition_reads (hleft : isOperator .leftParen left = true)
    (hright : isOperator .rightParen right = true) {c : Command}
    (h : Reads (functionBody list name name.place.line) ts c rest) :
    Reads (functionDefinition list) (name :: left :: right :: ts) c rest :=
  .advance (.expectOperator hleft (.expectOperator hright h))

/-! ### Commands and lists

What comes first says which command is read. A word is followed by a parenthesis if it is the name of a function,
and the other commands are known by their first token. -/

/-- A word is a lexeme with a text and parts. -/
theorem lexeme_of_isWord (h : isWord token = true) : ∃ text parts, token.lexeme = .word text parts := by
  unfold isWord at h
  split at h
  · exact ⟨_, _, ‹_›⟩
  · cases h

/-- A keyword in the position of a command is the lexeme of that keyword. -/
theorem lexeme_of_isReserved {keyword : Keyword} (h : isReserved keyword token = true) :
    token.lexeme = .reserved keyword := by
  unfold isReserved at h
  split at h
  · next heq => rw [heq, eq_of_beq h]
  · cases h

/-- An operator is the lexeme of that operator. -/
theorem lexeme_of_isOperator {op : Operator} (h : isOperator op token = true) :
    token.lexeme = .operator op := by
  unfold isOperator at h
  split at h
  · next heq => rw [heq, eq_of_beq h]
  · cases h

/-- A word without a parenthesis after it starts a simple command. -/
theorem command_reads_simple (hword : isWord token = true) (hsingle : Unless (isOperator .leftParen) ts)
    {c : Command} (h : Reads (simple read) (token :: ts) c rest) :
    Reads (Parser.command read list) (token :: ts) c rest := by
  obtain ⟨text, parts, hlexeme⟩ := lexeme_of_isWord hword
  refine .peek ?_
  simp only [hlexeme]
  exact .second_neg hsingle (fun _ => rfl) h

/-- A word with a parenthesis after it starts a function. -/
theorem command_reads_definition (hword : isWord token = true) (hleft : isOperator .leftParen left = true)
    {c : Command} (h : Reads (functionDefinition list) (token :: left :: ts) c rest) :
    Reads (Parser.command read list) (token :: left :: ts) c rest := by
  obtain ⟨text, parts, hlexeme⟩ := lexeme_of_isWord hword
  refine .peek ?_
  simp only [hlexeme]
  exact .second_pos hleft h

/-- A keyword says which compound command is read. -/
theorem command_reads_reserved {keyword : Keyword} (h : isReserved keyword token = true) {c : Command}
    (hkeyword : match keyword with
      | .if => Reads (choice list) (token :: ts) c rest
      | .while => Reads (loop list .while "while") (token :: ts) c rest
      | .until => Reads (loop list .until "until") (token :: ts) c rest
      | .for => Reads (each read list) (token :: ts) c rest
      | .leftBrace => ∃ line body, c = .group line body ∧ Reads (group list) (token :: ts) (line, body) rest
      | .function => Reads (functionKeyword list) (token :: ts) c rest
      | _ => False) :
    Reads (Parser.command read list) (token :: ts) c rest := by
  refine .peek ?_
  simp only [lexeme_of_isReserved h]
  -- Of the keywords that start a command, the brace alone gives a line and a body, which the command is made of.
  cases keyword with
  | leftBrace =>
    obtain ⟨line, body, rfl, hgroup⟩ := hkeyword
    exact .bind hgroup (.pure rest _)
  | «if» | «while» | «until» | «for» | function => exact hkeyword
  | _ => exact hkeyword.elim

/-- A parenthesis starts a subshell. -/
theorem command_reads_subshell (hparen : isOperator .leftParen token = true) {line : Nat} {body : Sequence}
    (h : Reads (subshell list) (token :: ts) (line, body) rest) :
    Reads (Parser.command read list) (token :: ts) (.subshell line body) rest := by
  refine .peek ?_
  simp only [lexeme_of_isOperator hparen]
  exact .bind h (.pure rest _)

/-- An arithmetic command is one token. -/
theorem command_reads_arithmetic (harithmetic : isArithmetic token = true) {expression : Word}
    (hresolved : token.word.resolve read = .ok expression) :
    Reads (Parser.command read list) (token :: ts) (.arithmetic token.place.line expression) ts := by
  obtain ⟨text, parts, hlexeme⟩ : ∃ text parts, token.lexeme = .arithmetic text parts := by
    unfold isArithmetic at harithmetic
    split at harithmetic
    · exact ⟨_, _, ‹_›⟩
    · cases harithmetic
  refine .peek ?_
  simp only [hlexeme]
  exact .advance (.lift hresolved (.pure ts _))

/-- One more sign that negates the pipeline. -/
theorem negations_turn (hbang : isReserved .bang token = true) {negated : Bool} {p : Pipeline}
    (h : Reads (negations m (!negated) >>= pipelineEnd command) ts p rest) :
    Reads (negations (m + 1) negated >>= pipelineEnd command) (token :: ts) p rest := by
  -- The turn is written out so that its token can be looked at before the command comes.
  have hturn : negations (m + 1) negated = (Parser.peek >>= fun token =>
      if !isReserved .bang token then return negated else Parser.advance >>= fun _ => negations m !negated) := rfl
  rw [hturn]
  refine .assoc (.peek ?_)
  rw [if_neg (by simp [hbang])]
  exact .assoc (.advance h)

/-- A pipeline is its first command and those after the bars. -/
theorem pipelineEnd_reads {first : Command} {commands : List Command} (hfirst : Reads command ts first ts₁)
    (hrest : ∀ m, ts₁.length < m → Reads (pipelineRest command m []) ts₁ commands rest) (negated : Bool) :
    Reads (pipelineEnd command negated) ts ⟨negated, first, commands⟩ rest :=
  .bind hfirst (.bound fun m hm => .bind (hrest m hm) (.pure rest _))

/-- A pipeline starts with its signs, none of which has been read. -/
theorem pipeline_reads {p : Pipeline} (h : ∀ m, ts.length < m →
      Reads (negations m false >>= pipelineEnd command) ts { p with negated := false != p.negated } rest) :
    Reads (pipeline command) ts p rest := by
  cases p
  simp only [Bool.false_bne] at h
  exact .bound h

/-- One more bar and the command after it. -/
theorem pipelineRest_turn (hpipe : isOperator .pipe token = true) {c : Command}
    (hc : Reads command (pastNewlines ts) c ts₁) {commands all : List Command}
    (h : Reads (pipelineRest command m (c :: commands)) ts₁ all rest) :
    Reads (pipelineRest command (m + 1) commands) (token :: ts) all rest :=
  .peek (.neg (by simp [hpipe]) (.advance (.skipNewlines (.bind hc h))))

/-- One more `&&` or `||` and the pipeline after it. -/
theorem andOrRest_turn {connective : Connective} (hconnective : connective? token = some connective)
    {p : Pipeline} (hp : Reads (pipeline command) (pastNewlines ts) p ts₁) {pipelines all : List Joined}
    (h : Reads (andOrRest command m (⟨connective, p⟩ :: pipelines)) ts₁ all rest) :
    Reads (andOrRest command (m + 1) pipelines) (token :: ts) all rest := by
  refine .peek ?_
  rw [hconnective]
  exact .advance (.skipNewlines (.bind hp h))

/-- A statement is its first pipeline and those it is joined to. -/
theorem andOr_reads {first : Pipeline} {pipelines : List Joined} (hfirst : Reads (pipeline command) ts first ts₁)
    (hrest : ∀ m, ts₁.length < m → Reads (andOrRest command m []) ts₁ pipelines rest) :
    Reads (andOr command) ts ⟨first, pipelines⟩ rest :=
  .bind hfirst (.bound fun m hm => .bind (hrest m hm) (.pure rest _))

variable {statement : AndOrList} {statements all : List AndOrList}

/-- The last statement of a list has no separator after it. -/
theorem statements_last (isOpen : ∃ token ∈ ts.head?, isClosed closers token = false)
    (h : Reads (andOr command) ts statement rest) (hstop : Unless isSeparator rest)
    (statements : List AndOrList) :
    Reads (Parser.statements command closers (m + 1) statements) ts (statement :: statements).reverse rest := by
  obtain ⟨token, htoken, hopen⟩ := isOpen
  obtain ⟨ts, rfl⟩ := List.head?_eq_some_iff.mp htoken
  refine .peek (.neg (by simp [hopen]) (.bind h (.peek_unless hstop (fun _ => rfl) fun token hseparator => ?_)))
  -- What comes next decides whether the list goes on: it is no semicolon, no `&` and no newline.
  unfold isSeparator isOperator Lexeme.isNewline at hseparator
  split
  · next heq => simp [heq] at hseparator
  · next heq => simp [heq] at hseparator
  · next heq => simp [heq] at hseparator
  · exact .pure rest _

/-- One more statement, and a semicolon after it. -/
theorem statements_semicolon (isOpen : ∃ token ∈ ts.head?, isClosed closers token = false)
    (h : Reads (andOr command) ts statement (token :: ts₁)) (hsemicolon : isOperator .semicolon token = true)
    (hmore : Reads (Parser.statements command closers m (statement :: statements)) (pastNewlines ts₁) all rest) :
    Reads (Parser.statements command closers (m + 1) statements) ts all rest := by
  obtain ⟨first, hfirst, hopen⟩ := isOpen
  obtain ⟨ts, rfl⟩ := List.head?_eq_some_iff.mp hfirst
  refine .peek (.neg (by simp [hopen]) (.bind h (.peek ?_)))
  simp only [lexeme_of_isOperator hsemicolon]
  exact .advance (.skipNewlines hmore)

/-- One more statement, and a newline after it. -/
theorem statements_newline (isOpen : ∃ token ∈ ts.head?, isClosed closers token = false)
    (h : Reads (andOr command) ts statement (token :: ts₁))
    (hnewline : Lexeme.isNewline token.lexeme = true)
    (hmore : Reads (Parser.statements command closers m (statement :: statements)) (pastNewlines ts₁) all rest) :
    Reads (Parser.statements command closers (m + 1) statements) ts all rest := by
  obtain ⟨first, hfirst, hopen⟩ := isOpen
  obtain ⟨ts, rfl⟩ := List.head?_eq_some_iff.mp hfirst
  have hlexeme : token.lexeme = .newline := by
    unfold Lexeme.isNewline at hnewline
    split at hnewline
    · assumption
    · cases hnewline
  refine .peek (.neg (by simp [hopen]) (.bind h (.peek ?_)))
  simp only [hlexeme]
  refine .skipNewlines ?_
  rwa [pastNewlines_cons, if_pos hnewline]

/-- A list starts after the newlines. -/
theorem list_reads (h : ∀ m, (pastNewlines ts).length < m →
      Reads (Parser.statements command closers m []) (pastNewlines ts) all rest) :
    Reads (Parser.list command closers) ts ⟨all⟩ rest :=
  .skipNewlines (.bound fun m hm => .bind (h m hm) (.pure rest _))

end Parser

/-! ## 3. The parser recognizes the grammar -/

/-- There are no more tokens after the newlines than there were. -/
theorem pastNewlines_length (ts : List Token) : (pastNewlines ts).length ≤ ts.length :=
  (pastNewlines_suffix ts).length_le

/-- A loop that may turn more often than there are tokens turns, and may then turn once less. The same is so of
commands nested in a command. -/
theorem exists_turn {ts : List Token} {n : Nat} (hn : ts.length < n) : ∃ k, n = k + 1 ∧ ts.length ≤ k :=
  ⟨n - 1, by omega, by omega⟩

/-- **What the grammar says is read**, if commands may be nested as deep as there are tokens. -/
theorem Spells.recognized {read : SourceReader} {starts : List Token → Command → Prop} {ts rest : List Token}
    {phrase : Phrase} (h : Spells read starts ts phrase rest) {n : Nat} (hn : ts.length ≤ n) :
    Recognizes read n ts rest phrase := by
  -- By induction on the derivation. Every loop may turn `m` times, more often than there are tokens left, and every
  -- turn takes a token; commands may be nested `n` deep, and every command that holds a list takes a token first.
  -- So in each case one of the two bounds loses one together with the tokens, and the induction hypotheses apply.
  induction h generalizing n with
  | noWord stop =>
    intro m done hm
    rw [List.append_nil]
    exact .stop (f := (forWords read · done)) (fun _ => rfl) (fun _ _ hword => by simp [hword]) (fun _ => rfl) hm stop
  | word isWord resolved more ih =>
    intro m done hm
    obtain ⟨m, rfl, hlt⟩ := exists_turn hm
    exact forWords_turn isWord resolved (.onto (ih (Nat.le_of_succ_le hn) m _ hlt))
  | simpleEnd stop =>
    intro m assignments words hm _
    rw [List.append_nil, List.append_nil]
    exact .stop (f := (simpleWords read · assignments words)) (fun _ => rfl) (fun _ _ hword => by simp [hword])
      (fun _ => rfl) hm stop
  | assignment isWord head valid resolved more ih =>
    intro m assignments words hm hnamed
    obtain rfl : words = [] := by simpa using hnamed
    obtain ⟨m, rfl, hlt⟩ := exists_turn hm
    refine simpleWords_assignment isWord head valid resolved ?_
    rw [← reverse_cons_append]
    exact ih (Nat.le_of_succ_le hn) m _ [] hlt rfl
  | argument isWord plain resolved more ih =>
    intro m assignments words hm hnamed
    obtain ⟨m, rfl, hlt⟩ := exists_turn hm
    refine simpleWords_word isWord (fun hnil => plain (by simp [hnamed, hnil])) resolved ?_
    rw [← reverse_cons_append]
    exact ih (Nat.le_of_succ_le hn) m assignments _ hlt rfl
  | simpleCommand isWord single words_spell follow ih =>
    exact command_reads_simple isWord single (simple_reads (fun m hm => ih hn m [] [] hm rfl) follow)
  | arithmeticCommand isArithmetic resolved => exact command_reads_arithmetic isArithmetic resolved
  | @choice _ _ _ ts ts₁ ts₂ ts₃ rest _ _ _ otherwise isIf condition_spells condition_ne isThen body_spells body_ne
      branches_spell otherwise_spells isFi ih_condition ih_body ih_branches ih_otherwise =>
    obtain ⟨n, rfl, hle⟩ := exists_turn hn
    have h₁ := condition_spells.suffix.length_le
    have h₂ := body_spells.suffix.length_le
    have h₃ := branches_spell.suffix.length_le
    rw [List.length_cons] at h₁
    refine command_reads_reserved isIf (choice_reads (ih_condition hle) condition_ne isThen (ih_body (by omega))
      body_ne (fun m hm => ih_branches (by omega) m [] hm) ?_ isFi)
    -- The list before `else` or `fi` is where it was, so that a list may follow or not.
    have hotherwise := ih_otherwise (n := n) (by omega)
    cases otherwise <;> exact hotherwise
  | noBranch stop =>
    intro m done hm
    rw [List.append_nil]
    exact .stop (f := (Parser.branches _ · done)) (fun _ => rfl) (fun _ _ helif => by simp [helif]) (fun _ => rfl) hm stop
  | branch isElif condition_spells condition_ne isThen body_spells body_ne more ih_condition ih_body ih =>
    intro m done hm
    obtain ⟨m, rfl, hlt⟩ := exists_turn hm
    rw [List.length_cons] at hn hlt
    have h₁ := condition_spells.suffix.length_le
    have h₂ := body_spells.suffix.length_le
    rw [List.length_cons] at h₁
    exact branches_turn isElif (ih_condition (by omega)) condition_ne isThen (ih_body (by omega)) body_ne
      (.onto (ih (by omega) m _ (by omega)))
  | noOtherwise stop => exact ⟨stop, rfl⟩
  | otherwise isElse body_spells body_ne ih =>
    exact ⟨_, _, rfl, isElse, body_reads (ih (Nat.le_of_succ_le hn)) body_ne _⟩
  | @loop kind _ _ _ _ _ _ _ _ isLoop condition_spells condition_ne isDo body_spells body_ne isDone ih_condition
      ih_body =>
    obtain ⟨n, rfl, hle⟩ := exists_turn hn
    have h₁ := condition_spells.suffix.length_le
    rw [List.length_cons] at h₁
    have hbody := ih_body (n := n) (by omega)
    refine command_reads_reserved isLoop ?_
    cases kind <;> exact loop_reads (ih_condition hle) condition_ne isDo hbody body_ne isDone
  | noItems stop => exact ⟨stop, rfl⟩
  | items isIn words_spell ih =>
    exact ⟨_, _, rfl, isIn, fun m hm => ih (Nat.le_of_succ_le hn) m [] hm⟩
  | @each start name _ _ ts ts₁ ts₂ _ words _ isFor isWord valid items_spell separated isDo body_spells body_ne
      isDone ih_items ih_body =>
    obtain ⟨n, rfl, hle⟩ := exists_turn hn
    rw [List.length_cons] at hle
    have h₁ := items_spell.suffix.length_le
    have h₂ := pastNewlines_length ts
    have h₃ := ((pastNewlines_suffix _).trans (pastSemicolon_suffix ts₁)).length_le
    rw [separated, List.length_cons] at h₃
    refine command_reads_reserved isFor (each_reads isWord valid ?_
      (eachRest_reads separated isDo (ih_body (by omega)) body_ne isDone words))
    have hitems := ih_items (n := n) (by omega)
    cases words <;> exact hitems
  | braces isBrace body_spells body_ne isClose ih =>
    obtain ⟨n, rfl, hle⟩ := exists_turn hn
    exact group_reads (ih hle) body_ne isClose
  | parens isParen body_spells body_ne isClose ih =>
    obtain ⟨n, rfl, hle⟩ := exists_turn hn
    exact subshell_reads (ih hle) body_ne isClose
  | group spells ih =>
    cases spells with
    | braces isBrace => exact command_reads_reserved isBrace ⟨_, _, rfl, ih hn⟩
  | subshell spells ih =>
    cases spells with
    | parens isParen => exact command_reads_subshell isParen (ih hn)
  | bracedBody spells ih =>
    cases spells with
    | braces isBrace => exact fun text line => .peek (.pos isBrace (.bind (ih hn) (.pure _ _)))
  | subshellBody spells ih =>
    cases spells with
    | parens isParen =>
      intro text line
      have hbrace := lexeme_of_isOperator isParen
      exact .peek (.neg (by simp [isReserved, hbrace]) (.pos isParen (.bind (ih hn) (.pure _ _))))
  | keywordFunction isFunction isWord single unquoted valid body_spells ih =>
    have hbody := ih ((pastNewlines_length _).trans (Nat.le_of_succ_le (Nat.le_of_succ_le hn)))
    exact command_reads_reserved isFunction
      (functionKeyword_reads isWord single (functionBody_reads unquoted valid (hbody _ _)))
  | @keywordFunctionParens _ _ _ _ ts _ _ isFunction isWord isLeft isRight unquoted valid body_spells ih =>
    have hle := pastNewlines_length ts
    simp only [List.length_cons] at hn
    have hbody := ih (n := n) (by omega)
    exact command_reads_reserved isFunction
      (functionKeyword_reads_parens isWord isLeft isRight (functionBody_reads unquoted valid (hbody _ _)))
  | @namedFunction _ _ _ ts _ _ isWord isLeft isRight unquoted valid body_spells ih =>
    have hle := pastNewlines_length ts
    simp only [List.length_cons] at hn
    have hbody := ih (n := n) (by omega)
    exact command_reads_definition isWord isLeft
      (functionDefinition_reads isLeft isRight (functionBody_reads unquoted valid (hbody _ _)))
  | command start spells ih => exact ih hn
  | noPipe stop =>
    intro m done hm
    rw [List.append_nil]
    exact .stop (f := (pipelineRest _ · done)) (fun _ => rfl) (fun _ _ hpipe => by simp [hpipe]) (fun _ => rfl) hm stop
  | @pipe _ ts ts₁ _ _ _ isPipe command_spells more ih_command ih =>
    intro m done hm
    obtain ⟨m, rfl, hlt⟩ := exists_turn hm
    have h₁ := command_spells.suffix.length_le
    have h₂ := pastNewlines_length ts
    rw [List.length_cons] at hn hlt
    exact pipelineRest_turn isPipe (ih_command (by omega)) (.onto (ih (by omega) m _ (by omega)))
  | pipeline unnegated first_spells more ih_first ih =>
    intro m negated hm
    have h₁ := first_spells.suffix.length_le
    rw [Bool.bne_false]
    -- The signs have come to an end, which is again a loop that is over.
    have hsigns : Reads (negations m negated) _ negated _ :=
      .stop (f := (negations · negated)) (fun _ => rfl) (fun _ _ hbang => by simp [hbang]) (fun _ => rfl) hm unnegated
    exact .bind hsigns (pipelineEnd_reads (ih_first hn) (fun m hm => ih (h₁.trans hn) m [] hm) negated)
  | @bang _ _ _ p isBang spells ih =>
    intro m negated hm
    obtain ⟨m, rfl, hlt⟩ := exists_turn hm
    have hmore := ih (Nat.le_of_succ_le hn) m (!negated) hlt
    -- A sign that is read and one that is not give the same pipeline.
    have hnegated : ((!negated) != p.negated) = (negated != !p.negated) := by
      cases negated <;> cases p.negated <;> rfl
    rw [hnegated] at hmore
    exact negations_turn isBang hmore
  | noConnective stop =>
    intro m done hm
    rw [List.append_nil]
    refine .stop (f := (andOrRest _ · done)) (fun _ => rfl) (fun _ token hconnective => ?_) (fun _ => rfl) hm stop
    have hnone : connective? token = none := by simpa [isConnective] using hconnective
    rw [hnone]
  | @connective _ ts ts₁ _ _ _ _ isConnective pipeline_spells more ih_pipeline ih =>
    intro m done hm
    obtain ⟨m, rfl, hlt⟩ := exists_turn hm
    have h₁ := pipeline_spells.suffix.length_le
    have h₂ := pastNewlines_length ts
    rw [List.length_cons] at hn hlt
    have hpipeline := pipeline_reads fun m hm => ih_pipeline (n := n) (by omega) m false hm
    exact andOrRest_turn isConnective hpipeline (.onto (ih (by omega) m _ (by omega)))
  | andOr first_spells more ih_first ih =>
    have h₁ := first_spells.suffix.length_le
    exact andOr_reads (pipeline_reads fun m hm => ih_first hn m false hm) fun m hm => ih (h₁.trans hn) m [] hm
  | closed stop =>
    intro m done hm
    rw [List.append_nil]
    refine .stop (f := (Parser.statements _ _ · done)) (q := fun token => !isClosed _ token) (fun _ => rfl)
      (fun _ token hclosed => ?_) (fun _ => rfl) hm (by simpa [Unless] using stop)
    exact if_pos (by simpa using hclosed)
  | last isOpen spells stop ih =>
    intro m done hm
    obtain ⟨m, rfl⟩ := Nat.exists_eq_succ_of_ne_zero (Nat.ne_zero_of_lt hm)
    have hlast := statements_last (m := m) isOpen (ih hn) stop done
    rwa [List.reverse_cons] at hlast
  | @semicolon _ _ _ ts₁ _ _ _ isOpen spells isSemicolon more ih ih_more =>
    intro m done hm
    obtain ⟨m, rfl⟩ := Nat.exists_eq_succ_of_ne_zero (Nat.ne_zero_of_lt hm)
    have h₁ := spells.suffix.length_le
    have h₂ := pastNewlines_length ts₁
    rw [List.length_cons] at h₁
    exact statements_semicolon isOpen (ih hn) isSemicolon (.onto (ih_more (by omega) m _ (by omega)))
  | @newline _ _ _ ts₁ _ _ _ isOpen spells isNewline more ih ih_more =>
    intro m done hm
    obtain ⟨m, rfl⟩ := Nat.exists_eq_succ_of_ne_zero (Nat.ne_zero_of_lt hm)
    have h₁ := spells.suffix.length_le
    have h₂ := pastNewlines_length ts₁
    rw [List.length_cons] at h₁
    exact statements_newline isOpen (ih hn) isNewline (.onto (ih_more (by omega) m _ (by omega)))
  | @list _ ts _ _ spells ih =>
    exact list_reads fun m hm => ih ((pastNewlines_length ts).trans hn) m [] hm

/-! ## 4. What a script is -/

variable {read : SourceReader} {starts : List Token → Command → Prop} {inside : List Token} {sequence : Sequence}

/-- **Tokens that are not too many and spell a list** are those of a script. -/
theorem Spells.parseTokens (h : Spells read starts inside (.list [] sequence) []) (hmax : inside.length < maxTokens)
    (stop : Place) : parseTokens read (inside ++ [⟨.endOfInput, stop⟩]) = .ok sequence := by
  have hscript : Reads (script read) inside sequence [] := by
    refine .bound fun m hm => .bind (h.recognized (Nat.le_of_lt hm)) fun s hr hs => ⟨s, ?_, hr, hs⟩
    -- All tokens are passed, so the sign of the end is ahead, which is what a script asks for.
    have hlexeme : (s.ahead 0).lexeme = .endOfInput := by
      rw [Parsing.ahead, hs]
      rfl
    refine (bind_of_ok (show peek s = .ok (s.ahead 0, s) from rfl)).trans ?_
    rw [hlexeme]
    rfl
  obtain ⟨t, ht, -⟩ := hscript _ (Parsing.start_hasRoom stop hmax) rfl
  rw [parseTokens_eq _ _ hmax, ht]
  rfl

end Shell
