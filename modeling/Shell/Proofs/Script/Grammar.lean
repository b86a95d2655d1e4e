/-
What the grammar makes of tokens.

Each parser of the grammar reads a phrase: where it comes to a value, the tokens that it has passed are those of the
phrase (`Spelled`). And it does the same whatever comes after the tokens it is interested in. Both are said at once by
`Parser.Goes`, in one theorem for each parser, in the order of the grammar. The loops are by induction on their bounds,
of which each turn takes one; commands in commands are by induction on how deep they are nested (`commandAt_goes`).
-/
import Shell.Proofs.Script.Passing

set_option autoImplicit false

namespace Shell.Parser

variable {P : Pairing} {k k' : Nat} {s s' : Parsing} {read read' : SourceReader}
  {list list' : List Closer → Parser Sequence} {command command' : Parser Command} {token : Token}

/-! ## 1. Tokens

What the grammar asks for by name is solid: it is no newline and not the end, so there is a token to pass. -/

theorem isSolid_of_isWord (h : isWord token = true) : token.IsSolid :=
  ⟨fun heq => by simp [isWord, heq] at h, fun heq => by simp [isWord, heq] at h⟩

theorem isSolid_of_isReserved {keyword : Keyword} (h : isReserved keyword token = true) :
    token.IsSolid :=
  ⟨fun heq => by simp [isReserved, heq] at h, fun heq => by simp [isReserved, heq] at h⟩

theorem isSolid_of_isOperator {op : Operator} (h : isOperator op token = true) : token.IsSolid :=
  ⟨fun heq => by simp [isOperator, heq] at h, fun heq => by simp [isOperator, heq] at h⟩

theorem isSolid_of_isWordText {text : String} (h : isWordText text token = true) : token.IsSolid :=
  ⟨fun heq => by simp [isWordText, heq] at h, fun heq => by simp [isWordText, heq] at h⟩

theorem isSolid_of_isKeyword {keyword : Keyword} (h : isKeyword keyword token = true) : token.IsSolid :=
  (Bool.or_eq_true_iff.mp h).elim isSolid_of_isReserved isSolid_of_isWordText

theorem isSolid_of_connective? {connective : Connective} (h : connective? token = some connective) :
    token.IsSolid :=
  ⟨fun heq => by simp [connective?, heq] at h, fun heq => by simp [connective?, heq] at h⟩

/-- A keyword that must come is passed, if it comes. -/
theorem expectKeyword_goes (hs : Twin P k k' s s') {keyword : Keyword} {context : String} :
    Goes P (fun _ rest => ∃ token, s.rest = token :: rest ∧ isKeyword keyword token = true) .solid
      (expectKeyword keyword context) (expectKeyword keyword context) s s' := by
  unfold expectKeyword
  refine .peek hs (.ite (fun hkeyword => ?_) fun _ => .fail nofun)
  exact .advance hs (isSolid_of_isKeyword hkeyword) fun _ _ _ hrest => .pure nofun ⟨_, hrest, hkeyword⟩

/-- An operator that must come is passed, if it comes. -/
theorem expectOperator_goes (hs : Twin P k k' s s') {op : Operator} {context : String} :
    Goes P (fun _ rest => ∃ token, s.rest = token :: rest ∧ isOperator op token = true) .solid
      (expectOperator op context) (expectOperator op context) s s' := by
  unfold expectOperator
  refine .peek hs (.ite (fun hop => ?_) fun _ => .fail nofun)
  exact .advance hs (isSolid_of_isOperator hop) fun _ _ _ hrest => .pure nofun ⟨_, hrest, hop⟩

/-! ## 2. Simple commands -/

/-- A word is resolved, and no token is passed. -/
theorem word_goes (hread : P.Readers read read') (h : P.sound → token.IsSound P.size) :
    Goes P (fun word rest => rest = s.rest ∧ token.word.resolve read = .ok word) .settled (word read token)
      (word read' token) s s' :=
  .lift (Word.resolve_agrees hread _ fun hsound => (h hsound).fresh) fun _ hword => ⟨rfl, hword⟩

/-- The parser looks for an assignment as the grammar does. -/
theorem assignment?_eq (read : SourceReader) (token : Token) :
    assignment? read token =
      match token.assignment? with
      | none => return none
      | some (name, append, parts) => do
        if !Name.isValid name then
          fail (.invalidAssignmentName (String.ofList name)) token.place
        let value ← liftM (Word.resolve read ⟨token.place.line, parts⟩)
        return some ⟨String.ofList name, append, value, token.place.line⟩ := by
  unfold assignment? Token.assignment?
  cases token.lexeme.parts with
  | nil => rfl
  | cons part parts =>
    cases part with
    | literal head =>
      simp only
      cases assignmentHead? head.toList <;> rfl
    | _ => rfl

/-- An assignment is one by its head, and has a name. -/
theorem assignment?_goes (hread : P.Readers read read') (hs : Twin P k k' s s') (h : P.sound → token.IsSound P.size) :
    Goes P (fun found rest => rest = s.rest ∧ (found = none → token.assignment? = none) ∧
        ∀ a ∈ found, ∃ name append parts value, token.assignment? = some (name, append, parts) ∧
          Name.isValid name = true ∧ Word.resolve read ⟨token.place.line, parts⟩ = .ok value ∧
          a = ⟨String.ofList name, append, value, token.place.line⟩)
      .settled (assignment? read token) (assignment? read' token) s s' := by
  rw [assignment?_eq, assignment?_eq]
  cases hsome : token.assignment? with
  | none => exact .pure nofun ⟨rfl, fun _ => rfl, nofun⟩
  | some assignment =>
    obtain ⟨name, append, parts⟩ := assignment
    refine .ite (fun _ => .fail_bind nofun) fun hvalid => ?_
    have hvalid : Name.isValid name = true := by simpa using hvalid
    have hvalue := Word.resolve_agrees hread ⟨token.place.line, parts⟩ fun hsound =>
      isFresh_of_assignment? (h hsound).fresh hsome
    refine .bind hs (.lift hvalue (V := fun value rest => rest = s.rest ∧ Word.resolve read _ = .ok value)
      fun _ hvalue => ⟨rfl, hvalue⟩) fun value t t' _ ⟨hrest, hvalue⟩ => .pure nofun ⟨hrest, nofun, ?_⟩
    rintro _ ⟨⟩
    exact ⟨name, append, parts, value, rfl, hvalid, hvalue, rfl⟩

/-- What the words of a simple command come to that are read after others: behind the name there are no assignments. -/
def FromWords (read : SourceReader) (ts : List Token) (assignments : List Assignment) (words : List Word)
    (r : List Assignment × List Word) (rest : List Token) : Prop :=
  ∃ assignments' words', r = (assignments.reverse ++ assignments', words.reverse ++ words') ∧
    Spelled read ts (.simple (!words.isEmpty) assignments' words') rest ∧ (words ≠ [] → assignments' = [])

/-- One turn of reading the words of a simple command, which starts with a word. -/
theorem simpleWords_turn (hread : P.Readers read read') {m m' : Nat} {assignments : List Assignment}
    {words : List Word}
    (ih : ∀ {j j' : Nat} {t t' : Parsing} {assignments : List Assignment} {words : List Word},
      j < k → j' < k' → Twin P j j' t t' →
      Goes P (FromWords read t.rest assignments words) .settled (simpleWords read m assignments words)
        (simpleWords read' m' assignments words) t t')
    (hs : Twin P k k' s s') (hword : isWord (s.ahead 0) = true) :
    Goes P (FromWords read s.rest assignments words) .solid (simpleWords read (m + 1) assignments words)
      (simpleWords read' (m' + 1) assignments words) s s' := by
  have hsolid := isSolid_of_isWord hword
  -- A word is an argument if it is no assignment, or if an argument has come before it.
  have hargument {j j' : Nat} {t t' : Parsing} (hj : j < k) (hj' : j' < k') (ht : Twin P j j' t t')
      (hrest : s.rest = s.ahead 0 :: t.rest) (hplain : words = [] → (s.ahead 0).assignment? = none) :
      Goes P (FromWords read s.rest assignments words) .settled
        (word read (s.ahead 0) >>= fun w => simpleWords read m assignments (w :: words))
        (word read' (s.ahead 0) >>= fun w => simpleWords read' m' assignments (w :: words)) t t' := by
    refine .bind ht (word_goes hread (hs.isSound hsolid)) fun w {u u'} hu ⟨hsame, hw⟩ => ?_
    refine (ih hj hj' hu).mono fun r rest ⟨assignments', words', hr, hspells, hnone⟩ => ?_
    obtain rfl := hnone (List.cons_ne_nil _ _)
    rw [hsame] at hspells
    refine ⟨[], w :: words', by simp [hr], ?_, fun _ => rfl⟩
    rw [hrest]
    exact .argument hword (fun h => hplain (by simpa using h)) hw hspells
  -- What the token is has been asked already, so only the branch of a word is left.
  unfold simpleWords
  refine .peek hs (.ite (fun hc => by simp [hword] at hc) fun _ => ?_)
  refine .advance hs hsolid fun hj hj' ht hrest => .ite (fun hempty => ?_) fun hne => ?_
  · obtain rfl : words = [] := List.isEmpty_iff.mp hempty
    refine .bind ht (assignment?_goes hread ht (hs.isSound hsolid)) fun found {t t'} ht ⟨hsame, hnone, hsome⟩ => ?_
    rw [← hsame] at hrest
    cases found with
    | none => exact hargument hj hj' ht hrest fun _ => hnone rfl
    | some a =>
      obtain ⟨name, append, parts, value, hhead, hvalid, hvalue, rfl⟩ := hsome a rfl
      refine (ih hj hj' ht).mono fun r rest ⟨assignments', words', hr, hspells, _⟩ => ?_
      refine ⟨⟨String.ofList name, append, value, (s.ahead 0).place.line⟩ :: assignments', words', by simp [hr],
        ?_, fun h => absurd rfl h⟩
      rw [hrest]
      exact .assignment hword hhead hvalid hvalue hspells
  · exact .pure_bind (hargument hj hj' ht hrest fun h => absurd (List.isEmpty_iff.mpr h) hne)

/-- The assignments and words of a simple command, up to a token that is no word. -/
theorem simpleWords_goes (hread : P.Readers read read') {m m' : Nat} {assignments : List Assignment}
    {words : List Word} (hm : k < m) (hm' : k' < m') (hs : Twin P k k' s s') :
    Goes P (FromWords read s.rest assignments words) .settled (simpleWords read m assignments words)
      (simpleWords read' m' assignments words) s s' := by
  induction m generalizing m' k k' s s' assignments words with
  | zero => exact absurd hm (Nat.not_lt_zero _)
  | succ m ih =>
    obtain ⟨m', rfl⟩ := Nat.exists_eq_succ_of_ne_zero (Nat.ne_zero_of_lt hm')
    by_cases hword : isWord (s.ahead 0) = true
    · exact (simpleWords_turn hread (fun hj hj' ht => ih (by omega) (by omega) ht) hs hword).settled
    · unfold simpleWords
      refine .peek hs (.ite (fun _ => .pure nofun ⟨[], [], by simp, ?_, fun _ => rfl⟩) fun hc => by simp [hword] at hc)
      exact .simpleEnd (unless_of_ahead (eq_false_of_ne_true hword))

/-- **A simple command** has a word in it. A parenthesis and a redirection are refused after it. -/
theorem simple_goes (hread : P.Readers read read') (hs : Twin P k k' s s') (hword : isWord (s.ahead 0) = true)
    (hsingle : isOperator .leftParen (s.ahead 1) = false) :
    Goes P (fun c rest => Spelled read s.rest (.form c) rest) .solid (simple read) (simple read') s s' := by
  have hrest := Parsing.rest_of_ahead (isSolid_of_isWord hword).inside
  -- What is asked of the second token ahead is asked of the tokens after the first.
  have hsingle : Unless (isOperator .leftParen) (s.rest.drop 1) := by
    intro token hmem
    unfold Parsing.ahead at hsingle
    rw [← List.head?_drop, Option.mem_def.mp hmem] at hsingle
    exact hsingle
  unfold simple
  refine .peek hs (.bound hs fun {j j' m m'} hm hm' _ _ hs => ?_)
  obtain ⟨m, rfl⟩ := Nat.exists_eq_succ_of_ne_zero (Nat.ne_zero_of_lt hm)
  obtain ⟨m', rfl⟩ := Nat.exists_eq_succ_of_ne_zero (Nat.ne_zero_of_lt hm')
  -- The first turn passes a word, so the command is read from at least one token.
  have hturn : Goes P (FromWords read s.rest [] []) .solid (simpleWords read (m + 1) [] [])
      (simpleWords read' (m' + 1) [] []) s s' :=
    simpleWords_turn hread (fun hj hj' ht => simpleWords_goes hread (by omega) (by omega) ht) hs hword
  refine hturn.bind_solid hs fun r {j j' t t'} _ _ ht ⟨assignments, words, hr, hspells, _⟩ => .peek ht ?_
  refine .ite (fun _ => .fail_bind nofun) fun hredirection => .ite (fun _ => .unexpected_bind) fun hparen => ?_
  have hfollow : isForbidden (t.ahead 0) = false := by
    rw [isForbidden, Bool.or_eq_false_iff]
    exact ⟨by simpa using hredirection, by simpa using hparen⟩
  obtain rfl := hr
  rw [hrest] at hspells ⊢
  exact .pure nofun (.simpleCommand hword hsingle hspells (unless_of_ahead hfollow))

/-! ## 3. Compound commands

A compound command passes its keyword before the lists in it. So each list has fewer tokens ahead than the command
had, which is all that is asked of lists (`ListsGo`). -/

/-- Lists with fewer than so many tokens ahead are lists of the grammar. -/
def ListsGo (P : Pairing) (k k' : Nat) (read : SourceReader) (list list' : List Closer → Parser Sequence) : Prop :=
  ∀ (closers : List Closer) {j j' : Nat} {t t' : Parsing}, j < k → j' < k' → Twin P j j' t t' →
    Goes P (fun sequence rest => Spelled read t.rest (.list closers sequence) rest) .any (list closers)
      (list' closers) t t'

/-- Lists with fewer tokens ahead are lists as well. -/
theorem ListsGo.mono (hl : ListsGo P k k' read list list') {j j' : Nat} (hj : j ≤ k) (hj' : j' ≤ k') :
    ListsGo P j j' read list list' :=
  fun closers _ _ _ _ hi hi' ht => hl closers (Nat.lt_of_lt_of_le hi hj) (Nat.lt_of_lt_of_le hi' hj') ht

/-- A body is a list that is not empty. -/
theorem body_goes (hl : ListsGo P k k' read list list') {j j' : Nat} (hj : j < k) (hj' : j' < k')
    (hs : Twin P j j' s s') {closers : List Closer} {context : String} :
    Goes P (fun sequence rest => sequence.statements ≠ [] ∧ Spelled read s.rest (.list closers sequence) rest) .any
      (body list closers context) (body list' closers context) s s' := by
  unfold body
  refine .bind hs (hl closers hj hj' hs) fun sequence {t t'} ht hspells => .ite (fun _ => ?_) fun hne => ?_
  · exact .peek ht .unexpected_bind
  · exact .pure nofun ⟨by simpa using hne, hspells⟩

/-- The branches after `elif`, up to a token that is none. -/
theorem branches_goes (hl : ListsGo P k k' read list list') {m m' : Nat} {done : List Branch} {j j' : Nat}
    (hj : j < k) (hj' : j' < k') (hm : j < m) (hm' : j' < m') (hs : Twin P j j' s s') :
    Goes P (fun r rest => ∃ branches, r = done.reverse ++ branches ∧ Spelled read s.rest (.branches branches) rest)
      .any (branches list m done) (branches list' m' done) s s' := by
  induction m generalizing m' j j' s s' done with
  | zero => exact absurd hm (Nat.not_lt_zero _)
  | succ m ih =>
    obtain ⟨m', rfl⟩ := Nat.exists_eq_succ_of_ne_zero (Nat.ne_zero_of_lt hm')
    unfold branches
    refine .peek hs (.ite (fun hc => ?_) fun hc => ?_)
    · have hstop : isReserved .elif (s.ahead 0) = false := by simpa using hc
      exact .pure nofun ⟨[], by simp, .noBranch (unless_of_ahead hstop)⟩
    have helif : isReserved .elif (s.ahead 0) = true := by simpa using hc
    refine .advance hs (isSolid_of_isReserved helif) fun {i i' t t'} hi hi' ht hrest => ?_
    refine .bind ht (body_goes hl (by omega) (by omega) ht) fun condition {u u'} hu ⟨hne, hcondition⟩ => ?_
    refine .bind hu (expectKeyword_goes hu) fun _ {v v'} hv ⟨thenToken, hthenRest, hthen⟩ => ?_
    refine .bind hv (body_goes hl (by omega) (by omega) hv) fun guarded {w w'} hw ⟨hguarded_ne, hguarded⟩ => ?_
    refine (ih (by omega) (by omega) (by omega) (by omega) hw).mono fun r rest ⟨branches, hr, hspells⟩ => ?_
    refine ⟨⟨condition, guarded⟩ :: branches, by simp [hr], ?_⟩
    rw [hrest]
    exact .branch helif (hthenRest ▸ hcondition) hne hthen hguarded hguarded_ne hspells

/-- **An `if`**, up to its `fi`. -/
theorem choice_goes (hl : ListsGo P k k' read list list') (hs : Twin P k k' s s')
    (hif : isReserved .if (s.ahead 0) = true) :
    Goes P (fun c rest => Spelled read s.rest (.form c) rest) .solid (choice list) (choice list') s s' := by
  unfold choice
  refine .advance hs (isSolid_of_isReserved hif) fun {j j' t t'} hj hj' ht hrest => ?_
  rw [hrest]
  refine .bind ht (body_goes hl hj hj' ht) fun condition {u u'} hu ⟨hne, hcondition⟩ => ?_
  refine .bind hu (expectKeyword_goes hu) fun _ {v v'} hv ⟨thenToken, hthenRest, hthen⟩ => ?_
  refine .bind hv (body_goes hl hj hj' hv) fun guarded {w w'} hw ⟨hguarded_ne, hguarded⟩ => ?_
  refine .bound hw fun {i i' m m'} hm hm' hi hi' hw => ?_
  refine .bind hw (branches_goes hl (by omega) (by omega) hm hm' hw)
    fun branches {x x'} hx ⟨branches', hbranches', hbranches⟩ => ?_
  -- No branch has been read before, so those that come out are those of the phrase.
  obtain rfl : branches = branches' := hbranches'
  -- The end is read in the same way with an `else` and without one.
  have hend (otherwise : Option Sequence) {y y' : Parsing} (hy : Twin P i i' y y')
      (ho : Spelled read x.rest (.otherwise otherwise) y.rest) :
      Goes P (fun c rest => Spelled read (s.ahead 0 :: t.rest) (.form c) rest) .solid
        (expectKeyword .fi ("to close 'if' " ++ onLine (s.ahead 0)) >>= fun _ =>
          Pure.pure (.choice (s.ahead 0).place.line condition guarded branches otherwise))
        (expectKeyword .fi ("to close 'if' " ++ onLine (s.ahead 0)) >>= fun _ =>
          Pure.pure (.choice (s.ahead 0).place.line condition guarded branches otherwise)) y y' := by
    refine .bind hy (expectKeyword_goes hy) fun _ {z z'} hz ⟨fi, hfiRest, hfi⟩ => .pure nofun ?_
    exact .choice hif (hthenRest ▸ hcondition) hne hthen hguarded hguarded_ne hbranches (hfiRest ▸ ho) hfi
  refine .peek hx (.ite (fun helse => ?_) fun helse => .pure_bind ?_)
  · refine .advance hx (isSolid_of_isReserved helse) fun {h h' y y'} hh hh' hy helseRest => ?_
    refine .bind hy (body_goes hl (by omega) (by omega) hy) fun otherwise {z z'} hz ⟨hone, ho⟩ => .pure_bind ?_
    refine hend (some otherwise) (hz.mono (by omega) (by omega)) ?_
    rw [helseRest]
    exact .otherwise helse ho hone
  · exact hend none hx (.noOtherwise (unless_of_ahead (eq_false_of_ne_true helse)))

/-- **A `while` or an `until`**, up to its `done`. -/
theorem loop_goes (hl : ListsGo P k k' read list list') {kind : LoopKind} {keyword : String}
    (hs : Twin P k k' s s') (hloop : isReserved kind.keyword (s.ahead 0) = true) :
    Goes P (fun c rest => Spelled read s.rest (.form c) rest) .solid (loop list kind keyword)
      (loop list' kind keyword) s s' := by
  unfold loop
  refine .advance hs (isSolid_of_isReserved hloop) fun {j j' t t'} hj hj' ht hrest => ?_
  refine .bind ht (body_goes hl hj hj' ht) fun condition {u u'} hu ⟨hne, hcondition⟩ => ?_
  refine .bind hu (expectKeyword_goes hu) fun _ {v v'} hv ⟨doToken, hdoRest, hdo⟩ => ?_
  refine .bind hv (body_goes hl hj hj' hv) fun repeated {w w'} hw ⟨hrepeated_ne, hrepeated⟩ => ?_
  refine .bind hw (expectKeyword_goes hw) fun _ {x x'} hx ⟨done, hdoneRest, hdone⟩ => .pure nofun ?_
  rw [hrest]
  exact .loop hloop (hdoRest ▸ hcondition) hne hdo (hdoneRest ▸ hrepeated) hrepeated_ne hdone

/-- The words that a `for` goes over, up to a token that is no word. -/
theorem forWords_goes (hread : P.Readers read read') {m m' : Nat} {done : List Word} (hm : k < m) (hm' : k' < m')
    (hs : Twin P k k' s s') :
    Goes P (fun r rest => ∃ words, r = done.reverse ++ words ∧ Spelled read s.rest (.words words) rest) .settled
      (forWords read m done) (forWords read' m' done) s s' := by
  induction m generalizing m' k k' s s' done with
  | zero => exact absurd hm (Nat.not_lt_zero _)
  | succ m ih =>
    obtain ⟨m', rfl⟩ := Nat.exists_eq_succ_of_ne_zero (Nat.ne_zero_of_lt hm')
    unfold forWords
    refine .peek hs (.ite (fun hc => ?_) fun hc => ?_)
    · have hstop : isWord (s.ahead 0) = false := by simpa using hc
      exact .pure nofun ⟨[], by simp, .noWord (unless_of_ahead hstop)⟩
    have hword : isWord (s.ahead 0) = true := by simpa using hc
    have hsolid := isSolid_of_isWord hword
    refine .advance hs hsolid fun {j j' t t'} hj hj' ht hrest => ?_
    refine .bind ht (word_goes hread (hs.isSound hsolid)) fun word {u u'} hu ⟨hsame, hresolved⟩ => ?_
    refine (ih (by omega) (by omega) hu).mono fun r rest ⟨words, hr, hspells⟩ => ?_
    refine ⟨word :: words, by simp [hr], ?_⟩
    rw [hrest]
    exact .word hword hresolved (hsame ▸ hspells)

/-- What comes after the words of a loop over words, which starts at `start`. -/
def eachRest (list : List Closer → Parser Sequence) (start name : Token) (words : Option (List Word)) :
    Parser Command := do
  if isOperator .semicolon (← peek) then
    let _ ← advance
  skipNewlines
  expectKeyword .do ("in 'for' loop " ++ onLine start)
  let repeated ← body list [.keyword .done] "after 'do'"
  expectKeyword .done ("to close 'for' " ++ onLine start)
  return .each start.place.line name.lexeme.text words repeated

/-- The rest of a loop over words, after what it goes over. -/
theorem eachRest_goes (hl : ListsGo P k k' read list list') {start name : Token} {ts : List Token}
    {words : Option (List Word)} (hfor : isReserved .for start = true) (hword : isWord name = true)
    (hvalid : Name.isValid name.lexeme.text.toList = true) {j j' : Nat} (hj : j < k) (hj' : j' < k')
    (hs : Twin P j j' s s') (hitems : Spelled read (pastNewlines ts) (.items words) s.rest) :
    Goes P (fun c rest => Spelled read (start :: name :: ts) (.form c) rest) .solid (eachRest list start name words)
      (eachRest list' start name words) s s' := by
  -- What comes after the semicolon does not depend on whether there is one.
  have hend {i i' : Nat} (hi : i < k) (hi' : i' < k') {t t' : Parsing} (ht : Twin P i i' t t')
      (hrest : t.rest = pastSemicolon s.rest) :
      Goes P (fun c rest => Spelled read (start :: name :: ts) (.form c) rest) .solid
        (do
          skipNewlines
          expectKeyword .do ("in 'for' loop " ++ onLine start)
          let repeated ← body list [.keyword .done] "after 'do'"
          expectKeyword .done ("to close 'for' " ++ onLine start)
          return .each start.place.line name.lexeme.text words repeated)
        (do
          skipNewlines
          expectKeyword .do ("in 'for' loop " ++ onLine start)
          let repeated ← body list' [.keyword .done] "after 'do'"
          expectKeyword .done ("to close 'for' " ++ onLine start)
          return .each start.place.line name.lexeme.text words repeated) t t' := by
    refine .bind ht (.skipNewlines ht) fun _ {u u'} hu hnewlines => ?_
    refine .bind hu (expectKeyword_goes hu) fun _ {v v'} hv ⟨doToken, hdoRest, hdo⟩ => ?_
    refine .bind hv (body_goes hl hi hi' hv) fun repeated {w w'} hw ⟨hne, hrepeated⟩ => ?_
    refine .bind hw (expectKeyword_goes hw) fun _ {x x'} hx ⟨done, hdoneRest, hdone⟩ => .pure nofun ?_
    exact .each hfor hword hvalid hitems (by rw [← hrest, ← hnewlines, hdoRest]) hdo (hdoneRest ▸ hrepeated) hne hdone
  unfold eachRest
  refine .peek hs (.ite (fun hsemicolon => ?_) fun hsemicolon => ?_)
  · refine .advance hs (isSolid_of_isOperator hsemicolon) fun {i i' t t'} hi hi' ht hrest => ?_
    exact (hend (by omega) (by omega) ht (by rw [hrest, pastSemicolon, if_pos hsemicolon])).settled
  · refine hend hj hj' hs ?_
    have hstop := unless_of_ahead (p := isOperator .semicolon) (eq_false_of_ne_true hsemicolon)
    cases hr : s.rest with
    | nil => rfl
    | cons token rest =>
      rw [hr] at hstop
      rw [pastSemicolon, if_neg (by simp [hstop token rfl])]

/-- **A `for`**, with words to go over or without. -/
theorem each_goes (hread : P.Readers read read') (hl : ListsGo P k k' read list list') (hs : Twin P k k' s s')
    (hfor : isReserved .for (s.ahead 0) = true) :
    Goes P (fun c rest => Spelled read s.rest (.form c) rest) .solid (each read list) (each read' list') s s' := by
  unfold each
  refine .advance hs (isSolid_of_isReserved hfor) fun {j j' t t'} hj hj' ht hrest => ?_
  refine .peek ht (.ite (fun _ => .fail_bind nofun) fun hname => ?_)
  obtain ⟨hword, hvalid⟩ : isWord (t.ahead 0) = true ∧
      Name.isValid (t.ahead 0).lexeme.text.toList = true := by simpa using hname
  refine .advance ht (isSolid_of_isWord hword) fun {i i' u u'} hi hi' hu hnameRest => ?_
  rw [hrest, hnameRest]
  refine .bind hu (.skipNewlines hu) fun _ {v v'} hv hnewlines => ?_
  -- Words are given after `in`, or the arguments are gone over.
  refine .peek hv (.ite (fun hin => ?_) fun hin => .pure_bind ?_)
  · refine .advance hv (isSolid_of_isWordText hin) fun {i i' w w'} hi hi' hw hinRest => ?_
    refine .bound hw fun {i i' m m'} hm hm' hi hi' hw => ?_
    refine .bind hw (forWords_goes hread hm hm' hw) fun words {x x'} hx ⟨words', hwords', hwords⟩ => .pure_bind ?_
    obtain rfl : words = words' := hwords'
    refine (eachRest_goes hl hfor hword hvalid (by omega) (by omega) hx ?_).settled
    rw [← hnewlines, hinRest]
    exact .items hin hwords
  · refine eachRest_goes hl hfor hword hvalid (by omega) (by omega) hv ?_
    rw [← hnewlines]
    exact .noItems (unless_of_ahead (eq_false_of_ne_true hin))

/-- **A group** between braces. -/
theorem group_goes (hl : ListsGo P k k' read list list') (hs : Twin P k k' s s')
    (hbrace : isReserved .leftBrace (s.ahead 0) = true) :
    Goes P (fun r rest => Spelled read s.rest (.braces r.1 r.2) rest) .solid (group list) (group list') s s' := by
  unfold group
  refine .advance hs (isSolid_of_isReserved hbrace) fun {j j' t t'} hj hj' ht hrest => ?_
  refine .bind ht (body_goes hl hj hj' ht) fun sequence {u u'} hu ⟨hne, hspells⟩ => ?_
  refine .bind hu (expectKeyword_goes hu) fun _ {v v'} _ ⟨close, hcloseRest, hclose⟩ => .pure nofun ?_
  rw [hrest]
  exact .braces hbrace (hcloseRest ▸ hspells) hne hclose

/-- **A subshell** between parentheses. -/
theorem subshell_goes (hl : ListsGo P k k' read list list') (hs : Twin P k k' s s')
    (hparen : isOperator .leftParen (s.ahead 0) = true) :
    Goes P (fun r rest => Spelled read s.rest (.parens r.1 r.2) rest) .solid (subshell list) (subshell list') s s' := by
  unfold subshell
  refine .advance hs (isSolid_of_isOperator hparen) fun {j j' t t'} hj hj' ht hrest => ?_
  refine .bind ht (body_goes hl hj hj' ht) fun sequence {u u'} hu ⟨hne, hspells⟩ => ?_
  refine .bind hu (expectOperator_goes hu) fun _ {v v'} _ ⟨close, hcloseRest, hclose⟩ => .pure nofun ?_
  rw [hrest]
  exact .parens hparen (hcloseRest ▸ hspells) hne hclose

/-! ## 4. Functions -/

/-- The body of a function, for which `W` holds of the command if the body is one. -/
theorem functionBody_goes (hl : ListsGo P k k' read list list') {j j' : Nat} (hj : j ≤ k) (hj' : j' ≤ k')
    (hs : Twin P j j' s s') {name : Token} {line : Nat} {W : Command → List Token → Prop}
    (hW : ∀ body rest, name.lexeme.isQuoted = false → isFunctionName name.lexeme.text.toList = true →
      Spelled read (pastNewlines s.rest) (.functionBody body) rest → W (.function line name.lexeme.text body) rest) :
    Goes P W .solid (functionBody list name line) (functionBody list' name line) s s' := by
  have hl := hl.mono hj hj'
  unfold functionBody
  refine .ite (fun _ => .fail_bind nofun) fun hname => ?_
  obtain ⟨hquoted, hvalid⟩ : name.lexeme.isQuoted = false ∧
      isFunctionName name.lexeme.text.toList = true := by simpa using hname
  refine .bind hs (.skipNewlines hs) fun _ {t t'} ht hnewlines => .peek ht ?_
  rw [← hnewlines] at hW
  refine .ite (fun hbrace => ?_) fun _ => .ite (fun hparen => ?_) fun _ => .unexpected
  · exact (group_goes hl ht hbrace).bind_solid ht fun r {_ _ u u'} _ _ _ hspells =>
      .pure nofun (hW _ _ hquoted hvalid (.bracedBody hspells))
  · exact (subshell_goes hl ht hparen).bind_solid ht fun r {_ _ u u'} _ _ _ hspells =>
      .pure nofun (hW _ _ hquoted hvalid (.subshellBody hspells))

/-- A function that starts with its keyword. -/
theorem functionKeyword_goes (hl : ListsGo P k k' read list list') (hs : Twin P k k' s s')
    (hfunction : isReserved .function (s.ahead 0) = true) :
    Goes P (fun c rest => Spelled read s.rest (.form c) rest) .solid (functionKeyword list) (functionKeyword list')
      s s' := by
  unfold functionKeyword
  refine .advance hs (isSolid_of_isReserved hfunction) fun {j j' t t'} hj hj' ht hrest => ?_
  refine .peek ht (.ite (fun _ => .unexpected_bind) fun hword => ?_)
  have hword : isWord (t.ahead 0) = true := by simpa using hword
  refine .advance ht (isSolid_of_isWord hword) fun {i i' u u'} hi hi' hu hnameRest => ?_
  rw [hrest, hnameRest]
  -- Parentheses may follow the name, but they need not.
  refine .peek hu (.ite (fun hleft => ?_) fun hsingle => ?_)
  · refine .advance hu (isSolid_of_isOperator hleft) fun {h h' v v'} hh hh' hv hleftRest => ?_
    refine .bind hv (expectOperator_goes hv) fun _ {w w'} hw ⟨right, hrightRest, hright⟩ => ?_
    refine (functionBody_goes hl (by omega) (by omega) hw fun body rest hquoted hvalid hspells => ?_).settled
    rw [hleftRest, hrightRest]
    exact .keywordFunctionParens hfunction hword hleft hright hquoted hvalid hspells
  · refine (functionBody_goes hl (by omega) (by omega) hu fun body rest hquoted hvalid hspells => ?_).settled
    have hsingle := unless_of_ahead (p := isOperator .leftParen) (eq_false_of_ne_true hsingle)
    exact .keywordFunction hfunction hword hsingle hquoted hvalid hspells

/-- A function that starts with its name. -/
theorem functionDefinition_goes (hl : ListsGo P k k' read list list') (hs : Twin P k k' s s')
    (hword : isWord (s.ahead 0) = true) :
    Goes P (fun c rest => Spelled read s.rest (.form c) rest) .solid (functionDefinition list)
      (functionDefinition list') s s' := by
  unfold functionDefinition
  refine .advance hs (isSolid_of_isWord hword) fun {j j' t t'} hj hj' ht hrest => ?_
  refine .bind ht (expectOperator_goes ht) fun _ {u u'} hu ⟨left, hleftRest, hleft⟩ => ?_
  refine .bind hu (expectOperator_goes hu) fun _ {v v'} hv ⟨right, hrightRest, hright⟩ => ?_
  refine (functionBody_goes hl (by omega) (by omega) hv fun body rest hquoted hvalid hspells => ?_).settled
  rw [hrest, hleftRest, hrightRest]
  exact .namedFunction hword hleft hright hquoted hvalid hspells

/-! ## 5. Commands and lists -/

/-- **A command** is read from at least one token, and does not end with a newline. -/
theorem command_goes (hread : P.Readers read read') (hl : ListsGo P k k' read list list') (hs : Twin P k k' s s') :
    Goes P (fun c rest => Spelled read s.rest (.form c) rest) .solid (Parser.command read list)
      (Parser.command read' list') s s' := by
  unfold Parser.command
  refine .peek hs ?_
  -- By the first token, in the order in which the parser asks.
  split
  · next heq => exact choice_goes hl hs (by simp [isReserved, heq])
  · next heq => exact loop_goes hl hs (by simp [isReserved, heq, LoopKind.keyword])
  · next heq => exact loop_goes hl hs (by simp [isReserved, heq, LoopKind.keyword])
  · next heq => exact each_goes hread hl hs (by simp [isReserved, heq])
  · next heq =>
    exact (group_goes hl hs (by simp [isReserved, heq])).bind_solid hs fun r {_ _ t t'} _ _ _ hspells =>
      .pure nofun (.group hspells)
  · next heq => exact functionKeyword_goes hl hs (by simp [isReserved, heq])
  · next heq =>
    exact (subshell_goes hl hs (by simp [isOperator, heq])).bind_solid hs fun r {_ _ t t'} _ _ _ hspells =>
      .pure nofun (.subshell hspells)
  · exact .fail nofun
  · exact .fail nofun
  · exact .fail nofun
  · next heq =>
    have hsolid : (s.ahead 0).IsSolid := ⟨by simp [heq], by simp [heq]⟩
    refine .advance hs hsolid fun {j j' t t'} _ _ ht hrest => ?_
    refine .bind ht (word_goes hread (hs.isSound hsolid)) fun word {u u'} _ ⟨hsame, hword⟩ => .pure nofun ?_
    rw [hsame, hrest]
    exact .arithmeticCommand (by simp [isArithmetic, heq]) hword
  · next heq =>
    have hword : isWord (s.ahead 0) = true := by simp [isWord, heq]
    exact .ahead_one hs _ (fun _ => functionDefinition_goes hl hs hword) fun hsingle => simple_goes hread hs hword hsingle
  · exact .unexpected

/-- Commands with no more than so many tokens ahead are commands of the grammar. -/
def CommandsGo (P : Pairing) (k k' : Nat) (read : SourceReader) (command command' : Parser Command) : Prop :=
  ∀ {j j' : Nat} {t t' : Parsing}, j ≤ k → j' ≤ k' → Twin P j j' t t' →
    Goes P (fun c rest => Spelled read t.rest (.command c) rest) .solid command command' t t'

/-- The signs before a pipeline negate it as often as there are some. -/
theorem negations_goes (read : SourceReader) {m m' : Nat} {negated : Bool} (hm : k < m) (hm' : k' < m')
    (hs : Twin P k k' s s') :
    Goes P (fun r rest => Unless (isReserved .bang) rest ∧ ∀ first commands left,
        Spelled read rest (.pipeline ⟨false, first, commands⟩) left →
          Spelled read s.rest (.pipeline ⟨negated != r, first, commands⟩) left)
      .settled (negations m negated) (negations m' negated) s s' := by
  induction m generalizing m' k k' s s' negated with
  | zero => exact absurd hm (Nat.not_lt_zero _)
  | succ m ih =>
    obtain ⟨m', rfl⟩ := Nat.exists_eq_succ_of_ne_zero (Nat.ne_zero_of_lt hm')
    unfold negations
    refine .peek hs (.ite (fun hc => ?_) fun hc => ?_)
    · have hstop : isReserved .bang (s.ahead 0) = false := by simpa using hc
      exact .pure nofun ⟨unless_of_ahead hstop, fun first commands left h => by rwa [bne_self_eq_false]⟩
    have hbang : isReserved .bang (s.ahead 0) = true := by simpa using hc
    refine .advance hs (isSolid_of_isReserved hbang) fun {j j' t t'} hj hj' ht hrest => ?_
    refine (ih (by omega) (by omega) ht).mono fun r rest h => ⟨h.1, fun first commands left hspells => ?_⟩
    -- A sign that is read here is one that the rest does not have to make up for.
    have hnegated : (negated != r) = !((!negated) != r) := by cases negated <;> cases r <;> rfl
    rw [hrest, hnegated]
    exact .bang hbang (h.2 first commands left hspells)

/-- The commands after the bars of a pipeline. -/
theorem pipelineRest_goes (hc : CommandsGo P k k' read command command') {m m' : Nat} {done : List Command}
    {j j' : Nat} (hj : j ≤ k) (hj' : j' ≤ k') (hm : j < m) (hm' : j' < m') (hs : Twin P j j' s s') :
    Goes P (fun r rest => ∃ commands, r = done.reverse ++ commands ∧ Spelled read s.rest (.pipes commands) rest)
      .settled (pipelineRest command m done) (pipelineRest command' m' done) s s' := by
  induction m generalizing m' j j' s s' done with
  | zero => exact absurd hm (Nat.not_lt_zero _)
  | succ m ih =>
    obtain ⟨m', rfl⟩ := Nat.exists_eq_succ_of_ne_zero (Nat.ne_zero_of_lt hm')
    unfold pipelineRest
    refine .peek hs (.ite (fun hpipe => ?_) fun hpipe => ?_)
    · have hstop : isOperator .pipe (s.ahead 0) = false := by simpa using hpipe
      exact .pure nofun ⟨[], by simp, .noPipe (unless_of_ahead hstop)⟩
    have hpipe : isOperator .pipe (s.ahead 0) = true := by simpa using hpipe
    refine .advance hs (isSolid_of_isOperator hpipe) fun {i i' t t'} hi hi' ht hrest => ?_
    refine .bind ht (.skipNewlines ht) fun _ {u u'} hu hnewlines => ?_
    refine (hc (by omega) (by omega) hu).bind_solid hu fun command {h h' v v'} hh hh' hv hcommand => ?_
    refine (ih (by omega) (by omega) (by omega) (by omega) hv).mono fun r rest ⟨commands, hr, hspells⟩ => ?_
    refine ⟨command :: commands, by simp [hr], ?_⟩
    rw [hrest]
    exact .pipe hpipe (hnewlines ▸ hcommand) hspells

/-- **A pipeline** with the signs before it. -/
theorem pipeline_goes (hc : CommandsGo P k k' read command command') {j j' : Nat} (hj : j ≤ k) (hj' : j' ≤ k')
    (hs : Twin P j j' s s') :
    Goes P (fun p rest => Spelled read s.rest (.pipeline p) rest) .solid (pipeline command) (pipeline command')
      s s' := by
  unfold pipeline
  refine .bound hs fun {i i' m m'} hm hm' hi hi' hs => ?_
  refine .bind hs (negations_goes read hm hm' hs) fun negated {t t'} ht ⟨hbang, hnegated⟩ => ?_
  refine (hc (by omega) (by omega) ht).bind_solid ht fun first {h h' u u'} hh hh' hu hfirst => ?_
  refine .bound hu fun {i i' m m'} hm hm' hi hi' hu => ?_
  refine .bind hu (pipelineRest_goes hc (by omega) (by omega) hm hm' hu)
    fun commands {v v'} hv ⟨commands', hcommands', hcommands⟩ => .pure nofun ?_
  obtain rfl : commands = commands' := hcommands'
  have hspells := hnegated _ _ _ (.pipeline hbang hfirst hcommands)
  rwa [Bool.false_bne] at hspells

/-- The pipelines that a first one is joined to. -/
theorem andOrRest_goes (hc : CommandsGo P k k' read command command') {m m' : Nat} {done : List Joined}
    {j j' : Nat} (hj : j ≤ k) (hj' : j' ≤ k') (hm : j < m) (hm' : j' < m') (hs : Twin P j j' s s') :
    Goes P (fun r rest => ∃ pipelines, r = done.reverse ++ pipelines ∧ Spelled read s.rest (.joined pipelines) rest)
      .settled (andOrRest command m done) (andOrRest command' m' done) s s' := by
  induction m generalizing m' j j' s s' done with
  | zero => exact absurd hm (Nat.not_lt_zero _)
  | succ m ih =>
    obtain ⟨m', rfl⟩ := Nat.exists_eq_succ_of_ne_zero (Nat.ne_zero_of_lt hm')
    unfold andOrRest
    refine .peek hs ?_
    split
    · next hnone =>
      have hstop : isConnective (s.ahead 0) = false := by rw [isConnective, hnone]; rfl
      exact .pure nofun ⟨[], by simp, .noConnective (unless_of_ahead hstop)⟩
    next connective hconnective =>
    refine .advance hs (isSolid_of_connective? hconnective) fun {i i' t t'} hi hi' ht hrest => ?_
    refine .bind ht (.skipNewlines ht) fun _ {u u'} hu hnewlines => ?_
    refine (pipeline_goes hc (by omega) (by omega) hu).bind_solid hu
      fun pipeline {h h' v v'} hh hh' hv hpipeline => ?_
    refine (ih (by omega) (by omega) (by omega) (by omega) hv).mono fun r rest ⟨pipelines, hr, hspells⟩ => ?_
    refine ⟨⟨connective, pipeline⟩ :: pipelines, by simp [hr], ?_⟩
    rw [hrest]
    exact .connective hconnective (hnewlines ▸ hpipeline) hspells

/-- **A statement** is read from at least one token, and does not end with a newline. -/
theorem andOr_goes (hc : CommandsGo P k k' read command command') {j j' : Nat} (hj : j ≤ k) (hj' : j' ≤ k')
    (hs : Twin P j j' s s') :
    Goes P (fun l rest => Spelled read s.rest (.andOr l) rest) .solid (andOr command) (andOr command') s s' := by
  unfold andOr
  refine (pipeline_goes hc hj hj' hs).bind_solid hs fun first {h h' t t'} hh hh' ht hfirst => ?_
  refine .bound ht fun {i i' m m'} hm hm' hi hi' ht => ?_
  refine .bind ht (andOrRest_goes hc (by omega) (by omega) hm hm' ht)
    fun pipelines {u u'} hu ⟨pipelines', hpipelines', hpipelines⟩ => .pure nofun ?_
  obtain rfl : pipelines = pipelines' := hpipelines'
  exact .andOr hfirst hpipelines

/-- A token that closes nothing is ahead, and is not the end. -/
theorem isOpen_of_ahead {closers : List Closer} (h : ¬ isClosed closers (s.ahead 0) = true) :
    ∃ token ∈ s.rest.head?, isClosed closers token = false := by
  unfold Parsing.ahead at h
  rw [← List.head?_eq_getElem?] at h
  cases hr : s.rest with
  | nil =>
    rw [hr] at h
    exact absurd rfl h
  | cons token rest =>
    rw [hr] at h
    exact ⟨token, rfl, by simpa using h⟩

/-- Statements. After each but the last a semicolon or a newline is passed, and any newlines behind it. -/
theorem statements_goes (hc : CommandsGo P k k' read command command') {closers : List Closer} {m m' : Nat}
    {done : List AndOrList} {j j' : Nat} (hj : j ≤ k) (hj' : j' ≤ k') (hm : j < m) (hm' : j' < m')
    (hs : Twin P j j' s s') :
    Goes P (fun r rest => ∃ statements, r = done.reverse ++ statements ∧
        Spelled read s.rest (.statements closers statements) rest)
      .any (statements command closers m done) (statements command' closers m' done) s s' := by
  induction m generalizing m' j j' s s' done with
  | zero => exact absurd hm (Nat.not_lt_zero _)
  | succ m ih =>
    obtain ⟨m', rfl⟩ := Nat.exists_eq_succ_of_ne_zero (Nat.ne_zero_of_lt hm')
    unfold statements
    refine .peek hs (.ite (fun hclosed => .pure nofun ⟨[], by simp, .closed ?_⟩) fun hopen => ?_)
    · intro token hmem
      unfold Parsing.ahead at hclosed
      rwa [← List.head?_eq_getElem?, Option.mem_def.mp hmem] at hclosed
    have hopen := isOpen_of_ahead hopen
    refine (andOr_goes hc hj hj' hs).bind_solid hs fun statement {i i' t t'} hi hi' ht hstatement => .peek ht ?_
    -- What is behind the separator is read as the statements are that follow.
    have hmore {i i' : Nat} {u u' : Parsing} (hi : i < j) (hi' : i' < j') (hu : Twin P i i' u u')
        (hstep : ∀ statements left, Spelled read u.rest (.statements closers statements) left →
          Spelled read s.rest (.statements closers (statement :: statements)) left) :
        Goes P (fun r rest => ∃ statements, r = done.reverse ++ statements ∧
            Spelled read s.rest (.statements closers statements) rest)
          .any (statements command closers m (statement :: done)) (statements command' closers m' (statement :: done))
          u u' := by
      refine (ih (by omega) (by omega) (by omega) (by omega) hu).mono fun r rest ⟨statements, hr, hspells⟩ => ?_
      exact ⟨statement :: statements, by simp [hr], hstep _ _ hspells⟩
    split
    · exact .fail nofun
    · next heq =>
      refine .advance ht ⟨by simp [heq], by simp [heq]⟩ fun {h h' u u'} hh hh' hu hrest => ?_
      refine .bind hu (.skipNewlines hu) fun _ {v v'} hv hnewlines => ?_
      refine hmore (by omega) (by omega) hv fun statements left hspells => ?_
      exact .semicolon hopen (hrest ▸ hstatement) (by simp [isOperator, heq]) (hnewlines ▸ hspells)
    · next heq =>
      have hrest := Parsing.rest_of_ahead (s := t) (by simp [heq])
      have hnewline : Lexeme.isNewline (t.ahead 0).lexeme = true := by
        rw [heq]
        rfl
      refine .bind ht (.skipNewlines ht) fun _ {u u'} hu hnewlines => ?_
      refine hmore hi hi' hu fun statements left hspells => ?_
      rw [hrest, pastNewlines_cons, if_pos hnewline] at hnewlines
      exact .newline hopen (hrest ▸ hstatement) hnewline (hnewlines ▸ hspells)
    · next hampersand hsemicolon hnewline =>
      refine .pure nofun ⟨[statement], by simp, .last hopen hstatement (unless_of_ahead ?_)⟩
      unfold isSeparator isOperator Lexeme.isNewline
      cases hl : (t.ahead 0).lexeme with
      | operator op =>
        cases op with
        | ampersand => exact absurd hl hampersand
        | semicolon => exact absurd hl hsemicolon
        | _ => rfl
      | newline => exact absurd hl hnewline
      | _ => rfl

/-- **A list** of statements. -/
theorem list_goes (hc : CommandsGo P k k' read command command') {closers : List Closer} {j j' : Nat} (hj : j ≤ k)
    (hj' : j' ≤ k') (hs : Twin P j j' s s') :
    Goes P (fun sequence rest => Spelled read s.rest (.list closers sequence) rest) .any
      (Parser.list command closers) (Parser.list command' closers) s s' := by
  unfold Parser.list
  refine .bind hs (.skipNewlines hs) fun _ {t t'} ht hnewlines => ?_
  refine .bound ht fun {i i' m m'} hm hm' hi hi' ht => ?_
  refine .bind ht (statements_goes hc (by omega) (by omega) hm hm' ht)
    fun statements {u u'} hu ⟨statements', hstatements', hstatements⟩ => .pure nofun ?_
  obtain rfl : statements = statements' := hstatements'
  exact .list (hnewlines ▸ hstatements)

/-- **Commands nested in commands.** A compound command passes a token before the commands in it, so
there are always fewer tokens left than commands may be nested. -/
theorem commandAt_goes (hread : P.Readers read read') {d d' : Nat} (hd : k < d) (hd' : k' < d') :
    CommandsGo P k k' read (commandAt read d) (commandAt read' d') := by
  induction d generalizing d' k k' with
  | zero => exact absurd hd (Nat.not_lt_zero _)
  | succ d ih =>
    obtain ⟨d', rfl⟩ := Nat.exists_eq_succ_of_ne_zero (Nat.ne_zero_of_lt hd')
    intro j j' t t' hj hj' ht
    refine (command_goes hread (fun closers i i' u u' hi hi' hu => ?_) ht).mono fun _ _ => .command trivial
    -- The list inside has passed a token, so it needs one level less.
    have hc : CommandsGo P i i' read (commandAt read d) (commandAt read' d') := ih (by omega) (by omega)
    exact list_goes hc (Nat.le_refl _) (Nat.le_refl _) hu

/-- **A script**: a list up to the end of the input. -/
theorem script_goes (hread : P.Readers read read') (hs : Twin P k k' s s') :
    Goes P (fun sequence rest => Spelled read s.rest (.list [] sequence) rest ∧ rest = []) .any (script read)
      (script read') s s' := by
  unfold script
  -- A script may be nested as deep as there are tokens, which is more than it is.
  refine .bound hs fun {i i' m m'} hm hm' hi hi' hs => ?_
  refine .bind hs (list_goes (commandAt_goes hread (by omega) (by omega)) (Nat.le_refl _) (Nat.le_refl _) hs)
    fun sequence {t t'} ht hspells => .peek ht ?_
  split
  · next hend => exact .pure nofun ⟨hspells, by_contra fun hne => ht.inside hne hend⟩
  · exact .unexpected

end Shell.Parser
