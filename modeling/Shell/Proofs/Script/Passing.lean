/-
What a parser does with the tokens it passes.

A parser passes tokens and looks at most one or two ahead of those. So it does the same on tokens with more
tokens after them, unless it has passed all that there were. `Parser.Goes` says this of a parser at a place, with
what comes out of it and how many tokens it passes. It is about two parsers, at two places: they may have other bounds
for their loops and other readers of sources, and any number of steps behind them. For a parser at one place it says what
holds of the result.

There is one rule for each way of making a parser. What a grammar makes of them is shown in the module on the
grammar, one function at a time, and only there: that the parser follows the grammar, that it passes each token once,
that the bounds of its loops are never met and that it reads lines one by one are all told by `Parser.Goes`, with different
pairs of places.
-/
import Shell.Proofs.Script.WellFormed

set_option autoImplicit false

namespace Shell

/-! ## 1. Readings that agree -/

/-- Two readings come to the same: to a value, or to an error. If they are honest, the error is a mistake, which is
not that there are too many steps. -/
inductive Agree {α : Type} (honest : Prop) : Except ScriptError α → Except ScriptError α → Prop where
  | ok (a : α) : Agree honest (.ok a) (.ok a)
  | error {e : ScriptError} (h : honest → e.IsMistake) : Agree honest (.error e) (.error e)

namespace Agree

variable {α β : Type} {honest : Prop} {x x' : Except ScriptError α}

/-- Readings agree step by step. -/
theorem bind (h : Agree honest x x') {f f' : α → Except ScriptError β} (hf : ∀ a, Agree honest (f a) (f' a)) :
    Agree honest (x >>= f) (x' >>= f') := by
  cases h with
  | ok a => exact hf a
  | error h => exact .error h

/-- Where nothing may be cut short, readings that agree are equal. -/
theorem eq (h : Agree honest x x') : x' = x := by
  cases h <;> rfl

/-- A reading agrees with itself, if nothing is asked for of its errors. -/
theorem refl (h : ¬ honest) (x : Except ScriptError α) : Agree honest x x := by
  cases x with
  | ok a => exact .ok a
  | error e => exact .error fun hhonest => absurd hhonest h

end Agree

/-- What is known of two parsers that are compared. -/
structure Pairing where
  /-- The same tokens are ahead of both. If not, the second may have more of them. -/
  exact : Prop
  /-- The tokens of the first are those of a text, -/
  sound : Prop
  /-- and then the sources in them are shorter than this. -/
  size : Nat
  /-- The readers of sources fail at mistakes only. -/
  honest : Prop

/-- Two readers do the same. If the tokens are sound, they need to do so for the sources in these only. -/
def Pairing.Readers (P : Pairing) (read read' : SourceReader) : Prop :=
  ∀ (source : String) (place : Place), (P.sound → source.length < P.size) →
    Agree P.honest (read source place) (read' source place)

section

variable {P : Pairing} {read read' : SourceReader}

mutual

/-- A part is resolved in the same way if its source is read in the same way. -/
theorem WordPart.resolve_agrees (h : P.Readers read read') : ∀ part : WordPart,
    (P.sound → part.IsFresh P.size) → Agree P.honest (part.resolve read) (part.resolve read')
  | .literal _, _ => .ok _
  | .singleQuoted _, _ => .ok _
  | .escaped _, _ => .ok _
  | .doubleQuoted parts, hf => (resolveParts_agrees h parts hf).bind fun _ => .ok _
  | .parameter _, _ => .ok _
  | .length _, _ => .ok _
  | .conditional _ _ argument, hf => (Word.resolve_agrees h argument hf).bind fun _ => .ok _
  | .substitution source place none, hf => (h source place hf).bind fun _ => .ok _
  | .substitution _ _ (some _), _ => .ok _
  | .arithmetic expression, hf => (Word.resolve_agrees h expression hf).bind fun _ => .ok _

/-- So are all parts of a word. -/
theorem resolveParts_agrees (h : P.Readers read read') : ∀ parts : List WordPart,
    (P.sound → AreFresh P.size parts) → Agree P.honest (resolveParts read parts) (resolveParts read' parts)
  | [], _ => .ok _
  | part :: parts, hf =>
    (WordPart.resolve_agrees h part fun hsound => (hf hsound).1).bind fun _ =>
      (resolveParts_agrees h parts fun hsound => (hf hsound).2).bind fun _ => .ok _

/-- **A word gets the same bodies** from both readers. -/
theorem Word.resolve_agrees (h : P.Readers read read') : ∀ word : Word,
    (P.sound → word.IsFresh P.size) → Agree P.honest (word.resolve read) (word.resolve read')
  | ⟨_, parts⟩, hf => (resolveParts_agrees h parts hf).bind fun _ => .ok _

end

end

/-! ## 2. Tokens that have been passed -/

/-- The place of a parser that has passed `n` more tokens. -/
def Parsing.pass (s : Parsing) (n : Nat) : Parsing :=
  { s with rest := s.rest.drop n, steps := s.steps + n }

namespace Parsing

variable {s : Parsing}

@[simp] theorem rest_pass (n : Nat) : (s.pass n).rest = s.rest.drop n := rfl

@[simp] theorem steps_pass (n : Nat) : (s.pass n).steps = s.steps + n := rfl

/-- Tokens are passed one after the other. -/
theorem pass_pass (m n : Nat) : (s.pass m).pass n = s.pass (m + n) := by
  simp [pass, Nat.add_assoc]

/-- There is a token ahead if it is not the end of the input. -/
theorem rest_of_ahead (h : (s.ahead 0).lexeme ≠ .endOfInput) :
    s.rest = s.ahead 0 :: s.rest.drop 1 := by
  unfold ahead at h ⊢
  cases hr : s.rest with
  | nil => exact absurd (by rw [hr]; rfl) h
  | cons token rest => rfl

/-- There are no more tokens left than fit into the bound and the number of steps. -/
structure HasRoom (s : Parsing) : Prop where
  bound : s.rest.length < s.bound
  steps : s.steps + s.rest.length ≤ maxSteps

/-- There are steps left for the tokens that are left. -/
theorem HasRoom.within (h : s.HasRoom) {n : Nat} (hn : n ≤ s.rest.length) : s.steps + n ≤ maxSteps :=
  Nat.le_trans (Nat.add_le_add_left hn _) h.steps

/-- Passing tokens takes as many steps as it leaves tokens fewer. -/
theorem HasRoom.pass (h : s.HasRoom) {n : Nat} (hn : n ≤ s.rest.length) : (s.pass n).HasRoom := by
  obtain ⟨hbound, hsteps⟩ := h
  constructor
  · rw [rest_pass, List.length_drop]
    exact Nat.lt_of_le_of_lt (Nat.sub_le _ _) hbound
  · rw [rest_pass, steps_pass, List.length_drop]
    omega

end Parsing

/-- What is known of the tokens that a parser has passed: nothing, that they do not end with a newline, or
also that there are some. -/
inductive Extent where
  | any | settled | solid
  deriving DecidableEq

/-- A token that is neither a newline nor the end of the input. -/
structure Token.IsSolid (token : Token) : Prop where
  newline : token.lexeme ≠ .newline
  inside : token.lexeme ≠ .endOfInput

namespace Extent

/-- Whether passed tokens are as an extent says. -/
def Holds : Extent → List Token → Prop
  | any, _ => True
  | settled, used => ∀ token ∈ used.getLast?, token.lexeme ≠ .newline
  | solid, used => used ≠ [] ∧ ∀ token ∈ used.getLast?, token.lexeme ≠ .newline

/-- What has to be known of the tokens that the second of two parsers passes, for the tokens of both to be as
an extent says. -/
def after : (both first : Extent) → Extent
  | any, _ => any
  | settled, any => solid
  | settled, _ => settled
  | solid, solid => settled
  | solid, _ => solid

variable {e e₁ : Extent} {used used' : List Token}

/-- What is passed by two parsers is passed by both together. -/
theorem Holds.append (h : e₁.Holds used) (h' : (e.after e₁).Holds used') : e.Holds (used ++ used') := by
  have hsettled (h' : settled.Holds used') (h : used' = [] → settled.Holds used) :
      settled.Holds (used ++ used') := by
    by_cases hnil : used' = []
    · rw [hnil, List.append_nil]
      exact h hnil
    · intro token hmem
      rw [List.getLast?_append_of_ne_nil _ hnil] at hmem
      exact h' token hmem
  have hsolid (h' : solid.Holds used') : solid.Holds (used ++ used') :=
    ⟨List.append_ne_nil_of_right_ne_nil _ h'.1, hsettled h'.2 fun hnil => absurd hnil h'.1⟩
  cases e with
  | any => trivial
  | settled =>
    cases e₁ with
    | any => exact (hsolid h').2
    | settled => exact hsettled h' fun _ => h
    | solid => exact hsettled h' fun _ => h.2
  | solid =>
    cases e₁ with
    | any | settled => exact hsolid h'
    | solid => exact ⟨List.append_ne_nil_of_left_ne_nil h.1 _, hsettled h' fun _ => h.2⟩

/-- No tokens have to be passed, unless at least one must. -/
theorem Holds.nil (he : e ≠ solid) : e.Holds [] := by
  cases e with
  | any => trivial
  | settled => exact nofun
  | solid => exact absurd rfl he

/-- One solid token is enough. -/
theorem Holds.singleton {token : Token} (h : token.IsSolid) : solid.Holds [token] :=
  ⟨List.cons_ne_nil _ _, by rintro _ ⟨⟩; exact h.newline⟩

end Extent

/-! ## 3. Steps -/

namespace Parser

variable {α β : Type}

/-- What `n` more steps come to after `steps` others: to a result, or to the limit. -/
def within {γ : Type} (n steps : Nat) (result : Except ScriptError γ) : Except ScriptError γ :=
  if steps + n ≤ maxSteps then result else .error ⟨.tooManySteps, ⟨0, 0⟩⟩

/-- **A parser passes `n` tokens** on its way to a result, and takes a step for each, however many steps there were
before. So it comes to the result exactly if there are `n` steps left. -/
def Passes (p : Parser α) (s : Parsing) (n : Nat) (result : Except ScriptError α) : Prop :=
  ∀ steps, steps ≤ maxSteps → p { s with steps := steps } =
    within n steps (result.map fun a => (a, ({ s with steps := steps } : Parsing).pass n))

variable {s : Parsing} {p : Parser α} {n m : Nat} {result : Except ScriptError β}

/-- The second parser goes on with the value of the first. -/
theorem bind_of_ok {f : α → Parser β} {a : α} {t : Parsing} (h : p s = .ok (a, t)) :
    (p >>= f) s = f a t := by
  show ((p s) >>= fun x => f x.1 x.2) = f a t
  rw [h]
  rfl

/-- The second parser is not asked after an error. -/
theorem bind_of_error {f : α → Parser β} {error : ScriptError} (h : p s = .error error) :
    (p >>= f) s = .error error := by
  show ((p s) >>= fun x => f x.1 x.2) = .error error
  rw [h]
  rfl

/-- Looking at the next token passes nothing. -/
theorem peek_bind (s : Parsing) (f : Token → Parser β) :
    (Parser.peek >>= f) s = f (s.ahead 0) s := rfl

/-- What takes no step is within the steps there are. -/
theorem within_zero {γ : Type} {steps : Nat} (h : steps ≤ maxSteps) (result : Except ScriptError γ) :
    within 0 steps result = result := if_pos h

/-- Steps after steps. -/
theorem within_within {γ : Type} (n m steps : Nat) (result : Except ScriptError γ) :
    within n steps (within m (steps + n) result) = within (n + m) steps result := by
  unfold within
  by_cases hn : steps + n ≤ maxSteps
  · rw [if_pos hn, Nat.add_assoc]
  · have hm : ¬ steps + (n + m) ≤ maxSteps := by omega
    rw [if_neg hn, if_neg hm]

namespace Passes

/-- A parser that has passed so many tokens has left the others. -/
theorem run_ok {a : α} (h : p.Passes s n (.ok a)) (hn : s.steps + n ≤ maxSteps) : p s = .ok (a, s.pass n) :=
  (h s.steps (by omega)).trans (if_pos hn)

/-- An error is the error it is, if there were steps enough to come to it. -/
theorem run_error {error : ScriptError} (h : p.Passes s n (.error error)) (hn : s.steps + n ≤ maxSteps) :
    p s = .error error :=
  (h s.steps (by omega)).trans (if_pos hn)

/-- No tokens are passed if the steps before make no difference. -/
theorem none {r : Except ScriptError α}
    (h : ∀ steps, p { s with steps := steps } = r.map fun a => (a, { s with steps := steps })) : p.Passes s 0 r :=
  fun steps hs => (h steps).trans (within_zero hs _).symm

/-- Some tokens are passed, and then others of those that are left. -/
theorem bind {f : α → Parser β} {a : α} (h : p.Passes s n (.ok a)) (hf : (f a).Passes (s.pass n) m result) :
    (p >>= f).Passes s (n + m) result := by
  intro steps hs
  have hp := h steps hs
  rw [← within_within]
  unfold within at hp ⊢
  by_cases hn : steps + n ≤ maxSteps
  · rw [if_pos hn] at hp ⊢
    rw [bind_of_ok hp]
    refine (hf (steps + n) hn).trans ?_
    cases result with
    | error error => rfl
    | ok b =>
      have hpass : (({ s with steps := steps } : Parsing).pass n).pass m =
        ({ s with steps := steps } : Parsing).pass (n + m) := Parsing.pass_pass n m
      exact congrArg (fun t => within m (steps + n) (.ok (b, t))) hpass
  · rw [if_neg hn] at hp ⊢
    exact bind_of_error hp

/-- An error is met after as many tokens as before. -/
theorem bind_error {error : ScriptError} (h : p.Passes s n (.error error)) (f : α → Parser β) :
    (p >>= f).Passes s n (.error error) := by
  intro steps hs
  have hp := h steps hs
  unfold within at hp ⊢
  by_cases hn : steps + n ≤ maxSteps
  · rw [if_pos hn] at hp ⊢
    exact bind_of_error hp
  · rw [if_neg hn] at hp ⊢
    exact bind_of_error hp

/-- How many tokens are passed, and what a parser comes to, is known from its runs. -/
theorem unique {r r' : Except ScriptError α} (h : p.Passes s n r) (h' : p.Passes s m r') (hn : n ≤ maxSteps)
    (hm : m ≤ maxSteps) (hr : ∀ e, r = .error e → e.IsMistake) (hr' : ∀ e, r' = .error e → e.IsMistake) :
    n = m ∧ r = r' := by
  -- With just enough steps left for one of them there are enough for the other.
  have hle {n m : Nat} {r r' : Except ScriptError α} (h : p.Passes s n r) (h' : p.Passes s m r')
      (hn : n ≤ maxSteps) (hr : ∀ e, r = .error e → e.IsMistake) : m ≤ n := by
    by_contra hlt
    have heq := (h _ (Nat.sub_le maxSteps n)).symm.trans (h' _ (Nat.sub_le maxSteps n))
    unfold within at heq
    rw [if_pos (by omega), if_neg (by omega)] at heq
    cases r with
    | ok a => cases heq
    | error e => exact hr e rfl (congrArg ScriptError.cause (Except.error.inj heq))
  obtain rfl := Nat.le_antisymm (hle h' h hm hr') (hle h h' hn hr)
  have heq := (h 0 (Nat.zero_le _)).symm.trans (h' 0 (Nat.zero_le _))
  unfold within at heq
  rw [if_pos (by omega), if_pos (by omega)] at heq
  refine ⟨rfl, ?_⟩
  cases r with
  | ok a =>
    cases r' with
    | ok a' => rw [(Prod.mk.inj (Except.ok.inj heq)).1]
    | error e' => cases heq
  | error e =>
    cases r' with
    | ok a' => cases heq
    | error e' => exact congrArg _ (Except.error.inj heq)

end Passes

/-- How many newlines tokens start with. -/
def newlines (tokens : List Token) : Nat := (tokens.takeWhile fun t => Lexeme.isNewline t.lexeme).length

/-- There are no more newlines than tokens. -/
theorem newlines_le (tokens : List Token) : newlines tokens ≤ tokens.length :=
  (List.takeWhile_prefix _).length_le

/-- The tokens after the newlines are those that are left when the newlines are passed. -/
theorem pastNewlines_eq (tokens : List Token) : pastNewlines tokens = tokens.drop (newlines tokens) := by
  have hsplit := List.takeWhile_append_dropWhile (p := fun t => Lexeme.isNewline t.lexeme) (l := tokens)
  unfold newlines pastNewlines
  conv => rhs; rhs; rw [← hsplit]
  rw [List.drop_left]

/-- Tokens behind others count only if all of those are newlines. -/
theorem newlines_append (tokens more : List Token) :
    newlines (tokens ++ more) =
      if newlines tokens = tokens.length then tokens.length + newlines more else newlines tokens := by
  unfold newlines
  rw [List.takeWhile_append]
  split
  · rw [List.length_append]
  · rfl

/-- One token is passed. -/
theorem advance_passes (s : Parsing) : advance.Passes s 1 (.ok (s.ahead 0)) := by
  intro steps hs
  unfold advance within
  show (if maxSteps ≤ steps then _ else _ : Parser Token) _ = _
  by_cases h : steps + 1 ≤ maxSteps
  · rw [if_pos h, if_neg (Nat.not_le_of_lt h)]
    rfl
  · rw [if_neg h, if_pos (by omega)]
    rfl

/-- So many tokens are passed, one step each. -/
theorem advanceBy_passes (m : Nat) (s : Parsing) : (advanceBy m).Passes s m (.ok ()) := by
  induction m generalizing s with
  | zero => exact .none fun _ => rfl
  | succ m ih =>
    have h : (advanceBy (m + 1)).Passes s (1 + m) (.ok ()) := (advance_passes s).bind (ih (s.pass 1))
    rwa [Nat.add_comm 1 m] at h

/-- The newlines ahead are passed. -/
theorem skipNewlines_passes (s : Parsing) : skipNewlines.Passes s (newlines s.rest) (.ok ()) :=
  advanceBy_passes (newlines s.rest) s

/-- One token is passed, if there is one. -/
theorem advance_run (hr : s.HasRoom) (hne : s.rest ≠ []) : advance s = .ok (s.ahead 0, s.pass 1) :=
  (advance_passes s).run_ok (hr.within (List.length_pos_iff.mpr hne))

/-- The newlines ahead are passed, and there is no mistake to be made. -/
theorem skipNewlines_run (hr : s.HasRoom) : skipNewlines s = .ok ((), s.pass (newlines s.rest)) :=
  (skipNewlines_passes s).run_ok (hr.within (newlines_le s.rest))

end Parser

/-! ## 4. Two parsers -/

/-- Two places of parsers of which the second may have more tokens ahead. The bounds of both are large enough. -/
structure Twin (P : Pairing) (k k' : Nat) (s s' : Parsing) : Prop where
  ahead : s.rest <+: s'.rest
  same : P.exact → s'.rest = s.rest ∧ s'.stop = s.stop
  /-- The end of the input is not among the tokens. -/
  inside_all : ∀ token ∈ s.rest, token.lexeme ≠ .endOfInput
  sound_all : P.sound → ∀ token ∈ s.rest, token.IsSound P.size
  length : s.rest.length ≤ k
  length' : s'.rest.length ≤ k'
  bound : s.rest.length < s.bound
  bound' : s'.rest.length < s'.bound

/-- Parser `p` at `s` passes tokens as `e` says and comes to a value of which `V` holds, with the tokens left, or fails,
though not for the number of its steps. Parser `p'` at `s'` passes as many tokens and comes to the same, unless it comes
to tokens that `p` does not see. -/
inductive Parser.Goes {α : Type} (P : Pairing) (V : α → List Token → Prop) (e : Extent) (p p' : Parser α)
    (s s' : Parsing) : Prop where
  | ok {a : α} {n : Nat} (passes : p.Passes s n (.ok a)) (le : n ≤ s.rest.length) (value : V a (s.rest.drop n))
      (used : e.Holds (s.rest.take n)) (passes' : P.exact ∨ n < s.rest.length → p'.Passes s' n (.ok a))
  | error {error : ScriptError} {n : Nat} (passes : p.Passes s n (.error error)) (le : n ≤ s.rest.length)
      (mistake : P.honest → error.IsMistake) (passes' : P.exact → p'.Passes s' n (.error error))

variable {P : Pairing} {k k' : Nat} {s s' : Parsing}

namespace Twin

/-- With fewer tokens ahead there are also fewer than so many. -/
theorem mono (h : Twin P k k' s s') {j j' : Nat} (hj : k ≤ j) (hj' : k' ≤ j') : Twin P j j' s s' :=
  { h with length := Nat.le_trans h.length hj, length' := Nat.le_trans h.length' hj' }

/-- Both places after as many tokens. -/
theorem pass (h : Twin P k k' s s') {m : Nat} (hm : m ≤ s.rest.length) :
    Twin P (k - m) (k' - m) (s.pass m) (s'.pass m) where
  ahead := by
    obtain ⟨more, hmore⟩ := h.ahead
    exact ⟨more, by rw [Parsing.rest_pass, Parsing.rest_pass, ← hmore, List.drop_append_of_le_length hm]⟩
  same he := ⟨congrArg (List.drop m) (h.same he).1, (h.same he).2⟩
  inside_all token hmem := h.inside_all token (List.mem_of_mem_drop hmem)
  sound_all hsound token hmem := h.sound_all hsound token (List.mem_of_mem_drop hmem)
  length := by
    rw [Parsing.rest_pass, List.length_drop]
    exact Nat.sub_le_sub_right h.length m
  length' := by
    rw [Parsing.rest_pass, List.length_drop]
    exact Nat.sub_le_sub_right h.length' m
  bound := by
    rw [Parsing.rest_pass, List.length_drop]
    exact Nat.lt_of_le_of_lt (Nat.sub_le _ _) h.bound
  bound' := by
    rw [Parsing.rest_pass, List.length_drop]
    exact Nat.lt_of_le_of_lt (Nat.sub_le _ _) h.bound'

/-- The token ahead is the same, if there is one. -/
theorem ahead_zero (h : Twin P k k' s s') (hs : P.exact ∨ s.rest ≠ []) : s'.ahead 0 = s.ahead 0 := by
  rcases hs with he | hne
  · unfold Parsing.ahead
    rw [(h.same he).1, (h.same he).2]
  · obtain ⟨more, hmore⟩ := h.ahead
    obtain ⟨token, rest, hr⟩ := List.exists_cons_of_ne_nil hne
    unfold Parsing.ahead
    rw [← hmore, hr]
    rfl

/-- A token ahead is not the end of the input. -/
theorem inside (h : Twin P k k' s s') (hne : s.rest ≠ []) : (s.ahead 0).lexeme ≠ .endOfInput := by
  obtain ⟨token, rest, hr⟩ := List.exists_cons_of_ne_nil hne
  have hahead : s.ahead 0 = token := by
    unfold Parsing.ahead
    rw [hr]
    rfl
  rw [hahead]
  exact h.inside_all token (hr ▸ List.mem_cons_self)

/-- A token ahead that is not the end of the input is sound if all are. -/
theorem isSound (h : Twin P k k' s s') (hs : (s.ahead 0).IsSolid) (hsound : P.sound) :
    (s.ahead 0).IsSound P.size := by
  refine h.sound_all hsound _ ?_
  rw [Parsing.rest_of_ahead hs.inside]
  exact List.mem_cons_self

end Twin

namespace Parser

variable {α β : Type} {V : α → List Token → Prop} {W : β → List Token → Prop} {e e₁ : Extent} {p p' : Parser α}

namespace Goes

/-- A value is there without passing a token. -/
theorem pure {a : α} (he : e ≠ .solid) (h : V a s.rest) : Goes P V e (pure a) (pure a) s s' :=
  .ok (.none fun _ => rfl) (Nat.zero_le _) h (.nil he) fun _ => .none fun _ => rfl

/-- Both parsers fail with the same error. -/
theorem fail {cause : ScriptError.Cause} {place : Place} (h : cause ≠ .tooManySteps) :
    Goes P V e (fail cause place) (fail cause place) s s' := by
  have hpasses (t : Parsing) : (Parser.fail cause place : Parser α).Passes t 0 (.error ⟨cause, place⟩) :=
    .none fun _ => rfl
  exact .error (hpasses s) (Nat.zero_le _) (fun _ => h) fun _ => hpasses s'

/-- Both find the same token, and do not expect it. -/
theorem unexpected {token : Token} {expected : Option String} :
    Goes P V e (unexpected token expected) (unexpected token expected) s s' :=
  .fail nofun

/-- Both choose the same branch. -/
theorem ite {c : Prop} [Decidable c] {q q' : Parser α} (h : c → Goes P V e p p' s s')
    (h' : ¬ c → Goes P V e q q' s s') :
    Goes P V e (if c then p else q) (if c then p' else q') s s' := by
  split
  · exact h ‹_›
  · exact h' ‹_›

/-- What comes out may be said in weaker words. -/
theorem mono {V' : α → List Token → Prop} (h : Goes P V e p p' s s') (hV : ∀ a rest, V a rest → V' a rest) :
    Goes P V' e p p' s s' := by
  cases h with
  | ok passes le value used passes' => exact .ok passes le (hV _ _ value) used passes'
  | error passes le mistake passes' => exact .error passes le mistake passes'

/-- Tokens that are solid are settled. -/
theorem settled (h : Goes P V .solid p p' s s') : Goes P V .settled p p' s s' := by
  cases h with
  | ok passes le value used passes' => exact .ok passes le value used.2 passes'
  | error passes le mistake passes' => exact .error passes le mistake passes'

/-- A parser goes on after tokens that both have passed. -/
theorem after {a : α} {m : Nat} (passes : p.Passes s m (.ok a)) (le : m ≤ s.rest.length)
    (used : e₁.Holds (s.rest.take m)) (passes' : P.exact ∨ m < s.rest.length → p'.Passes s' m (.ok a))
    {f f' : α → Parser β} (hf : Goes P W (e.after e₁) (f a) (f' a) (s.pass m) (s'.pass m)) :
    Goes P W e (p >>= f) (p' >>= f') s s' := by
  cases hf with
  | error passes₂ le₂ mistake passes₂' =>
    rw [Parsing.rest_pass, List.length_drop] at le₂
    exact .error (passes.bind passes₂) (by omega) mistake fun he => (passes' (.inl he)).bind (passes₂' he)
  | ok passes₂ le₂ value used₂ passes₂' =>
    rw [Parsing.rest_pass, List.length_drop] at le₂ passes₂'
    rw [Parsing.rest_pass, List.drop_drop] at value
    refine .ok (passes.bind passes₂) (by omega) value ?_ fun he => ?_
    · rw [List.take_add]
      exact used.append used₂
    · exact (passes' (he.imp_right fun hlt => by omega)).bind (passes₂' (he.imp_right fun hlt => by omega))

/-- One parser after the other. If the first passes a token, less is left for the second. -/
theorem andThen (hs : Twin P k k' s s') (h : Goes P V e₁ p p' s s') {f f' : α → Parser β}
    (hf : ∀ a m, m ≤ s.rest.length → e₁.Holds (s.rest.take m) → V a (s.rest.drop m) →
      Twin P (k - m) (k' - m) (s.pass m) (s'.pass m) →
      Goes P W (e.after e₁) (f a) (f' a) (s.pass m) (s'.pass m)) :
    Goes P W e (p >>= f) (p' >>= f') s s' := by
  cases h with
  | error passes le mistake passes' =>
    exact .error (passes.bind_error f) le mistake fun he => (passes' he).bind_error f'
  | @ok a m passes le value used passes' => exact after passes le used passes' (hf a m le used value (hs.pass le))

/-- **One parser after the other.** -/
theorem bind (hs : Twin P k k' s s') (h : Goes P V e₁ p p' s s') {f f' : α → Parser β}
    (hf : ∀ a {t t' : Parsing}, Twin P k k' t t' → V a t.rest → Goes P W (e.after e₁) (f a) (f' a) t t') :
    Goes P W e (p >>= f) (p' >>= f') s s' :=
  h.andThen hs fun a _ _ _ hv ht => hf a (ht.mono (Nat.sub_le _ _) (Nat.sub_le _ _)) hv

/-- **One parser after another that passes a token.** -/
theorem bind_solid (hs : Twin P k k' s s') (h : Goes P V .solid p p' s s') {f f' : α → Parser β}
    (hf : ∀ a {j j' : Nat} {t t' : Parsing}, j < k → j' < k' → Twin P j j' t t' → V a t.rest →
      Goes P W (e.after .solid) (f a) (f' a) t t') : Goes P W e (p >>= f) (p' >>= f') s s' := by
  refine h.andThen hs fun a m _ hused hv ht => ?_
  have hpos : 0 < m := Nat.pos_of_ne_zero fun hzero => hused.1 (by rw [hzero, List.take_zero])
  have hk := hs.length
  have hk' := hs.length'
  have hle := hs.ahead.length_le
  exact hf a (by omega) (by omega) ht hv

/-- A value that is there needs no parser before what goes on with it. -/
theorem pure_bind {a : α} {f f' : α → Parser β} (h : Goes P W e (f a) (f' a) s s') :
    Goes P W e (Pure.pure a >>= f) (Pure.pure a >>= f') s s' := h

/-- After a failure nothing happens. -/
theorem fail_bind {cause : ScriptError.Cause} {place : Place} {f f' : β → Parser α}
    (h : cause ≠ .tooManySteps) :
    Goes P V e (Parser.fail cause place >>= f) (Parser.fail cause place >>= f') s s' := by
  have hpasses (t : Parsing) : (Parser.fail cause place : Parser β).Passes t 0 (.error ⟨cause, place⟩) :=
    .none fun _ => rfl
  exact .error ((hpasses s).bind_error f) (Nat.zero_le _) (fun _ => h) fun _ => (hpasses s').bind_error f'

/-- What follows an unexpected token is not asked. -/
theorem unexpected_bind {token : Token} {expected : Option String} {f f' : β → Parser α} :
    Goes P V e (Parser.unexpected token expected >>= f) (Parser.unexpected token expected >>= f') s s' := by
  unfold Parser.unexpected
  exact .fail_bind nofun

/-- **A look at the next token.** A comparison that is not exact has nothing to say where there is none. -/
theorem peek (hs : Twin P k k' s s') {f f' : Token → Parser β}
    (hf : Goes P W e (f (s.ahead 0)) (f' (s.ahead 0)) s s') :
    Goes P W e (Parser.peek >>= f) (Parser.peek >>= f') s s' := by
  have hlook {r : Except ScriptError β} {m : Nat} (hahead : s'.ahead 0 = s.ahead 0)
      (h : (f' (s.ahead 0)).Passes s' m r) : (Parser.peek >>= f').Passes s' m r := by
    rw [← hahead] at h
    exact h
  by_cases hne : P.exact ∨ s.rest ≠ []
  · have hahead := hs.ahead_zero hne
    cases hf with
    | ok passes le value used passes' => exact .ok passes le value used fun he => hlook hahead (passes' he)
    | error passes le mistake passes' => exact .error passes le mistake fun he => hlook hahead (passes' he)
  · obtain ⟨hexact, hnil⟩ := not_or.mp hne
    have hlength : s.rest.length = 0 := by simpa using hnil
    cases hf with
    | ok passes le value used passes' =>
      exact .ok passes le value used fun he => he.elim (absurd · hexact) fun hlt => by omega
    | error passes le mistake passes' => exact .error passes le mistake fun he => absurd he hexact

/-- A look at the token after the next, by parsers that pass one. -/
theorem ahead_one (hs : Twin P k k' s s') (c : Token → Bool) {q q' : Parser α}
    (h : c (s.ahead 1) = true → Goes P V .solid p p' s s')
    (h' : c (s.ahead 1) = false → Goes P V .solid q q' s s') :
    Goes P V .solid (get >>= fun t : Parsing => if c (t.ahead 1) then p else q)
      (get >>= fun t : Parsing => if c (t.ahead 1) then p' else q') s s' := by
  have hlook {s : Parsing} {p q : Parser α} {r : Except ScriptError α} {m : Nat} {token : Token}
      (hahead : s.ahead 1 = token) (h : (if c token then p else q).Passes s m r) :
      (get >>= fun t : Parsing => if c (t.ahead 1) then p else q : Parser α).Passes s m r := by
    rw [← hahead] at h
    exact h
  have hf : Goes P V .solid (if c (s.ahead 1) then p else q) (if c (s.ahead 1) then p' else q') s s' :=
    .ite h fun hc => h' (eq_false_of_ne_true hc)
  by_cases hone : P.exact ∨ 1 < s.rest.length
  · have hahead : s'.ahead 1 = s.ahead 1 := by
      unfold Parsing.ahead
      rcases hone with he | hone
      · rw [(hs.same he).1, (hs.same he).2]
      · obtain ⟨more, hmore⟩ := hs.ahead
        rw [← hmore, List.getElem?_append_left hone, List.getElem?_eq_getElem hone]
        rfl
    cases hf with
    | ok passes le value used passes' =>
      exact .ok (hlook rfl passes) le value used fun he => hlook hahead (passes' he)
    | error passes le mistake passes' =>
      exact .error (hlook rfl passes) le mistake fun he => hlook hahead (passes' he)
  -- The token that is passed is the last one, so a parser with more ahead may do as it likes.
  · obtain ⟨hexact, hlength⟩ := not_or.mp hone
    cases hf with
    | @ok _ m passes le value used passes' =>
      have hpos : 0 < m := Nat.pos_of_ne_zero fun hzero => used.1 (by rw [hzero, List.take_zero])
      exact .ok (hlook rfl passes) le value used fun he => he.elim (absurd · hexact) fun hlt => by omega
    | error passes le mistake passes' => exact .error (hlook rfl passes) le mistake fun he => absurd he hexact

/-- **A token is passed**, and less is left. -/
theorem advance (hs : Twin P k k' s s') (hsolid : (s.ahead 0).IsSolid) {f f' : Token → Parser β}
    (hf : ∀ {j j' : Nat} {t t' : Parsing}, j < k → j' < k' → Twin P j j' t t' → s.rest = s.ahead 0 :: t.rest →
      Goes P W (e.after .solid) (f (s.ahead 0)) (f' (s.ahead 0)) t t') :
    Goes P W e (Parser.advance >>= f) (Parser.advance >>= f') s s' := by
  have hrest := Parsing.rest_of_ahead hsolid.inside
  have hne : s.rest ≠ [] := by
    rw [hrest]
    exact List.cons_ne_nil _ _
  have hpos := List.length_pos_iff.mpr hne
  have hused : Extent.solid.Holds (s.rest.take 1) := by
    rw [hrest]
    exact .singleton hsolid
  have hpasses' : Parser.advance.Passes s' 1 (.ok (s.ahead 0)) := by
    rw [← hs.ahead_zero (.inr hne)]
    exact advance_passes s'
  have hk := hs.length
  have hk' := hs.length'
  have hle := hs.ahead.length_le
  exact after (advance_passes s) hpos hused (fun _ => hpasses') (hf (by omega) (by omega) (hs.pass hpos) hrest)

/-- The newlines ahead are passed by both. There may be more of them behind, so this is where the end counts. -/
theorem skipNewlines (hs : Twin P k k' s s') :
    Goes P (fun _ rest => rest = pastNewlines s.rest) .any Parser.skipNewlines Parser.skipNewlines s s' := by
  refine .ok (skipNewlines_passes s) (newlines_le s.rest) (pastNewlines_eq s.rest).symm trivial fun he => ?_
  have hsame : newlines s'.rest = newlines s.rest := by
    rcases he with he | hlt
    · rw [(hs.same he).1]
    · obtain ⟨more, hmore⟩ := hs.ahead
      rw [← hmore, newlines_append, if_neg (Nat.ne_of_lt hlt)]
  rw [← hsame]
  exact skipNewlines_passes s'

/-- Loops with any two bounds that are large enough. -/
theorem bound (hs : Twin P k k' s s') {f f' : Nat → Parser β}
    (hf : ∀ {j j' m m' : Nat}, j < m → j' < m' → j ≤ k → j' ≤ k' → Twin P j j' s s' →
      Goes P W e (f m) (f' m') s s') :
    Goes P W e (Parser.bound >>= f) (Parser.bound >>= f') s s' := by
  have h := hf hs.bound hs.bound' hs.length hs.length'
    { hs with length := Nat.le_refl _, length' := Nat.le_refl _ }
  cases h with
  | ok passes le value used passes' => exact .ok passes le value used passes'
  | error passes le mistake passes' => exact .error passes le mistake passes'

/-- A word is resolved by both readers of sources in the same way. -/
theorem lift {x x' : Except ScriptError α} (h : Agree P.honest x x') (hV : ∀ a, x = .ok a → V a s.rest) :
    Goes P V .settled (liftM x : Parser α) (liftM x') s s' := by
  cases h with
  | ok a => exact .ok (.none fun _ => rfl) (Nat.zero_le _) (hV a rfl) nofun fun _ => .none fun _ => rfl
  | error h => exact .error (.none fun _ => rfl) (Nat.zero_le _) h fun _ => .none fun _ => rfl

end Goes

end Parser

end Shell
