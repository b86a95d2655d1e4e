/-
Scripts, one token at a time.

The tokens of a text are read in turns, of which each passes over blanks or adds a token (`Tokens.step`,
`tokensFrom_cons`), and what holds of them is shown by induction on the turns (`tokensFrom_induction`).
What a turn does depends on the tokens before only in two ways: whether a command may start, and whether
the last one is the keyword `function`. After a complete line both are as at the start. So the tokens of a
text after complete lines are those it has by itself, at other places (`tokensFrom_lines`).

What the module on words says of sources and names is said of tokens here (`tokensFrom_isSound`).
-/
import Shell.Token.Lexer
import Shell.Proofs.Token.Words

set_option autoImplicit false

namespace Shell

variable {ts : Tokens} {place : Place} {c : Char} {cs : List Char}

/-! ## 1. Turns -/

/-- Which operator a text starts with depends on two characters. -/
theorem operatorAt?_cons (c : Char) (cs : List Char) :
    operatorAt? (c :: cs) =
      if c = '&' ∧ cs.head? = some '&' then some .andIf
      else if c = '|' ∧ cs.head? = some '|' then some .orIf
      else if c = ';' then some .semicolon
      else if c = '|' then some .pipe
      else if c = '&' then some .ampersand
      else if c = '(' then some .leftParen
      else if c = ')' then some .rightParen
      else if c = '<' then some .less
      else if c = '>' then some .greater
      else none := by
  unfold operatorAt?
  cases cs with
  | nil => split <;> simp_all
  | cons d ds => split <;> simp_all [List.head?_eq_some_iff]

/-- What is left after an operator. -/
theorem operatorAt?_text {op : Operator} (h : operatorAt? (c :: cs) = some op) :
    c :: cs = op.text.toList ++ cs.drop (op.text.length - 1) ∧ '\n' ∉ op.text.toList := by
  unfold operatorAt? at h
  split at h <;> cases h <;> simp_all [Operator.text, ← String.length_toList]

namespace Tokens

/-- The tokens read, the place, and what is left. -/
abbrev Turn := Tokens × Place × List Char

/-- One turn of reading tokens from a text that starts with `c`. -/
def step (ts : Tokens) (place : Place) (c : Char) (cs : List Char) : Except ScriptError Turn :=
  if c = ' ' ∨ c = '\t' then .ok (ts, place.after c, cs)
  else if c = '\\' ∧ cs.head? = some '\n' then .ok (ts, place.advance [c, '\n'], cs.drop 1)
  else if c = '\n' then .ok (ts.push .newline place true, place.after c, cs)
  else if c = '#' then
    let comment := cs.takeWhile (· ≠ '\n')
    .ok (ts, (place.after c).advance comment, cs.drop comment.length)
  else if ts.commandStart ∧ c = '(' ∧ cs.head? = some '(' then
    let start := place.advance ['(', '(']
    match Scan.expression .arithmeticCommand ⟨.unterminated .arithmeticCommand, place⟩ .none 0
        [] start (cs.drop 1) with
    | .error e => .error e
    | .ok region =>
      match readParts (fun _ => false) {} start region.content with
      | .error e => .error e
      | .ok piece =>
        let lexeme := .arithmetic (String.ofList region.content) piece.parts
        .ok (ts.push lexeme place false, region.place, region.rest)
  else
    match operatorAt? (c :: cs) with
    | some op =>
      .ok (ts.push (.operator op) place true, place.advance op.text.toList,
        cs.drop (op.text.length - 1))
    | none =>
      match readParts isMetacharacter {} place (c :: cs) with
      | .error e => .error e
      | .ok piece => .ok (ts.pushWord place piece, piece.place, piece.rest)

/-- What a turn can be. -/
inductive Took (ts : Tokens) (place : Place) : Char → List Char → Turn → Prop where
  | blank {c : Char} {cs : List Char} (hc : c = ' ' ∨ c = '\t') :
      Took ts place c cs (ts, place.after c, cs)
  | continued {cs : List Char} :
      Took ts place '\\' ('\n' :: cs) (ts, place.advance ['\\', '\n'], cs)
  | newline {cs : List Char} :
      Took ts place '\n' cs (ts.push .newline place true, place.after '\n', cs)
  | comment {cs : List Char} :
      Took ts place '#' cs (ts, (place.after '#').advance (cs.takeWhile (· ≠ '\n')),
        cs.drop (cs.takeWhile (· ≠ '\n')).length)
  | arithmetic {cs : List Char} {region : Scan.Region} {piece : Piece} (hs : ts.commandStart = true)
      (hr : Scan.expression .arithmeticCommand ⟨.unterminated .arithmeticCommand, place⟩ .none 0 []
        (place.advance ['(', '(']) cs = .ok region)
      (hp : readParts (fun _ => false) {} (place.advance ['(', '(']) region.content = .ok piece) :
      Took ts place '(' ('(' :: cs)
        (ts.push (.arithmetic (String.ofList region.content) piece.parts) place false, region.place,
          region.rest)
  | operator {c : Char} {cs : List Char} {op : Operator} (ho : operatorAt? (c :: cs) = some op)
      (hs : ¬ (ts.commandStart = true ∧ c = '(' ∧ cs.head? = some '(')) :
      Took ts place c cs (ts.push (.operator op) place true, place.advance op.text.toList,
        cs.drop (op.text.length - 1))
  | word {c : Char} {cs : List Char} {piece : Piece} (hm : isMetacharacter c = false) (hc : c ≠ '#')
      (hb : ¬ (c = '\\' ∧ cs.head? = some '\n'))
      (hp : readParts isMetacharacter {} place (c :: cs) = .ok piece) :
      Took ts place c cs (ts.pushWord place piece, piece.place, piece.rest)

/-- The characters that operators start with. -/
theorem of_operatorAt? {op : Operator} (h : operatorAt? (c :: cs) = some op) :
    isMetacharacter c = true ∧ ¬ (c = ' ' ∨ c = '\t') ∧ c ≠ '\n' := by
  unfold operatorAt? at h
  split at h <;> simp_all [isMetacharacter]

theorem operatorAt?_eq_none (h : isMetacharacter c = false) : operatorAt? (c :: cs) = none := by
  cases ho : operatorAt? (c :: cs) with
  | none => rfl
  | some op =>
    rw [(of_operatorAt? ho).1] at h
    cases h

/-- **A turn is one of these.** -/
theorem step_eq_ok_iff {turn : Turn} : ts.step place c cs = .ok turn ↔ Took ts place c cs turn := by
  constructor
  · intro h
    -- The rules are in the order of the branches, and each holds what the branches before it have ruled out.
    unfold step at h
    split at h
    · next hc =>
      obtain rfl := Except.ok.inj h
      exact .blank hc
    next hblank =>
    split at h
    · next hc =>
      obtain ⟨rfl, hhead⟩ := hc
      obtain ⟨ds, rfl⟩ := List.head?_eq_some_iff.mp hhead
      obtain rfl := Except.ok.inj h
      exact .continued
    next hb =>
    split at h
    · next hc =>
      subst hc
      obtain rfl := Except.ok.inj h
      exact .newline
    next hn =>
    split at h
    · next hc =>
      subst hc
      obtain rfl := Except.ok.inj h
      exact .comment
    next hcomment =>
    split at h
    · next hc =>
      obtain ⟨hs, rfl, hhead⟩ := hc
      obtain ⟨ds, rfl⟩ := List.head?_eq_some_iff.mp hhead
      simp only at h
      split at h
      · cases h
      next hr =>
      split at h
      · cases h
      next hp =>
      obtain rfl := Except.ok.inj h
      exact .arithmetic hs hr hp
    next hs =>
    split at h
    · next ho =>
      obtain rfl := Except.ok.inj h
      exact .operator ho hs
    next ho =>
    split at h
    · cases h
    · next hp =>
      obtain rfl := Except.ok.inj h
      exact .word (isMetacharacter_eq_false hblank hn ho) hcomment hb hp
  · intro h
    cases h with
    | blank hc => simp [step, hc]
    | continued => simp [step]
    | newline => simp [step]
    | comment => simp [step]
    | arithmetic hs hr hp => simp [step, hs, hr, hp]
    | operator ho hs =>
      obtain ⟨hm, hblank, hn⟩ := of_operatorAt? ho
      have hb : c ≠ '\\' := by
        rintro rfl
        exact absurd hm (by decide)
      have hcomment : c ≠ '#' := by
        rintro rfl
        exact absurd hm (by decide)
      unfold step
      rw [if_neg hblank, if_neg fun h => hb h.1, if_neg hn, if_neg hcomment, if_neg hs, ho]
    | word hm hcomment hb hp =>
      have hne {d : Char} (hd : isMetacharacter d = true) : c ≠ d := by
        rintro rfl
        rw [hm] at hd
        cases hd
      have hblank : ¬ (c = ' ' ∨ c = '\t') := not_or.mpr ⟨hne (by decide), hne (by decide)⟩
      unfold step
      rw [if_neg hblank, if_neg hb, if_neg (hne (by decide)), if_neg hcomment,
        if_neg fun h => hne (by decide) h.2.1, operatorAt?_eq_none hm, hp]

/-- A turn takes at least one character. -/
theorem Took.length {turn : Turn} (ht : Took ts place c cs turn) : turn.2.2.length ≤ cs.length := by
  cases ht with
  | blank | newline => exact Nat.le_refl _
  | continued => exact Nat.le_succ _
  | comment | operator => exact (List.drop_sublist _ _).length_le
  | arithmetic hs hr hp =>
    have hlength := Scan.expression_length hr
    simp only [List.length_nil, List.length_cons] at hlength ⊢
    omega
  | word hm hcomment hb hp => exact Nat.le_of_lt_succ (readWord_length hm hp)

end Tokens

/-- **A script is read turn by turn.** -/
theorem tokensFrom_cons (ts : Tokens) (place : Place) (c : Char) (cs : List Char) :
    tokensFrom ts place (c :: cs) =
      match ts.step place c cs with
      | .error e => .error e
      | .ok (ts', place', cs') => tokensFrom ts' place' cs' := by
  conv => lhs; unfold tokensFrom
  unfold Tokens.step
  split
  · rfl
  split
  · rfl
  split
  · rfl
  split
  · rfl
  split
  · simp only
    split <;> rename_i hr <;> rw [hr]
    simp only
    cases readParts _ _ _ _ <;> rfl
  split <;> rename_i ho <;> rw [ho]
  split <;> rename_i hp <;> rw [hp]

/-- At the end of a text, the end of the input is its last token. -/
theorem tokensFrom_end (ts : Tokens) (place : Place) :
    tokensFrom ts place [] = .ok (ts.push .endOfInput place ts.commandStart).done.reverse := by
  unfold tokensFrom
  rfl

/-- A turn leaves the rest of the text to be read. -/
theorem tokensFrom_of_took {turn : Tokens.Turn} (ht : ts.Took place c cs turn) :
    tokensFrom ts place (c :: cs) = tokensFrom turn.1 turn.2.1 turn.2.2 := by
  rw [tokensFrom_cons, Tokens.step_eq_ok_iff.mpr ht]

/-- **Induction on the turns of a script.** -/
theorem tokensFrom_induction
    {motive : ∀ {ts : Tokens} {place : Place} {cs : List Char} {tokens : List Token},
      tokensFrom ts place cs = .ok tokens → Prop}
    (stop : ∀ (ts : Tokens) (place : Place), motive (tokensFrom_end ts place))
    (turn : ∀ {ts : Tokens} {place : Place} {c : Char} {cs : List Char} {turn : Tokens.Turn} {tokens : List Token}
      (ht : ts.Took place c cs turn) (hr : tokensFrom turn.1 turn.2.1 turn.2.2 = .ok tokens),
      motive hr → motive ((tokensFrom_of_took ht).trans hr))
    {tokens : List Token} (h : tokensFrom ts place cs = .ok tokens) : motive h := by
  -- The rest is shorter after each turn, but it is not a tail of the text, so the induction is on the length.
  induction hn : cs.length using Nat.strongRecOn generalizing ts place cs with
  | _ n ih =>
    have hread := h
    cases cs with
    | nil =>
      rw [tokensFrom_end] at hread
      obtain rfl := Except.ok.inj hread
      exact stop ts place
    | cons c cs =>
      subst hn
      rw [tokensFrom_cons] at hread
      cases hs : ts.step place c cs with
      | error e =>
        rw [hs] at hread
        cases hread
      | ok t =>
        rw [hs] at hread
        have ht := Tokens.step_eq_ok_iff.mp hs
        exact turn ht hread (ih _ (Nat.lt_succ_of_le ht.length) hread rfl)

/-- The tokens of a text, read in at most `n` turns. -/
def tokensWithin (n : Nat) (ts : Tokens) (place : Place) (cs : List Char) :
    Except ScriptError (List Token) :=
  match n, cs with
  | _, [] => .ok (ts.push .endOfInput place ts.commandStart).done.reverse
  | 0, _ :: _ => .ok []
  | n + 1, c :: cs =>
    match ts.step place c cs with
    | .error e => .error e
    | .ok (ts', place', cs') => tokensWithin n ts' place' cs'

/-! ## 2. Complete lines -/

namespace Tokens

/-- A turn at a complete line is the same whatever comes after the line. It leaves a complete line, or it has
come to the end of it. -/
theorem Took.append {turn : Turn} (ht : Took ts place c cs turn) (h : EndsLine (c :: cs))
    (more : List Char) :
    Took ts place c (cs ++ more) (turn.1, turn.2.1, turn.2.2 ++ more) ∧
      CutAt place (c :: cs) turn.2.1 turn.2.2 ∧
      (EndsLine turn.2.2 ∨ turn = (ts.push .newline place true, place.after '\n', [])) := by
  -- A text that ends its line decides each turn without what follows it. Only behind the last newline nothing is
  -- left.
  cases ht with
  | blank hc =>
    have hne : c ≠ '\n' := by rcases hc with rfl | rfl <;> decide
    exact ⟨.blank hc, (CutAt.refl _ _).cons _, .inl (h.tail hne)⟩
  | continued =>
    exact ⟨.continued, (CutAt.refl _ _).prepend ['\\', '\n'], .inl h.escaped⟩
  | newline =>
    refine ⟨.newline, (CutAt.refl _ _).cons _, ?_⟩
    by_cases hnil : cs = []
    · exact .inr (by rw [hnil])
    · exact .inl (EndsLine.right ['\n'] h hnil)
  | comment =>
    have hline := h.tail (by decide)
    obtain ⟨heq, hlt⟩ := hline.takeWhile_append (p := (· ≠ '\n')) (by decide) more
    have hsplit : cs = cs.takeWhile (· ≠ '\n') ++ cs.drop (cs.takeWhile (· ≠ '\n')).length :=
      ((List.prefix_iff_eq_append.mp (List.takeWhile_prefix _)).symm)
    have hrest : cs.drop (cs.takeWhile (· ≠ '\n')).length ≠ [] := fun hnil =>
      absurd (List.drop_eq_nil_iff.mp hnil) (Nat.not_le_of_lt hlt)
    refine ⟨?_, ⟨'#' :: cs.takeWhile (· ≠ '\n'), congrArg _ hsplit, rfl⟩, .inl ?_⟩
    · have hcomment : Took ts place '#' (cs ++ more) _ := .comment
      rwa [heq, List.drop_append_of_le_length (Nat.le_of_lt hlt)] at hcomment
    · exact EndsLine.right _ (hsplit ▸ hline) hrest
  | arithmetic hs hr hp =>
    have hends := Scan.expression_ends hr
    exact ⟨.arithmetic hs (Scan.expression_append hr more) hp, hends.cutAt.prepend ['(', '('],
      .inl (((h.tail (by decide)).tail (by decide)).region hends (by decide))⟩
  | @operator _ _ op ho hs =>
    obtain ⟨htext, hn⟩ := operatorAt?_text ho
    have hcs : cs ≠ [] := by
      rintro rfl
      exact (of_operatorAt? ho).2.2 (Option.some.inj h.1)
    have hhead : (cs ++ more).head? = cs.head? := List.head?_append_of_ne_nil cs hcs
    have hrest : cs.drop (op.text.length - 1) ≠ [] := by
      intro hnil
      rw [hnil, List.append_nil] at htext
      exact hn (htext ▸ h.mem)
    refine ⟨?_, ⟨op.text.toList, htext, rfl⟩, .inl (EndsLine.right _ (htext ▸ h) hrest)⟩
    rw [← List.drop_append_of_le_length]
    · refine .operator ?_ (hhead ▸ hs)
      rwa [operatorAt?_cons, hhead, ← operatorAt?_cons]
    · exact Nat.le_of_lt (Nat.lt_of_not_le fun hle => hrest (List.drop_eq_nil_of_le hle))
  | word hm hcomment hb hp =>
    obtain ⟨happend, hline, hcut⟩ := readParts_append (by decide) h hp more
    refine ⟨.word hm hcomment ?_ happend, hcut, .inl hline⟩
    rintro ⟨rfl, hhead⟩
    cases cs with
    | nil => exact absurd (Option.some.inj h.1) (by decide)
    | cons d ds => exact hb ⟨rfl, hhead⟩

end Tokens

/-- With as many turns as there are characters all tokens are read. -/
theorem tokensFrom_eq_tokensWithin {n : Nat} (h : cs.length ≤ n) :
    tokensFrom ts place cs = tokensWithin n ts place cs := by
  induction n generalizing ts place cs with
  | zero =>
    obtain rfl := List.length_eq_zero_iff.mp (Nat.le_zero.mp h)
    unfold tokensFrom
    rfl
  | succ n ih =>
    match cs with
    | [] =>
      unfold tokensFrom
      rfl
    | c :: cs =>
      rw [tokensFrom_cons]
      unfold tokensWithin
      cases hs : ts.step place c cs with
      | error e => rfl
      | ok turn =>
        have hlength := (Tokens.step_eq_ok_iff.mp hs).length
        exact ih (Nat.le_trans hlength (Nat.le_of_succ_le_succ h))

/-- **After complete lines it is as at the start of a script**: the last token is a newline, and reading goes
on in the text after the lines. -/
theorem tokensFrom_append (h : EndsLine cs) {tokens : List Token}
    (ht : tokensFrom ts place cs = .ok tokens) :
    ∃ (done : List Token) (p : Place),
      tokens = (⟨.endOfInput, place.advance cs⟩ :: ⟨.newline, p⟩ :: done).reverse ∧
      ∀ more, tokensFrom ts place (cs ++ more) =
        tokensFrom ⟨⟨.newline, p⟩ :: done, true⟩ (place.advance cs) more := by
  induction ht using tokensFrom_induction with
  | stop => exact absurd rfl h.ne_nil
  | turn ht hr ih =>
    simp only [List.cons_append, fun more => tokensFrom_of_took (ht.append h more).1]
    obtain ⟨-, ⟨used, hcut, hplace⟩, hline⟩ := ht.append h []
    rw [hcut, Place.advance_append, ← hplace]
    rcases hline with hline | rfl
    · exact ih hline
    · rw [tokensFrom_end] at hr
      exact ⟨_, _, (Except.ok.inj hr).symm, fun more => rfl⟩

namespace Tokens

/-- The tokens `ts` after others, which are backwards. -/
def onto (ts : Tokens) (before : List Token) : Tokens := ⟨ts.done ++ before, ts.commandStart⟩

variable {before : List Token}

theorem isAfterFunction_onto (hb : ∀ token ∈ before.head?, token.lexeme ≠ .reserved .function) :
    (ts.onto before).isAfterFunction = ts.isAfterFunction := by
  obtain ⟨done, commandStart⟩ := ts
  cases done with
  | cons token done =>
    obtain ⟨lexeme, p⟩ := token
    cases lexeme with
    | reserved keyword => cases keyword <;> rfl
    | _ => rfl
  | nil =>
    cases before with
    | nil => rfl
    | cons token before =>
      obtain ⟨lexeme, p⟩ := token
      have hne : lexeme ≠ .reserved .function := hb _ rfl
      simp only [onto, isAfterFunction, List.nil_append]
      split
      · next heq => exact absurd (congrArg Token.lexeme (List.cons.inj heq).1) hne
      · rfl

/-- A turn does the same after other tokens, unless they end with `function`. -/
theorem step_onto (hb : ∀ token ∈ before.head?, token.lexeme ≠ .reserved .function) :
    (ts.onto before).step place c cs =
      (ts.step place c cs).map fun turn => (turn.1.onto before, turn.2) := by
  have hstart : (ts.onto before).commandStart = ts.commandStart := rfl
  have hword (piece : Piece) :
      (ts.onto before).pushWord place piece = (ts.pushWord place piece).onto before := by
    unfold pushWord
    simp only [isAfterFunction_onto hb, hstart]
    cases (if (ts.commandStart && !piece.parts.any WordPart.isQuoted) = true then
      Keyword.ofText? (String.ofList piece.text) else none) <;> rfl
  -- The tokens before are looked at in one place only, which is a word after `function`.
  unfold step
  simp only [hword, hstart]
  split
  · rfl
  split
  · rfl
  split
  · rfl
  split
  · rfl
  split
  · cases Scan.expression _ _ _ _ _ _ _ with
    | error e => rfl
    | ok region =>
      simp only
      cases readParts _ _ _ region.content <;> rfl
  · cases operatorAt? (c :: cs) with
    | some op => rfl
    | none => cases readParts _ _ _ _ <;> rfl

end Tokens

/-- The tokens of a text are the same after other tokens, unless these end with `function`. -/
theorem tokensFrom_onto {before : List Token}
    (hb : ∀ token ∈ before.head?, token.lexeme ≠ .reserved .function) :
    tokensFrom (ts.onto before) place cs = (tokensFrom ts place cs).map (before.reverse ++ ·) := by
  induction hn : cs.length using Nat.strongRecOn generalizing ts place cs with
  | _ n ih =>
    match cs with
    | [] =>
      unfold tokensFrom
      simp [Tokens.push, Tokens.onto, Except.map]
    | c :: cs =>
      rw [tokensFrom_cons, tokensFrom_cons, Tokens.step_onto hb]
      cases hs : ts.step place c cs with
      | error e => rfl
      | ok turn =>
        have hlt := Nat.lt_succ_of_le (Tokens.step_eq_ok_iff.mp hs).length
        exact ih turn.2.2.length (hn ▸ hlt) rfl

/-- **The tokens of complete lines and a text after them** are those of the lines, without the end, and those of
the text by itself. -/
theorem tokensFrom_lines (h : EndsLine cs) {tokens : List Token}
    (ht : tokensFrom {} place cs = .ok tokens) :
    ∃ (line : List Token) (p : Place),
      tokens = line ++ [⟨.newline, p⟩, ⟨.endOfInput, place.advance cs⟩] ∧
      ∀ more, tokensFrom {} place (cs ++ more) =
        (tokensFrom {} (place.advance cs) more).map (line ++ [⟨.newline, p⟩] ++ ·) := by
  obtain ⟨done, p, rfl, happend⟩ := tokensFrom_append h ht
  refine ⟨done.reverse, p, by simp, fun more => ?_⟩
  rw [happend, show (⟨⟨.newline, p⟩ :: done, true⟩ : Tokens) =
    Tokens.onto {} (⟨.newline, p⟩ :: done) from rfl, tokensFrom_onto, List.reverse_cons]
  rintro token ⟨⟩
  exact nofun

/-- The place after complete lines is the start of a line. -/
theorem Place.advance_lines (h : EndsLine cs) :
    place.advance cs = ⟨place.line + cs.count '\n', 1⟩ := by
  have hline (place : Place) (cs : List Char) :
      (place.advance cs).line = place.line + cs.count '\n' := by
    induction cs generalizing place with
    | nil => rfl
    | cons c cs ih =>
      rw [Place.advance_cons, ih, List.count_cons]
      unfold Place.after
      by_cases hc : c = '\n' <;> simp [hc]
      omega
  obtain ⟨hlast, -⟩ := h
  have hcs := List.dropLast_append_getLast? _ hlast
  have hcolumn : (place.advance cs).column = 1 := by
    rw [← hcs, Place.advance_append]
    rfl
  have hline := hline place cs
  revert hline hcolumn
  cases place.advance cs
  rintro rfl rfl
  rfl

/-! ## 3. What holds of every token -/

/-- What holds of the tokens of a text with at most `n` characters: nothing in them has been parsed, what is to
be parsed is shorter, and words that pass for names are. None of them is the end of the input. -/
structure Token.IsSound (n : Nat) (token : Token) : Prop where
  fresh : AreFresh n token.lexeme.parts
  name : ∀ text parts, token.lexeme = .word text parts → Name.isValid text.toList = true →
    Name.isIdentifier text.toList = true
  inside : token.lexeme ≠ .endOfInput

namespace Tokens

variable {n : Nat}

/-- What is read in a turn is sound. -/
theorem Took.isSound {turn : Turn} (ht : Took ts place c cs turn) (hn : (c :: cs).length ≤ n)
    (h : ∀ token ∈ ts.done, token.IsSound n) : ∀ token ∈ turn.1.done, token.IsSound n := by
  have hpush {lexeme : Lexeme} {place : Place} {start : Bool}
      (hl : Token.IsSound n ⟨lexeme, place⟩) :
      ∀ token ∈ (ts.push lexeme place start).done, token.IsSound n :=
    List.forall_mem_cons.mpr ⟨hl, h⟩
  cases ht with
  | blank | continued | comment => exact h
  | newline | operator => exact hpush ⟨trivial, nofun, nofun⟩
  | arithmetic hs hr hp =>
    have hlength := Scan.expression_length hr
    simp only [List.length_nil, List.length_cons] at hlength hn
    exact hpush ⟨readParts_isFresh hp ⟨trivial, nofun⟩ (by omega), nofun, nofun⟩
  | word hm hcomment hb hp =>
    have hfresh := readParts_isFresh hp ⟨trivial, nofun⟩ hn
    have hguarded := readParts_guarded (by decide) hp (.inr ⟨rfl, nofun⟩)
    unfold pushWord
    simp only
    split
    · exact hpush ⟨⟨trivial, trivial⟩, nofun, nofun⟩
    · refine hpush ⟨hfresh, fun text parts hw hv => ?_, nofun⟩
      obtain ⟨rfl, rfl⟩ := Lexeme.word.inj hw
      rw [String.toList_ofList] at hv ⊢
      exact isIdentifier_of_guarded hguarded hv

end Tokens

/-- **Every token of a text is sound**, but for the end of the input, which comes last. -/
theorem tokensFrom_isSound {n : Nat} {tokens : List Token} (ht : tokensFrom ts place cs = .ok tokens)
    (hn : cs.length ≤ n) (h : ∀ token ∈ ts.done, token.IsSound n) :
    ∃ (inside : List Token) (stop : Place), tokens = inside ++ [⟨.endOfInput, stop⟩] ∧
      ∀ token ∈ inside, token.IsSound n := by
  induction ht using tokensFrom_induction with
  | stop ts place =>
    refine ⟨ts.done.reverse, place, by simp [Tokens.push], fun token hmem => ?_⟩
    exact h token (List.mem_reverse.mp hmem)
  | turn ht hr ih =>
    have hlength := ht.length
    rw [List.length_cons] at hn
    exact ih (by omega) (ht.isSound hn h)

/-- **A text that has no tokens has a mistake in it.** -/
theorem tokensFrom_isMistake {e : ScriptError} (h : tokensFrom ts place cs = .error e) :
    e.IsMistake := by
  induction hk : cs.length using Nat.strongRecOn generalizing ts place cs with
  | _ k ih =>
    match cs with
    | [] =>
      unfold tokensFrom at h
      cases h
    | c :: cs =>
      rw [tokensFrom_cons] at h
      cases hs : ts.step place c cs with
      | error e' =>
        rw [hs] at h
        obtain rfl := Except.error.inj h
        unfold Tokens.step at hs
        grind [Scan.expression_isMistake, readParts_isMistake, ScriptError.IsMistake]
      | ok turn =>
        rw [hs] at h
        have hlt := Nat.lt_succ_of_le (Tokens.step_eq_ok_iff.mp hs).length
        exact ih turn.2.2.length (hk ▸ hlt) h rfl

/-- A text has tokens if it is not too large and the reader of tokens finds them. -/
theorem tokenize_eq_ok_iff {text : List Char} {origin : Place} {tokens : List Token} :
    tokenize text origin = .ok tokens ↔
      text.length ≤ maxScriptSize ∧ tokensFrom {} origin text = .ok tokens := by
  unfold tokenize
  split
  · next hsize => exact ⟨nofun, fun h => absurd h.1 (Nat.not_le_of_lt hsize)⟩
  · next hsize => exact ⟨fun h => ⟨Nat.le_of_not_lt hsize, h⟩, fun h => h.2⟩

theorem tokenize_isMistake {text : List Char} {origin : Place} {e : ScriptError}
    (h : tokenize text origin = .error e) : e.IsMistake := by
  unfold tokenize at h
  split at h
  · obtain rfl := Except.error.inj h
    exact nofun
  · exact tokensFrom_isMistake h

end Shell
