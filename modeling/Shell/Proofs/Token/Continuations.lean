/-
Lines that are continued within a word.

A backslash with a newline after it, put into a word outside of double quotes, is written down as text of the word and
is no part of it. The parts that have been read stay as they are, and those that come after are on the next line
(`readParts_continued`). So the tokens of the text are the same but for their places and for one text, as long as
the reader of tokens does not look at that text (`tokensFrom_continued`). It does in two ways: a keyword is a keyword by
its text, and so is a name with `=` after it the start of an assignment.
-/
import Shell.Proofs.Token.Following
import Shell.Proofs.Token.Literals
import Shell.Proofs.Token.Moves

set_option autoImplicit false

namespace Shell

/-! ## 1. Parts read before -/

/-- What is done to a word if parts, and text, are put in front of it. -/
def Piece.onto (piece : Piece) (parts : List WordPart) (text : List Char) : Piece :=
  { piece with parts := parts ++ piece.parts, text := text ++ piece.text }

namespace Reading

variable {stop : Char → Bool} {r : Reading} {place : Place} {c : Char} {cs : List Char} {parts : List WordPart}
  {text : List Char}

/-- The reading after parts, and text, that were read before. Both are backwards. -/
def onto (r : Reading) (parts : List WordPart) (text : List Char) : Reading where
  outer := r.outer.map fun outer => (outer.1, outer.2 ++ parts)
  parts := if r.outer.isNone then r.parts ++ parts else r.parts
  run := r.run
  text := r.text ++ text

theorem outer_onto (r : Reading) : (r.onto parts text).outer = none ↔ r.outer = none := Option.map_eq_none_iff

theorem skip_onto (r : Reading) (ds : List Char) : (r.skip ds).onto parts text = (r.onto parts text).skip ds := by
  simp [skip, onto]

theorem plain_onto (r : Reading) (c : Char) : (r.plain c).onto parts text = (r.onto parts text).plain c := rfl

theorem flushed_onto (r : Reading) :
    (r.onto parts text).flushed = if r.outer.isNone then r.flushed ++ parts else r.flushed := by
  unfold flushed onto
  split <;> split <;> rfl

theorem push_onto (r : Reading) (part : WordPart) :
    (r.push part).onto parts text = (r.onto parts text).push part := by
  unfold push
  rw [flushed_onto]
  unfold onto
  split <;> rfl

theorem enter_onto (h : r.outer = none) (place : Place) :
    (r.enter place).onto parts text = (r.onto parts text).enter place := by
  unfold enter
  rw [flushed_onto, h]
  rfl

theorem leave_onto {outer : Place × List WordPart} (h : r.outer = some outer) :
    (r.leave outer.2).onto parts text = (r.onto parts text).leave (outer.2 ++ parts) := by
  unfold leave
  rw [flushed_onto, h]
  rfl

theorem finish_onto (h : r.outer = none) (rest : List Char) (place : Place) :
    (r.onto parts text).finish rest place = (r.finish rest place).onto parts.reverse text.reverse := by
  unfold finish Piece.onto
  rw [flushed_onto, h]
  simp [onto]

/-- What is done with a turn if something has been read before. -/
def Turn.onto (turn : Turn) (parts : List WordPart) (text : List Char) : Turn :=
  (turn.1.onto parts text, turn.2.1, turn.2.2)

theorem expand_onto (r : Reading) (place : Place) (c : Char) (cs : List Char) :
    (r.onto parts text).expand place c cs = (r.expand place c cs).map (Turn.onto · parts text) := by
  unfold expand
  split
  · rfl
  · simp only [Except.map, Turn.onto, skip_onto, plain_onto]
  · split
    · rfl
    · simp only [Except.map, Turn.onto, skip_onto, plain_onto]
    · simp only [Except.map, Turn.onto, skip_onto, push_onto]

/-- **A turn does not look at what has been read before.** -/
theorem step_onto (r : Reading) (place : Place) (c : Char) (cs : List Char) :
    (r.onto parts text).step stop place c cs =
      (r.step stop place c cs).map (Option.map (Turn.onto · parts text)) := by
  -- An expansion is put behind the parts that are there, like everything else that is read.
  have hexpand : ((r.onto parts text).expand place c cs).map some =
      ((r.expand place c cs).map some).map (Option.map (Turn.onto · parts text)) := by
    rw [expand_onto]
    cases r.expand place c cs <;> rfl
  unfold step
  -- In double quotes the parts are those before the quotes.
  cases ho : r.outer with
  | none =>
    rw [(outer_onto r).mpr ho]
    simp only [hexpand]
    split
    · rfl
    · split
      · split
        · simp only [Except.map, Option.map, Turn.onto, skip_onto, plain_onto]
        · split <;> simp only [Except.map, Option.map, Turn.onto, skip_onto, push_onto]
      · split
        · split
          · rfl
          · simp only [Except.map, Option.map, Turn.onto, skip_onto, push_onto]
        · split
          · simp only [Except.map, Option.map, Turn.onto]
            rw [enter_onto (r := r.skip [c]) ho, skip_onto]
          · rfl
  | some outer =>
    have ho' : (r.onto parts text).outer = some (outer.1, outer.2 ++ parts) := by
      unfold onto
      rw [ho]
      rfl
    rw [ho']
    simp only [hexpand]
    split
    · simp only [Except.map, Option.map, Turn.onto]
      rw [leave_onto (r := r.skip [c]) ho, skip_onto]
    · split
      · split
        · simp only [Except.map, Option.map, Turn.onto, skip_onto, plain_onto]
        · split
          · simp only [Except.map, Option.map, Turn.onto, skip_onto]
          · split <;> simp only [Except.map, Option.map, Turn.onto, skip_onto, plain_onto]
      · rfl

end Reading

/-- **A word does not depend on what has been read of it before**, if that is over. -/
theorem readParts_onto {stop : Char → Bool} {r : Reading} {place : Place} {cs : List Char} (parts : List WordPart)
    (text : List Char) : readParts stop (r.onto parts text) place cs =
      (readParts stop r place cs).map (Piece.onto · parts.reverse text.reverse) := by
  -- By the turns of the reader, each of which leaves less text.
  induction hn : cs.length using Nat.strongRecOn generalizing r place cs with
  | _ n ih =>
    match cs with
    | [] =>
      unfold readParts
      cases ho : r.outer with
      | none =>
        rw [(Reading.outer_onto r).mpr ho, Reading.finish_onto ho]
        rfl
      | some outer =>
        obtain ⟨outer, hparts⟩ := outer
        unfold Reading.onto
        rw [ho]
        rfl
    | c :: cs =>
      subst hn
      rw [readParts_cons, readParts_cons, Reading.step_onto]
      cases hs : r.step stop place c cs with
      | error e => rfl
      | ok turn? =>
        cases turn? with
        | none =>
          show Except.ok _ = Except.ok _
          rw [Reading.finish_onto (Reading.step_eq_none_iff.mp hs).1]
        | some turn =>
          exact ih _ (Nat.lt_succ_of_le (Reading.step_eq_some_iff.mp hs).length) rfl

/-! ## 2. Words -/

/-- What stands from a place on is put on the next line. -/
def Move.nextLine (place : Place) : Move where
  place p := ⟨p.line + 1, if p.line = place.line then p.column + 1 - place.column else p.column⟩
  line l := l + 1
  line_place _ := rfl

/-- The place of what follows when the line has been continued there. -/
theorem Move.nextLine_place (place : Place) : (Move.nextLine place).place place = place.advance ['\\', '\n'] := by
  simp [nextLine, Place.advance, Place.after]

/-- The columns of the line go on counting from the start of the next one; later lines are as they are. -/
theorem Move.nextLine_follows (place : Place) : (Move.nextLine place).Follows place := by
  have hgo : ∀ (cs : List Char) (p : Place), place.line ≤ p.line → (p.line = place.line → place.column ≤ p.column) →
      (Move.nextLine place).place (p.advance cs) = ((Move.nextLine place).place p).advance cs := by
    intro cs
    induction cs with
    | nil => exact fun _ _ _ => rfl
    | cons c cs ih =>
      intro p hline hcolumn
      have hafter : (Move.nextLine place).place (p.after c) = ((Move.nextLine place).place p).after c := by
        unfold nextLine Place.after
        by_cases hc : c = '\n'
        · simp only [if_pos hc, Place.mk.injEq]
          exact ⟨trivial, if_neg (by omega)⟩
        · simp only [if_neg hc, Place.mk.injEq]
          refine ⟨trivial, ?_⟩
          split <;> omega
      rw [Place.advance_cons, Place.advance_cons, ← hafter]
      refine ih _ ?_ ?_
      · unfold Place.after
        split <;> simp only <;> omega
      · intro heq
        unfold Place.after at heq ⊢
        split <;> simp_all <;> omega
  exact fun cs => hgo cs place (Nat.le_refl _) fun _ => Nat.le_refl _

/-- Turns write down what they take. -/
theorem LeadsTo.text {stop : Char → Bool} {first last : Reading.Turn} (h : LeadsTo (Reading.Took stop) first last) :
    ∃ used, last.1.text = used.reverse ++ first.1.text ∧
      Takes used first.2.1 first.2.2 last.2.1 last.2.2 := by
  induction h with
  | here => exact ⟨[], rfl, rfl, rfl⟩
  | turn first _ ih =>
    obtain ⟨used, htext, hcs, hplace⟩ := first.takes
    obtain ⟨used', htext', htakes⟩ := ih
    rw [hplace] at htakes
    refine ⟨used ++ used', ?_, hcs ▸ htakes.prepend used⟩
    rw [htext', htext, List.reverse_append, List.append_assoc]

/-- **A line that is continued within a word** leaves the parts of the word as they are, but for the places of those
that come after. -/
theorem readParts_continued {place place' : Place} {u w : List Char} {r : Reading} {piece : Piece}
    (hcomes : LeadsTo (Reading.Took isMetacharacter) ({}, place, u ++ w) (r, place', w)) (ho : r.outer = none)
    (hw : w ≠ []) (hp : readParts isMetacharacter {} place (u ++ w) = .ok piece) :
    ∃ before later v, piece.parts = before ++ later ∧ piece.text = u ++ v ∧
      SourcesOf (fun _ p => (Move.nextLine place').Follows p) later ∧
      (Move.nextLine place').Follows piece.place ∧
      readParts isMetacharacter {} place (u ++ '\\' :: '\n' :: w) =
        .ok ⟨before ++ moveParts (Move.nextLine place') later, u ++ '\\' :: '\n' :: v, piece.rest,
          (Move.nextLine place').place piece.place⟩ := by
  have hfollows := Move.nextLine_follows place'
  -- Up to the point, reading takes `u`, and takes it whatever follows.
  obtain ⟨used, htext, htakes⟩ := hcomes.text
  obtain rfl : u = used := List.append_cancel_right htakes.text
  have htext : r.text = u.reverse := by simpa using htext
  obtain ⟨used, hused, hfollow⟩ := hcomes.follow_word
  obtain rfl : u = used := List.append_cancel_right hused
  have hcontinued := hfollow ('\\' :: '\n' :: w) (.inr ⟨ho, hw, rfl⟩)
  -- From the point on, what has been read before makes no difference, nor does the place.
  have hbare : ∀ cs, r.skip cs = Reading.onto ⟨none, [], r.run, []⟩ r.parts (cs.reverse ++ r.text) := by
    intro cs
    obtain ⟨outer, parts, run, text⟩ := r
    obtain rfl : outer = none := ho
    rfl
  rw [hcomes.readParts] at hp
  have hskip : r = Reading.onto ⟨none, [], r.run, []⟩ r.parts r.text := hbare []
  rw [show (r, place', w).1 = Reading.onto ⟨none, [], r.run, []⟩ r.parts r.text from hskip, readParts_onto] at hp
  cases hlater : readParts isMetacharacter ⟨none, [], r.run, []⟩ place' w with
  | error e =>
    rw [hlater] at hp
    cases hp
  | ok later =>
    rw [hlater] at hp
    obtain rfl := Except.ok.inj hp
    obtain ⟨used', -, -, hplace⟩ := readParts_takes hlater
    have hmoved := readParts_move hlater hfollows
    rw [Move.nextLine_place] at hmoved
    refine ⟨r.parts.reverse, later.parts, later.text, rfl, ?_, ?_, ?_, ?_⟩
    · simp [Piece.onto, htext]
    · exact readParts_sources (fun used _ h => h.advance used) (fun _ _ h => h) hlater ⟨trivial, nofun⟩ hfollows
    · exact (show later.place = _ from hplace) ▸ hfollows.advance used'
    · have hturn : r.Took isMetacharacter place' '\\' ('\n' :: w) _ := .continued fun _ => by decide
      rw [hcontinued.readParts]
      simp only
      rw [readParts_of_took hturn]
      rw [hbare, readParts_onto]
      show (readParts _ _ (place'.advance ['\\', '\n']) w).map _ = _
      rw [show (⟨none, [], r.run, []⟩ : Reading) = Reading.move (Move.nextLine place') ⟨none, [], r.run, []⟩ from rfl,
        hmoved, htext]
      simp [Except.map, Piece.onto, Piece.move]

/-! ## 3. Where a command may start -/

/-- Whether a keyword or an arithmetic command comes next, or comes after nothing but words that start like
assignments. These are what a reader of tokens reads otherwise where no command may start. -/
def leadsToKeyword : List Token → Bool
  | [] => false
  | token :: more =>
    match token.lexeme with
    | .reserved _ | .arithmetic .. => true
    | .word text _ => startsAssignment text.toList && leadsToKeyword more
    | _ => false

/-- The tokens that are there come first. -/
theorem tokensFrom_done {ts : Tokens} {place : Place} {cs : List Char} {tokens : List Token}
    (h : tokensFrom ts place cs = .ok tokens) : ∃ more, tokens = ts.done.reverse ++ more := by
  obtain ⟨pieces, hpieces, -⟩ := tokensFrom_laidOut h
  exact ⟨_, hpieces⟩

/-- A word where a command may start is a keyword, or it is the same word where none may start. A command may start
after it in more cases: if it starts like an assignment. -/
theorem Tokens.pushWord_start (done : List Token) (place : Place) (piece : Piece) :
    (∃ keyword, (⟨done, true⟩ : Tokens).pushWord place piece = ⟨⟨.reserved keyword, place⟩ :: done, true⟩) ∨
      ∃ start, (⟨done, true⟩ : Tokens).pushWord place piece =
          ⟨⟨.word (String.ofList piece.text) piece.parts, place⟩ :: done, start || startsAssignment piece.text⟩ ∧
        (⟨done, false⟩ : Tokens).pushWord place piece =
          ⟨⟨.word (String.ofList piece.text) piece.parts, place⟩ :: done, start⟩ := by
  unfold pushWord
  simp only [Bool.true_and, Bool.false_and]
  split
  · next keyword _ => exact .inl ⟨keyword, rfl⟩
  · exact .inr ⟨isAfterFunction ⟨done, true⟩, rfl, by simp [isAfterFunction, push]⟩

/-- **A turn where a command may start** adds a keyword or an arithmetic command, or it is a turn where none may start
as well. After that turn a command may start again in both, or in the first only, which is then as it was or has read
a word that starts like an assignment. -/
theorem Tokens.Took.start {done : List Token} {place : Place} {c : Char} {cs : List Char} {turn : Turn}
    (h : (⟨done, true⟩ : Tokens).Took place c cs turn) :
    (∃ token start, turn.1 = ⟨token :: done, start⟩ ∧ ∀ more, leadsToKeyword (token :: more) = true) ∨
      (⟨done, false⟩ : Tokens).Took place c cs turn ∨
      ∃ new, turn.1 = ⟨new ++ done, true⟩ ∧ (⟨done, false⟩ : Tokens).Took place c cs (⟨new ++ done, false⟩, turn.2) ∧
        ∀ more, leadsToKeyword (new.reverse ++ more) = leadsToKeyword more := by
  -- A turn in the position of a command is one outside of it, unless it finds a keyword or an arithmetic command.
  cases h with
  | blank hc => exact .inr (.inr ⟨[], rfl, .blank hc, fun _ => rfl⟩)
  | continued => exact .inr (.inr ⟨[], rfl, .continued, fun _ => rfl⟩)
  | comment => exact .inr (.inr ⟨[], rfl, .comment, fun _ => rfl⟩)
  | newline => exact .inr (.inl .newline)
  | operator ho => exact .inr (.inl (.operator ho nofun))
  | arithmetic => exact .inl ⟨_, _, rfl, fun _ => rfl⟩
  | @word _ _ piece hm hc hb hp =>
    have hword : Took ⟨done, false⟩ place _ _ _ := .word hm hc hb hp
    rcases pushWord_start done place piece with ⟨keyword, hpush⟩ | ⟨start, hpush, hpush'⟩
    · exact .inl ⟨_, _, hpush, fun _ => rfl⟩
    · rw [hpush'] at hword
      rw [hpush]
      cases start with
      | true => exact .inr (.inl hword)
      | false =>
        cases ha : startsAssignment piece.text with
        | true => exact .inr (.inr ⟨[_], rfl, hword, fun more => by simp [leadsToKeyword, ha]⟩)
        | false => exact .inr (.inl hword)

/-- **Whether a command may start** matters to nothing but keywords and arithmetic commands. -/
theorem tokensFrom_start {done after : List Token} {place : Place} {cs : List Char}
    (h : tokensFrom ⟨done, true⟩ place cs = .ok (done.reverse ++ after)) (hk : leadsToKeyword after = false) :
    tokensFrom ⟨done, false⟩ place cs = .ok (done.reverse ++ after) := by
  generalize hts : (⟨done, true⟩ : Tokens) = ts at h
  generalize htokens : done.reverse ++ after = tokens at h ⊢
  induction h using tokensFrom_induction generalizing done after with
  | stop =>
    subst hts
    exact tokensFrom_end ..
  | turn ht hr ih =>
    subst hts
    obtain ⟨more, hmore⟩ := tokensFrom_done hr
    rcases ht.start with ⟨token, start, hdone, hlead⟩ | hsame | ⟨new, hdone, hsame, hlead⟩
    · rw [← htokens, hdone, List.reverse_cons, List.append_assoc] at hmore
      rw [List.append_cancel_left hmore] at hk
      exact absurd (hlead more) (by simpa using hk)
    · rw [tokensFrom_of_took hsame]
      exact hr
    · rw [tokensFrom_of_took hsame]
      rw [hdone] at hmore
      refine ih ?_ hdone.symm hmore.symm
      rw [← htokens, List.reverse_append, List.append_assoc] at hmore
      rwa [List.append_cancel_left hmore, hlead] at hk

/-! ## 4. Tokens -/

/-- A backslash belongs to no name and is no sign, so what starts like an assignment does so before it. -/
theorem startsAssignment_backslash (u cs : List Char) : startsAssignment (u ++ '\\' :: cs) = startsAssignment u := by
  cases u with
  | nil => rfl
  | cons c u =>
    have hrest : Name.isRest '\\' = false := by decide
    simp only [startsAssignment, List.cons_append, List.dropWhile_append]
    cases u.dropWhile Name.isRest with
    | nil => simp [hrest]
    | cons d ds => cases ds <;> grind

theorem startsAssignment_append {u : List Char} (h : startsAssignment u = true) (v : List Char) :
    startsAssignment (u ++ v) = true := by
  cases u with
  | nil => cases h
  | cons c u =>
    simp only [startsAssignment, List.cons_append, List.dropWhile_append] at h ⊢
    cases hd : u.dropWhile Name.isRest with
    | nil => simp [hd] at h
    | cons d ds => grind

/-- A point in a word, and outside of its quotes: `u` is the start of the word, and what is left of the text, `w`, goes
on with the word or comes after it. The text up to the word is `front`. Of that the tokens have been read, and of the
word what comes before the point. -/
structure PointInWord (origin : Place) (front u w : List Char) (ts : Tokens) (r : Reading) : Prop where
  tokens : LeadsTo Tokens.Took ({}, origin, front ++ (u ++ w)) (ts, origin.advance front, u ++ w)
  begins : BeginsWord (u ++ w)
  reading : LeadsTo (Reading.Took isMetacharacter) ({}, origin.advance front, u ++ w)
    (r, origin.advance (front ++ u), w)
  outside : r.outer = none
  some_of : u ≠ []
  more : w ≠ []

/-- The tokens after a word do not depend on it, but for whether a command may start. -/
theorem tokensFrom_afterWord (done : List Token) (text : String) (parts : List WordPart) (place : Place) (start : Bool)
    (next : Place) (cs : List Char) :
    tokensFrom ⟨⟨.word text parts, place⟩ :: done, start⟩ next cs =
      (tokensFrom ⟨[], start⟩ next cs).map (done.reverse ++ ⟨.word text parts, place⟩ :: ·) := by
  have hbefore : ∀ token ∈ (⟨.word text parts, place⟩ :: done).head?, token.lexeme ≠ .reserved .function := by
    rintro _ ⟨⟩
    exact nofun
  rw [show (⟨⟨.word text parts, place⟩ :: done, start⟩ : Tokens) =
    Tokens.onto ⟨[], start⟩ (⟨.word text parts, place⟩ :: done) from rfl, tokensFrom_onto hbefore]
  simp

/-- What comes after a word is the same if the word no longer starts like an assignment, or if it makes no
difference whether a command may start. -/
theorem tokensFrom_otherText {function start assigns assigns' : Bool} {place : Place} {cs : List Char}
    {after : List Token} (h : tokensFrom ⟨[], function || (start && assigns)⟩ place cs = .ok after)
    (hsame : assigns' = true → assigns = true) (ha : assigns = true → assigns' = true ∨ leadsToKeyword after = false) :
    tokensFrom ⟨[], function || (start && assigns')⟩ place cs = .ok after := by
  by_cases heq : assigns' = assigns
  · rwa [heq]
  · obtain ⟨rfl, rfl⟩ : assigns = true ∧ assigns' = false := by cases assigns <;> cases assigns' <;> simp_all
    have hlead := (ha rfl).resolve_left Bool.false_ne_true
    cases function with
    | true => exact h
    | false =>
      cases start with
      | true => exact @tokensFrom_start [] _ _ _ h hlead
      | false => exact h

/-- If a word comes first of what is read, it is the one that is added. -/
theorem Tokens.pushWord_of_word {ts : Tokens} {place place' next : Place} {piece : Piece} {cs : List Char}
    {text : String} {parts : List WordPart} {after : List Token}
    (h : tokensFrom (ts.pushWord place piece) next cs =
      .ok (ts.done.reverse ++ ⟨.word text parts, place'⟩ :: after)) :
    text = String.ofList piece.text ∧ parts = piece.parts ∧ place' = place ∧
      ts.pushWord place piece = ⟨⟨.word text parts, place⟩ :: ts.done,
        ts.isAfterFunction || (ts.commandStart && startsAssignment text.toList)⟩ := by
  have hfirst (token : Token) {start : Bool}
      (hpush : ts.pushWord place piece = ts.push token.lexeme token.place start) :
      (⟨.word text parts, place'⟩ : Token) = token := by
    obtain ⟨more, hmore⟩ := tokensFrom_done h
    rw [hpush] at hmore
    simp only [push, List.reverse_cons, List.append_assoc, List.append_cancel_left_eq] at hmore
    exact (List.cons.inj hmore).1
  unfold pushWord at hfirst ⊢
  simp only at hfirst ⊢
  split at hfirst
  · next keyword _ => cases hfirst ⟨.reserved keyword, place⟩ rfl
  · have htoken := hfirst ⟨.word (String.ofList piece.text) piece.parts, place⟩ rfl
    obtain ⟨hword, rfl⟩ := Token.mk.inj htoken
    obtain ⟨rfl, rfl⟩ := Lexeme.word.inj hword
    exact ⟨rfl, rfl, rfl, by rw [String.toList_ofList]; rfl⟩

/-- A word with a backslash in its text is a word. -/
theorem Tokens.pushWord_backslash {piece : Piece} (h : '\\' ∈ piece.text) (ts : Tokens) (place : Place) :
    ts.pushWord place piece = ⟨⟨.word (String.ofList piece.text) piece.parts, place⟩ :: ts.done,
      ts.isAfterFunction || (ts.commandStart && startsAssignment piece.text)⟩ := by
  unfold pushWord
  simp only [Keyword.ofText?_of_isGuard rfl h, ite_self]
  rfl

/-- A word begins the same way if its line is continued after some of it. -/
theorem BeginsWord.continued {u w : List Char} (h : BeginsWord (u ++ w)) (hu : u ≠ []) :
    BeginsWord (u ++ '\\' :: '\n' :: w) := by
  obtain ⟨c, rest, hcs, hm, hc, hb⟩ := h
  cases u with
  | nil => exact absurd rfl hu
  | cons c u =>
    obtain ⟨rfl, rfl⟩ := List.cons.inj hcs
    refine ⟨c, u ++ '\\' :: '\n' :: w, rfl, hm, hc, ?_⟩
    cases u with
    | nil => exact fun hb => absurd (Option.some.inj hb.2) (by decide)
    | cons d u => exact hb

/-- **A line that is continued within a word** has the same tokens, but for places and for the text of the word. It
must not be that a command could start after the word because of its text, and no longer can, where that makes a
difference. -/
theorem tokensFrom_continued {origin place : Place} {front u w : List Char} {ts : Tokens} {r : Reading} {text : String}
    {parts : List WordPart} {after : List Token} {m : Move} (hpoint : PointInWord origin front u w ts r)
    (hm : m = Move.nextLine (origin.advance (front ++ u)))
    (ht : tokensFrom {} origin (front ++ (u ++ w)) = .ok (ts.done.reverse ++ ⟨.word text parts, place⟩ :: after))
    (ha : startsAssignment text.toList = true → startsAssignment u = true ∨ leadsToKeyword after = false) :
    ∃ before later v, parts = before ++ later ∧ text.toList = u ++ v ∧
      SourcesOf (fun _ p => m.Follows p) later ∧
      (∀ token ∈ after, SourcesOf (fun _ p => m.Follows p) token.lexeme.parts) ∧
      tokensFrom {} origin (front ++ (u ++ '\\' :: '\n' :: w)) =
        .ok (ts.done.reverse ++ ⟨.word (String.ofList (u ++ '\\' :: '\n' :: v)) (before ++ moveParts m later), place⟩ ::
          after.map (Token.move m)) := by
  subst hm
  obtain ⟨htokens, hbegins, hreading, ho, hu, hw⟩ := hpoint
  -- The word is the one that is read from `u ++ w`.
  rw [htokens.tokensFrom, tokensFrom_word hbegins] at ht
  cases hp : readParts isMetacharacter {} (origin.advance front) (u ++ w) with
  | error e =>
    rw [hp] at ht
    cases ht
  | ok piece =>
    rw [hp] at ht
    simp only at ht
    obtain ⟨rfl, rfl, rfl, hpush⟩ := Tokens.pushWord_of_word ht
    rw [String.toList_ofList] at ha hpush
    rw [hpush, tokensFrom_afterWord] at ht
    cases hafter : tokensFrom ⟨[], ts.isAfterFunction || (ts.commandStart && startsAssignment piece.text)⟩ piece.place
      piece.rest with
    | error e =>
      rw [hafter] at ht
      cases ht
    | ok after' =>
      rw [hafter] at ht
      obtain rfl : after' = after := (List.cons.inj (List.append_cancel_left (Except.ok.inj ht))).2
      have hplace : origin.advance (front ++ u) = (origin.advance front).advance u := Place.advance_append ..
      rw [hplace] at hreading ⊢
      obtain ⟨before, later, v, hparts, htext, hlater, hfollows, hcontinued⟩ :=
        readParts_continued hreading ho hw hp
      refine ⟨before, later, v, hparts, by rw [String.toList_ofList, htext], hlater, ?_, ?_⟩
      · exact tokensFrom_sources (fun used _ h => h.advance used) (fun _ _ h => h) hafter hfollows nofun
      · obtain ⟨used, hused, hfollow⟩ := htokens.follow_tokens
        obtain rfl : front = used := List.append_cancel_right hused
        have hhead : (u ++ '\\' :: '\n' :: w).head? = (u ++ w).head? := by
          rw [List.head?_append_of_ne_nil _ hu, List.head?_append_of_ne_nil _ hu]
        rw [(hfollow _ hhead).tokensFrom, tokensFrom_word (hbegins.continued hu), hcontinued]
        simp only
        rw [Tokens.pushWord_backslash (by simp), startsAssignment_backslash, tokensFrom_afterWord]
        have hsame : startsAssignment u = true → startsAssignment piece.text = true := fun h =>
          htext ▸ startsAssignment_append h v
        have hstart := tokensFrom_otherText hafter hsame ha
        have hmoved := tokensFrom_move hstart hfollows
        rw [show (∀ start, Tokens.move (Move.nextLine ((origin.advance front).advance u)) ⟨[], start⟩ = ⟨[], start⟩)
          from fun _ => rfl] at hmoved
        rw [hmoved]
        rfl

end Shell
