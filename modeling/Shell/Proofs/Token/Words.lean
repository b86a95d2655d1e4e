/-
Words, one step at a time.

Reading the parts of a word is a loop that takes some characters in each turn: a quotation, an
expansion, or a character. `Reading.step` is one such turn, and `readParts` is nothing but turns until a
character ends the word (`readParts_cons`). So what holds of a turn is shown by its cases (`Reading.Took`), and
of words by induction on their turns (`readParts_induction`).

Three things are shown in this way. A word on a line that is complete has nothing to do with
the lines after it. The sources of the command substitutions of a word are shorter than the text
that it is read from. And a word has a newline in its text only together with a sign that keeps it from
ending there; so the text of a word is a name as it stands if it passes for one.
-/
import Mathlib.Data.List.Basic
import Shell.Proofs.Token.Scans

set_option autoImplicit false

namespace Shell

variable {stop : Char → Bool} {r r' : Reading} {place place' : Place} {c : Char} {cs cs' : List Char}
  {piece : Piece}

/-! ## 1. Turns -/

namespace Reading

/-- What is read, where, and what is left then. -/
abbrev Turn := Reading × Place × List Char

/-- Goes on with a character that may start an expansion. -/
def expand (r : Reading) (place : Place) (c : Char) (cs : List Char) : Except ScriptError Turn :=
  match Opening.at? place c cs with
  | .error e => .error e
  | .ok none => .ok ((r.plain c).skip [c], place.after c, cs)
  | .ok (some opening) =>
    match readPart place opening with
    | .error e => .error e
    | .ok none => .ok ((r.skip opening.written).plain c, opening.stop, opening.rest)
    | .ok (some part) => .ok ((r.skip opening.written).push part, opening.stop, opening.rest)

/-- One turn of reading from a text that starts with `c`; none if the word is over. -/
def step (stop : Char → Bool) (r : Reading) (place : Place) (c : Char) (cs : List Char) :
    Except ScriptError (Option Turn) :=
  let next := place.after c
  match r.outer with
  | none =>
    if stop c then .ok none
    else if c = '\\' then
      match cs with
      | [] => .ok (some ((r.plain c).skip [c], next, []))
      | d :: ds =>
        let read := r.skip [c, d]
        .ok (some (if d = '\n' then read else read.push (.escaped d), next.after d, ds))
    else if c = '\'' then
      match Scan.singleQuoted place [] next cs with
      | .error e => .error e
      | .ok region =>
        let read := r.skip (c :: region.content ++ [c])
        .ok (some (read.push (.singleQuoted (String.ofList region.content)), region.place, region.rest))
    else if c = '"' then .ok (some ((r.skip [c]).enter place, next, cs))
    else (r.expand place c cs).map some
  | some (_, outer) =>
    if c = '"' then .ok (some ((r.skip [c]).leave outer, next, cs))
    else if c = '\\' then
      match cs with
      | [] => .ok (some ((r.plain c).skip [c], next, []))
      | d :: ds =>
        if d = '\n' then .ok (some (r.skip [c, d], next.after d, ds))
        else if isDoubleQuoteEscape d then .ok (some ((r.plain d).skip [c, d], next.after d, ds))
        else .ok (some ((r.plain c).skip [c], next, d :: ds))
    else (r.expand place c cs).map some

end Reading

theorem readExpansion_eq (stop : Char → Bool) (r : Reading) (place : Place) (c : Char) (cs : List Char) :
    readExpansion stop r place c cs =
      match r.expand place c cs with
      | .error e => .error e
      | .ok (r', place', cs') => readParts stop r' place' cs' := by
  unfold readExpansion Reading.expand
  split <;> rename_i ho <;> simp only [ho]
  next opening => cases readPart place opening with
    | error e => rfl
    | ok part? => cases part? <;> rfl

/-- **A word is read turn by turn.** -/
theorem readParts_cons (stop : Char → Bool) (r : Reading) (place : Place) (c : Char) (cs : List Char) :
    readParts stop r place (c :: cs) =
      match r.step stop place c cs with
      | .error e => .error e
      | .ok none => .ok (r.finish (c :: cs) place)
      | .ok (some (r', place', cs')) => readParts stop r' place' cs' := by
  -- An expansion is a step of its own, and the word goes on after it.
  have hexpand : (match (r.expand place c cs).map some with
      | .error e => .error e
      | .ok none => .ok (r.finish (c :: cs) place)
      | .ok (some (r', place', cs')) => readParts stop r' place' cs') =
        readExpansion stop r place c cs := by
    rw [readExpansion_eq]
    cases r.expand place c cs <;> rfl
  conv => lhs; unfold readParts
  unfold Reading.step
  simp only
  -- The branches of the reader are those of a step, in double quotes and outside.
  cases r.outer with
  | none =>
    simp only
    repeat' split
    all_goals simp_all
  | some outer =>
    simp only
    repeat' split
    all_goals simp_all

namespace Reading

/-- What a character that may start an expansion is read as: itself, a dollar sign that opens nothing, or a part. -/
inductive Expanded (r : Reading) (place : Place) (c : Char) (cs : List Char) : Turn → Prop where
  | character (hd : c ≠ '$') (hq : c ≠ '\x60') :
      Expanded r place c cs ((r.plain c).skip [c], place.after c, cs)
  | dollar {opening : Opening} (ho : Opening.at? place c cs = .ok (some opening))
      (hp : readPart place opening = .ok none) :
      Expanded r place c cs ((r.skip opening.written).plain c, opening.stop, opening.rest)
  | part {opening : Opening} {part : WordPart} (ho : Opening.at? place c cs = .ok (some opening))
      (hp : readPart place opening = .ok (some part)) :
      Expanded r place c cs ((r.skip opening.written).push part, opening.stop, opening.rest)

theorem expand_eq_ok_iff {turn : Turn} : r.expand place c cs = .ok turn ↔ Expanded r place c cs turn := by
  -- An expansion is a plain character, a dollar sign or a part, and each says what has been found.
  constructor
  · intro h
    unfold expand at h
    split at h
    · cases h
    · next ho =>
      obtain ⟨hd, hq⟩ := Opening.at?_eq_none_iff.mp ho
      obtain rfl := Except.ok.inj h
      exact .character hd hq
    · next ho =>
      split at h
      · cases h
      · next hp =>
        obtain rfl := Except.ok.inj h
        exact .dollar ho hp
      · next hp =>
        obtain rfl := Except.ok.inj h
        exact .part ho hp
  · intro h
    unfold expand
    cases h with
    | character hd hq => rw [Opening.at?_eq_none_iff.mpr ⟨hd, hq⟩]
    | dollar ho hp => simp only [ho, hp]
    | part ho hp => simp only [ho, hp]

/-- What a turn can be that does not end the word. -/
inductive Took (stop : Char → Bool) (r : Reading) (place : Place) : Char → List Char → Turn → Prop where
  /-- A backslash with nothing after it stands for itself. -/
  | last (hs : r.outer = none → stop '\\' = false) :
      Took stop r place '\\' [] ((r.plain '\\').skip ['\\'], place.after '\\', [])
  | continued {ds : List Char} (hs : r.outer = none → stop '\\' = false) :
      Took stop r place '\\' ('\n' :: ds)
        (r.skip ['\\', '\n'], (place.after '\\').after '\n', ds)
  | escaped {d : Char} {ds : List Char} (ho : r.outer = none) (hs : stop '\\' = false) (hd : d ≠ '\n') :
      Took stop r place '\\' (d :: ds)
        ((r.skip ['\\', d]).push (.escaped d), (place.after '\\').after d, ds)
  | escapedInside {d : Char} {ds : List Char} (ho : r.outer ≠ none) (hd : d ≠ '\n')
      (he : isDoubleQuoteEscape d = true) :
      Took stop r place '\\' (d :: ds)
        ((r.plain d).skip ['\\', d], (place.after '\\').after d, ds)
  | kept {d : Char} {ds : List Char} (ho : r.outer ≠ none) (hd : d ≠ '\n')
      (he : isDoubleQuoteEscape d = false) :
      Took stop r place '\\' (d :: ds) ((r.plain '\\').skip ['\\'], place.after '\\', d :: ds)
  | single {cs : List Char} {region : Scan.Region} (ho : r.outer = none) (hs : stop '\'' = false)
      (hr : Scan.singleQuoted place [] (place.after '\'') cs = .ok region) :
      Took stop r place '\'' cs
        ((r.skip ('\'' :: region.content ++ ['\''])).push
          (.singleQuoted (String.ofList region.content)), region.place, region.rest)
  | entered {cs : List Char} (ho : r.outer = none) (hs : stop '"' = false) :
      Took stop r place '"' cs ((r.skip ['"']).enter place, place.after '"', cs)
  | left {cs : List Char} {outer : Place × List WordPart} (ho : r.outer = some outer) :
      Took stop r place '"' cs ((r.skip ['"']).leave outer.2, place.after '"', cs)
  | expanded {c : Char} {cs : List Char} {turn : Turn} (hb : c ≠ '\\') (hq : c ≠ '"')
      (hs : r.outer = none → stop c = false ∧ c ≠ '\'') (he : r.expand place c cs = .ok turn) :
      Took stop r place c cs turn

/-- **A turn that does not end the word is one of these.** -/
theorem step_eq_some_iff {turn : Turn} :
    r.step stop place c cs = .ok (some turn) ↔ Took stop r place c cs turn := by
  have hexpand {x : Except ScriptError Turn} : x.map some = .ok (some turn) ↔ x = .ok turn := by
    cases x <;> simp [Except.map]
  constructor
  · intro h
    unfold step at h
    simp only at h
    -- Outside of double quotes and in them a backslash means different things, and a quote as well.
    cases ho : r.outer with
    | none =>
      rw [ho] at h
      simp only at h
      split at h
      · cases h
      next hs =>
      have hs := Bool.eq_false_iff.mpr hs
      split at h
      · next hc =>
        subst hc
        split at h
        · obtain rfl := Option.some.inj (Except.ok.inj h)
          exact .last fun _ => hs
        · next d ds =>
          obtain rfl := Option.some.inj (Except.ok.inj h)
          by_cases hd : d = '\n'
          · subst hd
            exact .continued fun _ => hs
          · rw [if_neg hd]
            exact .escaped ho hs hd
      next hb =>
      split at h
      · next hc =>
        subst hc
        split at h
        · cases h
        · next hr =>
          obtain rfl := Option.some.inj (Except.ok.inj h)
          exact .single ho hs hr
      next hsingle =>
      split at h
      · next hc =>
        subst hc
        obtain rfl := Option.some.inj (Except.ok.inj h)
        exact .entered ho hs
      · next hq => exact .expanded hb hq (fun _ => ⟨hs, hsingle⟩) (hexpand.mp h)
    | some outer =>
      have hne : r.outer ≠ none := by simp [ho]
      rw [ho] at h
      simp only at h
      split at h
      · next hc =>
        subst hc
        obtain rfl := Option.some.inj (Except.ok.inj h)
        exact .left ho
      next hq =>
      split at h
      · next hc =>
        subst hc
        split at h
        · obtain rfl := Option.some.inj (Except.ok.inj h)
          exact .last fun hnone => absurd hnone hne
        · next d ds =>
          split at h
          · next hd =>
            subst hd
            obtain rfl := Option.some.inj (Except.ok.inj h)
            exact .continued fun hnone => absurd hnone hne
          next hd =>
          split at h
          · next he =>
            obtain rfl := Option.some.inj (Except.ok.inj h)
            exact .escapedInside hne hd he
          · next he =>
            obtain rfl := Option.some.inj (Except.ok.inj h)
            exact .kept hne hd (Bool.eq_false_iff.mpr he)
      · next hb => exact .expanded hb hq (fun hnone => absurd hnone hne) (hexpand.mp h)
  · intro h
    -- Each case says which branch is taken.
    cases h with
    | last hs => cases ho : r.outer <;> simp_all [step]
    | continued hs => cases ho : r.outer <;> simp_all [step]
    | escaped ho hs hd => simp [step, ho, hs, hd]
    | escapedInside ho hd he => cases ho' : r.outer <;> simp_all [step]
    | kept ho hd he => cases ho' : r.outer <;> simp_all [step]
    | single ho hs hr => simp [step, ho, hs, hr]
    | entered ho hs => simp [step, ho, hs]
    | left ho => simp [step, ho]
    | expanded hb hq hs he =>
      cases ho : r.outer <;> simp_all [step, Except.map]

/-- A word ends outside of double quotes at a character that ends words. -/
theorem step_eq_none_iff :
    r.step stop place c cs = .ok none ↔ r.outer = none ∧ stop c = true := by
  have hexpand {x : Except ScriptError Turn} : ¬ x.map some = .ok none := by
    cases x <;> simp [Except.map]
  constructor
  · intro h
    unfold step at h
    simp only at h
    cases ho : r.outer with
    | none =>
      rw [ho] at h
      simp only at h
      split at h
      · next hs => exact ⟨rfl, hs⟩
      · repeat' split at h
        all_goals first | cases h | exact absurd h hexpand
    | some outer =>
      rw [ho] at h
      simp only at h
      repeat' split at h
      all_goals first | cases h | exact absurd h hexpand
  · rintro ⟨ho, hs⟩
    simp [step, ho, hs]

/-- A turn takes at least one character. -/
theorem Took.length {turn : Turn} (ht : Took stop r place c cs turn) : turn.2.2.length ≤ cs.length := by
  cases ht with
  | last | kept | entered | left => exact Nat.le_refl _
  | continued | escaped | escapedInside => exact Nat.le_succ _
  | single ho hs hr =>
    have hlength := Scan.singleQuoted_length hr
    simp only [List.length_nil] at hlength ⊢
    omega
  | expanded hb hq hs he =>
    cases expand_eq_ok_iff.mp he with
    | character => exact Nat.le_refl _
    | dollar ho | part ho => exact Nat.le_trans (Nat.le_add_left _ _) (Opening.at?_length ho)

end Reading

/-- The part that an expansion is, if it is one. -/
inductive PartOf (place : Place) (opening : Opening) : Option WordPart → Prop where
  | dollar (hf : opening.form = .dollar) : PartOf place opening none
  | parameter (hf : opening.form = .parameter) :
      PartOf place opening (some (.parameter (String.ofList opening.content)))
  | command (hf : opening.form = .command) :
      PartOf place opening (some (.substitution (String.ofList opening.content) opening.start none))
  | backquoted (hf : opening.form = .backquoted) :
      PartOf place opening
        (some (.substitution (String.ofList (Scan.unescapeBackquoted opening.content)) opening.start none))
  | arithmetic {piece : Piece} (hf : opening.form = .arithmetic)
      (hr : readParts (fun _ => false) {} opening.start opening.content = .ok piece) :
      PartOf place opening (some (.arithmetic ⟨place.line, piece.parts⟩))
  | named {name : List Char} (hf : opening.form = .braced)
      (hb : Braced.ofContent? opening.content = some (.parameter name)) :
      PartOf place opening (some (.parameter (String.ofList name)))
  | length {name : List Char} (hf : opening.form = .braced)
      (hb : Braced.ofContent? opening.content = some (.length name)) :
      PartOf place opening (some (.length (String.ofList name)))
  | conditional {name : List Char} {op : ParameterOp} {piece : Piece} (hf : opening.form = .braced)
      (hb : Braced.ofContent? opening.content = some (.conditional name op))
      (hr : readParts (fun _ => false) {} (opening.start.advance (opening.content.take (name.length + op.extent)))
        (opening.content.drop (name.length + op.extent)) = .ok piece) :
      PartOf place opening (some (.conditional (String.ofList name) op ⟨0, piece.parts⟩))

theorem readPart_eq_ok_iff {opening : Opening} {part? : Option WordPart} :
    readPart place opening = .ok part? ↔ PartOf place opening part? := by
  -- By the form of what has been opened.
  constructor
  · intro h
    unfold readPart at h
    simp only at h
    split at h
    · next hf => exact Except.ok.inj h ▸ .dollar hf
    · next hf => exact Except.ok.inj h ▸ .parameter hf
    · next hf => exact Except.ok.inj h ▸ .command hf
    · next hf => exact Except.ok.inj h ▸ .backquoted hf
    · next hf =>
      split at h
      · cases h
      · next hr => exact Except.ok.inj h ▸ .arithmetic hf hr
    · next hf =>
      split at h
      · cases h
      · next hb => exact Except.ok.inj h ▸ .named hf hb
      · next hb => exact Except.ok.inj h ▸ .length hf hb
      · next hb =>
        split at h
        · cases h
        · next hr => exact Except.ok.inj h ▸ .conditional hf hb hr
  · intro h
    unfold readPart
    cases h with
    | dollar hf | parameter hf | command hf | backquoted hf => simp only [hf]
    | arithmetic hf hr => simp only [hf, hr]
    | named hf hb | length hf hb => simp only [hf, hb]
    | conditional hf hb hr => simp only [hf, hb, hr]

theorem readParts_nil (ho : r.outer = none) : readParts stop r place [] = .ok (r.finish [] place) := by
  unfold readParts
  rw [ho]

/-- A word is over at the end of the text or at a character that ends words. -/
theorem readParts_of_over (ho : r.outer = none) (hc : ∀ c ∈ cs.head?, stop c = true) :
    readParts stop r place cs = .ok (r.finish cs place) := by
  cases cs with
  | nil => exact readParts_nil ho
  | cons c cs => rw [readParts_cons, Reading.step_eq_none_iff.mpr ⟨ho, hc c rfl⟩]

/-- A turn that does not end the word leaves the rest of the word to be read. -/
theorem readParts_of_took {turn : Reading.Turn} (ht : r.Took stop place c cs turn) :
    readParts stop r place (c :: cs) = readParts stop turn.1 turn.2.1 turn.2.2 := by
  rw [readParts_cons, Reading.step_eq_some_iff.mpr ht]

/-- **Induction on the turns of a word.** In the case of a turn, what is shown holds of the rest of the word, and also
of all words that are read from shorter texts, as those inside of an expansion are. -/
theorem readParts_induction
    {motive : ∀ {stop : Char → Bool} {r : Reading} {place : Place} {cs : List Char} {piece : Piece},
      readParts stop r place cs = .ok piece → Prop}
    (ended : ∀ {stop : Char → Bool} {r : Reading} {place : Place} {cs : List Char} (ho : r.outer = none)
      (hc : ∀ c ∈ cs.head?, stop c = true), motive (@readParts_of_over stop r place cs ho hc))
    (turn : ∀ {stop : Char → Bool} {r : Reading} {place : Place} {c : Char} {cs : List Char} {turn : Reading.Turn}
      {piece : Piece} (ht : r.Took stop place c cs turn) (hr : readParts stop turn.1 turn.2.1 turn.2.2 = .ok piece),
      (∀ {stop : Char → Bool} {r : Reading} {place : Place} {ds : List Char} {piece : Piece}
        (hr : readParts stop r place ds = .ok piece), ds.length ≤ cs.length → motive hr) →
      motive hr → motive ((readParts_of_took ht).trans hr))
    (hr : readParts stop r place cs = .ok piece) : motive hr := by
  -- A turn may read the text inside an expansion, which is shorter. So the induction is on the length of what is
  -- left.
  induction hk : cs.length using Nat.strongRecOn generalizing stop r place cs piece with
  | _ k ih =>
    have hread := hr
    cases cs with
    | nil =>
      unfold readParts at hread
      split at hread
      · next ho =>
        obtain rfl := Except.ok.inj hread
        exact ended ho fun _ h => by cases h
      · cases hread
    | cons c cs =>
      subst hk
      rw [readParts_cons] at hread
      cases hs : r.step stop place c cs with
      | error e =>
        rw [hs] at hread
        cases hread
      | ok turn? =>
        rw [hs] at hread
        cases turn? with
        | none =>
          obtain rfl := Except.ok.inj hread
          obtain ⟨ho, hc⟩ := Reading.step_eq_none_iff.mp hs
          exact ended ho fun d hd => Option.some.inj hd ▸ hc
        | some t =>
          have ht := Reading.step_eq_some_iff.mp hs
          exact turn ht hread (fun hr hlength => ih _ (Nat.lt_succ_of_le hlength) hr rfl)
            (ih _ (Nat.lt_succ_of_le ht.length) hread rfl)

/-! ## 2. Complete lines -/

/-- What is read in a turn at a line, where the turn ends and what it leaves: the line is not over yet, but in
double quotes. -/
structure Reading.Turns (place : Place) (cs : List Char) (turn : Reading.Turn) : Prop where
  cut : CutAt place cs turn.2.1 turn.2.2
  line : EndsLine turn.2.2 ∨ turn.2.2 = [] ∧ turn.1.outer ≠ none

/-- What an expansion is has nothing to do with what follows it. -/
theorem readPart_rest (opening : Opening) (rest : List Char) :
    readPart place { opening with rest := rest } = readPart place opening := by
  unfold readPart
  rfl

theorem Reading.expand_append (h : EndsLine (c :: cs)) (hc : r.outer = none → c ≠ '\n')
    {turn : Reading.Turn} (he : r.expand place c cs = .ok turn) (more : List Char) :
    r.expand place c (cs ++ more) = .ok (turn.1, turn.2.1, turn.2.2 ++ more) ∧
      Reading.Turns place (c :: cs) turn := by
  -- What is opened is on this line, so it has been closed before the text that is added.
  have hopening {opening : Opening} (ho : Opening.at? place c cs = .ok (some opening)) := by
    have hne : c ≠ '\n' := by
      rintro rfl
      nomatch Opening.at?_eq_some_iff.mp ho
    exact Opening.at?_append (h.tail hne) ho more
  rw [expand_eq_ok_iff] at he ⊢
  cases he with
  | character hd hq =>
    refine ⟨.character hd hq, (CutAt.refl _ _).cons c, ?_⟩
    by_cases hne : c = '\n'
    · subst hne
      by_cases hnil : cs = []
      · exact .inr ⟨hnil, fun houter => hc houter rfl⟩
      · exact .inl (EndsLine.right ['\n'] h hnil)
    · exact .inl (h.tail hne)
  | dollar ho hp =>
    obtain ⟨happend, hline, hcut⟩ := hopening ho
    exact ⟨.dollar happend ((readPart_rest _ _).trans hp), hcut, .inl hline⟩
  | part ho hp =>
    obtain ⟨happend, hline, hcut⟩ := hopening ho
    exact ⟨.part happend ((readPart_rest _ _).trans hp), hcut, .inl hline⟩

/-- What a turn takes of a complete line, and that it is the same whatever comes after the line. -/
theorem Reading.Took.append {turn : Turn} (ht : Took stop r place c cs turn) (hstop : stop '\n' = true)
    (h : EndsLine (c :: cs)) (more : List Char) :
    Took stop r place c (cs ++ more) (turn.1, turn.2.1, turn.2.2 ++ more) ∧
      Turns place (c :: cs) turn := by
  -- A turn has taken what it takes before the end of the line, and what is left ends the line again.
  cases ht with
  | last _ => exact absurd (Option.some.inj h.1) (by decide)
  | continued hs => exact ⟨.continued hs, ((CutAt.refl _ _).cons _).cons _, .inl h.escaped⟩
  | escaped ho hs hd => exact ⟨.escaped ho hs hd, ((CutAt.refl _ _).cons _).cons _, .inl h.escaped⟩
  | escapedInside ho hd he =>
    exact ⟨.escapedInside ho hd he, ((CutAt.refl _ _).cons _).cons _, .inl h.escaped⟩
  | kept ho hd he => exact ⟨.kept ho hd he, (CutAt.refl _ _).cons _, .inl (h.tail (by decide))⟩
  | single ho hs hr =>
    have hends := Scan.singleQuoted_ends hr
    exact ⟨.single ho hs (Scan.singleQuoted_append hr more), hends.cutAt.cons _,
      .inl ((h.tail (by decide)).region hends (by decide))⟩
  | entered ho hs => exact ⟨.entered ho hs, (CutAt.refl _ _).cons _, .inl (h.tail (by decide))⟩
  | left ho => exact ⟨.left ho, (CutAt.refl _ _).cons _, .inl (h.tail (by decide))⟩
  | expanded hb hq hs he =>
    -- A newline outside of quotes ends the word, so it is not expanded.
    have hc (ho : r.outer = none) : c ≠ '\n' := by
      rintro rfl
      have hgo := (hs ho).1
      rw [hstop] at hgo
      cases hgo
    obtain ⟨happend, hturns⟩ := expand_append h hc he more
    exact ⟨.expanded hb hq hs happend, hturns⟩

/-- **A word on a complete line ends there**, and is the same whatever comes after the line. -/
theorem readParts_append (hstop : stop '\n' = true) (h : EndsLine cs)
    (hr : readParts stop r place cs = .ok piece) (more : List Char) :
    readParts stop r place (cs ++ more) = .ok { piece with rest := piece.rest ++ more } ∧
      EndsLine piece.rest ∧ CutAt place cs piece.place piece.rest := by
  induction hr using readParts_induction with
  | @ended _ _ _ cs ho hc =>
    have hhead : (cs ++ more).head? = cs.head? := List.head?_append_of_ne_nil cs h.ne_nil
    exact ⟨readParts_of_over ho (hhead ▸ hc), h, .refl _ _⟩
  | @turn _ _ _ _ _ turn _ ht hr _ ih =>
    obtain ⟨happend, hcut, hline⟩ := ht.append hstop h more
    rw [List.cons_append, readParts_of_took happend]
    rcases hline with hline | ⟨hnil, houter⟩
    · obtain ⟨hparts, hrest, hcut'⟩ := ih hstop hline
      exact ⟨hparts, hrest, hcut.trans hcut'⟩
    -- Double quotes that are open at the end of the text are a mistake.
    · rw [hnil] at hr
      unfold readParts at hr
      split at hr
      · next ho => exact absurd ho houter
      · cases hr

/-! ## 3. Sources -/

mutual

/-- The command substitutions of a part have not been parsed yet, and their sources are shorter than `n`. -/
def WordPart.IsFresh (n : Nat) : WordPart → Prop
  | .substitution source _ none => source.length < n
  | .substitution _ _ (some _) => False
  | .doubleQuoted parts => AreFresh n parts
  | .conditional _ _ argument => argument.IsFresh n
  | .arithmetic expression => expression.IsFresh n
  | _ => True

/-- The command substitutions of parts have not been parsed yet, and their sources are shorter than `n`. -/
def AreFresh (n : Nat) : List WordPart → Prop
  | [] => True
  | part :: parts => part.IsFresh n ∧ AreFresh n parts

/-- The command substitutions of a word have not been parsed yet, and their sources are shorter than `n`. -/
def Word.IsFresh (n : Nat) : Word → Prop
  | ⟨_, parts⟩ => AreFresh n parts

end

namespace AreFresh

variable {n : Nat} {part : WordPart} {parts : List WordPart}

theorem append_iff {parts' : List WordPart} :
    AreFresh n (parts ++ parts') ↔ AreFresh n parts ∧ AreFresh n parts' := by
  induction parts with
  | nil => simp [AreFresh]
  | cons part parts ih => simp [AreFresh, ih, and_assoc]

theorem reverse (h : AreFresh n parts) : AreFresh n parts.reverse := by
  induction parts with
  | nil => exact h
  | cons part parts ih =>
    rw [List.reverse_cons, append_iff]
    exact ⟨ih h.2, h.1, trivial⟩

end AreFresh

namespace Reading

variable {n : Nat}

/-- What has been read so far is fresh. -/
structure IsFresh (n : Nat) (r : Reading) : Prop where
  parts : AreFresh n r.parts
  outer : ∀ outer, r.outer = some outer → AreFresh n outer.2

theorem IsFresh.flushed (h : r.IsFresh n) : AreFresh n r.flushed := by
  unfold Reading.flushed
  split
  · exact h.parts
  · exact ⟨trivial, h.parts⟩

theorem IsFresh.push (h : r.IsFresh n) {part : WordPart} (hpart : part.IsFresh n) :
    (r.push part).IsFresh n := ⟨⟨hpart, h.flushed⟩, h.outer⟩

/-- A turn reads sources no longer than what it takes, if the parts of expansions do. -/
theorem Took.isFresh {turn : Turn} (ht : Took stop r place c cs turn) (h : r.IsFresh n)
    (hpart : ∀ opening part, opening.content.length < (c :: cs).length →
      readPart place opening = .ok (some part) → part.IsFresh n) :
    turn.1.IsFresh n := by
  have hskip (ds : List Char) : (r.skip ds).IsFresh n := ⟨h.parts, h.outer⟩
  cases ht with
  | last | continued | escapedInside | kept => exact ⟨h.parts, h.outer⟩
  | escaped | single => exact (hskip _).push trivial
  | entered =>
    refine ⟨trivial, fun outer ho => ?_⟩
    obtain rfl := Option.some.inj ho
    exact h.flushed
  | left ho => exact ⟨⟨h.flushed.reverse, h.outer _ ho⟩, nofun⟩
  | expanded hb hq hs he =>
    cases expand_eq_ok_iff.mp he with
    | character | dollar => exact ⟨h.parts, h.outer⟩
    | part ho hp => exact (hskip _).push (hpart _ _ (Opening.at?_length_lt ho) hp)

end Reading

theorem unescapeBackquoted_length (cs : List Char) :
    (Scan.unescapeBackquoted cs).length ≤ cs.length := by
  fun_induction Scan.unescapeBackquoted cs <;> grind

/-- The source that an expansion is, or those in the text that it holds. -/
theorem readPart_isFresh {n : Nat} {opening : Opening} {part : WordPart}
    (hp : readPart place opening = .ok (some part))
    (h : ∀ {start : Place} {cs : List Char} {piece : Piece}, cs.length ≤ opening.content.length →
      readParts (fun _ => false) {} start cs = .ok piece → AreFresh n piece.parts)
    (hn : opening.content.length < n) : part.IsFresh n := by
  cases readPart_eq_ok_iff.mp hp with
  | parameter | named | length => trivial
  | command => simpa [WordPart.IsFresh] using hn
  | backquoted =>
    have hle := unescapeBackquoted_length opening.content
    simp only [WordPart.IsFresh, String.length_ofList]
    omega
  | arithmetic _ hr => exact h (Nat.le_refl _) hr
  | conditional _ _ hr => exact h (by simp) hr

/-- **The sources in a word are shorter than the text** that the word starts, and nothing of it has
been parsed. -/
theorem readParts_isFresh {n : Nat} (hr : readParts stop r place cs = .ok piece) (h : r.IsFresh n)
    (hn : cs.length ≤ n) : AreFresh n piece.parts := by
  induction hr using readParts_induction with
  | ended => exact h.flushed.reverse
  | turn ht _ inner ih =>
    rw [List.length_cons] at hn
    refine ih (ht.isFresh h fun opening part hlength hp => ?_) (by have := ht.length; omega)
    rw [List.length_cons] at hlength
    refine readPart_isFresh hp (fun hds hr => ?_) (by omega)
    exact inner hr (by omega) ⟨trivial, nofun⟩ (by omega)

/-! ## 4. Newlines in words -/

/-- The signs that can keep a newline from ending a word. -/
def isGuard (c : Char) : Bool := c == '\\' || c == '\'' || c == '"' || c == '$' || c == '\x60'

/-- What is opened is written with the sign that opens it. -/
theorem Opening.at?_written {opening : Opening} (h : at? place c cs = .ok (some opening)) :
    ∃ d ∈ opening.written, isGuard d = true := by
  cases at?_eq_some_iff.mp h with
  | arithmetic | command | braced => exact ⟨'$', by simp [ofRegion], by decide⟩
  | plain => exact ⟨'$', List.mem_cons_self, by decide⟩
  | backquoted => exact ⟨'\x60', by simp [ofRegion], by decide⟩

/-- What has been read has no newline, or one of the signs as well. -/
def Reading.Guarded (r : Reading) : Prop :=
  (∃ c ∈ r.text, isGuard c = true) ∨ r.outer = none ∧ '\n' ∉ r.text

theorem Reading.Took.guarded {turn : Reading.Turn} (ht : Took stop r place c cs turn)
    (hstop : stop '\n' = true) (h : r.Guarded) : turn.1.Guarded := by
  cases ht with
  | last | continued | escaped | kept | escapedInside =>
    exact .inl ⟨'\\', by simp [skip, plain, push], by decide⟩
  | single => exact .inl ⟨'\'', by simp [skip, push], by decide⟩
  | entered => exact .inl ⟨'"', by simp [skip, enter], by decide⟩
  | left => exact .inl ⟨'"', by simp [skip, leave], by decide⟩
  | expanded hb hq hs he =>
    cases expand_eq_ok_iff.mp he with
    | character =>
      refine h.imp (fun ⟨d, hd, hg⟩ => ⟨d, by simp [skip, plain, hd], hg⟩) fun ⟨ho, hn⟩ => ⟨ho, ?_⟩
      have hc : c ≠ '\n' := by
        rintro rfl
        have hgo := (hs ho).1
        rw [hstop] at hgo
        cases hgo
      simp [skip, plain, hn, hc.symm]
    | dollar ho | part ho =>
      obtain ⟨d, hd, hg⟩ := Opening.at?_written ho
      exact .inl ⟨d, by simp [skip, plain, push, hd], hg⟩

/-- **A word has a newline in its text only together with a sign that keeps it there.** -/
theorem readParts_guarded (hstop : stop '\n' = true) (hr : readParts stop r place cs = .ok piece)
    (h : r.Guarded) : (∃ c ∈ piece.text, isGuard c = true) ∨ '\n' ∉ piece.text := by
  have hfinish {r : Reading} (h : r.Guarded) (rest : List Char) (place : Place) :
      (∃ c ∈ (r.finish rest place).text, isGuard c = true) ∨ '\n' ∉ (r.finish rest place).text :=
    h.imp (fun ⟨d, hd, hg⟩ => ⟨d, List.mem_reverse.mpr hd, hg⟩) fun ⟨_, hn⟩ hmem =>
      hn (List.mem_reverse.mp hmem)
  induction hr using readParts_induction with
  | ended => exact hfinish h _ _
  | turn ht _ _ ih => exact ih hstop (ht.guarded hstop h)

theorem Name.isRest_of_isIdentifier {text : List Char} (h : isIdentifier text = true) :
    ∀ c ∈ text, isRest c = true := by
  match text with
  | [] => exact nofun
  | c :: cs =>
    unfold isIdentifier at h
    simp only [Bool.and_eq_true, List.all_eq_true] at h
    intro d hd
    rcases List.mem_cons.mp hd with rfl | hd
    · simp [isRest, h.1]
    · exact h.2 d hd

theorem Name.isValid_of_isIdentifier {text : List Char} (h : isIdentifier text = true) :
    isValid text = true := by
  unfold isValid
  rw [h, Bool.true_or]

theorem isRest_of_isGuard (h : isGuard c = true) : Name.isRest c = false := by
  simp only [isGuard, Bool.or_eq_true, beq_iff_eq] at h
  rcases h with (((rfl | rfl) | rfl) | rfl) | rfl <;> decide

/-- A word whose text passes for a name has a name for its text. -/
theorem isIdentifier_of_guarded {text : List Char}
    (h : (∃ c ∈ text, isGuard c = true) ∨ '\n' ∉ text) (hv : Name.isValid text = true) :
    Name.isIdentifier text = true := by
  simp only [Name.isValid, Bool.or_eq_true, Bool.and_eq_true, beq_iff_eq] at hv
  rcases hv with hv | ⟨hlast, hv⟩
  · exact hv
  · exfalso
    rcases h with ⟨c, hc, hg⟩ | hn
    · rw [← List.dropLast_append_getLast? _ hlast] at hc
      rcases List.mem_append.mp hc with hc | hc
      · have hrest := Name.isRest_of_isIdentifier hv c hc
        rw [isRest_of_isGuard hg] at hrest
        cases hrest
      · rw [List.mem_singleton.mp hc] at hg
        exact absurd hg (by decide)
    · exact hn (List.mem_of_getLast? hlast)

/-! ## 5. Mistakes -/

variable {e : ScriptError}

theorem readPart_isMistake {opening : Opening} (h : readPart place opening = .error e)
    (hparts : ∀ {start : Place} {cs : List Char} {e : ScriptError},
      cs.length ≤ opening.content.length → readParts (fun _ => false) {} start cs = .error e →
      e.IsMistake) : e.IsMistake := by
  unfold readPart at h
  -- Only what has to be read further can fail: an expression, the braces, and the word in them.
  simp only at h
  split at h
  · cases h
  · cases h
  · cases h
  · cases h
  · split at h
    · next hr =>
      obtain rfl := Except.error.inj h
      exact hparts (Nat.le_refl _) hr
    · cases h
  · split at h
    · obtain rfl := Except.error.inj h
      intro hcause
      cases hcause
    · cases h
    · cases h
    · split at h
      · next hr =>
        obtain rfl := Except.error.inj h
        exact hparts (by simp) hr
      · cases h

theorem Reading.step_isMistake (h : r.step stop place c cs = .error e)
    (hpart : ∀ opening e, opening.content.length < (c :: cs).length →
      readPart place opening = .error e → e.IsMistake) : e.IsMistake := by
  have hexpand (h : (r.expand place c cs).map some = .error e) : e.IsMistake := by
    unfold expand at h
    split at h
    · next ho =>
      obtain rfl := Except.error.inj h
      exact Opening.at?_isMistake ho
    · cases h
    · next opening ho =>
      have hlength := Opening.at?_length ho
      split at h
      · next hp =>
        obtain rfl := Except.error.inj h
        exact hpart opening _ (by rw [List.length_cons]; omega) hp
      · cases h
      · cases h
  unfold step at h
  grind [Scan.singleQuoted_isMistake]

/-- **A word that cannot be read has a mistake in it.** -/
theorem readParts_isMistake (h : readParts stop r place cs = .error e) : e.IsMistake := by
  -- As for the readers themselves: what is opened is shorter, and so is what is left after a turn.
  induction hk : cs.length using Nat.strongRecOn generalizing stop r place cs e with
  | _ k ih =>
    cases cs with
    | nil =>
      unfold readParts at h
      split at h
      · cases h
      · obtain rfl := Except.error.inj h
        intro hcause
        cases hcause
    | cons c cs =>
      subst hk
      rw [readParts_cons] at h
      cases hs : r.step stop place c cs with
      | error e' =>
        rw [hs] at h
        obtain rfl := Except.error.inj h
        exact Reading.step_isMistake hs fun opening e hlength hp => readPart_isMistake hp
          fun hds hr => ih _ (Nat.lt_of_le_of_lt hds hlength) hr rfl
      | ok turn? =>
        rw [hs] at h
        cases turn? with
        | none => cases h
        | some turn =>
          have hlt := Nat.lt_succ_of_le (Reading.step_eq_some_iff.mp hs).length
          exact ih turn.2.2.length hlt h rfl

end Shell
