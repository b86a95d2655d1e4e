/-
Text between double quotes.

Four characters mean something there: the closing quote, the backslash, the dollar sign and the backquote.
Any of them stands for itself behind a backslash, and a dollar sign stands for itself as well if the
character behind it opens no expansion. `Inside` says which written text stands for which text. What is
written so is read as one quoted part without expansions, whatever is around the quotes.
-/
import Shell.Proofs.Token.Literals

set_option autoImplicit false

namespace Shell

open Shell.Text

/-! ## 1. Dollar signs -/

/-- The characters that open an expansion behind a dollar sign. -/
def opensExpansion (c : Char) : Bool :=
  c == '(' || c == '\x7b' || isLetter c || c == '_' || isDigit c || Braced.isSpecial c

namespace Opening

theorem plainExtent_of_opensExpansion_eq_false {c : Char} (h : opensExpansion c = false)
    (cs : List Char) : plainExtent (c :: cs) = 0 := by
  simp only [opensExpansion, Bool.or_eq_false_iff] at h
  obtain ⟨⟨⟨⟨⟨-, -⟩, hletter⟩, hunderscore⟩, hdigit⟩, hspecial⟩ := h
  simp [plainExtent, hletter, hunderscore, hdigit, hspecial]

/-- A dollar sign before a character that opens nothing is a dollar sign. -/
theorem dollar_of_opensExpansion_eq_false {c : Char} (h : opensExpansion c = false) (place : Place)
    (cs : List Char) :
    dollar place (c :: cs) =
      .ok ⟨.dollar, [], place.after '$', ['$'], c :: cs, place.after '$'⟩ := by
  have hparen : c ≠ '(' := by
    rintro rfl
    cases h
  have hbrace : c ≠ '\x7b' := by
    rintro rfl
    cases h
  have hplain : dollar place (c :: cs) = .ok (plain place (c :: cs)) :=
    dollar_eq_ok_iff.mpr (.plain (by simpa using hparen) (by simpa using hbrace))
  rw [hplain, plain, plainExtent_of_opensExpansion_eq_false h]
  rfl

end Opening

namespace Reading

variable {r : Reading} {place : Place}

theorem expand_quiet_dollar {c : Char} (h : opensExpansion c = false) (cs : List Char) :
    r.expand place '$' (c :: cs) = .ok ((r.skip ['$']).plain '$', place.after '$', c :: cs) := by
  have hat : Opening.at? place '$' (c :: cs) =
      .ok (some ⟨.dollar, [], place.after '$', ['$'], c :: cs, place.after '$'⟩) := by
    rw [Opening.at?_eq_some_iff, ← Opening.dollar_eq_ok_iff, Opening.dollar_of_opensExpansion_eq_false h]
  exact expand_eq_ok_iff.mpr (.dollar hat (readPart_eq_ok_iff.mpr (.dollar rfl)))

end Reading

/-! ## 2. Written text -/

/-- Between double quotes, the characters `written` stand for the text `text`. -/
inductive Inside : List Char → List Char → Prop where
  | nil : Inside [] []
  /-- A character that means nothing. -/
  | plain {c : Char} {written text : List Char} (hc : isDoubleQuoteEscape c = false)
      (h : Inside written text) : Inside (c :: written) (c :: text)
  /-- One of the four that do, behind a backslash. -/
  | escaped {c : Char} {written text : List Char} (hc : isDoubleQuoteEscape c = true)
      (h : Inside written text) : Inside ('\\' :: c :: written) (c :: text)
  /-- A dollar sign with nothing behind it that opens an expansion. The closing quote opens none. -/
  | dollar {written text : List Char} (hw : ∀ c ∈ written.head?, opensExpansion c = false)
      (h : Inside written text) : Inside ('$' :: written) ('$' :: text)

namespace Reading

variable {r : Reading} {written text : List Char}

/-- Adds characters to the unquoted text. -/
def plains (r : Reading) (cs : List Char) : Reading := { r with run := cs.reverse ++ r.run }

/-- Characters that mean nothing are read as unquoted text. -/
theorem reads_plains (ho : r.outer = none) {cs : List Char}
    (h : ∀ c ∈ cs, isMetacharacter c = false ∧ isGuard c = false) :
    r.Reads cs cs ((r.plains cs).skip cs) := by
  induction cs generalizing r with
  | nil => exact .refl ho
  | cons c cs ih =>
    obtain ⟨hm, hg⟩ := h c List.mem_cons_self
    have hfirst := reads_plain ho hm hg
    have hrest := ih hfirst.outside fun d hd => h d (List.mem_cons_of_mem c hd)
    have hsame : ((((r.plain c).skip [c]).plains cs).skip cs) = (r.plains (c :: cs)).skip (c :: cs) := by
      simp [plain, plains, skip]
    exact hsame ▸ hfirst.trans hrest

theorem isDoubleQuoteEscape_ne {c d : Char} (hc : isDoubleQuoteEscape c = false)
    (hd : isDoubleQuoteEscape d = true) : c ≠ d := by
  rintro rfl
  rw [hc] at hd
  cases hd

theorem ne_newline_of_isDoubleQuoteEscape {c : Char} (hc : isDoubleQuoteEscape c = true) : c ≠ '\n' := by
  rintro rfl
  cases hc

/-- The turn at a character that means nothing between double quotes. -/
theorem took_inside {stop : Char → Bool} {c : Char} (hc : isDoubleQuoteEscape c = false)
    (ho : r.outer ≠ none) (place : Place) (rest : List Char) :
    r.Took stop place c rest ((r.plain c).skip [c], place.after c, rest) := by
  have hexpand : r.expand place c rest = .ok ((r.plain c).skip [c], place.after c, rest) :=
    expand_eq_ok_iff.mpr (.character (isDoubleQuoteEscape_ne hc rfl) (isDoubleQuoteEscape_ne hc rfl))
  exact .expanded (isDoubleQuoteEscape_ne hc (d := '\\') rfl) (isDoubleQuoteEscape_ne hc (d := '"') rfl)
    (fun hnone => absurd hnone ho) hexpand

/-- The turn at a dollar sign between double quotes that opens nothing. -/
theorem took_quiet_dollar {stop : Char → Bool} {c : Char} (hc : opensExpansion c = false)
    (ho : r.outer ≠ none) (place : Place) (cs : List Char) :
    r.Took stop place '$' (c :: cs) ((r.plain '$').skip ['$'], place.after '$', c :: cs) := by
  refine .expanded (by decide) (by decide) (fun hnone => absurd hnone ho) ?_
  rw [expand_quiet_dollar hc]
  rfl

/-- A turn that reads the characters `used` for `c`, before the others. -/
theorem readParts_of_took_plain {stop : Char → Bool} {c d : Char} {cs rest : List Char} {place : Place}
    (used : List Char) (ht : r.Took stop place d cs ((r.plain c).skip used, place.advance used, rest)) :
    readParts stop r place (d :: cs) =
      readParts stop ((r.plains [c]).skip used) (place.advance used) rest := by
  rw [Shell.readParts_of_took ht]
  rfl

theorem plains_skip_plains_skip (r : Reading) (c : Char) (text used written : List Char) :
    ((((r.plains [c]).skip used).plains text).skip written) =
      (r.plains (c :: text)).skip (used ++ written) := by
  simp [plains, skip]

/-- **Text between double quotes is read as it is meant**, up to a character that opens no expansion behind a dollar
sign, such as the closing quote. -/
theorem readParts_inside (h : Inside written text) (ho : r.outer ≠ none) (stop : Char → Bool)
    (place : Place) {next : Char} (hnext : opensExpansion next = false) (rest : List Char) :
    readParts stop r place (written ++ next :: rest) =
      readParts stop ((r.plains text).skip written) (place.advance written) (next :: rest) := by
  -- In each case one turn takes the first characters, and the rest is read in the same way.
  induction h generalizing r place with
  | nil => rfl
  | @plain c written text hc h ih =>
    rw [List.cons_append, readParts_of_took_plain [c] (took_inside hc ho _ _),
      ih (r := (r.plains [c]).skip [c]) ho, plains_skip_plains_skip]
    rfl
  | @escaped c written text hc h ih =>
    have hne := ne_newline_of_isDoubleQuoteEscape hc
    rw [List.cons_append, List.cons_append,
      readParts_of_took_plain ['\\', c] (.escapedInside ho hne hc),
      ih (r := (r.plains [c]).skip ['\\', c]) ho, plains_skip_plains_skip]
    rfl
  | @dollar written text hw h ih =>
    obtain ⟨c, cs, hcs, hquiet⟩ : ∃ c cs, written ++ next :: rest = c :: cs ∧ opensExpansion c = false := by
      cases written with
      | nil => exact ⟨next, rest, rfl, hnext⟩
      | cons c cs => exact ⟨c, cs ++ next :: rest, rfl, hw c rfl⟩
    rw [List.cons_append, hcs, readParts_of_took_plain ['$'] (took_quiet_dollar hquiet ho place cs), ← hcs,
      ih (r := (r.plains ['$']).skip ['$']) ho, plains_skip_plains_skip]
    rfl

/-! ## 3. The part in double quotes -/

/-- The parts between double quotes of a text without expansions. -/
def insideParts (text : List Char) : List WordPart :=
  if text.isEmpty then [] else [.literal (String.ofList text)]

theorem literalText?_doubleQuoted_insideParts (text : List Char) :
    (WordPart.doubleQuoted (insideParts text)).literalText? = some (String.ofList text) := by
  unfold insideParts
  split
  · next h =>
    rw [List.isEmpty_iff.mp h]
    rfl
  · simp [WordPart.literalText?, WordPart.literalTexts?]

/-- **Double quotes around what is written for a text stand for the text.** -/
theorem reads_doubleQuoted (ho : r.outer = none) (h : Inside written text) :
    r.Reads ('"' :: written ++ ['"']) text
      ((r.skip ('"' :: written ++ ['"'])).push (.doubleQuoted (insideParts text))) :=
  reads_push ho (.doubleQuoted (insideParts text)) (literalText?_doubleQuoted_insideParts text)
    String.toList_ofList fun place rest => by
      have hentered : r.Took isMetacharacter place '"' (written ++ '"' :: rest) _ := .entered ho rfl
      rw [List.cons_append, List.cons_append, List.append_assoc, List.singleton_append,
        readParts_of_took hentered]
      show readParts isMetacharacter ((r.skip ['"']).enter place) (place.after '"') _ = _
      have hinside : ((r.skip ['"']).enter place).outer ≠ none := Option.some_ne_none _
      rw [readParts_inside h hinside _ _ (by decide), readParts_of_took (.left rfl)]
      -- What is left is the reading with the part pushed, as the run between the quotes is all there is.
      have hflushed : ((((r.skip ['"']).enter place).plains text).skip written).flushed.reverse =
          insideParts text := by
        unfold flushed insideParts
        show (if (text.reverse ++ []).isEmpty then [] else
          [WordPart.literal (String.ofList (text.reverse ++ []).reverse)]).reverse = _
        cases text <;> simp
      have hleave : (((((r.skip ['"']).enter place).plains text).skip written).skip ['"']).leave
            (r.skip ['"']).flushed =
          (r.skip ('"' :: written ++ ['"'])).push (.doubleQuoted (insideParts text)) := by
        rw [← hflushed]
        simp [leave, push, skip, flushed, plains, enter, ho]
      have hplace : (Place.advance (place.after '"') written).after '"' =
          place.advance ('"' :: (written ++ ['"'])) := by
        simp [Place.advance]
      exact congrArg₂ (fun r p => readParts isMetacharacter r p rest) hleave hplace

end Reading

/-! ## 4. Expansions between double quotes -/

theorem literalTexts?_eq_none_of_mem {part : WordPart} {parts : List WordPart} (hp : part ∈ parts)
    (h : part.literalText? = none) : WordPart.literalTexts? parts = none := by
  induction parts with
  | nil => cases hp
  | cons first parts ih =>
    rw [WordPart.literalTexts?]
    rcases List.mem_cons.mp hp with rfl | hp
    · rw [h]
      rfl
    · rw [ih hp]
      cases first.literalText? <;> rfl

/-- An expansion that has been found is a part without a text. -/
theorem readPart_eq_some {place : Place} {opening : Opening} {part : WordPart}
    (h : readPart place opening = .ok (some part)) : part.literalText? = none := by
  cases readPart_eq_ok_iff.mp h <;> rfl

/-- Only a dollar sign that opens nothing is no part. -/
theorem readPart_eq_none {place : Place} {opening : Opening} (h : readPart place opening = .ok none) :
    opening.form = .dollar := by
  cases readPart_eq_ok_iff.mp h with
  | dollar hform => exact hform

namespace Opening

theorem plainExtent_ne_zero {c : Char} (hc : opensExpansion c = true) (hparen : c ≠ '(')
    (hbrace : c ≠ '\x7b') (cs : List Char) : plainExtent (c :: cs) ≠ 0 := by
  have hnamed : (isLetter c || c == '_') = true ∨ (isDigit c || Braced.isSpecial c) = true := by
    simpa [opensExpansion, hparen, hbrace, or_assoc] using hc
  show (if isLetter c || c == '_' then _ else if isDigit c || Braced.isSpecial c then 1 else 0) ≠ 0
  rcases hnamed with h | h
  · rw [if_pos h]
    omega
  · rw [if_pos h]
    split <;> omega

/-- A backquote opens an expansion, and so does a dollar sign before a character that opens one. -/
theorem at?_of_expansion {place : Place} {c : Char} {cs : List Char} {opening : Opening}
    (hc : c = '\x60' ∨ c = '$' ∧ ∃ d ds, cs = d :: ds ∧ opensExpansion d = true)
    (h : at? place c cs = .ok (some opening)) : opening.form ≠ .dollar := by
  cases at?_eq_some_iff.mp h with
  | arithmetic | command | braced | backquoted => exact Form.noConfusion
  | plain hparen hbrace =>
    obtain ⟨d, ds, rfl, hd⟩ := (hc.resolve_left (by decide)).2
    have hextent : plainExtent (d :: ds) ≠ 0 :=
      plainExtent_ne_zero hd (by simpa using hparen) (by simpa using hbrace) ds
    show (if plainExtent (d :: ds) = 0 then Form.dollar else .parameter) ≠ _
    rw [if_neg hextent]
    exact Form.noConfusion

end Opening

namespace Reading

/-- Among what has been read there is an expansion. -/
def Expands (r : Reading) : Prop :=
  (∃ part ∈ r.parts, part.literalText? = none) ∨
    ∃ outer, r.outer = some outer ∧ ∃ part ∈ outer.2, part.literalText? = none

theorem mem_flushed {r : Reading} {part : WordPart} (h : part ∈ r.parts) : part ∈ r.flushed :=
  r.parts_suffix_flushed.subset h

/-- What has been read before a part stays. -/
theorem Expands.push {r : Reading} (h : r.Expands) (used : List Char) (part : WordPart) :
    ((r.skip used).push part).Expands := by
  rcases h with ⟨p, hp, hnone⟩ | houter
  · exact .inl ⟨p, List.mem_cons_of_mem _ (mem_flushed hp), hnone⟩
  · exact .inr houter

/-- An expansion that has been read stays read. -/
theorem Expands.took {stop : Char → Bool} {r : Reading} {place : Place} {c : Char} {cs : List Char}
    {turn : Turn} (h : r.Expands) (ht : r.Took stop place c cs turn) : turn.1.Expands := by
  cases ht with
  | last | continued | escapedInside | kept => exact h
  | escaped | single => exact h.push _ _
  | entered ho =>
    rcases h with ⟨p, hp, hnone⟩ | ⟨outer, houter, -⟩
    · exact .inr ⟨_, rfl, p, mem_flushed hp, hnone⟩
    · cases ho.symm.trans houter
  | left ho =>
    refine .inl ?_
    rcases h with ⟨p, hp, hnone⟩ | ⟨outer, houter, p, hp, hnone⟩
    · -- It is one of the parts between the quotes that are closed.
      refine ⟨_, List.mem_cons_self, ?_⟩
      exact literalTexts?_eq_none_of_mem (List.mem_reverse.mpr (mem_flushed hp)) hnone
    · obtain rfl := Option.some.inj (ho.symm.trans houter)
      exact ⟨p, List.mem_cons_of_mem _ hp, hnone⟩
  | expanded hb hq hs he =>
    cases expand_eq_ok_iff.mp he with
    | character | dollar => exact h
    | part => exact h.push _ _

/-- A word with an expansion in it has no text. -/
theorem Expands.literalTexts? {stop : Char → Bool} {r : Reading} (h : r.Expands) {place : Place}
    {cs : List Char} {piece : Piece} (hr : readParts stop r place cs = .ok piece) :
    WordPart.literalTexts? piece.parts = none := by
  obtain ⟨r', rest, place', hexpands, ho, rfl⟩ := readParts_invariant Expands Expands.took h hr
  rcases hexpands with ⟨p, hp, hnone⟩ | ⟨outer, houter, -⟩
  · exact literalTexts?_eq_none_of_mem (List.mem_reverse.mpr (mem_flushed hp)) hnone
  · cases ho.symm.trans houter

/-- A turn that finds an expansion keeps it as a part. -/
theorem expands_of_expand {r : Reading} {place : Place} {c : Char} {cs : List Char} {turn : Turn}
    (hc : c = '\x60' ∨ c = '$' ∧ ∃ d ds, cs = d :: ds ∧ opensExpansion d = true)
    (h : r.expand place c cs = .ok turn) : turn.1.Expands := by
  cases expand_eq_ok_iff.mp h with
  | character hd hq =>
    rcases hc with rfl | ⟨rfl, -⟩
    · exact absurd rfl hq
    · exact absurd rfl hd
  | dollar ho hp => exact absurd (readPart_eq_none hp) (Opening.at?_of_expansion hc ho)
  | part ho hp => exact .inl ⟨_, List.mem_cons_self, readPart_eq_some hp⟩

/-- A word that goes on with an expansion has no text. -/
theorem literalTexts?_of_expansion {stop : Char → Bool} {r : Reading} (ho : r.outer ≠ none) {place : Place}
    {c : Char} {cs : List Char} {piece : Piece}
    (hc : c = '\x60' ∨ c = '$' ∧ ∃ d ds, cs = d :: ds ∧ opensExpansion d = true)
    (hr : readParts stop r place (c :: cs) = .ok piece) : WordPart.literalTexts? piece.parts = none := by
  have hb : c ≠ '\\' ∧ c ≠ '"' := by
    rcases hc with rfl | ⟨rfl, -⟩ <;> decide
  rw [readParts_cons] at hr
  cases he : r.expand place c cs with
  | error e =>
    have hstep : r.step stop place c cs = .error e := by
      unfold step
      cases hout : r.outer with
      | none => exact absurd hout ho
      | some outer => simp [hb.1, hb.2, he, Except.map]
    rw [hstep] at hr
    cases hr
  | ok turn =>
    rw [step_eq_some_iff.mpr (.expanded hb.1 hb.2 (fun hnone => absurd hnone ho) he)] at hr
    exact (expands_of_expand hc he).literalTexts? hr

end Reading

end Shell
