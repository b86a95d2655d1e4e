/-
Backquotes around an escaped text.

Any text can stand between backquotes, if a backslash is put before each backslash, backquote and dollar sign in it. The
first backquote without a backslash is then the closing one (`backquoted_escaped`), and what is taken off are the
backslashes that were put there (`unescapeBackquoted_escaped`). Between double quotes nothing else happens to the text,
although a backslash there has another meaning. So texts in backquotes in backquotes can be unwrapped layer by layer,
as long as the whole is not too large for a script (`backquotes_decode`).
-/
import Shell.Proofs.Word.Quoting

set_option autoImplicit false

namespace Shell

/-! ## 1. One pair of backquotes -/

namespace Scan

/-- A text with a backslash before each character that can be escaped between backquotes. -/
def escaped (s : List Char) : List Char := s.flatMap fun c => if isBackquoteEscape c then ['\\', c] else [c]

/-- The escaped text in backquotes. -/
def enclosed (s : List Char) : List Char := '\x60' :: escaped s ++ ['\x60']

theorem escaped_cons (c : Char) (s : List Char) :
    escaped (c :: s) = (if isBackquoteEscape c then ['\\', c] else [c]) ++ escaped s := List.flatMap_cons

theorem ne_of_not_isBackquoteEscape {c : Char} (h : ¬ isBackquoteEscape c = true) : c ≠ '\x60' ∧ c ≠ '\\' := by
  constructor <;>
  · rintro rfl
    exact h rfl

/-- **The scan goes on to the closing backquote**, and to no other one. -/
theorem backquoted_escaped (start place : Place) (content s rest : List Char) :
    backquoted start content place (escaped s ++ '\x60' :: rest) =
      .ok ⟨content.reverse ++ escaped s, rest, place.advance (escaped s ++ ['\x60'])⟩ := by
  induction s generalizing place content with
  | nil =>
    show backquoted start content place ('\x60' :: rest) = .ok ⟨content.reverse ++ [], rest, place.after '\x60'⟩
    rw [List.append_nil, backquoted.eq_def]
    rfl
  | cons c s ih =>
    rw [escaped_cons, backquoted.eq_def]
    by_cases hc : isBackquoteEscape c = true
    · -- The backslash and the character behind it are taken together.
      simp [hc, ih, Place.advance]
    · obtain ⟨hquote, hbackslash⟩ := ne_of_not_isBackquoteEscape hc
      simp [hc, hquote, hbackslash, ih, Place.advance]

/-- **The backslashes that were put there are taken away**, and no others. -/
theorem unescapeBackquoted_escaped (s : List Char) : unescapeBackquoted (escaped s) = s := by
  induction s with
  | nil => rfl
  | cons c s ih =>
    rw [escaped_cons]
    by_cases hc : isBackquoteEscape c = true
    · rw [if_pos hc, List.cons_append, List.singleton_append, unescapeBackquoted, if_pos hc, ih]
    · obtain ⟨-, hbackslash⟩ := ne_of_not_isBackquoteEscape hc
      rw [if_neg hc, List.singleton_append, unescapeBackquoted, ih]
      intro d ds hd
      exact absurd hd hbackslash

/-- Backquotes make a text longer. -/
theorem length_lt_enclosed (s : List Char) : s.length < (enclosed s).length := by
  have hle : s.length ≤ (escaped s).length := by
    have hshorter := unescapeBackquoted_length (escaped s)
    rwa [unescapeBackquoted_escaped] at hshorter
  rw [enclosed, List.length_append, List.length_cons]
  omega

end Scan

open Scan

/-- The part that an escaped text in backquotes is, where the backquotes stand at a place. -/
def WordPart.enclosed (place : Place) (s : List Char) : WordPart :=
  .substitution (String.ofList s) (place.after '\x60') none

namespace Reading

variable {r : Reading} {place : Place}

theorem expand_enclosed (s rest : List Char) :
    r.expand place '\x60' (escaped s ++ '\x60' :: rest) =
      .ok ((r.skip (enclosed s)).push (.enclosed place s), place.advance (enclosed s), rest) := by
  have hat : Opening.at? place '\x60' (escaped s ++ '\x60' :: rest) = .ok (some
      ⟨.backquoted, escaped s, place.after '\x60', enclosed s, rest, place.advance (enclosed s)⟩) :=
    Opening.at?_eq_some_iff.mpr (.backquoted (backquoted_escaped ..))
  have hpart : PartOf place
      ⟨.backquoted, escaped s, place.after '\x60', enclosed s, rest, place.advance (enclosed s)⟩ _ := .backquoted rfl
  rw [unescapeBackquoted_escaped] at hpart
  exact expand_eq_ok_iff.mpr (.part hat (readPart_eq_ok_iff.mpr hpart))

/-- **An escaped text in backquotes is one part**, inside of double quotes as outside of them. -/
theorem readParts_enclosed (r : Reading) {stop : Char → Bool} (hs : stop '\x60' = false) (place : Place)
    (s rest : List Char) :
    readParts stop r place (enclosed s ++ rest) =
      readParts stop ((r.skip (enclosed s)).push (.enclosed place s)) (place.advance (enclosed s)) rest := by
  have htook : r.Took stop place '\x60' (escaped s ++ '\x60' :: rest) _ :=
    .expanded (by decide) (by decide) (fun _ => ⟨hs, by decide⟩) (expand_enclosed s rest)
  have hfront : enclosed s ++ rest = '\x60' :: (escaped s ++ '\x60' :: rest) := by
    rw [enclosed, List.cons_append, List.cons_append, List.append_assoc, List.singleton_append]
  rw [hfront, readParts_of_took htook]

end Reading

/-! ## 2. A word with backquotes -/

/-- Where backquotes stand: by themselves, or in double quotes with texts before and after them. -/
inductive Enclosure where
  | bare
  | quoted (before after : List Char)

namespace Enclosure

/-- A text as it is written between double quotes. -/
def inQuotes (text : List Char) : List Char := text.flatMap Fragment.doubleQuotedChar

/-- A text in backquotes. -/
def written : Enclosure → List Char → List Char
  | bare, s => enclosed s
  | quoted before after, s => '"' :: (inQuotes before ++ enclosed s ++ inQuotes after ++ ['"'])

/-- The parts of the word that this is, at a place. -/
def parts : Enclosure → Place → List Char → List WordPart
  | bare, place, s => [.enclosed place s]
  | quoted before after, place, s =>
    [.doubleQuoted (Reading.insideParts before ++ .enclosed ((place.after '"').advance (inQuotes before)) s ::
      Reading.insideParts after)]

theorem length_lt_written (enclosure : Enclosure) (s : List Char) : s.length < (enclosure.written s).length := by
  have hlonger := length_lt_enclosed s
  cases enclosure with
  | bare => exact hlonger
  | quoted before after =>
    simp only [written, List.length_cons, List.length_append]
    omega

/-- What is written begins with a quote or a backquote, which begins a word and is in no keyword. -/
theorem exists_cons_written (enclosure : Enclosure) (s : List Char) :
    ∃ c rest, enclosure.written s = c :: rest ∧ (c = '"' ∨ c = '\x60') := by
  cases enclosure with
  | bare => exact ⟨_, _, rfl, .inr rfl⟩
  | quoted before after => exact ⟨_, _, rfl, .inl rfl⟩

theorem beginsWord_written (enclosure : Enclosure) (s : List Char) : BeginsWord (enclosure.written s) := by
  obtain ⟨c, rest, heq, hc⟩ := enclosure.exists_cons_written s
  refine ⟨c, rest, heq, ?_⟩
  rcases hc with rfl | rfl <;> exact ⟨rfl, by decide, fun h => absurd h.1 (by decide)⟩

theorem ofText?_written (enclosure : Enclosure) (s : List Char) :
    Keyword.ofText? (String.ofList (enclosure.written s)) = none := by
  obtain ⟨c, rest, heq, hc⟩ := enclosure.exists_cons_written s
  have hguard : isGuard c = true := by
    rcases hc with rfl | rfl <;> rfl
  rw [heq]
  exact Keyword.ofText?_of_isGuard hguard List.mem_cons_self

/-- What has been read between double quotes when text, a part and text have been read. -/
theorem flushed_between (place : Place) (before after used used' used'' : List Char) (part : WordPart) :
    (((((((({} : Reading).skip ['"']).enter place).plains before).skip used).skip used').push part).plains after
      |>.skip used'').flushed = (Reading.insideParts before ++ part :: Reading.insideParts after).reverse := by
  cases before <;> cases after <;>
    simp [Reading.flushed, Reading.plains, Reading.skip, Reading.push, Reading.enter, Reading.insideParts]

/-- **The word is read to its end as these parts.** -/
theorem readParts_written (enclosure : Enclosure) (s : List Char) (place : Place) :
    readParts isMetacharacter {} place (enclosure.written s) =
      .ok ⟨enclosure.parts place s, enclosure.written s, [], place.advance (enclosure.written s)⟩ := by
  -- Between double quotes the reading goes through five stretches: the quote, the text, the backquotes, the text
  -- and the quote.
  cases enclosure with
  | bare =>
    have hread := @Reading.readParts_enclosed {} isMetacharacter rfl place s []
    rw [List.append_nil] at hread
    show readParts isMetacharacter {} place (enclosed s) = _
    rw [hread, readParts]
    simp [Reading.finish, Reading.flushed, Reading.push, Reading.skip, parts, written]
  | quoted before after =>
    let first := ((({} : Reading).skip ['"']).enter place |>.plains before).skip (inQuotes before)
    let place₁ := (place.after '"').advance (inQuotes before)
    let second := (first.skip (enclosed s)).push (.enclosed place₁ s)
    let place₂ := place₁.advance (enclosed s)
    let third := (second.plains after).skip (inQuotes after)
    let place₃ := place₂.advance (inQuotes after)
    have hbetween := Fragment.inside_flatMap_doubleQuotedChar
    calc readParts isMetacharacter {} place (written (.quoted before after) s)
      _ = readParts isMetacharacter ((({} : Reading).skip ['"']).enter place) (place.after '"')
            (inQuotes before ++ (enclosed s ++ (inQuotes after ++ ['"']))) := by
        simp only [written, List.append_assoc]
        rw [readParts_of_took (.entered rfl rfl)]
      _ = readParts isMetacharacter first place₁ (enclosed s ++ (inQuotes after ++ ['"'])) :=
        Reading.readParts_inside (hbetween before) (Option.some_ne_none _) _ _ (by decide) _
      _ = readParts isMetacharacter second place₂ (inQuotes after ++ ['"']) :=
        Reading.readParts_enclosed first rfl place₁ s _
      _ = readParts isMetacharacter third place₃ ['"'] :=
        Reading.readParts_inside (hbetween after) (Option.some_ne_none _) _ _ (by decide) _
      _ = readParts isMetacharacter ((third.skip ['"']).leave []) (place₃.after '"') [] := by
        rw [readParts_of_took (.left rfl)]
        rfl
      _ = .ok (((third.skip ['"']).leave []).finish [] (place₃.after '"')) := by
        exact readParts_nil rfl
      _ = _ := by
        have hparts : third.flushed = _ := flushed_between place before after _ _ _ _
        have hplace : place₃.after '"' = place.advance (written (.quoted before after) s) := by
          simp [place₃, place₂, place₁, written, Place.advance]
        have htext : ((third.skip ['"']).leave []).text.reverse = written (.quoted before after) s := by
          simp [third, second, first, written, Reading.leave, Reading.skip, Reading.push, Reading.plains, Reading.enter]
        have hflushed : ((third.skip ['"']).leave []).flushed.reverse = parts (.quoted before after) place s := by
          show [WordPart.doubleQuoted third.flushed.reverse] = _
          rw [hparts, List.reverse_reverse]
          rfl
        unfold Reading.finish
        rw [hflushed, htext, hplace]

/-- The tokens of a script that is this word alone. -/
def tokens (enclosure : Enclosure) (origin : Place) (s : List Char) : List Token :=
  [⟨.word (String.ofList (enclosure.written s)) (enclosure.parts origin s), origin⟩,
    ⟨.endOfInput, origin.advance (enclosure.written s)⟩]

theorem tokenize_written (enclosure : Enclosure) (s : List Char) (origin : Place) :
    tokenize (enclosure.written s) origin =
      if maxScriptSize < (enclosure.written s).length then
        .error ⟨.inputTooLarge (enclosure.written s).length maxScriptSize, ⟨0, 0⟩⟩
      else .ok (enclosure.tokens origin s) := by
  -- A command may start here, but the word is no keyword.
  have hword (stop : Place) : ∃ start,
      ({} : Tokens).pushWord origin ⟨enclosure.parts origin s, enclosure.written s, [], stop⟩ =
        ({} : Tokens).push (.word (String.ofList (enclosure.written s)) (enclosure.parts origin s)) origin start := by
    unfold Tokens.pushWord
    simp only [ofText?_written, ite_self]
    exact ⟨_, rfl⟩
  have hfrom : tokensFrom {} origin (enclosure.written s) = .ok (enclosure.tokens origin s) := by
    obtain ⟨start, hpush⟩ := hword (origin.advance (enclosure.written s))
    rw [tokensFrom_word (enclosure.beginsWord_written s), readParts_written]
    simp only
    rw [hpush, tokensFrom]
    rfl
  unfold tokenize
  rw [hfrom]

end Enclosure

/-! ## 3. Layers -/

mutual

/-- The expansions in a part, those between double quotes among them. -/
def WordPart.expansions : WordPart → List WordPart
  | .literal _ => []
  | .singleQuoted _ => []
  | .escaped _ => []
  | .doubleQuoted parts => expansionsOf parts
  | .parameter name => [.parameter name]
  | .length name => [.length name]
  | .conditional name op argument => [.conditional name op argument]
  | .substitution source place body => [.substitution source place body]
  | .arithmetic expression => [.arithmetic expression]

def WordPart.expansionsOf : List WordPart → List WordPart
  | [] => []
  | part :: parts => part.expansions ++ expansionsOf parts

end

/-- The source of a text that is one word, in which a command substitution is the only expansion. -/
def unwrapped? (origin : Place) (text : List Char) : Option (List Char) :=
  match tokenize text origin with
  | .ok [⟨.word _ parts, _⟩, ⟨.endOfInput, _⟩] =>
    match WordPart.expansionsOf parts with
    | [.substitution source _ _] => some source.toList
    | _ => none
  | _ => none

/-- A text with some layers taken off, each of which is read as a script of its own. -/
def peeled? (origin : Place) : (layers : Nat) → List Char → Option (List Char)
  | 0, text => some text
  | layers + 1, text => unwrapped? origin text >>= peeled? origin layers

/-- A text in layers of backquotes, the outermost one first. -/
def layered (enclosures : List Enclosure) (s : List Char) : List Char := enclosures.foldr Enclosure.written s

namespace Enclosure

/-- In the word is one expansion, of which the text is the source. -/
theorem expansionsOf_parts (enclosure : Enclosure) (s : List Char) (origin : Place) :
    ∃ start, WordPart.expansionsOf (enclosure.parts origin s) = [.substitution (String.ofList s) start none] := by
  have happend (parts parts' : List WordPart) :
      WordPart.expansionsOf (parts ++ parts') = WordPart.expansionsOf parts ++ WordPart.expansionsOf parts' := by
    induction parts with
    | nil => rfl
    | cons part parts ih => rw [List.cons_append, WordPart.expansionsOf, WordPart.expansionsOf, ih, List.append_assoc]
  have htext (text : List Char) : WordPart.expansionsOf (Reading.insideParts text) = [] := by
    unfold Reading.insideParts
    split <;> rfl
  cases enclosure with
  | bare => exact ⟨_, rfl⟩
  | quoted before after =>
    refine ⟨((origin.after '"').advance (inQuotes before)).after '\x60', ?_⟩
    simp [parts, WordPart.expansionsOf, WordPart.expansions, WordPart.enclosed, happend, htext]

theorem unwrapped?_written (enclosure : Enclosure) (s : List Char) (origin : Place) :
    unwrapped? origin (enclosure.written s) =
      if maxScriptSize < (enclosure.written s).length then none else some s := by
  obtain ⟨start, hexpansions⟩ := enclosure.expansionsOf_parts s origin
  unfold unwrapped?
  rw [tokenize_written]
  by_cases hsize : maxScriptSize < (enclosure.written s).length
  · rw [if_pos hsize, if_pos hsize]
  · rw [if_neg hsize, if_neg hsize, tokens]
    simp only [hexpansions, String.toList_ofList]

end Enclosure

/-- **Layers that were put on come off again**, unless the whole is too large: what is inside is smaller. -/
theorem peeled?_layered (enclosures : List Enclosure) (s : List Char) (origin : Place) :
    peeled? origin enclosures.length (layered enclosures s) =
      if enclosures ≠ [] ∧ maxScriptSize < (layered enclosures s).length then none else some s := by
  induction enclosures with
  | nil => rfl
  | cons enclosure enclosures ih =>
    have hsmaller := enclosure.length_lt_written (layered enclosures s)
    rw [List.length_cons, peeled?, layered, List.foldr_cons, ← layered, Enclosure.unwrapped?_written]
    by_cases hsize : maxScriptSize < (enclosure.written (layered enclosures s)).length
    · rw [if_pos hsize, if_pos ⟨List.cons_ne_nil _ _, hsize⟩]
      rfl
    · rw [if_neg hsize, if_neg fun h => hsize h.2, Option.bind_eq_bind, Option.bind_some, ih]
      exact if_neg fun h => hsize (h.2.trans hsmaller)

/-- **Backquotes decode what escaping encodes**, alone as well as in double quotes with text around them. The word is
the only one of the script, its only expansion is a command substitution, and the source of this is the text that was
escaped. In any number of layers of either kind the text comes back after as many readings. Only a script that is too
large is not read at all. -/
theorem backquotes_decode (s : List Char) (origin : Place) :
    (∀ enclosure : Enclosure, ∃ parts start,
      tokenize (enclosure.written s) origin =
        (if maxScriptSize < (enclosure.written s).length then
          .error ⟨.inputTooLarge (enclosure.written s).length maxScriptSize, ⟨0, 0⟩⟩
        else .ok [⟨.word (String.ofList (enclosure.written s)) parts, origin⟩,
          ⟨.endOfInput, origin.advance (enclosure.written s)⟩]) ∧
      WordPart.expansionsOf parts = [.substitution (String.ofList s) start none]) ∧
    ∀ enclosures : List Enclosure, peeled? origin enclosures.length (layered enclosures s) =
      if enclosures ≠ [] ∧ maxScriptSize < (layered enclosures s).length then none else some s := by
  refine ⟨fun enclosure => ?_, fun enclosures => peeled?_layered enclosures s origin⟩
  obtain ⟨start, hexpansions⟩ := enclosure.expansionsOf_parts s origin
  exact ⟨_, start, enclosure.tokenize_written s origin, hexpansions⟩

/-- A text that is as large as a script may be cannot be put into backquotes. -/
theorem largestComment_not_enclosed :
    ¬ ∀ s : List Char, ∃ parts start,
      tokenize (enclosed s) ⟨1, 1⟩ =
          .ok [⟨.word (String.ofList (enclosed s)) parts, ⟨1, 1⟩⟩, ⟨.endOfInput, Place.advance ⟨1, 1⟩ (enclosed s)⟩] ∧
        WordPart.expansionsOf parts = [.substitution (String.ofList s) start none] := by
  intro h
  obtain ⟨n, hn⟩ : ∃ n, n = 999999 := ⟨_, rfl⟩
  obtain ⟨parts, start, htokens, -⟩ := h ('#' :: List.replicate n 'a')
  have hsize := (tokenize_eq_ok_iff.mp htokens).1
  have hlonger := length_lt_enclosed ('#' :: List.replicate n 'a')
  rw [List.length_cons, List.length_replicate] at hlonger
  unfold maxScriptSize at hsize
  omega

end Shell
