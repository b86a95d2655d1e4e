/-
Text that is read as it is meant.

Written forms put a text together from three kinds of pieces: characters that mean nothing, characters
behind a backslash, and texts in single quotes. Here it is said what reading one such piece adds to a
word (`Reads`): what was written, and the text that it stands for, whatever was read before it and
whatever follows. Pieces one after the other add their texts one after the other, so a written form is
dealt with by saying of each character of a text which pieces it is written with.

At the end of the module such a word stands in a script, behind the word `:` and a blank.
-/
import Shell.Proofs.Token.Layout
import Shell.Proofs.Token.Starts

set_option autoImplicit false

namespace Shell

/-! ## 1. The text of parts -/

/-- The text of parts without expansions, as characters. -/
def literal? (parts : List WordPart) : Option (List Char) :=
  (WordPart.literalTexts? parts).map String.toList

theorem literal?_cons (part : WordPart) (parts : List WordPart) :
    literal? (part :: parts) = (do
      let text ← part.literalText?.map String.toList
      let texts ← literal? parts
      return text ++ texts) := by
  unfold literal?
  rw [WordPart.literalTexts?]
  cases part.literalText? with
  | none => rfl
  | some text => cases WordPart.literalTexts? parts <;> simp

theorem literal?_append (parts parts' : List WordPart) :
    literal? (parts ++ parts') = (do
      let text ← literal? parts
      let text' ← literal? parts'
      return text ++ text') := by
  induction parts with
  | nil => cases h : literal? parts' <;> simp [literal?, WordPart.literalTexts?, ← h]
  | cons part parts ih =>
    rw [List.cons_append, literal?_cons, literal?_cons, ih]
    cases part.literalText? with
    | none => rfl
    | some text => cases literal? parts <;> cases literal? parts' <;> simp

theorem literal?_append_of_some {parts parts' : List WordPart} {text text' : List Char}
    (h : literal? parts = some text) (h' : literal? parts' = some text') :
    literal? (parts ++ parts') = some (text ++ text') := by
  rw [literal?_append, h, h']
  rfl

theorem literal?_singleton {part : WordPart} {text : String} {cs : List Char}
    (h : part.literalText? = some text) (hcs : text.toList = cs) : literal? [part] = some cs := by
  simp [literal?, WordPart.literalTexts?, h, hcs]

theorem literal?_literal (cs : List Char) : literal? [.literal (String.ofList cs)] = some cs :=
  literal?_singleton rfl String.toList_ofList

/-! ## 2. Pieces of written text -/

namespace Reading

/-- The text of what has been read, if there are no expansions in it. -/
def literal? (r : Reading) : Option (List Char) := Shell.literal? r.flushed.reverse

/-- What has been read begins with unquoted text that begins with some characters. -/
def Heads? (r : Reading) (cs : List Char) : Prop :=
  ∃ head more, r.flushed.reverse = .literal head :: more ∧ cs <+: head.toList

/-- Outside of double quotes, reading takes the characters `written` for the text `text`, and goes on
with `r'`, whatever follows. -/
structure Reads (r : Reading) (written text : List Char) (r' : Reading) : Prop where
  outside : r'.outer = none
  taken : r'.text = written.reverse ++ r.text
  literal : ∀ before, r.literal? = some before → r'.literal? = some (before ++ text)
  heads : ∀ cs, r.Heads? cs → r'.Heads? cs
  goesOn : ∀ place rest, readParts isMetacharacter r place (written ++ rest) =
    readParts isMetacharacter r' (place.advance written) rest

variable {r r' r'' : Reading} {written written' text text' : List Char}

theorem Reads.refl (ho : r.outer = none) : r.Reads [] [] r where
  outside := ho
  taken := rfl
  literal before h := by rw [h, List.append_nil]
  heads _ h := h
  goesOn _ _ := rfl

theorem Reads.trans (h : r.Reads written text r') (h' : r'.Reads written' text' r'') :
    r.Reads (written ++ written') (text ++ text') r'' where
  outside := h'.outside
  taken := by rw [h'.taken, h.taken, List.reverse_append, List.append_assoc]
  literal before hb := by rw [h'.literal _ (h.literal before hb), List.append_assoc]
  heads cs hc := h'.heads cs (h.heads cs hc)
  goesOn place rest := by
    rw [List.append_assoc, h.goesOn, h'.goesOn, Place.advance_append]

/-- A text of which each character is written with a piece of its own. -/
theorem exists_reads_flatMap {write : Char → List Char} {cs : List Char}
    (h : ∀ c ∈ cs, ∀ r : Reading, r.outer = none → ∃ r', r.Reads (write c) [c] r')
    (ho : r.outer = none) : ∃ r', r.Reads (cs.flatMap write) cs r' := by
  induction cs generalizing r with
  | nil => exact ⟨r, .refl ho⟩
  | cons c cs ih =>
    obtain ⟨r₁, h₁⟩ := h c List.mem_cons_self r ho
    obtain ⟨r₂, h₂⟩ := ih (fun d hd => h d (List.mem_cons_of_mem c hd)) h₁.outside
    rw [List.flatMap_cons]
    exact ⟨r₂, h₁.trans h₂⟩

theorem flushed_plain (r : Reading) (c : Char) :
    (r.plain c).flushed = .literal (String.ofList (r.run.reverse ++ [c])) :: r.parts := by
  simp [Reading.flushed, Reading.plain]

/-- A character that is read as it is comes after the text that has been read. -/
theorem literal?_plain {before : List Char} (h : r.literal? = some before) (c : Char) :
    (r.plain c).literal? = some (before ++ [c]) := by
  show Shell.literal? (r.plain c).flushed.reverse = some (before ++ [c])
  rw [flushed_plain, List.reverse_cons]
  unfold Reading.literal? Reading.flushed at h
  split at h
  · next hrun =>
    rw [List.isEmpty_iff.mp hrun]
    exact literal?_append_of_some h (literal?_literal [c])
  · -- The character goes to the end of the unquoted text before it.
    rw [List.reverse_cons, literal?_append] at h
    rw [literal?_append]
    cases hp : Shell.literal? r.parts.reverse with
    | none =>
      rw [hp] at h
      cases h
    | some front =>
      rw [hp, literal?_literal] at h
      rw [literal?_literal, ← Option.some.inj h]
      simp

theorem Heads?.plain {cs : List Char} (h : r.Heads? cs) (c : Char) : (r.plain c).Heads? cs := by
  obtain ⟨head, more, hf, hc⟩ := h
  unfold Heads?
  rw [flushed_plain, List.reverse_cons]
  unfold Reading.flushed at hf
  split at hf
  · exact ⟨head, more ++ [_], by rw [hf, List.cons_append], hc⟩
  · rw [List.reverse_cons] at hf
    cases hp : r.parts.reverse with
    | nil =>
      -- The character goes to the end of the text that is the head.
      rw [hp] at hf
      obtain ⟨hhead, rfl⟩ := List.cons.inj hf
      obtain rfl := WordPart.literal.inj hhead
      refine ⟨_, [], rfl, hc.trans ?_⟩
      rw [String.toList_ofList, String.toList_ofList]
      exact List.prefix_append _ _
    | cons first rest =>
      rw [hp, List.cons_append] at hf
      obtain ⟨rfl, -⟩ := List.cons.inj hf
      exact ⟨head, rest ++ [_], rfl, hc⟩

/-- The turn at a character that means nothing. -/
theorem took_plain {c : Char} (hm : isMetacharacter c = false) (hg : isGuard c = false) (place : Place)
    (rest : List Char) :
    r.Took isMetacharacter place c rest ((r.plain c).skip [c], place.after c, rest) := by
  have hne {d : Char} (hd : isGuard d = true) : c ≠ d := by
    rintro rfl
    rw [hg] at hd
    cases hd
  have hexpand : r.expand place c rest = .ok ((r.plain c).skip [c], place.after c, rest) :=
    expand_eq_ok_iff.mpr (.character (hne rfl) (hne rfl))
  exact .expanded (hne (d := '\\') rfl) (hne (d := '"') rfl) (fun _ => ⟨hm, hne (d := '\'') rfl⟩) hexpand

/-- A character that means nothing stands for itself. -/
theorem reads_plain (ho : r.outer = none) {c : Char} (hm : isMetacharacter c = false)
    (hg : isGuard c = false) : r.Reads [c] [c] ((r.plain c).skip [c]) where
  outside := ho
  taken := rfl
  literal _ hb := literal?_plain hb c
  heads _ hc := hc.plain c
  goesOn place rest := by
    rw [List.singleton_append, readParts_of_took (took_plain hm hg place rest)]
    rfl

/-- What a part adds that has a text. -/
theorem reads_push (ho : r.outer = none) (part : WordPart) {value : String}
    (hv : part.literalText? = some value) (ht : value.toList = text)
    (hgo : ∀ place rest, readParts isMetacharacter r place (written ++ rest) =
      readParts isMetacharacter ((r.skip written).push part) (place.advance written) rest) :
    r.Reads written text ((r.skip written).push part) where
  outside := ho
  taken := rfl
  literal before hb := by
    show Shell.literal? (part :: r.flushed).reverse = _
    rw [List.reverse_cons]
    exact literal?_append_of_some hb (literal?_singleton hv ht)
  heads cs := by
    rintro ⟨head, more, hf, hc⟩
    refine ⟨head, more ++ [part], ?_, hc⟩
    show (part :: r.flushed).reverse = _
    rw [List.reverse_cons, hf, List.cons_append]
  goesOn := hgo

/-- A character behind a backslash stands for itself, unless it is a newline. -/
theorem reads_escaped (ho : r.outer = none) {c : Char} (hc : c ≠ '\n') :
    r.Reads ['\\', c] [c] ((r.skip ['\\', c]).push (.escaped c)) :=
  reads_push ho (.escaped c) rfl (String.toList_singleton c) fun place rest => by
    have htook : r.Took isMetacharacter place '\\' (c :: rest) _ := .escaped ho rfl hc
    rw [List.cons_append, List.singleton_append, readParts_of_took htook]
    rfl

/-- Single quotes around a text without them stand for the text. -/
theorem reads_singleQuoted (ho : r.outer = none) {cs : List Char} (hc : '\'' ∉ cs) :
    r.Reads ('\'' :: cs ++ ['\'']) cs
      ((r.skip ('\'' :: cs ++ ['\''])).push (.singleQuoted (String.ofList cs))) := by
  have hscan (start place : Place) (content rest : List Char) :
      Scan.singleQuoted start content place (cs ++ '\'' :: rest) =
        .ok ⟨content.reverse ++ cs, rest, place.advance (cs ++ ['\''])⟩ := by
    induction cs generalizing place content with
    | nil => simp [Scan.singleQuoted, Place.advance]
    | cons c cs ih =>
      obtain ⟨hne, hcs⟩ := not_or.mp (mt List.mem_cons.mpr hc)
      rw [List.cons_append, Scan.singleQuoted, if_neg (Ne.symm hne), ih hcs]
      simp [Place.advance]
  exact reads_push ho (.singleQuoted (String.ofList cs)) rfl String.toList_ofList
    fun place rest => by
      have htook : r.Took isMetacharacter place '\'' (cs ++ '\'' :: rest) _ :=
        .single ho rfl (hscan place (place.after '\'') [] rest)
      rw [List.cons_append, List.cons_append, List.append_assoc, List.singleton_append, readParts_of_took htook]
      rfl

/-! ## 3. Words -/

/-- A word of pieces, before a character that ends it. -/
theorem Reads.readParts {c : Char} (h : r.Reads written text r') (hc : isMetacharacter c = true)
    (place : Place) (rest : List Char) :
    readParts isMetacharacter r place (written ++ c :: rest) =
      .ok (r'.finish (c :: rest) (place.advance written)) := by
  rw [h.goesOn, readParts_of_over h.outside fun d hd => Option.some.inj hd ▸ hc]

/-- A word of pieces at the end of the text. -/
theorem Reads.readParts_last (h : r.Reads written text r') (place : Place) :
    Shell.readParts isMetacharacter r place written = .ok (r'.finish [] (place.advance written)) := by
  have hgo := h.goesOn place []
  rw [List.append_nil] at hgo
  rw [hgo, readParts_nil h.outside]

end Reading

/-- What a word can begin with. -/
def BeginsWord (cs : List Char) : Prop :=
  ∃ c rest, cs = c :: rest ∧ isMetacharacter c = false ∧ c ≠ '#' ∧ ¬ (c = '\\' ∧ rest.head? = some '\n')

/-- A turn in which a word is read, or fails to be. -/
theorem Tokens.step_word {c : Char} {cs : List Char} (hm : isMetacharacter c = false) (hc : c ≠ '#')
    (hn : ¬ (c = '\\' ∧ cs.head? = some '\n')) (ts : Tokens) (place : Place) :
    ts.step place c cs = (readParts isMetacharacter {} place (c :: cs)).map
      fun piece => (ts.pushWord place piece, piece.place, piece.rest) := by
  have hne {d : Char} (hd : isMetacharacter d = true) : c ≠ d := by
    rintro rfl
    rw [hm] at hd
    cases hd
  have hblank : ¬ (c = ' ' ∨ c = '\t') := not_or.mpr ⟨hne rfl, hne rfl⟩
  unfold step
  rw [if_neg hblank, if_neg hn, if_neg (hne rfl), if_neg hc, if_neg fun h => hne rfl h.2.1,
    operatorAt?_eq_none hm]
  cases readParts isMetacharacter {} place (c :: cs) <;> rfl

/-- A word that is read from a text is the next token. -/
theorem tokensFrom_word {cs : List Char} (hb : BeginsWord cs) (ts : Tokens) (place : Place) :
    tokensFrom ts place cs =
      match readParts isMetacharacter {} place cs with
      | .error e => .error e
      | .ok piece => tokensFrom (ts.pushWord place piece) piece.place piece.rest := by
  obtain ⟨c, rest, rfl, hm, hc, hn⟩ := hb
  rw [tokensFrom_cons, Tokens.step_word hm hc hn]
  cases readParts isMetacharacter {} place (c :: rest) <;> rfl

/-- Where no command may start, a word is a word whatever its text is. -/
theorem Tokens.pushWord_argument {ts : Tokens} (hs : ts.commandStart = false)
    (hf : ts.isAfterFunction = false) (place : Place) (piece : Piece) :
    ts.pushWord place piece = ts.push (.word (String.ofList piece.text) piece.parts) place false := by
  unfold pushWord
  rw [hs, hf]
  rfl

/-! ## 4. The first parts of a word -/

namespace Reading

variable {stop : Char → Bool} {r : Reading} {place : Place} {c : Char} {cs : List Char} {turn : Turn}

theorem parts_suffix_flushed (r : Reading) : r.parts <:+ r.flushed := by
  unfold flushed
  split
  · exact List.suffix_refl _
  · exact List.suffix_cons _ _

/-- What has been read outside of double quotes stays as it is. -/
theorem Took.outermost_suffix (ht : Took stop r place c cs turn) :
    r.outermost <:+ turn.1.outermost := by
  have hpush (used : List Char) (part : WordPart) :
      r.outermost <:+ ((r.skip used).push part).outermost := by
    unfold outermost push skip
    cases r.outer with
    | none => exact (parts_suffix_flushed r).trans (List.suffix_cons _ _)
    | some outer => exact List.suffix_refl _
  cases ht with
  | last | continued | escapedInside | kept => exact List.suffix_refl _
  | escaped | single => exact hpush _ _
  | entered ho =>
    unfold outermost enter
    rw [ho]
    exact parts_suffix_flushed r
  | left ho =>
    unfold outermost leave
    rw [ho]
    exact List.suffix_cons _ _
  | expanded hb hq hs he =>
    cases expand_eq_ok_iff.mp he with
    | character | dollar => exact List.suffix_refl _
    | part => exact hpush _ _

end Reading

/-- **What every turn keeps holds at the end of the word**, which is read outside of double quotes. The
induction is on the text that is left. -/
theorem readParts_invariant {stop : Char → Bool} (P : Reading → Prop)
    (hturn : ∀ {r place c cs turn}, P r → Reading.Took stop r place c cs turn → P turn.1)
    {r : Reading} {place : Place} {cs : List Char} {piece : Piece} (h : P r)
    (hr : readParts stop r place cs = .ok piece) :
    ∃ r' rest place', P r' ∧ r'.outer = none ∧ piece = r'.finish rest place' := by
  induction hr using readParts_induction with
  | ended ho => exact ⟨_, _, _, h, ho, rfl⟩
  | turn ht _ _ ih => exact ih hturn (hturn h ht)

/-- The parts that have been read are the first of the word. -/
theorem readParts_outermost {stop : Char → Bool} {r : Reading} {place : Place} {cs : List Char}
    {piece : Piece} (hr : readParts stop r place cs = .ok piece) :
    r.outermost.reverse <+: piece.parts := by
  obtain ⟨r', rest, place', hsuffix, ho, rfl⟩ :=
    readParts_invariant (fun r' => r.outermost <:+ r'.outermost) (fun h ht => h.trans ht.outermost_suffix)
      (List.suffix_refl _) hr
  have hparts : r'.outermost = r'.parts := by
    unfold Reading.outermost
    rw [ho]
  exact List.reverse_prefix.mpr (hsuffix.trans (hparts ▸ r'.parts_suffix_flushed))

end Shell
