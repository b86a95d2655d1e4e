/-
Where the sources of command substitutions stand.

The parts of a token hold the sources of command substitutions, in double quotes, arguments and expressions too. Read
from left to right, these sources stand in the text of the token one after another, each between `$(` and `)`, and
each has the place at which it stands there (`Token.Holds`, `tokensFrom_holds`). What opens a region around a source,
be it a quote, `$((` or `${` with a name and an operator, is a piece of the text before it like any other.

Sources in backquotes are left out: backslashes are taken from them, so they do not stand in the text as they are
read.
-/
import Shell.Proofs.Token.Layout

set_option autoImplicit false

namespace Shell

/-! ## 1. Sources -/

mutual

/-- The sources of the command substitutions in a part that have no body yet, from left to right. -/
def WordPart.sources : WordPart → List (String × Place)
  | .substitution source place none => [(source, place)]
  | .doubleQuoted parts => sourcesIn parts
  | .conditional _ _ argument => argument.sources
  | .arithmetic expression => expression.sources
  | _ => []

/-- The sources in parts, from left to right. -/
def sourcesIn : List WordPart → List (String × Place)
  | [] => []
  | part :: parts => part.sources ++ sourcesIn parts

/-- The sources in a word, from left to right. -/
def Word.sources : Word → List (String × Place)
  | ⟨_, parts⟩ => sourcesIn parts

end

theorem sourcesIn_append (parts parts' : List WordPart) :
    sourcesIn (parts ++ parts') = sourcesIn parts ++ sourcesIn parts' := by
  induction parts with
  | nil => rfl
  | cons part parts ih => simp [sourcesIn, ih]

theorem sourcesIn_singleton (part : WordPart) : sourcesIn [part] = part.sources := List.append_nil _

/-- What stands before a source in a text, and the source. -/
abbrev Occurrence := List Char × String

/-- Sources that stand in a text behind `before`, one after another, each between `$(` and `)`. -/
inductive Stand : (before cs : List Char) → List Occurrence → Prop where
  | none {before cs : List Char} : Stand before cs []
  | skip {before : List Char} {c : Char} {cs : List Char} {occurrences : List Occurrence}
      (h : Stand (before ++ [c]) cs occurrences) : Stand before (c :: cs) occurrences
  | source {before : List Char} {source : String} {rest : List Char} {occurrences : List Occurrence}
      (h : Stand (before ++ (['$', '('] ++ source.toList ++ [')'])) rest occurrences) :
      Stand before (['$', '('] ++ source.toList ++ [')'] ++ rest) ((before ++ ['$', '('], source) :: occurrences)

/-- The places of sources in a text that starts at a place. -/
def located (place : Place) (occurrences : List Occurrence) : List (String × Place) :=
  occurrences.map fun occurrence => (occurrence.2, place.advance occurrence.1)

namespace Stand

variable {before cs ds : List Char} {occurrences more : List Occurrence}

theorem prepend (used : List Char) (h : Stand (before ++ used) cs occurrences) :
    Stand before (used ++ cs) occurrences := by
  induction used generalizing before with
  | nil => rwa [List.append_nil] at h
  | cons c used ih =>
    refine .skip (ih ?_)
    rwa [List.append_assoc]

theorem append (h : Stand before cs occurrences) (hmore : Stand (before ++ cs) ds more) :
    Stand before (cs ++ ds) (occurrences ++ more) := by
  induction h with
  | none => exact hmore.prepend _
  | skip _ ih =>
    refine .skip (ih ?_)
    rwa [List.append_assoc]
  | source _ ih =>
    rw [List.append_assoc]
    refine .source (ih ?_)
    rwa [List.append_assoc]

/-- More text behind the sources. -/
theorem widen (h : Stand before cs occurrences) (ds : List Char) : Stand before (cs ++ ds) occurrences := by
  have hnone : Stand (before ++ cs) ds [] := .none
  have hall := h.append hnone
  rwa [List.append_nil] at hall

/-- A source stands in the text where it is said to, between `$(` and `)`. -/
theorem of_mem (h : Stand before cs occurrences) {occurrence : Occurrence} (ho : occurrence ∈ occurrences) :
    ∃ front after, occurrence.1 = front ++ ['$', '('] ∧
      before ++ cs = occurrence.1 ++ (occurrence.2.toList ++ ')' :: after) := by
  induction h with
  | none => cases ho
  | skip _ ih =>
    obtain ⟨front, after, hfront, hafter⟩ := ih ho
    refine ⟨front, after, hfront, ?_⟩
    rw [← hafter, List.append_assoc]
    rfl
  | @source before source rest occurrences _ ih =>
    rcases List.mem_cons.mp ho with rfl | ho
    · exact ⟨before, rest, rfl, by simp⟩
    · obtain ⟨front, after, hfront, hafter⟩ := ih ho
      refine ⟨front, after, hfront, ?_⟩
      rw [← hafter]
      simp

/-- Without a dollar sign there are no sources. -/
theorem eq_nil (h : Stand before cs occurrences) (hcs : '$' ∉ cs) : occurrences = [] := by
  induction h with
  | none => rfl
  | skip _ ih => exact ih fun hmem => hcs (List.mem_cons_of_mem _ hmem)
  | source => simp at hcs

end Stand

/-! ## 2. Expansions -/

/-- An expansion stands between what opens it and what closes it. A command substitution is opened by `$(`. -/
theorem Opening.at?_encloses {place : Place} {c : Char} {cs : List Char} {opening : Opening}
    (h : at? place c cs = .ok (some opening)) :
    ∃ opener closer, opening.written = opener ++ (opening.content ++ closer) ∧
      opening.start = place.advance opener ∧
      (opening.form = .command → opener = ['$', '('] ∧ closer = [')']) ∧ (opening.form = .backquoted → c = '\x60') := by
  cases at?_eq_some_iff.mp h with
  | arithmetic =>
    exact ⟨['$', '(', '('], [')', ')'], List.append_assoc .., rfl, by simp [ofRegion], by simp [ofRegion]⟩
  | command => exact ⟨['$', '('], [')'], List.append_assoc .., rfl, fun _ => ⟨rfl, rfl⟩, by simp [ofRegion]⟩
  | braced => exact ⟨['$', '\x7b'], ['\x7d'], List.append_assoc .., rfl, by simp [ofRegion], by simp [ofRegion]⟩
  | plain =>
    refine ⟨['$'], [], by simp [plain], rfl, ?_, ?_⟩ <;>
    · intro hform
      unfold plain at hform
      simp only at hform
      split at hform <;> cases hform
  | backquoted => exact ⟨['\x60'], ['\x60'], List.append_assoc .., rfl, by simp [ofRegion], fun _ => rfl⟩

/-- The sources of parts that are read from a text stand in it. `origin` is where the text around it starts, of which
`before` has been read. -/
def StandRead (origin : Place) (before cs : List Char) : Prop :=
  ∀ piece, readParts (fun _ => false) {} (origin.advance before) cs = .ok piece →
    ∃ occurrences, Stand before cs occurrences ∧ sourcesIn piece.parts = located origin occurrences

/-- **The sources in an expansion** stand in what is written, if those in a text inside it do. -/
theorem readPart_stand {origin : Place} {before : List Char} {c : Char} {cs : List Char} {opening : Opening}
    {part : WordPart} (hc : c ≠ '\x60') (ho : Opening.at? (origin.advance before) c cs = .ok (some opening))
    (hp : readPart (origin.advance before) opening = .ok (some part))
    (inside : ∀ front content, content <:+ opening.content → StandRead origin front content) :
    ∃ occurrences, Stand before opening.written occurrences ∧ part.sources = located origin occurrences := by
  obtain ⟨opener, closer, hwritten, hstart, hcommand, hbackquoted⟩ := Opening.at?_encloses ho
  rw [← Place.advance_append] at hstart
  rw [hwritten]
  -- What stands in a text inside the expansion stands in the expansion.
  have hinside : ∀ front content piece, opening.content = front ++ content →
      readParts (fun _ => false) {} (origin.advance (before ++ opener ++ front)) content = .ok piece →
      ∃ occurrences, Stand before (opener ++ (opening.content ++ closer)) occurrences ∧
        sourcesIn piece.parts = located origin occurrences := by
    intro front content piece heq hread
    obtain ⟨occurrences, hstand, hsources⟩ := inside _ content (heq ▸ List.suffix_append _ _) piece hread
    refine ⟨occurrences, ?_, hsources⟩
    rw [heq, List.append_assoc]
    exact ((hstand.widen closer).prepend front).prepend opener
  cases readPart_eq_ok_iff.mp hp with
  | parameter | named | length => exact ⟨[], .none, rfl⟩
  | command hform =>
    obtain ⟨rfl, rfl⟩ := hcommand hform
    refine ⟨[(before ++ ['$', '('], String.ofList opening.content)], ?_, ?_⟩
    · have hnone : Stand (before ++ (['$', '('] ++ (String.ofList opening.content).toList ++ [')'])) [] [] := .none
      have hsource := Stand.source hnone
      simpa using hsource
    · rw [hstart]
      rfl
  | backquoted hform => exact absurd (hbackquoted hform) hc
  | arithmetic _ hread =>
    rw [hstart, ← List.append_nil (before ++ opener)] at hread
    exact hinside [] opening.content _ rfl hread
  | conditional _ _ hread =>
    rw [hstart, ← Place.advance_append] at hread
    exact hinside _ _ _ (List.take_append_drop _ _).symm hread

/-! ## 3. Words -/

namespace Reading

variable {stop : Char → Bool} {r : Reading} {origin : Place} {before : List Char} {c : Char} {cs : List Char}
  {turn : Turn}

/-- The sources that have been read so far, from left to right. -/
def sources (r : Reading) : List (String × Place) :=
  (match r.outer with
    | none => []
    | some outer => sourcesIn outer.2.reverse) ++ sourcesIn r.parts.reverse

theorem sourcesIn_flushed (r : Reading) : sourcesIn r.flushed.reverse = sourcesIn r.parts.reverse := by
  unfold flushed
  split
  · rfl
  · rw [List.reverse_cons, sourcesIn_append]
    exact List.append_nil _

theorem sources_push (r : Reading) (part : WordPart) : (r.push part).sources = r.sources ++ part.sources := by
  unfold sources push
  simp only [List.reverse_cons, sourcesIn_append, sourcesIn_flushed, sourcesIn_singleton, List.append_assoc]

theorem sources_enter (ho : r.outer = none) (place : Place) : (r.enter place).sources = r.sources := by
  unfold sources enter
  simp only [ho, sourcesIn_flushed]
  exact List.append_nil _

theorem sources_leave {outer : Place × List WordPart} (ho : r.outer = some outer) :
    (r.leave outer.2).sources = r.sources := by
  unfold sources leave
  simp only [ho, List.reverse_cons, sourcesIn_append, sourcesIn_singleton, WordPart.sources, sourcesIn_flushed]
  rfl

/-- **A turn reads the sources that stand in what it takes.** -/
theorem Took.stand (ht : Took stop r (origin.advance before) c cs turn) (hcs : '\x60' ∉ c :: cs)
    (hpart : ∀ opening part, opening.content.length < (c :: cs).length → '\x60' ∉ opening.content →
      Opening.at? (origin.advance before) c cs = .ok (some opening) →
      readPart (origin.advance before) opening = .ok (some part) →
        ∃ occurrences, Stand before opening.written occurrences ∧ part.sources = located origin occurrences) :
    ∃ used occurrences, turn.1.text = used.reverse ++ r.text ∧
      Takes used (origin.advance before) (c :: cs) turn.2.1 turn.2.2 ∧ Stand before used occurrences ∧
      turn.1.sources = r.sources ++ located origin occurrences := by
  -- Only an expansion has sources.
  have hnone : turn.1.sources = r.sources → ∃ used occurrences, turn.1.text = used.reverse ++ r.text ∧
      Takes used (origin.advance before) (c :: cs) turn.2.1 turn.2.2 ∧ Stand before used occurrences ∧
      turn.1.sources = r.sources ++ located origin occurrences := by
    intro hsame
    obtain ⟨used, htext, htakes⟩ := ht.takes
    exact ⟨used, [], htext, htakes, .none, by rw [hsame]; exact (List.append_nil _).symm⟩
  cases ht with
  | last | continued | escapedInside | kept => exact hnone rfl
  | escaped | single => exact hnone ((sources_push _ _).trans (List.append_nil _))
  | entered ho => exact hnone (sources_enter (r := r.skip ['"']) ho _)
  | left ho => exact hnone (sources_leave (r := r.skip ['"']) ho)
  | expanded hb hq hs he =>
    cases expand_eq_ok_iff.mp he with
    | character | dollar => exact hnone rfl
    | @part opening part ho hp =>
      have htakes := Opening.at?_takes ho
      have hcontent : '\x60' ∉ opening.content := by
        obtain ⟨opener, closer, hwritten, -⟩ := Opening.at?_encloses ho
        intro hmem
        rw [htakes.text, hwritten] at hcs
        exact hcs (by simp [hmem])
      obtain ⟨occurrences, hstand, hsources⟩ := hpart opening part (Opening.at?_length_lt ho) hcontent ho hp
      exact ⟨opening.written, occurrences, rfl, htakes, hstand, by rw [sources_push, hsources]; rfl⟩

end Reading

/-- **The sources in a word stand in its text.** -/
theorem readParts_stand {stop : Char → Bool} {r : Reading} {origin : Place} {before cs : List Char} {piece : Piece}
    (h : readParts stop r (origin.advance before) cs = .ok piece) (hcs : '\x60' ∉ cs) :
    ∃ used occurrences, piece.text = r.text.reverse ++ used ∧
      Takes used (origin.advance before) cs piece.place piece.rest ∧ Stand before used occurrences ∧
      sourcesIn piece.parts = r.sources ++ located origin occurrences := by
  generalize hp : origin.advance before = place at h
  -- On the turns of the reader. What is read inside of a turn is shorter and is covered by a second hypothesis.
  induction h using readParts_induction generalizing before with
  | ended ho =>
    refine ⟨[], [], by simp [Reading.finish], ⟨rfl, rfl⟩, .none, ?_⟩
    show sourcesIn (Reading.flushed _).reverse = _
    rw [Reading.sourcesIn_flushed, Reading.sources, ho]
    exact (List.append_nil _).symm
  | @turn _ _ _ c cs turn _ ht _ inner ih =>
    subst hp
    have hhead : c ≠ '\x60' := fun heq => hcs (heq ▸ List.mem_cons_self)
    obtain ⟨used, occurrences, htext, htakes, hstand, hsources⟩ := ht.stand hcs
      fun opening part hlength hcontent ho hp => readPart_stand hhead ho hp fun front content hsuffix piece hread => by
        have hshort : content.length < (c :: cs).length := Nat.lt_of_le_of_lt hsuffix.length_le hlength
        obtain ⟨used, occurrences, -, htakes, hstand, hsources⟩ :=
          inner hread (Nat.le_of_lt_succ hshort) (fun hmem => hcontent (hsuffix.subset hmem)) rfl
        exact ⟨occurrences, htakes.text ▸ hstand.widen _, hsources⟩
    have hrest : '\x60' ∉ turn.2.2 := fun hmem => hcs (htakes.text ▸ List.mem_append_right _ hmem)
    obtain ⟨used', occurrences', htext', htakes', hstand', hsources'⟩ :=
      ih hrest ((Place.advance_append ..).trans htakes.place.symm)
    refine ⟨used ++ used', occurrences ++ occurrences', ?_, htakes.text ▸ ?_, hstand.append hstand', ?_⟩
    · rw [htext', htext, List.reverse_append, List.reverse_reverse, List.append_assoc]
    · rw [htakes.place] at htakes'
      exact htakes'.prepend used
    · rw [hsources', hsources, located, located, located, List.map_append, List.append_assoc]

/-! ## 4. Tokens -/

/-- The sources in a token stand in it, where its places say. -/
def Token.Holds (token : Token) (occurrences : List Occurrence) : Prop :=
  Stand [] token.lexeme.span occurrences ∧ sourcesIn token.lexeme.parts = located token.place occurrences

namespace Tokens

theorem Took.holds {ts : Tokens} {place : Place} {c : Char} {cs : List Char} {turn : Turn}
    (ht : Took ts place c cs turn) (hcs : '\x60' ∉ c :: cs)
    (h : ∀ token ∈ ts.done, ∃ occurrences, token.Holds occurrences) :
    ∀ token ∈ turn.1.done, ∃ occurrences, token.Holds occurrences := by
  -- Only turns that push a token have something to show, and they push one.
  have hpush {lexeme : Lexeme} {start : Bool} (hl : ∃ occurrences, Token.Holds ⟨lexeme, place⟩ occurrences) :
      ∀ token ∈ (ts.push lexeme place start).done, ∃ occurrences, token.Holds occurrences :=
    List.forall_mem_cons.mpr ⟨hl, h⟩
  cases ht with
  | blank | continued | comment => exact h
  | newline | operator => exact hpush ⟨[], .none, rfl⟩
  | @arithmetic cs region piece hs hr hp =>
    have hcontent : '\x60' ∉ region.content := by
      have htext := (Scan.expression_cuts hr).takes.text
      intro hmem
      exact hcs (by simp [htext, hmem])
    obtain ⟨used, occurrences, -, htakes, hstand, hsources⟩ := readParts_stand hp hcontent
    refine hpush ⟨occurrences, ?_, hsources⟩
    show Stand [] (['(', '('] ++ (String.ofList region.content).toList ++ [')', ')']) occurrences
    rw [String.toList_ofList, htakes.text, List.append_assoc]
    exact ((hstand.widen _).widen _).prepend ['(', '(']
  | @word _ _ piece hm hcomment hb hp =>
    have hread : readParts isMetacharacter {} (place.advance []) (_ :: _) = .ok piece := hp
    obtain ⟨used, occurrences, htext, -, hstand, hsources⟩ := readParts_stand hread hcs
    rw [List.reverse_nil, List.nil_append] at htext
    unfold pushWord
    simp only
    split
    · exact hpush ⟨[], .none, rfl⟩
    · refine hpush ⟨occurrences, ?_, hsources⟩
      show Stand [] (String.ofList piece.text).toList occurrences
      rw [String.toList_ofList, htext]
      exact hstand

end Tokens

/-- **The sources in each token stand in it.** -/
theorem tokensFrom_holds {ts : Tokens} {place : Place} {cs : List Char} {tokens : List Token}
    (h : tokensFrom ts place cs = .ok tokens) (hcs : '\x60' ∉ cs)
    (hdone : ∀ token ∈ ts.done, ∃ occurrences, token.Holds occurrences) :
    ∀ token ∈ tokens, ∃ occurrences, token.Holds occurrences := by
  induction h using tokensFrom_induction with
  | stop =>
    intro token hmem
    rcases List.mem_cons.mp (List.mem_reverse.mp hmem) with rfl | hmem
    · exact ⟨[], .none, rfl⟩
    · exact hdone token hmem
  | @turn _ _ _ _ turn _ ht _ ih =>
    obtain ⟨used, -, htakes, -⟩ := ht.takes
    have hrest : '\x60' ∉ turn.2.2 := fun hmem => hcs (htakes.text ▸ List.mem_append_right _ hmem)
    exact ih hrest (ht.holds hcs hdone)

theorem tokenize_holds {text : List Char} {origin : Place} {tokens : List Token}
    (h : tokenize text origin = .ok tokens) (htext : '\x60' ∉ text) :
    ∀ token ∈ tokens, ∃ occurrences, token.Holds occurrences := by
  unfold tokenize at h
  split at h
  · cases h
  · exact tokensFrom_holds h htext nofun

end Shell
