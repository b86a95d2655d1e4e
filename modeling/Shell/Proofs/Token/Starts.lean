/-
Where a command may start, seen from the tokens.

The tokens of a text are read with a note of whether a command may start. Which note stands at a token can be read
off the tokens before it (`opensCommand`), and so can what it means for the token: where a command may start an
unquoted word is no keyword and two parentheses in a row are no operators; elsewhere there are no keywords
and no arithmetic commands (`Token.IsLexed`, `tokensFrom_lexed`).

The grammar looks at the parts of a word and the reader of tokens at its text. In a text without a backslash
before a newline, a part without quotes is written as it is, so the two see the same
(`readParts_literal`). Such texts have only such texts for sources (`readParts_sources`).
-/
import Shell.Proofs.Token.Layout

set_option autoImplicit false

namespace Shell

/-! ## 1. Sources -/

mutual

/-- What holds of the sources of the command substitutions in a part, and of their places. -/
def WordPart.Sources (P : List Char → Place → Prop) : WordPart → Prop
  | .substitution source place _ => P source.toList place
  | .doubleQuoted parts => SourcesOf P parts
  | .conditional _ _ argument => argument.Sources P
  | .arithmetic expression => expression.Sources P
  | _ => True

/-- What holds of the sources of the command substitutions in parts. -/
def SourcesOf (P : List Char → Place → Prop) : List WordPart → Prop
  | [] => True
  | part :: parts => part.Sources P ∧ SourcesOf P parts

/-- What holds of the sources of the command substitutions in a word. -/
def Word.Sources (P : List Char → Place → Prop) : Word → Prop
  | ⟨_, parts⟩ => SourcesOf P parts

end

namespace SourcesOf

variable {P : List Char → Place → Prop} {part : WordPart} {parts : List WordPart}

theorem append_iff {parts' : List WordPart} :
    SourcesOf P (parts ++ parts') ↔ SourcesOf P parts ∧ SourcesOf P parts' := by
  induction parts with
  | nil => simp [SourcesOf]
  | cons part parts ih => simp [SourcesOf, ih, and_assoc]

theorem reverse (h : SourcesOf P parts) : SourcesOf P parts.reverse := by
  induction parts with
  | nil => exact h
  | cons part parts ih =>
    rw [List.reverse_cons, append_iff]
    exact ⟨ih h.2, h.1, trivial⟩

end SourcesOf

/-- What holds of a text at a place holds of all that is cut out of it, wherever that comes. -/
def Descends (P : List Char → Place → Prop) : Prop :=
  ∀ {cs ds : List Char} {place : Place} (used : List Char), ds <:+: cs → P cs place →
    P ds (place.advance used)

/-- The content of an expansion stands in the text. -/
theorem Opening.at?_content {place : Place} {c : Char} {cs : List Char} {opening : Opening}
    (h : at? place c cs = .ok (some opening)) :
    opening.content <:+: c :: cs ∧ ∃ used, opening.start = place.advance used := by
  have hwritten : opening.content <:+: opening.written ∧ ∃ used, opening.start = place.advance used := by
    cases at?_eq_some_iff.mp h with
    | arithmetic | command | braced => exact ⟨List.infix_append _ _ _, _, rfl⟩
    | plain => exact ⟨(List.suffix_cons _ _).isInfix, ['$'], rfl⟩
    | backquoted => exact ⟨List.infix_append ['\x60'] _ ['\x60'], ['\x60'], rfl⟩
  rw [(at?_takes h).text]
  exact ⟨hwritten.1.trans (List.prefix_append _ _).isInfix, hwritten.2⟩

namespace Reading

variable {stop : Char → Bool} {r : Reading} {place : Place} {c : Char} {cs : List Char} {turn : Turn}
  {P : List Char → Place → Prop}

/-- What holds of the sources that have been read so far. -/
structure Sources (P : List Char → Place → Prop) (r : Reading) : Prop where
  parts : SourcesOf P r.parts
  outer : ∀ outer, r.outer = some outer → SourcesOf P outer.2

theorem Sources.flushed (h : r.Sources P) : SourcesOf P r.flushed := by
  unfold Reading.flushed
  split
  · exact h.parts
  · exact ⟨trivial, h.parts⟩

theorem Sources.push (h : r.Sources P) {part : WordPart} (hpart : part.Sources P) :
    (r.push part).Sources P := ⟨⟨hpart, h.flushed⟩, h.outer⟩

theorem Took.sources (ht : Took stop r place c cs turn) (h : r.Sources P)
    (hpart : ∀ opening part, opening.content.length < (c :: cs).length →
      Opening.at? place c cs = .ok (some opening) → readPart place opening = .ok (some part) →
        part.Sources P) :
    turn.1.Sources P := by
  have hskip (ds : List Char) : (r.skip ds).Sources P := ⟨h.parts, h.outer⟩
  cases ht with
  | last | continued | escapedInside | kept => exact ⟨h.parts, h.outer⟩
  | escaped | single => exact (hskip _).push trivial
  | entered =>
    refine ⟨trivial, fun outer ho => ?_⟩
    obtain rfl := Option.some.inj ho
    exact h.flushed
  | left ho => exact ⟨⟨h.flushed.reverse, h.outer _ ho⟩, nofun⟩
  | expanded hb hq hs he =>
    cases expand_eq_ok_iff.mp he with
    | character | dollar => exact ⟨h.parts, h.outer⟩
    | part ho hp => exact (hskip _).push (hpart _ _ (Opening.at?_length_lt ho) ho hp)

end Reading

/-- The source that an expansion is, or those in the text that it holds. -/
theorem readPart_sources {P : List Char → Place → Prop} {place : Place} {opening : Opening} {part : WordPart}
    (hp : readPart place opening = .ok (some part)) (hwithin : Descends P)
    (hunescape : ∀ cs place, P cs place → P (Scan.unescapeBackquoted cs) place)
    (hcontent : P opening.content opening.start)
    (h : ∀ {start : Place} {cs : List Char} {piece : Piece}, cs.length ≤ opening.content.length →
      P cs start → readParts (fun _ => false) {} start cs = .ok piece → SourcesOf P piece.parts) :
    part.Sources P := by
  cases readPart_eq_ok_iff.mp hp with
  | parameter | named | length => trivial
  | command => simpa [WordPart.Sources] using hcontent
  | backquoted => simpa [WordPart.Sources] using hunescape _ _ hcontent
  | arithmetic _ hr => exact h (Nat.le_refl _) hcontent hr
  | conditional _ _ hr => exact h (by simp) (hwithin _ (List.drop_suffix _ _).isInfix hcontent) hr

/-- **The sources in a word** are as the text is that the word starts, if parts of such a text are, also with
backslashes taken away. -/
theorem readParts_sources {P : List Char → Place → Prop} (hwithin : Descends P)
    (hunescape : ∀ cs place, P cs place → P (Scan.unescapeBackquoted cs) place) {stop : Char → Bool}
    {r : Reading} {place : Place} {cs : List Char} {piece : Piece}
    (hr : readParts stop r place cs = .ok piece) (h : r.Sources P) (hcs : P cs place) : SourcesOf P piece.parts := by
  induction hr using readParts_induction with
  | ended => exact h.flushed.reverse
  | @turn _ _ _ _ _ turn _ ht _ inner ih =>
    obtain ⟨used, -, htext, hplace⟩ := ht.takes
    have hrest : P turn.2.2 turn.2.1 := hplace ▸ hwithin used (htext ▸ (List.suffix_append _ _).isInfix) hcs
    refine ih (ht.sources h fun opening part hlength ho hp => ?_) hrest
    obtain ⟨hinside, used, hstart⟩ := Opening.at?_content ho
    have hcontent : P opening.content opening.start := hstart ▸ hwithin used hinside hcs
    refine readPart_sources hp hwithin hunescape hcontent fun hds hP hr => ?_
    exact inner hr (Nat.le_of_lt_succ (Nat.lt_of_le_of_lt hds hlength)) ⟨trivial, nofun⟩ hP

namespace Tokens

/-- What is read in a turn has the sources that the text has. -/
theorem Took.sources {P : List Char → Place → Prop} (hwithin : Descends P)
    (hunescape : ∀ cs place, P cs place → P (Scan.unescapeBackquoted cs) place) {ts : Tokens} {place : Place}
    {c : Char} {cs : List Char} {turn : Turn} (ht : Took ts place c cs turn) (hcs : P (c :: cs) place)
    (h : ∀ token ∈ ts.done, SourcesOf P token.lexeme.parts) :
    ∀ token ∈ turn.1.done, SourcesOf P token.lexeme.parts := by
  have hpush {lexeme : Lexeme} {place : Place} {start : Bool} (hl : SourcesOf P lexeme.parts) :
      ∀ token ∈ (ts.push lexeme place start).done, SourcesOf P token.lexeme.parts :=
    List.forall_mem_cons.mpr ⟨hl, h⟩
  cases ht with
  | blank | continued | comment => exact h
  | newline | operator => exact hpush trivial
  | @arithmetic cs region piece hs hr hp =>
    have hcontent : region.content <:+: '(' :: '(' :: cs := by
      rw [(Scan.expression_cuts hr).takes.text, List.append_assoc]
      exact (List.prefix_append _ _).isInfix.trans (List.suffix_append ['(', '('] _).isInfix
    exact hpush (readParts_sources hwithin hunescape hp ⟨trivial, nofun⟩ (hwithin _ hcontent hcs))
  | word hm hcomment hb hp =>
    have hparts := readParts_sources hwithin hunescape hp ⟨trivial, nofun⟩ hcs
    unfold pushWord
    simp only
    split
    · exact hpush ⟨trivial, trivial⟩
    · exact hpush hparts

end Tokens

/-- **The sources in the tokens of a text** are as the text is. -/
theorem tokensFrom_sources {P : List Char → Place → Prop} (hwithin : Descends P)
    (hunescape : ∀ cs place, P cs place → P (Scan.unescapeBackquoted cs) place) {ts : Tokens} {place : Place}
    {cs : List Char} {tokens : List Token} (ht : tokensFrom ts place cs = .ok tokens) (hcs : P cs place)
    (h : ∀ token ∈ ts.done, SourcesOf P token.lexeme.parts) :
    ∀ token ∈ tokens, SourcesOf P token.lexeme.parts := by
  induction ht using tokensFrom_induction with
  | stop =>
    intro token hmem
    rcases List.mem_cons.mp (List.mem_reverse.mp hmem) with rfl | hmem
    · trivial
    · exact h token hmem
  | @turn _ _ _ _ turn _ ht _ ih =>
    obtain ⟨used, -, ⟨htext, hplace⟩, -⟩ := ht.takes
    have hrest : P turn.2.2 turn.2.1 := hplace ▸ hwithin used (htext ▸ (List.suffix_append _ _).isInfix) hcs
    exact ih hrest (ht.sources hwithin hunescape hcs h)

/-! ## 2. Texts without continued lines -/

/-- No newline comes after a backslash. -/
def Unbroken (cs : List Char) : Prop := ¬ ['\\', '\n'] <:+: cs

namespace Unbroken

variable {c : Char} {cs ds : List Char}

theorem within (hcs : Unbroken cs) (h : ds <:+: cs) : Unbroken ds := fun hd => hcs (hd.trans h)

theorem cons_iff : Unbroken (c :: cs) ↔ ¬ (c = '\\' ∧ cs.head? = some '\n') ∧ Unbroken cs := by
  unfold Unbroken
  rw [List.infix_cons_iff, not_or]
  refine and_congr_left fun _ => not_congr ?_
  rw [List.cons_prefix_cons, eq_comm]
  refine and_congr_right fun _ => ?_
  cases cs with
  | nil => simp
  | cons d ds => simp [List.cons_prefix_cons, eq_comm]

/-- Taking backslashes away breaks no line. -/
theorem unescape (h : Unbroken cs) : Unbroken (Scan.unescapeBackquoted cs) := by
  -- The first character is a newline only if it was one.
  have hhead (cs : List Char) (hcs : (Scan.unescapeBackquoted cs).head? = some '\n') :
      cs.head? = some '\n' := by
    unfold Scan.unescapeBackquoted at hcs
    split at hcs
    · exact hcs
    · next d ds =>
      split at hcs
      · next hd =>
        obtain rfl := Option.some.inj hcs
        exact absurd hd (by decide)
      · exact absurd (Option.some.inj hcs) (by decide)
    · exact hcs
  -- A backslash that is taken off stands before no newline, so no newline comes to stand behind a backslash.
  fun_induction Scan.unescapeBackquoted cs with
  | case1 => exact h
  | case2 d ds hd ih =>
    obtain ⟨-, h⟩ := cons_iff.mp h
    obtain ⟨hpair, h⟩ := cons_iff.mp h
    exact cons_iff.mpr ⟨fun hnext => hpair ⟨hnext.1, hhead _ hnext.2⟩, ih h⟩
  | case3 d ds hd ih =>
    obtain ⟨hpair, h⟩ := cons_iff.mp h
    obtain ⟨hpair', h⟩ := cons_iff.mp h
    exact cons_iff.mpr ⟨hpair, cons_iff.mpr ⟨fun hnext => hpair' ⟨hnext.1, hhead _ hnext.2⟩, ih h⟩⟩
  | case4 c cs hc ih =>
    obtain ⟨hpair, h⟩ := cons_iff.mp h
    exact cons_iff.mpr ⟨fun hnext => hpair ⟨hnext.1, hhead _ hnext.2⟩, ih h⟩

end Unbroken

/-! ## 3. Literals as they are written -/

namespace Reading

variable {stop : Char → Bool} {r : Reading} {place : Place} {c : Char} {cs : List Char} {turn : Turn}

/-- The parts read outside of double quotes. -/
def outermost (r : Reading) : List WordPart :=
  match r.outer with
  | none => r.parts
  | some outer => outer.2

/-- A literal at the start of parts is the start of a text, and all of it if nothing else follows. -/
def Heads (text : List Char) (parts : List WordPart) : Prop :=
  ∀ head more, parts = .literal head :: more →
    ∃ tail, text = head.toList ++ tail ∧ (more = [] → tail = [])

/-- Outside of double quotes, a literal at the start has been read as it is written. -/
structure AsWritten (r : Reading) : Prop where
  run : r.outer = none → r.parts = [] → r.text = r.run
  last : r.outer = none → ∀ text, r.parts.head? ≠ some (.literal text)
  first : ∀ head more, r.outermost.reverse = .literal head :: more → head.toList <+: r.text.reverse

theorem AsWritten.flushed (h : r.AsWritten) (ho : r.outer = none) :
    Heads r.text.reverse r.flushed.reverse := by
  intro head more heq
  have hfirst := h.first
  simp only [outermost, ho] at hfirst
  unfold Reading.flushed at heq
  split at heq
  · obtain ⟨tail, htail⟩ := hfirst head more heq
    refine ⟨tail, htail.symm, ?_⟩
    rintro rfl
    refine absurd ?_ (h.last ho head)
    rw [List.reverse_eq_cons_iff, List.reverse_nil, List.nil_append] at heq
    rw [heq]
    rfl
  -- What has been written down so far is the first part, or it goes behind the parts that are there.
  · by_cases hnil : r.parts = []
    · rw [hnil] at heq
      obtain ⟨hhead, rfl⟩ := List.cons.inj heq
      obtain rfl := WordPart.literal.inj hhead
      exact ⟨[], by simp [h.run ho hnil], fun _ => rfl⟩
    · rw [List.reverse_cons] at heq
      obtain ⟨part, parts, hparts⟩ := List.exists_cons_of_ne_nil (mt List.reverse_eq_nil_iff.mp hnil)
      rw [hparts, List.cons_append] at heq
      obtain ⟨rfl, rfl⟩ := List.cons.inj heq
      obtain ⟨tail, htail⟩ := hfirst head parts hparts
      exact ⟨tail, htail.symm, by simp⟩

theorem AsWritten.of_inside (h : r.AsWritten) (ho : r.outer ≠ none) (used : List Char) {r' : Reading}
    (ho' : r'.outer = r.outer) (htext : r'.text = used ++ r.text) : r'.AsWritten := by
  refine ⟨fun hnone => absurd (ho' ▸ hnone) ho, fun hnone => absurd (ho' ▸ hnone) ho, ?_⟩
  intro head more heq
  obtain ⟨outer, houter⟩ := Option.ne_none_iff_exists'.mp ho
  have heq' : r.outermost.reverse = .literal head :: more := by
    simpa only [outermost, ho', houter] using heq
  rw [htext, List.reverse_append]
  exact (h.first head more heq').trans (List.prefix_append _ _)

theorem AsWritten.push (h : r.AsWritten) {part : WordPart} (hpart : ∀ text, part ≠ .literal text)
    (used : List Char) : ((r.skip used).push part).AsWritten := by
  by_cases ho : r.outer = none
  · refine ⟨fun _ hnil => absurd hnil (List.cons_ne_nil _ _), fun _ text heq => ?_, ?_⟩
    · exact hpart text (Option.some.inj heq)
    · intro head more heq
      have heq : r.flushed.reverse ++ [part] = .literal head :: more := by
        simp only [outermost, Reading.push, skip, ho, List.reverse_cons] at heq
        exact heq
      show head.toList <+: (used.reverse ++ r.text).reverse
      rw [List.reverse_append]
      refine List.IsPrefix.trans ?_ (List.prefix_append _ _)
      cases hf : r.flushed.reverse with
      | nil =>
        rw [hf] at heq
        exact absurd (List.cons.inj heq).1 (hpart head)
      | cons first rest =>
        rw [hf, List.cons_append] at heq
        obtain ⟨rfl, -⟩ := List.cons.inj heq
        obtain ⟨tail, htail, -⟩ := h.flushed ho head rest hf
        exact ⟨tail, htail.symm⟩
  · exact h.of_inside ho _ rfl rfl

theorem AsWritten.plain (h : r.AsWritten) (c : Char) : ((r.plain c).skip [c]).AsWritten := by
  by_cases ho : r.outer = none
  · refine ⟨fun _ hnil => ?_, h.last, fun head more heq => ?_⟩
    · show c :: r.text = c :: r.run
      rw [h.run ho hnil]
    · show head.toList <+: (c :: r.text).reverse
      rw [List.reverse_cons]
      exact (h.first head more heq).trans (List.prefix_append _ _)
  · exact h.of_inside ho [c] rfl rfl

theorem readPart_ne_literal {opening : Opening} {part : WordPart}
    (h : readPart place opening = .ok (some part)) (text : String) : part ≠ .literal text := by
  cases readPart_eq_ok_iff.mp h <;> exact WordPart.noConfusion

/-- A dollar sign that opens nothing is written alone. -/
theorem written_of_dollar {opening : Opening} (ho : Opening.at? place c cs = .ok (some opening))
    (hp : readPart place opening = .ok none) : opening.written = [c] := by
  cases readPart_eq_ok_iff.mp hp with
  | dollar hform =>
    cases Opening.at?_eq_some_iff.mp ho with
    | arithmetic | command | braced | backquoted => cases hform
    | plain =>
      unfold Opening.plain at hform ⊢
      simp only at hform ⊢
      split at hform
      · next hextent => rw [hextent, List.take_zero]
      · cases hform

/-- **A turn keeps literals as they are written**, unless it takes a backslash before a newline. -/
theorem Took.asWritten (ht : Took stop r place c cs turn) (h : r.AsWritten)
    (hu : Unbroken (c :: cs)) : turn.1.AsWritten := by
  cases ht with
  | last => exact h.plain _
  | continued => exact absurd ⟨rfl, rfl⟩ (Unbroken.cons_iff.mp hu).1
  | escaped | single => exact h.push (fun _ heq => by cases heq) _
  | @escapedInside d ds ho => exact h.of_inside ho ['\\', d].reverse rfl rfl
  | kept ho => exact h.plain _
  -- What comes before the double quotes is the beginning of the word.
  | entered ho =>
    refine ⟨nofun, nofun, fun head more heq => ?_⟩
    obtain ⟨tail, htail, -⟩ := h.flushed ho head more heq
    show head.toList <+: ('"' :: r.text).reverse
    rw [List.reverse_cons, htail, List.append_assoc]
    exact List.prefix_append _ _
  | @left cs outer ho =>
    refine ⟨fun _ hnil => absurd hnil (List.cons_ne_nil _ _), fun _ text heq => ?_, ?_⟩
    · cases Option.some.inj heq
    · intro head more heq
      show head.toList <+: ('"' :: r.text).reverse
      have hfirst := h.first
      simp only [outermost, ho] at hfirst
      simp only [outermost, leave] at heq
      rw [List.reverse_cons] at heq ⊢
      cases hr : outer.2.reverse with
      | nil =>
        rw [hr] at heq
        cases (List.cons.inj heq).1
      | cons first rest =>
        rw [hr, List.cons_append] at heq
        obtain ⟨rfl, -⟩ := List.cons.inj heq
        exact (hfirst head rest hr).trans (List.prefix_append _ _)
  | expanded hb hq hs he =>
    cases expand_eq_ok_iff.mp he with
    | character => exact h.plain c
    | dollar ho hp =>
      rw [written_of_dollar ho hp]
      exact h.plain c
    | part ho hp => exact h.push (readPart_ne_literal hp) _

end Reading

/-- **A literal at the start of a word is written as it is**, if no line is continued. -/
theorem readParts_literal {stop : Char → Bool} {r : Reading} {place : Place} {cs : List Char}
    {piece : Piece} (hr : readParts stop r place cs = .ok piece) (h : r.AsWritten)
    (hu : Unbroken cs) : Reading.Heads piece.text piece.parts := by
  induction hr using readParts_induction with
  | ended ho => exact h.flushed ho
  | @turn _ _ _ _ _ turn _ ht _ _ ih =>
    obtain ⟨used, -, htext, -⟩ := ht.takes
    have hrest : Unbroken turn.2.2 := hu.within (htext ▸ (List.suffix_append _ _).isInfix)
    exact ih (ht.asWritten h hu) hrest

/-! ## 4. Where a command may start -/

/-- Whether a command may start after tokens, of which the last comes first. -/
def opensCommand : List Token → Bool
  | [] => true
  | token :: before =>
    match token.lexeme with
    | .word text _ =>
      Tokens.isAfterFunction ⟨before, true⟩ || (opensCommand before && startsAssignment text.toList)
    | .arithmetic .. => false
    | .reserved _ | .endOfInput => opensCommand before
    | .operator _ | .newline => true

/-- What a token is after the tokens `before`, of which the last comes first, and with those after it. -/
structure Token.IsLexed (before : List Token) (token : Token) (after : List Token) : Prop where
  /-- Where a command may start there are no words that could be keywords. -/
  word : ∀ text parts, token.lexeme = .word text parts → opensCommand before = true →
    token.lexeme.isQuoted = false → Keyword.ofText? text = none
  /-- Keywords are only where a command may start. -/
  reserved : ∀ keyword, token.lexeme = .reserved keyword → opensCommand before = true
  /-- Arithmetic commands are only where a command may start. -/
  arithmetic : ∀ text parts, token.lexeme = .arithmetic text parts → opensCommand before = true
  /-- Where a command may start there are no two parentheses in a row. -/
  paren : token.lexeme = .operator .leftParen → opensCommand before = true →
    ∀ next ∈ after.head?, next.lexeme = .operator .leftParen → next.place ≠ token.place.after '('
  heads : ∀ text parts, token.lexeme = .word text parts → Reading.Heads text.toList parts

/-- What the tokens `after` are, if those `before`, backwards, come before them. -/
def Lexed : (before after : List Token) → Prop
  | _, [] => True
  | before, token :: after => token.IsLexed before after ∧ Lexed (token :: before) after

theorem Lexed.drop {before after : List Token} (used : List Token) (h : Lexed before (used ++ after)) :
    Lexed (used.reverse ++ before) after := by
  induction used generalizing before with
  | nil => exact h
  | cons token used ih =>
    rw [List.reverse_cons, List.append_assoc]
    exact ih h.2

/-- Only the empty text leads back to the place where it starts. -/
theorem Place.advance_ne {place : Place} {cs : List Char} (h : cs ≠ []) : place.advance cs ≠ place := by
  have hlength : 0 < cs.length := List.length_pos_iff.mpr h
  rw [advance_eq_behind]
  unfold behind
  intro heq
  have hline := congrArg Place.line heq
  have hcolumn := congrArg Place.column heq
  simp only at hline hcolumn
  have hnone : '\n' ∉ cs := List.count_eq_zero.mp (by omega)
  rw [if_neg hnone] at hcolumn
  omega

/-- A parenthesis that is the first token of a text and stands at the start of it is its first character. -/
theorem tokensFrom_paren {ts : Tokens} {place : Place} {cs : List Char} {new : List Token} {next : Token}
    (h : tokensFrom ts place cs = .ok (ts.done.reverse ++ next :: new))
    (hnext : next.lexeme = .operator .leftParen) (hplace : next.place = place) : cs.head? = some '(' := by
  obtain ⟨pieces, heq, hlaid⟩ := tokensFrom_laidOut h
  have heq := List.append_cancel_left heq
  cases hlaid with
  | stop =>
    obtain ⟨rfl, -⟩ := List.cons.inj heq
    cases hnext
  | @token _ gap rest lexeme pieces hgap _ hmore =>
    obtain ⟨rfl, -⟩ := List.cons.inj heq
    obtain rfl : lexeme = .operator .leftParen := hnext
    by_cases hnil : gap = []
    · subst hnil
      rfl
    · exact absurd hplace (Place.advance_ne hnil)

namespace Tokens

variable {ts : Tokens} {place : Place} {c : Char} {cs : List Char} {turn : Turn}

/-- A turn leaves the tokens as they are, or it adds one that is as it should be there. For a parenthesis, what
comes next is to be looked at. -/
theorem Took.lexed (ht : Took ts place c cs turn) (hs : ts.commandStart = opensCommand ts.done)
    (hu : Unbroken (c :: cs)) :
    turn.1.commandStart = opensCommand turn.1.done ∧
      (turn.1 = ts ∨ ∃ token, turn.1.done = token :: ts.done ∧ ∀ after,
        (turn.2.1 = token.place.after '(' → turn.2.2.head? ≠ some '(' →
          ∀ next ∈ after.head?, next.lexeme = .operator .leftParen →
            next.place ≠ token.place.after '(') → token.IsLexed ts.done after) := by
  -- A turn that gives no token leaves the position as it was. Each token has what is asked of its kind, and nothing
  -- is asked of the other kinds.
  cases ht with
  | blank | continued | comment => exact ⟨hs, .inl rfl⟩
  | newline =>
    refine ⟨rfl, .inr ⟨⟨.newline, place⟩, rfl, fun after _ => ?_⟩⟩
    constructor <;> intros <;> contradiction
  | arithmetic hopen hr hp =>
    refine ⟨rfl, .inr ⟨⟨_, place⟩, rfl, fun after _ => ?_⟩⟩
    constructor
    case arithmetic => exact fun _ _ _ => hs ▸ hopen
    all_goals
      intros
      contradiction
  | @operator _ _ op ho hparen =>
    refine ⟨rfl, .inr ⟨⟨_, place⟩, rfl, fun after hafter => ?_⟩⟩
    constructor
    case paren =>
      intro hop hopen
      obtain rfl := Lexeme.operator.inj hop
      have htext := (operatorAt?_text ho).1
      obtain ⟨rfl, -⟩ := List.cons.inj htext
      exact hafter rfl fun hhead => hparen ⟨hs ▸ hopen, rfl, hhead⟩
    all_goals
      intros
      contradiction
  | @word _ _ piece hm hcomment hb hp =>
    -- The word has been read from its beginning.
    have hempty : Reading.AsWritten {} := by constructor <;> simp [Reading.outermost]
    have hheads := readParts_literal hp hempty hu
    unfold pushWord
    simp only
    split
    · next keyword hk =>
      split at hk
      · next hopen =>
        rw [Bool.and_eq_true] at hopen
        refine ⟨hs, .inr ⟨⟨_, place⟩, rfl, fun after _ => ?_⟩⟩
        constructor
        case reserved => exact fun _ _ => hs ▸ hopen.1
        all_goals
          intros
          contradiction
      · cases hk
    · next hk =>
      refine ⟨?_, .inr ⟨⟨_, place⟩, rfl, fun after _ => ?_⟩⟩
      · simp only [push, opensCommand, String.toList_ofList, hs]
        rfl
      constructor
      case word =>
        intro text parts hl hopen hquoted
        obtain ⟨rfl, rfl⟩ := Lexeme.word.inj hl
        rwa [if_pos] at hk
        rw [Bool.and_eq_true, hs, Bool.not_eq_true']
        exact ⟨hopen, hquoted⟩
      case heads =>
        intro text parts hl
        obtain ⟨rfl, rfl⟩ := Lexeme.word.inj hl
        rwa [String.toList_ofList]
      all_goals
        intros
        contradiction

end Tokens

/-- **The tokens of a text** in which no line is continued are as they should be where they are. -/
theorem tokensFrom_lexed {ts : Tokens} {place : Place} {cs : List Char} {tokens : List Token}
    (h : tokensFrom ts place cs = .ok tokens) (hs : ts.commandStart = opensCommand ts.done)
    (hu : Unbroken cs) : ∃ new, tokens = ts.done.reverse ++ new ∧ Lexed ts.done new := by
  induction h using tokensFrom_induction with
  | stop _ place =>
    refine ⟨[⟨.endOfInput, place⟩], by simp [Tokens.push], ?_, trivial⟩
    constructor <;> intros <;> contradiction
  | @turn _ _ _ _ turn _ ht hr ih =>
    obtain ⟨used, -, ⟨htext, -⟩, -⟩ := ht.takes
    have hu' : Unbroken turn.2.2 := hu.within (htext ▸ (List.suffix_append _ _).isInfix)
    obtain ⟨hs', hturn⟩ := ht.lexed hs hu
    obtain ⟨new, rfl, hnew⟩ := ih hs' hu'
    rcases hturn with hts | ⟨token, hdone, htoken⟩
    · rw [hts] at hnew ⊢
      exact ⟨new, rfl, hnew⟩
    rw [hdone] at hnew
    refine ⟨token :: new, by rw [hdone]; simp, htoken new fun hplace hhead next hnext hparen heq => ?_, hnew⟩
    obtain ⟨rest, rfl⟩ := List.head?_eq_some_iff.mp (Option.mem_def.mp hnext)
    exact hhead (tokensFrom_paren hr hparen (heq.trans hplace.symm))

end Shell
