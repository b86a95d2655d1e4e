/-
The tokens of a script, laid out in its text.

A text that has tokens is nothing but its tokens and gaps between them: in front of each token stands a gap,
which holds blanks, tabs, backslashes with newlines after them, and comments, and the token follows as it is
written. With gaps and tokens put together again the text is there (`tokenize_layout`), and each token has the
place that comes after all of the text before it.

The argument goes from the inside to the outside. A scan cuts its region out of the text together with
the text that closes it (`Scan.Region.Cuts`). So each turn of reading a word writes down exactly the
characters that it takes, whatever expansions are among them (`Reading.Took.takes`), and a word has for its text
what has been taken (`readParts_takes`). A turn of reading tokens takes a piece of a gap or one token.
-/
import Shell.Proofs.Token.Lines

set_option autoImplicit false

namespace Shell

/-! ## 1. Places -/

/-- The place behind a text that starts at `origin`: the line counts newlines, the column the characters after
the last of them. -/
def Place.behind (origin : Place) (cs : List Char) : Place :=
  ⟨origin.line + cs.count '\n',
    if '\n' ∈ cs then (cs.reverse.takeWhile (· ≠ '\n')).length + 1 else origin.column + cs.length⟩

/-- Going on character by character leads to the place behind the text. The induction is on the text from its
end, where the column is counted. -/
theorem Place.advance_eq_behind (origin : Place) (cs : List Char) :
    origin.advance cs = origin.behind cs := by
  induction h : cs.reverse generalizing cs with
  | nil =>
    obtain rfl := List.reverse_eq_nil_iff.mp h
    simp [advance_nil, behind]
  | cons c ds ih =>
    obtain rfl : cs = ds.reverse ++ [c] := by rw [← List.reverse_reverse cs, h, List.reverse_cons]
    rw [advance_append, ih ds.reverse (List.reverse_reverse ds)]
    show (origin.behind ds.reverse).after c = _
    by_cases hc : c = '\n'
    · subst hc
      simp [behind, after, Nat.add_assoc]
    · have hne : '\n' ≠ c := fun h => hc h.symm
      simp only [behind, after, if_neg hc]
      by_cases hmem : '\n' ∈ ds
      · simp [hc, hmem]
      · simp [hc, hne, hmem, Nat.add_assoc]

/-! ## 2. Regions -/

namespace Scan

variable {opener closer : Char} {missing : ScriptError} {quotation : Quotation} {depth : Nat}
  {content cs : List Char} {place start : Place} {what : Delimited} {region : Region}

/-- The region holds all of the text up to `closing`, after what had been read of it before. -/
def Region.Cuts (region : Region) (closing content : List Char) (place : Place) (cs : List Char) :
    Prop :=
  ∃ used, region.content = content.reverse ++ used ∧ cs = used ++ closing ++ region.rest ∧
    region.place = place.advance (used ++ closing)

/-- A region that has been taken holds what was taken before it was closed. -/
theorem Region.Taken.cuts {scan : List Char → Except ScriptError Region} {closing : List Char}
    (h : region.Taken scan closing content place cs) : region.Cuts closing content place cs := by
  obtain ⟨used, hcontent, htext, hplace, -⟩ := h
  exact ⟨used, hcontent, htext, hplace⟩

theorem balanced_cuts (h : balanced opener closer missing quotation depth content place cs = .ok region) :
    region.Cuts [closer] content place cs :=
  (balanced_takes h).cuts

theorem expression_cuts (h : expression what missing quotation depth content place cs = .ok region) :
    region.Cuts [')', ')'] content place cs :=
  (expression_takes h).cuts

theorem singleQuoted_cuts (h : singleQuoted start content place cs = .ok region) :
    region.Cuts ['\''] content place cs :=
  (singleQuoted_takes h).cuts

theorem backquoted_cuts (h : backquoted start content place cs = .ok region) :
    region.Cuts ['\x60'] content place cs :=
  (backquoted_takes h).cuts

end Scan

/-! ## 3. Words -/

/-- The characters `used` are what is taken from a text at a place, if `rest` is left of it, at `stop`. -/
structure Takes (used : List Char) (place : Place) (cs : List Char) (stop : Place) (rest : List Char) :
    Prop where
  text : cs = used ++ rest
  place : stop = place.advance used

theorem Takes.prepend (used : List Char) {used' cs rest : List Char} {place stop : Place}
    (h : Takes used' (place.advance used) cs stop rest) :
    Takes (used ++ used') place (used ++ cs) stop rest := by
  obtain ⟨rfl, rfl⟩ := h
  exact ⟨(List.append_assoc ..).symm, (place.advance_append used used').symm⟩

theorem Scan.Region.Cuts.takes {region : Scan.Region} {closing cs : List Char} {place : Place}
    (h : region.Cuts closing [] place cs) :
    Takes (region.content ++ closing) place cs region.place region.rest := by
  obtain ⟨used, hcontent, hcs, hplace⟩ := h
  rw [List.reverse_nil, List.nil_append] at hcontent
  subst hcontent
  exact ⟨hcs, hplace⟩

namespace Opening

variable {place : Place} {c : Char} {cs : List Char} {opening : Opening}

/-- **An expansion is written as it stands in the text.** -/
theorem at?_takes (h : at? place c cs = .ok (some opening)) :
    Takes opening.written place (c :: cs) opening.stop opening.rest := by
  cases at?_eq_some_iff.mp h with
  | arithmetic hr => simpa [ofRegion] using (Scan.expression_cuts hr).takes.prepend ['$', '(', '(']
  | command _ hr => simpa [ofRegion] using (Scan.balanced_cuts hr).takes.prepend ['$', '(']
  | braced hr => simpa [ofRegion] using (Scan.balanced_cuts hr).takes.prepend ['$', '\x7b']
  | plain => exact ⟨by simp [plain], rfl⟩
  | backquoted hr => simpa [ofRegion] using (Scan.backquoted_cuts hr).takes.prepend ['\x60']

end Opening

namespace Reading

variable {stop : Char → Bool} {r : Reading} {place : Place} {c : Char} {cs : List Char} {turn : Turn}

theorem expand_takes (h : r.expand place c cs = .ok turn) :
    ∃ used, turn.1.text = used.reverse ++ r.text ∧ Takes used place (c :: cs) turn.2.1 turn.2.2 := by
  cases expand_eq_ok_iff.mp h with
  | character => exact ⟨[c], rfl, rfl, rfl⟩
  | dollar ho => exact ⟨_, rfl, Opening.at?_takes ho⟩
  | part ho => exact ⟨_, rfl, Opening.at?_takes ho⟩

/-- **A turn writes down what it takes.** -/
theorem Took.takes (ht : Took stop r place c cs turn) :
    ∃ used, turn.1.text = used.reverse ++ r.text ∧ Takes used place (c :: cs) turn.2.1 turn.2.2 := by
  cases ht with
  | last | kept => exact ⟨['\\'], rfl, rfl, rfl⟩
  | continued => exact ⟨['\\', '\n'], rfl, rfl, rfl⟩
  | @escaped d ds => exact ⟨['\\', d], rfl, rfl, rfl⟩
  | @escapedInside d ds => exact ⟨['\\', d], rfl, rfl, rfl⟩
  | entered | left => exact ⟨['"'], rfl, rfl, rfl⟩
  | @single cs region ho hs hr =>
    have htakes := (Scan.singleQuoted_cuts hr).takes
    exact ⟨'\'' :: region.content ++ ['\''], rfl, htakes.prepend ['\'']⟩
  | expanded hb hq hs he => exact expand_takes he

end Reading

/-- **A word has for its text what is taken for it.** -/
theorem readParts_takes {stop : Char → Bool} {r : Reading} {place : Place} {cs : List Char}
    {piece : Piece} (h : readParts stop r place cs = .ok piece) :
    ∃ used, piece.text = r.text.reverse ++ used ∧ Takes used place cs piece.place piece.rest := by
  induction h using readParts_induction with
  | ended => exact ⟨[], by simp [Reading.finish], rfl, rfl⟩
  | turn ht _ _ ih =>
    obtain ⟨used, htext, hcs, hplace⟩ := ht.takes
    obtain ⟨used', htext', htakes⟩ := ih
    rw [hplace] at htakes
    refine ⟨used ++ used', ?_, hcs ▸ htakes.prepend used⟩
    rw [htext', htext, List.reverse_append, List.reverse_reverse, List.append_assoc]

/-! ## 4. Gaps and tokens -/

/-- What may stand before a token or at the end of a text, with `rest` after it. A comment goes up to the end
of the line, without the newline. -/
inductive IsGap : List Char → List Char → Prop where
  | nil {rest : List Char} : IsGap [] rest
  | blank {c : Char} {gap rest : List Char} (hc : c = ' ' ∨ c = '\t') (h : IsGap gap rest) :
      IsGap (c :: gap) rest
  | continued {gap rest : List Char} (h : IsGap gap rest) : IsGap ('\\' :: '\n' :: gap) rest
  | comment {text gap rest : List Char} (inside : '\n' ∉ text)
      (after : ∀ c ∈ (gap ++ rest).head?, c = '\n') (h : IsGap gap rest) :
      IsGap ('#' :: text ++ gap) rest

/-- A token as it is written. -/
def Lexeme.span (lexeme : Lexeme) : List Char :=
  match lexeme with
  | .arithmetic text _ => ['(', '('] ++ text.toList ++ [')', ')']
  | lexeme => lexeme.text.toList

/-- The text that tokens make up with the gaps before them. -/
def written (pieces : List (List Char × Token)) : List Char :=
  pieces.flatMap fun piece => piece.1 ++ piece.2.lexeme.span

@[simp] theorem written_nil : written [] = [] := rfl

@[simp] theorem written_cons (piece : List Char × Token) (pieces : List (List Char × Token)) :
    written (piece :: pieces) = piece.1 ++ (piece.2.lexeme.span ++ written pieces) := by
  simp [written]

@[simp] theorem span_endOfInput : Lexeme.endOfInput.span = [] := rfl

/-- The pieces of a text that starts at `origin`. -/
inductive LaidOut : Place → List Char → List (List Char × Token) → Prop where
  | stop {origin : Place} {gap : List Char} (hgap : IsGap gap []) :
      LaidOut origin gap [(gap, ⟨.endOfInput, origin.advance gap⟩)]
  | token {origin : Place} {gap rest : List Char} {lexeme : Lexeme}
      {pieces : List (List Char × Token)} (hgap : IsGap gap (lexeme.span ++ rest))
      (some_of : lexeme.span ≠ []) (h : LaidOut ((origin.advance gap).advance lexeme.span) rest pieces) :
      LaidOut origin (gap ++ (lexeme.span ++ rest)) ((gap, ⟨lexeme, origin.advance gap⟩) :: pieces)

namespace LaidOut

variable {origin : Place} {text : List Char} {pieces : List (List Char × Token)}

theorem ne_nil (h : LaidOut origin text pieces) : pieces ≠ [] := by
  cases h with
  | stop | token => exact List.cons_ne_nil _ _

theorem text_eq (h : LaidOut origin text pieces) : text = written pieces := by
  induction h with
  | stop => simp
  | token _ _ _ ih =>
    rw [written_cons, ← ih]

/-- More of a gap in front of the first token. -/
theorem widen {used : List Char}
    (hused : ∀ gap rest, text = gap ++ rest → IsGap gap rest → IsGap (used ++ gap) rest)
    (h : LaidOut (origin.advance used) text pieces) :
    ∃ pieces', pieces'.map Prod.snd = pieces.map Prod.snd ∧ LaidOut origin (used ++ text) pieces' := by
  cases h with
  | stop hgap =>
    refine ⟨[(used ++ text, ⟨.endOfInput, (origin.advance used).advance text⟩)], rfl, ?_⟩
    rw [← Place.advance_append]
    exact .stop (hused _ _ (List.append_nil _).symm hgap)
  | @token _ gap rest lexeme pieces hgap some_of h =>
    refine ⟨(used ++ gap, ⟨lexeme, (origin.advance used).advance gap⟩) :: pieces, rfl, ?_⟩
    rw [← Place.advance_append origin used gap] at h ⊢
    rw [← List.append_assoc]
    exact .token (hused _ _ rfl hgap) some_of h

/-- What holds of each piece of a text. -/
theorem piece (h : LaidOut origin text pieces) {before after : List (List Char × Token)}
    {gap : List Char} {token : Token} (heq : pieces = before ++ (gap, token) :: after) :
    IsGap gap (token.lexeme.span ++ written after) ∧
      (token.lexeme.span = [] ↔ token.lexeme = .endOfInput) ∧
      (token.lexeme = .endOfInput ↔ after = []) ∧
      token.place = origin.advance (written before ++ gap) := by
  -- Along the layout: the piece is the first one, or it is found further on, where places are counted from its
  -- start.
  induction h generalizing before with
  | stop hgap =>
    cases before with
    | nil =>
      obtain ⟨hpiece, rfl⟩ := List.cons.inj heq
      obtain ⟨rfl, rfl⟩ := Prod.mk.inj hpiece
      exact ⟨hgap, by simp, by simp, rfl⟩
    | cons piece before => simp at heq
  | @token origin _ rest lexeme pieces hgap some_of h ih =>
    cases before with
    | nil =>
      obtain ⟨hpiece, rfl⟩ := List.cons.inj heq
      obtain ⟨rfl, rfl⟩ := Prod.mk.inj hpiece
      have hinside : lexeme ≠ .endOfInput := by
        rintro rfl
        exact some_of rfl
      exact ⟨h.text_eq ▸ hgap, by simp [some_of, hinside], by simp [hinside, h.ne_nil], rfl⟩
    | cons piece before =>
      obtain ⟨rfl, hpieces⟩ := List.cons.inj heq
      obtain ⟨hg, hspan, hlast, hplace⟩ := ih hpieces
      refine ⟨hg, hspan, hlast, ?_⟩
      rw [hplace, ← Place.advance_append, ← Place.advance_append]
      simp

end LaidOut

/-! ## 5. From turns to texts -/

theorem Keyword.text_of_ofText? {text : String} {keyword : Keyword}
    (h : Keyword.ofText? text = some keyword) : keyword.text = text := by
  simpa using List.find?_some h

/-- There are no quotes, backslashes, dollar signs and backquotes in a keyword. -/
theorem Keyword.ofText?_of_isGuard {text : List Char} {c : Char} (hc : isGuard c = true) (h : c ∈ text) :
    ofText? (String.ofList text) = none := by
  have hplain (keyword : Keyword) : ∀ d ∈ keyword.text.toList, isGuard d = false := by
    cases keyword <;> simp [Keyword.text, isGuard]
  cases hk : ofText? (String.ofList text) with
  | none => rfl
  | some keyword =>
    have htext := congrArg String.toList (text_of_ofText? hk)
    rw [String.toList_ofList] at htext
    rw [hplain keyword c (htext ▸ h)] at hc
    cases hc

namespace Tokens

variable {ts : Tokens} {place : Place} {c : Char} {cs : List Char} {turn : Turn}

/-- The word that is added is written as it was read. -/
theorem pushWord_eq (ts : Tokens) (place : Place) (piece : Piece) :
    ∃ lexeme start, ts.pushWord place piece = ts.push lexeme place start ∧
      lexeme.span = piece.text := by
  unfold pushWord
  simp only
  split
  · next keyword hk =>
    refine ⟨_, _, rfl, ?_⟩
    have htext : keyword.text = String.ofList piece.text := by
      split at hk
      · exact Keyword.text_of_ofText? hk
      · cases hk
    simp [Lexeme.span, Lexeme.text, htext]
  · exact ⟨_, _, rfl, by simp [Lexeme.span, Lexeme.text]⟩

/-- **A turn takes a piece of a gap or one token.** -/
theorem Took.takes (ht : Took ts place c cs turn) :
    ∃ used, used ≠ [] ∧ Takes used place (c :: cs) turn.2.1 turn.2.2 ∧
      (turn.1 = ts ∧ (∀ gap rest, turn.2.2 = gap ++ rest → IsGap gap rest → IsGap (used ++ gap) rest) ∨
        ∃ lexeme start, turn.1 = ts.push lexeme place start ∧ lexeme.span = used) := by
  cases ht with
  | blank hc =>
    refine ⟨[c], List.cons_ne_nil _ _, ⟨rfl, rfl⟩, .inl ⟨rfl, ?_⟩⟩
    intro gap rest _ hgap
    exact .blank hc hgap
  | continued =>
    refine ⟨['\\', '\n'], List.cons_ne_nil _ _, ⟨rfl, rfl⟩, .inl ⟨rfl, ?_⟩⟩
    intro gap rest _ hgap
    exact .continued hgap
  | newline => exact ⟨['\n'], List.cons_ne_nil _ _, ⟨rfl, rfl⟩, .inr ⟨.newline, true, rfl, rfl⟩⟩
  | comment =>
    have hsplit : cs = cs.takeWhile (· ≠ '\n') ++ cs.drop (cs.takeWhile (· ≠ '\n')).length :=
      (List.prefix_iff_eq_append.mp (List.takeWhile_prefix _)).symm
    refine ⟨'#' :: cs.takeWhile (· ≠ '\n'), List.cons_ne_nil _ _, ⟨congrArg _ hsplit, rfl⟩,
      .inl ⟨rfl, ?_⟩⟩
    intro gap rest hrest hgap
    refine .comment (fun hmem => ?_) ?_ hgap
    · simpa using List.mem_takeWhile_imp hmem
    · intro d hd
      -- A comment ends before the newline, which is a token of its own.
      have hdrop : cs.drop (cs.takeWhile (· ≠ '\n')).length = cs.dropWhile (· ≠ '\n') :=
        List.append_cancel_left (hsplit.symm.trans List.takeWhile_append_dropWhile.symm)
      rw [← hrest] at hd
      simp only [hdrop] at hd
      have hnot := List.head?_dropWhile_not (· ≠ '\n') cs
      rw [Option.mem_def.mp hd] at hnot
      simpa using hnot
  | @arithmetic cs region piece hs hr hp =>
    have htakes := (Scan.expression_cuts hr).takes.prepend ['(', '(']
    refine ⟨['(', '('] ++ (region.content ++ [')', ')']), List.cons_ne_nil _ _, htakes, .inr ?_⟩
    exact ⟨_, _, rfl, by simp [Lexeme.span]⟩
  | @operator _ _ op ho hs =>
    refine ⟨op.text.toList, ?_, ⟨(operatorAt?_text ho).1, rfl⟩, .inr ⟨_, _, rfl, rfl⟩⟩
    cases op <;> simp [Operator.text]
  | @word _ _ piece hm hcomment hb hp =>
    obtain ⟨used, htext, htakes⟩ := readParts_takes hp
    obtain ⟨lexeme, start, hpush, hspan⟩ := pushWord_eq ts place piece
    refine ⟨used, ?_, htakes, .inr ⟨lexeme, start, hpush, hspan.trans htext⟩⟩
    rintro rfl
    have hlt := readWord_length hm hp
    rw [htakes.text] at hlt
    exact absurd hlt (Nat.lt_irrefl _)

end Tokens

/-- The tokens of a text stand in it one after the other, with gaps before them. -/
theorem tokensFrom_laidOut {ts : Tokens} {place : Place} {cs : List Char} {tokens : List Token}
    (h : tokensFrom ts place cs = .ok tokens) :
    ∃ pieces, tokens = ts.done.reverse ++ pieces.map Prod.snd ∧ LaidOut place cs pieces := by
  induction h using tokensFrom_induction with
  | stop ts place => exact ⟨[([], ⟨.endOfInput, place⟩)], by simp [Tokens.push], .stop .nil⟩
  | @turn _ place _ _ _ _ ht _ ih =>
    obtain ⟨pieces, rfl, hlaid⟩ := ih
    obtain ⟨used, hne, ⟨htext, hplace⟩, ⟨hts, hgap⟩ | ⟨lexeme, start, hts, hspan⟩⟩ := ht.takes
    · rw [hplace] at hlaid
      obtain ⟨pieces', hmap, hlaid'⟩ := hlaid.widen hgap
      exact ⟨pieces', by rw [hts, hmap], htext ▸ hlaid'⟩
    · subst hspan
      refine ⟨([], ⟨lexeme, place⟩) :: pieces, ?_, ?_⟩
      · rw [hts]
        simp [Tokens.push]
      · rw [htext]
        rw [hplace] at hlaid
        exact .token .nil hne hlaid

/-- **Nothing of a text is lost in its tokens.** The text is the tokens, each as it is written and with a gap
in front of it. The end of the input, and nothing else, takes no characters and comes last. Each token stands where its
first character stands. -/
theorem tokenize_layout {text : List Char} {origin : Place} {tokens : List Token}
    (h : tokenize text origin = .ok tokens) :
    ∃ pieces : List (List Char × Token),
      pieces.map Prod.snd = tokens ∧ text = written pieces ∧ pieces ≠ [] ∧
      ∀ before gap token after, pieces = before ++ (gap, token) :: after →
        IsGap gap (token.lexeme.span ++ written after) ∧
        (token.lexeme.span = [] ↔ token.lexeme = .endOfInput) ∧
        (token.lexeme = .endOfInput ↔ after = []) ∧
        token.place = origin.behind (written before ++ gap) := by
  unfold tokenize at h
  split at h
  · cases h
  obtain ⟨pieces, rfl, hlaid⟩ := tokensFrom_laidOut h
  refine ⟨pieces, rfl, hlaid.text_eq, hlaid.ne_nil, ?_⟩
  intro before gap token after heq
  rw [← Place.advance_eq_behind]
  exact hlaid.piece heq

/-- A line with all kinds of gaps, which starts in the middle of a text. -/
theorem commentedLine_layout :
    ∃ tokens, tokenize "((1+(2))) &&\\\n a\\\nb\t\"#\" # c\n".toList ⟨3, 5⟩ = .ok tokens ∧
      tokens.map Token.place = [⟨3, 5⟩, ⟨3, 15⟩, ⟨4, 2⟩, ⟨5, 3⟩, ⟨5, 10⟩, ⟨6, 1⟩] ∧
      ∃ pieces : List (List Char × Token),
        pieces.map Prod.snd = tokens ∧ "((1+(2))) &&\\\n a\\\nb\t\"#\" # c\n".toList = written pieces ∧
        pieces ≠ [] ∧
        ∀ before gap token after, pieces = before ++ (gap, token) :: after →
          IsGap gap (token.lexeme.span ++ written after) ∧
          (token.lexeme.span = [] ↔ token.lexeme = .endOfInput) ∧
          (token.lexeme = .endOfInput ↔ after = []) ∧
          token.place = Place.behind ⟨3, 5⟩ (written before ++ gap) := by
  have hplaces : (tokenize "((1+(2))) &&\\\n a\\\nb\t\"#\" # c\n".toList ⟨3, 5⟩).map
      (List.map Token.place) = .ok [⟨3, 5⟩, ⟨3, 15⟩, ⟨4, 2⟩, ⟨5, 3⟩, ⟨5, 10⟩, ⟨6, 1⟩] := by
    rw [tokenize, if_neg (by decide), tokensFrom_eq_tokensWithin (Nat.le_refl _)]
    cbv
  cases h : tokenize "((1+(2))) &&\\\n a\\\nb\t\"#\" # c\n".toList ⟨3, 5⟩ with
  | error e =>
    rw [h] at hplaces
    cases hplaces
  | ok tokens =>
    rw [h] at hplaces
    exact ⟨tokens, rfl, Except.ok.inj hplaces, tokenize_layout h⟩

end Shell
