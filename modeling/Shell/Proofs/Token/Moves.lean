/-
Tokens of a text at another place.

Reading tokens carries a place along, and looks at it only to write it down. So a text has the same tokens wherever
it starts, at places that are moved with it (`tokenize_move`). Where the places go must fit with the way
they advance over the characters (`Move.Follows`); a shift from the start of a script does, on all of its lines.
-/
import Shell.Proofs.Script.Moves
import Shell.Proofs.Token.Starts

set_option autoImplicit false

namespace Shell

variable {m : Move} {place : Place} {c : Char} {cs : List Char}

/-! ## 1. Places

A place is looked at only to be written down, but the places of later tokens come from those before. So a move has
to go along with the characters. -/

/-- From a place on, the move goes along with the characters of any text. -/
def Move.Follows (m : Move) (place : Place) : Prop :=
  ∀ cs, m.place (place.advance cs) = (m.place place).advance cs

namespace Move.Follows

/-- The places fit also after more characters. -/
theorem advance (h : m.Follows place) (used : List Char) : m.Follows (place.advance used) := by
  intro cs
  rw [← Place.advance_append, h, h, Place.advance_append]

/-- The places fit also after one more character. -/
theorem after (h : m.Follows place) (c : Char) : m.Follows (place.after c) := h.advance [c]

/-- The place after a character goes to the place after it. -/
theorem place_after (h : m.Follows place) (c : Char) : m.place (place.after c) = (m.place place).after c :=
  h [c]

/-- A shift of lines fits on every line, and one of columns on the first. -/
theorem shift (lines columns : Nat) (h : 1 ≤ place.line) : (Move.shift lines columns).Follows place := by
  intro cs
  induction cs generalizing place with
  | nil => rfl
  | cons c cs ih =>
    have hafter : 1 ≤ (place.after c).line := by
      unfold Place.after
      split
      · exact Nat.le_add_left 1 _
      · exact h
    rw [Place.advance_cons, ih hafter, Move.shift_after h, Place.advance_cons]

end Move.Follows

/-! ## 2. Regions -/

namespace Scan

/-- The quotes that a region is in, and the place where each of them was opened. -/
def Quotation.move (m : Move) : Quotation → Quotation
  | .none => .none
  | .single start => .single (m.place start)
  | .double start => .double (m.place start)

/-- A region ends at a place, and its text has none. -/
def Region.move (m : Move) (region : Region) : Region := { region with place := m.place region.place }

/-- Outside of quotes there is no place. -/
theorem Quotation.move_none (m : Move) : Quotation.none.move m = .none := rfl

/-- Whether a backslash escapes does not depend on places. -/
theorem Quotation.escapes_move (m : Move) (quotation : Quotation) :
    (quotation.move m).escapes = quotation.escapes := by
  cases quotation <;> rfl

/-- A character opens and closes the same quotes anywhere. -/
theorem Quotation.next?_move (m : Move) (quotation : Quotation) (place : Place) (c : Char) :
    (quotation.move m).next? (m.place place) c = (quotation.next? place c).map (Quotation.move m) := by
  cases quotation <;> simp only [move, next?] <;> repeat' split
  all_goals rfl

variable {opener closer : Char} {missing : ScriptError} {quotation : Quotation} {depth : Nat}
  {content : List Char} {start : Place} {what : Delimited} {region : Region}

/-- A region between delimiters that fit together is the same anywhere. -/
theorem balanced_move (h : balanced opener closer missing quotation depth content place cs = .ok region)
    (hm : m.Follows place) (missing' : ScriptError) :
    balanced opener closer missing' (quotation.move m) depth content (m.place place) cs =
      .ok (region.move m) := by
  fun_induction balanced opener closer missing quotation depth content place cs <;>
    (unfold balanced; grind [Quotation.escapes_move, Quotation.next?_move, Move.Follows.place_after,
      Move.Follows.after, Region.move, Quotation.move])

/-- So is an expression. -/
theorem expression_move (h : expression what missing quotation depth content place cs = .ok region)
    (hm : m.Follows place) (missing' : ScriptError) :
    expression what missing' (quotation.move m) depth content (m.place place) cs = .ok (region.move m) := by
  fun_induction expression what missing quotation depth content place cs <;>
    (unfold expression; grind [Quotation.escapes_move, Quotation.next?_move, Move.Follows.place_after,
      Move.Follows.after, Region.move, Quotation.move])

/-- So is a text in single quotes. -/
theorem singleQuoted_move (h : singleQuoted start content place cs = .ok region) (hm : m.Follows place)
    (start' : Place) : singleQuoted start' content (m.place place) cs = .ok (region.move m) := by
  fun_induction singleQuoted start content place cs <;>
    grind [singleQuoted, Move.Follows.place_after, Move.Follows.after, Region.move]

/-- So is a text in backquotes. -/
theorem backquoted_move (h : backquoted start content place cs = .ok region) (hm : m.Follows place)
    (start' : Place) : backquoted start' content (m.place place) cs = .ok (region.move m) := by
  fun_induction backquoted start content place cs <;>
    (unfold backquoted; grind [Move.Follows.place_after, Move.Follows.after, Region.move])

end Scan

/-! ## 3. Words -/

namespace Opening

variable {opening : Opening}

/-- An expansion that starts here starts there. -/
def move (m : Move) (opening : Opening) : Opening :=
  { opening with start := m.place opening.start, stop := m.place opening.stop }

/-- What an expansion is made of is moved with its region. -/
theorem ofRegion_move (form : Form) (start : Place) (opener closer : List Char) (region : Scan.Region) :
    (ofRegion form start opener closer region).move m =
      ofRegion form (m.place start) opener closer (region.move m) := rfl

/-- The same expansion starts at both places, if one does. -/
theorem at?_move (h : at? place c cs = .ok (some opening)) (hm : m.Follows place) :
    at? (m.place place) c cs = .ok (some (opening.move m)) := by
  rw [at?_eq_some_iff] at h ⊢
  -- Each region is scanned from the place behind its opener, which goes with the move.
  cases h with
  | arithmetic hr =>
    have hmoved := Scan.expression_move hr (hm.advance _)
    rw [Scan.Quotation.move_none, hm] at hmoved
    rw [ofRegion_move, hm]
    exact .arithmetic (hmoved _)
  | command hb hr =>
    have hmoved := Scan.balanced_move hr (hm.advance _)
    rw [Scan.Quotation.move_none, hm] at hmoved
    rw [ofRegion_move, hm]
    exact .command hb (hmoved _)
  | braced hr =>
    have hmoved := Scan.balanced_move hr (hm.advance _)
    rw [Scan.Quotation.move_none, hm] at hmoved
    rw [ofRegion_move, hm]
    exact .braced (hmoved _)
  | plain hp hb =>
    have hplain : (plain place cs).move m = plain (m.place place) cs := by
      simp only [plain, move, hm.place_after, (hm.after '$') _]
    rw [hplain]
    exact .plain hp hb
  | backquoted hr =>
    have hmoved := Scan.backquoted_move hr (hm.after _)
    rw [hm.place_after] at hmoved
    rw [ofRegion_move, hm.place_after]
    exact .backquoted (hmoved _)

end Opening

/-- Parts are moved one by one. -/
theorem moveParts_append (m : Move) (parts parts' : List WordPart) :
    moveParts m (parts ++ parts') = moveParts m parts ++ moveParts m parts' := by
  induction parts with
  | nil => rfl
  | cons part parts ih => simp only [List.cons_append, moveParts, ih]

/-- Parts are moved in the order they have. -/
theorem moveParts_reverse (m : Move) (parts : List WordPart) :
    moveParts m parts.reverse = (moveParts m parts).reverse := by
  induction parts with
  | nil => rfl
  | cons part parts ih => simp only [List.reverse_cons, moveParts_append, moveParts, ih]

/-- A word that has been read, and the place after it. -/
def Piece.move (m : Move) (piece : Piece) : Piece :=
  { piece with parts := moveParts m piece.parts, place := m.place piece.place }

namespace Reading

variable {stop : Char → Bool} {r : Reading} {turn : Turn}

/-- A word that is being read, with the parts that are there. -/
def move (m : Move) (r : Reading) : Reading :=
  { r with outer := r.outer.map fun outer => (m.place outer.1, moveParts m outer.2), parts := moveParts m r.parts }

/-- What is left to be read after a turn, at its new place. -/
def Turn.move (m : Move) (turn : Turn) : Turn := (turn.1.move m, m.place turn.2.1, turn.2.2)

theorem skip_move (m : Move) (r : Reading) (cs : List Char) : (r.skip cs).move m = (r.move m).skip cs := rfl

theorem plain_move (m : Move) (r : Reading) (c : Char) : (r.plain c).move m = (r.move m).plain c := rfl

/-- The text that is written down is the same. -/
theorem flushed_move (m : Move) (r : Reading) : (r.move m).flushed = moveParts m r.flushed := by
  unfold flushed move
  split <;> simp_all [moveParts, WordPart.move]

/-- A part is put to those that are there. -/
theorem push_move (m : Move) (r : Reading) (part : WordPart) :
    (r.push part).move m = (r.move m).push (part.move m) := by
  simp only [push, flushed_move]
  simp only [move, moveParts]

/-- A word is finished where it was. -/
theorem finish_move (m : Move) (r : Reading) (rest : List Char) (place : Place) :
    (r.finish rest place).move m = (r.move m).finish rest (m.place place) := by
  simp only [finish, Piece.move, flushed_move, moveParts_reverse]
  rfl

/-- Whether a word is in double quotes does not depend on places. -/
theorem outer_move (m : Move) (r : Reading) : (r.move m).outer = none ↔ r.outer = none := Option.map_eq_none_iff

/-- Double quotes are entered at their new place. -/
theorem enter_move (m : Move) (r : Reading) (place : Place) :
    (r.enter place).move m = (r.move m).enter (m.place place) := by
  simp only [enter, flushed_move]
  rfl

/-- Double quotes are left with their parts moved. -/
theorem leave_move (m : Move) (r : Reading) (outer : List WordPart) :
    (r.leave outer).move m = (r.move m).leave (moveParts m outer) := by
  simp only [leave, flushed_move, ← moveParts_reverse]
  rfl

/-- A turn is the same at another place, if the expansion is that may be read in it. -/
theorem Took.move (ht : Took stop r place c cs turn) (hm : m.Follows place)
    (hpart : ∀ opening part?, opening.content.length < (c :: cs).length →
      Opening.at? place c cs = .ok (some opening) → readPart place opening = .ok part? →
        readPart (m.place place) (opening.move m) = .ok (part?.map (WordPart.move m))) :
    Took stop (r.move m) (m.place place) c cs (turn.move m) := by
  -- Whether the word is in double quotes does not depend on the place.
  have houter {p : Prop} (h : r.outer = none → p) : (r.move m).outer = none → p :=
    fun ho => h ((outer_move m r).mp ho)
  have hinside (h : r.outer ≠ none) : (r.move m).outer ≠ none := mt (outer_move m r).mp h
  unfold Turn.move
  cases ht with
  | last hs =>
    simp only [skip_move, plain_move, hm.place_after]
    exact .last (houter hs)
  | continued hs =>
    simp only [skip_move, (hm.after _).place_after, hm.place_after]
    exact .continued (houter hs)
  | escaped ho hs hd =>
    simp only [skip_move, push_move, (hm.after _).place_after, hm.place_after]
    exact .escaped ((outer_move m r).mpr ho) hs hd
  | escapedInside ho hd he =>
    simp only [skip_move, plain_move, (hm.after _).place_after, hm.place_after]
    exact .escapedInside (hinside ho) hd he
  | kept ho hd he =>
    simp only [skip_move, plain_move, hm.place_after]
    exact .kept (hinside ho) hd he
  | single ho hs hr =>
    have hr := Scan.singleQuoted_move hr (hm.after _) (m.place place)
    rw [hm.place_after] at hr
    simp only [skip_move, push_move]
    exact .single ((outer_move m r).mpr ho) hs hr
  | entered ho hs =>
    simp only [skip_move, enter_move, hm.place_after]
    exact .entered ((outer_move m r).mpr ho) hs
  | @left cs outer ho =>
    simp only [skip_move, leave_move, hm.place_after]
    have houter : (r.move m).outer = some (m.place outer.1, moveParts m outer.2) := by
      unfold move
      rw [ho]
      rfl
    exact .left houter
  | expanded hb hq hs he =>
    refine .expanded hb hq (houter hs) (expand_eq_ok_iff.mpr ?_)
    -- What is inside an expansion is shorter, and has been moved already.
    cases expand_eq_ok_iff.mp he with
    | character hd hq =>
      simp only [skip_move, plain_move, hm.place_after]
      exact .character hd hq
    | dollar ho hp =>
      have hpart := hpart _ _ (Opening.at?_length_lt ho) ho hp
      exact .dollar (Opening.at?_move ho hm) hpart
    | part ho hp =>
      have hpart := hpart _ _ (Opening.at?_length_lt ho) ho hp
      simp only [push_move, skip_move]
      exact .part (Opening.at?_move ho hm) hpart

end Reading

/-- The part that an expansion is, if the text in it is read the same. -/
theorem readPart_move {opening : Opening} {part? : Option WordPart} (hp : readPart place opening = .ok part?)
    (hm : m.Follows opening.start)
    (h : ∀ {start : Place} {cs : List Char} {piece : Piece}, cs.length ≤ opening.content.length →
      m.Follows start → readParts (fun _ => false) {} start cs = .ok piece →
        readParts (fun _ => false) {} (m.place start) cs = .ok (piece.move m)) :
    readPart (m.place place) (opening.move m) = .ok (part?.map (WordPart.move m)) := by
  rw [readPart_eq_ok_iff] at hp ⊢
  cases hp with
  | dollar hf => exact .dollar hf
  | parameter hf => exact .parameter hf
  | command hf => exact .command hf
  | backquoted hf => exact .backquoted hf
  | arithmetic hf hr =>
    have hpart : PartOf (m.place place) (opening.move m) _ := .arithmetic hf (h (Nat.le_refl _) hm hr)
    rwa [m.line_place] at hpart
  | named hf hb => exact .named hf hb
  | length hf hb => exact .length hf hb
  | conditional hf hb hr =>
    have hmoved := h (by simp) (hm.advance _) hr
    rw [hm] at hmoved
    have hpart : PartOf (m.place place) (opening.move m) _ := .conditional hf hb hmoved
    exact hpart

/-- **A word is the same at another place.** -/
theorem readParts_move {stop : Char → Bool} {r : Reading} {piece : Piece}
    (hr : readParts stop r place cs = .ok piece) (hm : m.Follows place) :
    readParts stop (r.move m) (m.place place) cs = .ok (piece.move m) := by
  induction hr using readParts_induction with
  | ended ho hc =>
    rw [readParts_of_over ((Reading.outer_move m _).mpr ho) hc, Reading.finish_move]
  | turn ht _ inner ih =>
    have hmoved := ht.move hm fun opening part? hlength ho hp => by
      obtain ⟨-, used, hstart⟩ := Opening.at?_content ho
      refine readPart_move hp (hstart ▸ hm.advance used) fun hds hm hr => ?_
      exact inner hr (Nat.le_of_lt_succ (Nat.lt_of_le_of_lt hds hlength)) hm
    obtain ⟨used, -, -, hplace⟩ := ht.takes
    rw [readParts_of_took hmoved]
    exact ih (hplace ▸ hm.advance used)

/-! ## 4. Tokens -/

/-- A lexeme has places in the parts of its words. -/
def Lexeme.move (m : Move) : Lexeme → Lexeme
  | .word text parts => .word text (moveParts m parts)
  | .arithmetic text parts => .arithmetic text (moveParts m parts)
  | lexeme => lexeme

/-- A token has its place and those in its lexeme. -/
def Token.move (m : Move) (token : Token) : Token := ⟨token.lexeme.move m, m.place token.place⟩

/-- Whether any part is quoted does not depend on places. -/
theorem any_isQuoted_move (m : Move) (parts : List WordPart) :
    (moveParts m parts).any WordPart.isQuoted = parts.any WordPart.isQuoted := by
  induction parts with
  | nil => rfl
  | cons part parts ih =>
    have hpart : (part.move m).isQuoted = part.isQuoted := by
      cases part with
      | conditional name op argument =>
        cases argument
        rfl
      | _ => rfl
    simp only [moveParts, List.any_cons, ih, hpart]

namespace Tokens

variable {ts : Tokens} {turn : Turn}

/-- The tokens that are there are moved. What has been read for them has no place in it. -/
def move (m : Move) (ts : Tokens) : Tokens := { ts with done := ts.done.map (Token.move m) }

/-- Nor whether a function has just been named. -/
theorem isAfterFunction_move (m : Move) (ts : Tokens) : (ts.move m).isAfterFunction = ts.isAfterFunction := by
  obtain ⟨done, start⟩ := ts
  cases done with
  | nil => rfl
  | cons token done =>
    obtain ⟨lexeme, p⟩ := token
    cases lexeme with
    | reserved keyword => cases keyword <;> rfl
    | _ => rfl

/-- A word becomes a token at its place. -/
theorem pushWord_move (m : Move) (ts : Tokens) (place : Place) (piece : Piece) :
    (ts.pushWord place piece).move m = (ts.move m).pushWord (m.place place) (piece.move m) := by
  unfold pushWord
  simp only [isAfterFunction_move, Piece.move, any_isQuoted_move]
  have hstart : (ts.move m).commandStart = ts.commandStart := rfl
  rw [hstart]
  split <;> rfl

/-- What one turn takes is the same at both places. -/
theorem Took.move (ht : Took ts place c cs turn) (hm : m.Follows place) :
    Took (ts.move m) (m.place place) c cs (turn.1.move m, m.place turn.2.1, turn.2.2) := by
  -- Each turn counts places from its own, and nested readers from theirs.
  cases ht with
  | blank hc =>
    rw [hm.place_after]
    exact .blank hc
  | continued =>
    rw [hm]
    exact .continued
  | newline =>
    rw [hm.place_after]
    exact .newline
  | comment =>
    rw [hm.after, hm.place_after]
    exact .comment
  | arithmetic hs hr hp =>
    have hr := Scan.expression_move hr (hm.advance _) ⟨.unterminated .arithmeticCommand, m.place place⟩
    have hp := readParts_move hp (hm.advance _)
    rw [hm] at hr hp
    have hs : (ts.move m).commandStart = true := hs
    exact .arithmetic hs hr hp
  | operator ho hs =>
    rw [hm]
    exact .operator ho hs
  | word hm' hc hb hp =>
    rw [pushWord_move]
    exact .word hm' hc hb (readParts_move hp hm)

end Tokens

/-- **A text has the same tokens wherever it starts**, at places that are moved with it. -/
theorem tokensFrom_move {ts : Tokens} {tokens : List Token} (h : tokensFrom ts place cs = .ok tokens)
    (hm : m.Follows place) :
    tokensFrom (ts.move m) (m.place place) cs = .ok (tokens.map (Token.move m)) := by
  induction h using tokensFrom_induction with
  | stop =>
    rw [tokensFrom_end, List.map_reverse]
    rfl
  | turn ht _ ih =>
    obtain ⟨used, -, ⟨-, hplace⟩, -⟩ := ht.takes
    rw [tokensFrom_of_took (ht.move hm)]
    exact ih (hplace ▸ hm.advance used)

/-- **A text has the same tokens wherever it starts**, at places that are moved with it. -/
theorem tokenize_move {origin : Place} {tokens : List Token} (h : tokenize cs origin = .ok tokens)
    (hm : m.Follows origin) : tokenize cs (m.place origin) = .ok (tokens.map (Token.move m)) := by
  obtain ⟨hsize, h⟩ := tokenize_eq_ok_iff.mp h
  exact tokenize_eq_ok_iff.mpr ⟨hsize, tokensFrom_move h hm⟩

end Shell
