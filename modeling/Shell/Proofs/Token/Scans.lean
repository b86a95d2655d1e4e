/-
What a scan takes of a text.

A scan that finds its closer has taken the text up to there and looks no further (`Region.Taken`). This is said of all
four scans along their turns, and what else is said of regions follows: where a region ends (`Region.Ends`), and that
the text after the closer makes no difference. With more of it the region is the same, and more is left. So it is with
what a dollar sign or a backquote opens, by the five cases of that (`Opening.Found`).

The name after a dollar sign has no closer. It goes on as long as characters of a name come, so there
one has to know that it has ended, and it has where a newline is in the text.
-/
import Mathlib.Data.List.Basic
import Mathlib.Data.List.TakeWhile
import Shell.Token.Parts

set_option autoImplicit false

namespace Shell

/-! ## 1. Longest runs -/

namespace Text

variable {α : Type} {p : α → Bool} {l rest : List α}

/-- What is left after the longest run. -/
theorem drop_length_takeWhile (p : α → Bool) (l : List α) : l.drop (l.takeWhile p).length = l.dropWhile p := by
  have h : (l.takeWhile p ++ l.dropWhile p).drop (l.takeWhile p).length = l.dropWhile p := List.drop_left
  rwa [List.takeWhile_append_dropWhile] at h

/-- A run ends where a character that does not belong to it stands, or nothing. -/
theorem takeWhile_append_of_head? (hl : ∀ a ∈ l, p a = true) (hrest : ∀ a ∈ rest.head?, p a = false) :
    (l ++ rest).takeWhile p = l := by
  rw [List.takeWhile_append_of_pos hl]
  cases rest with
  | nil => simp
  | cons a rest => simp [hrest a rfl]

/-- What is behind a run does not go on with it. -/
theorem head?_drop_takeWhile : ∀ a ∈ (l.drop (l.takeWhile p).length).head?, p a = false := by
  intro a hmem
  have hnot := List.head?_dropWhile_not p l
  rw [← drop_length_takeWhile, Option.mem_def.mp hmem] at hnot
  simpa using hnot

end Text

/-! ## 2. Places -/

/-- Nothing moves no place. -/
theorem Place.advance_nil (place : Place) : place.advance [] = place := rfl

/-- A place advances character by character. -/
theorem Place.advance_cons (place : Place) (c : Char) (cs : List Char) :
    place.advance (c :: cs) = (place.after c).advance cs := rfl

/-- It advances over one text and then over the other. -/
theorem Place.advance_append (place : Place) (cs ds : List Char) :
    place.advance (cs ++ ds) = (place.advance cs).advance ds := List.foldl_append

/-- A text of which `rest` is left, which stands at `stop`. -/
def CutAt (place : Place) (cs : List Char) (stop : Place) (rest : List Char) : Prop :=
  ∃ used, cs = used ++ rest ∧ stop = place.advance used

namespace CutAt

variable {place stop : Place} {cs rest : List Char}

/-- Nothing is cut off. -/
theorem refl (place : Place) (cs : List Char) : CutAt place cs place cs := ⟨[], rfl, rfl⟩

/-- One more character is cut off. -/
theorem cons (c : Char) (h : CutAt (place.after c) cs stop rest) : CutAt place (c :: cs) stop rest := by
  obtain ⟨used, rfl, rfl⟩ := h
  exact ⟨c :: used, rfl, rfl⟩

/-- A text more is cut off. -/
theorem prepend (used : List Char) (h : CutAt (place.advance used) cs stop rest) :
    CutAt place (used ++ cs) stop rest := by
  obtain ⟨used', rfl, rfl⟩ := h
  exact ⟨used ++ used', (List.append_assoc ..).symm, (place.advance_append used used').symm⟩

/-- What is cut off from what was left has been cut off from the text. -/
theorem trans {middle : Place} {ds : List Char} (h : CutAt place cs middle ds)
    (h' : CutAt middle ds stop rest) : CutAt place cs stop rest := by
  obtain ⟨used, rfl, rfl⟩ := h
  obtain ⟨used', rfl, rfl⟩ := h'
  exact ⟨used ++ used', (List.append_assoc ..).symm, (place.advance_append used used').symm⟩

end CutAt

/-! ## 3. Regions -/

namespace Scan

variable {opener closer : Char} {missing : ScriptError} {quotation : Quotation} {depth : Nat}
  {content cs : List Char} {place start : Place} {what : Delimited} {region : Region}

/-- The region with another text after it. -/
def Region.before (region : Region) (rest : List Char) : Region := { region with rest := rest }

/-- What a scan does to find a region in a text. It has read some of the region before, and takes `used` and what
closes the region. It looks no further, so the region is found whatever follows it. -/
def Region.Taken (region : Region) (scan : List Char → Except ScriptError Region) (closing content : List Char)
    (place : Place) (cs : List Char) : Prop :=
  ∃ used, region.content = content.reverse ++ used ∧ cs = used ++ closing ++ region.rest ∧
    region.place = place.advance (used ++ closing) ∧
    ∀ rest, scan (used ++ closing ++ rest) = .ok (region.before rest)

variable {scan scan' : List Char → Except ScriptError Region} {closing : List Char}

/-- One scan goes on as another does behind some characters, which are then the first of the region. -/
theorem Region.Taken.prepend (passed : List Char)
    (h : region.Taken scan closing (passed.reverse ++ content) (place.advance passed) cs)
    (hpassed : ∀ cs, scan' (passed ++ cs) = scan cs) :
    region.Taken scan' closing content place (passed ++ cs) := by
  obtain ⟨used, hcontent, rfl, hplace, hfound⟩ := h
  refine ⟨passed ++ used, by simpa using hcontent, by simp only [List.append_assoc], ?_, fun rest => ?_⟩
  · rw [hplace, List.append_assoc, place.advance_append]
  · rw [List.append_assoc, List.append_assoc, hpassed, ← List.append_assoc]
    exact hfound rest

/-- The region has been closed. -/
theorem Region.Taken.closed (closing : List Char) {rest : List Char}
    (hscan : ∀ rest, scan (closing ++ rest) = .ok ⟨content.reverse, rest, place.advance closing⟩) :
    (⟨content.reverse, rest, place.advance closing⟩ : Region).Taken scan closing content place (closing ++ rest) :=
  ⟨[], (List.append_nil _).symm, rfl, rfl, hscan⟩

/-- A region between delimiters that fit together is taken with its closer. -/
theorem balanced_takes (h : balanced opener closer missing quotation depth content place cs = .ok region) :
    region.Taken (balanced opener closer missing quotation depth content place) [closer] content place cs := by
  -- By the turns of the scan, each of which takes one or two characters and looks no further.
  fun_induction balanced opener closer missing quotation depth content place cs with
  | case1 | case2 => cases h
  | case3 =>
    next c hc d ds ih =>
    refine (ih h).prepend [c, d] fun cs => ?_
    conv => lhs; unfold balanced
    simp [hc]
  | case4 =>
    next c cs hc _ hnext ih =>
    refine (ih h).prepend [c] fun cs => ?_
    conv => lhs; unfold balanced
    simp [hc, hnext]
  | case5 =>
    next hc hnext ih =>
    refine (ih h).prepend [opener] fun cs => ?_
    conv => lhs; unfold balanced
    simp [hc, hnext]
  | case6 =>
    next hc hnext hopener =>
    obtain rfl := Except.ok.inj h
    refine .closed [closer] fun rest => ?_
    unfold balanced
    simp [hc, hnext, hopener, Place.advance_cons, Place.advance_nil]
  | case7 =>
    next hc hnext hopener ih =>
    refine (ih h).prepend [closer] fun cs => ?_
    conv => lhs; unfold balanced
    simp [hc, hnext, hopener]
  | case8 =>
    next c cs hc hnext hopener hcloser ih =>
    refine (ih h).prepend [c] fun cs => ?_
    conv => lhs; unfold balanced
    simp [hc, hnext, hopener, hcloser]

/-- An expression is taken with its two parentheses. -/
theorem expression_takes (h : expression what missing quotation depth content place cs = .ok region) :
    region.Taken (expression what missing quotation depth content place) [')', ')'] content place cs := by
  -- By the turns of the scan, as for delimiters that fit together.
  fun_induction expression what missing quotation depth content place cs with
  | case1 | case2 | case8 => cases h
  | case3 =>
    next c hc d ds ih =>
    refine (ih h).prepend [c, d] fun cs => ?_
    conv => lhs; unfold expression
    simp [hc]
  | case4 =>
    next c cs hc _ hnext ih =>
    refine (ih h).prepend [c] fun cs => ?_
    conv => lhs; unfold expression
    simp [hc, hnext]
  | case5 =>
    next hc hnext ih =>
    refine (ih h).prepend ['('] fun cs => ?_
    conv => lhs; unfold expression
    simp [hnext]
  | case6 =>
    next hc hnext hopener ih =>
    refine (ih h).prepend [')'] fun cs => ?_
    conv => lhs; unfold expression
    simp [hnext]
  | case7 =>
    next hc hnext hopener =>
    obtain rfl := Except.ok.inj h
    refine .closed [')', ')'] fun rest => ?_
    unfold expression
    simp [hnext, Place.advance_cons, Place.advance_nil]
  | case9 =>
    next c cs hc hnext hopener hcloser ih =>
    refine (ih h).prepend [c] fun cs => ?_
    conv => lhs; unfold expression
    simp [hc, hnext, hopener, hcloser]

/-- A text in single quotes is taken with its quote. -/
theorem singleQuoted_takes (h : singleQuoted start content place cs = .ok region) :
    region.Taken (singleQuoted start content place) ['\''] content place cs := by
  fun_induction singleQuoted start content place cs with
  | case1 => cases h
  | case2 =>
    obtain rfl := Except.ok.inj h
    refine .closed ['\''] fun rest => ?_
    simp [singleQuoted, Place.advance_cons, Place.advance_nil]
  | case3 =>
    next c cs hc ih =>
    exact (ih h).prepend [c] fun cs => by simp [singleQuoted, hc]

/-- A text in backquotes is taken with its backquote. -/
theorem backquoted_takes (h : backquoted start content place cs = .ok region) :
    region.Taken (backquoted start content place) ['\x60'] content place cs := by
  fun_induction backquoted start content place cs with
  | case1 | case3 => cases h
  | case2 =>
    obtain rfl := Except.ok.inj h
    refine .closed ['\x60'] fun rest => ?_
    unfold backquoted
    simp [Place.advance_cons, Place.advance_nil]
  | case4 =>
    next d ds hc ih =>
    refine (ih h).prepend ['\\', d] fun cs => ?_
    conv => lhs; unfold backquoted
    simp
  | case5 =>
    next c cs hquote hbackslash ih =>
    refine (ih h).prepend [c] fun cs => ?_
    conv => lhs; unfold backquoted
    simp [hquote, hbackslash]

/-! ### What follows a region, and where it ends -/

/-- A region with more text after it. -/
def Region.append (region : Region) (more : List Char) : Region :=
  { region with rest := region.rest ++ more }

/-- A scan that has found its region finds it in a text that goes on. -/
theorem Region.Taken.append (h : region.Taken scan closing content place cs) (more : List Char) :
    scan (cs ++ more) = .ok (region.append more) := by
  obtain ⟨used, -, rfl, -, hfound⟩ := h
  rw [List.append_assoc]
  exact hfound _

/-- Text after the closer makes no difference to delimiters that fit together. -/
theorem balanced_append (h : balanced opener closer missing quotation depth content place cs = .ok region)
    (more : List Char) :
    balanced opener closer missing quotation depth content place (cs ++ more) =
      .ok (region.append more) :=
  (balanced_takes h).append more

/-- Nor does it to an expression. -/
theorem expression_append (h : expression what missing quotation depth content place cs = .ok region)
    (more : List Char) :
    expression what missing quotation depth content place (cs ++ more) = .ok (region.append more) :=
  (expression_takes h).append more

/-- Nor to a text in single quotes. -/
theorem singleQuoted_append (h : singleQuoted start content place cs = .ok region)
    (more : List Char) :
    singleQuoted start content place (cs ++ more) = .ok (region.append more) :=
  (singleQuoted_takes h).append more

/-- Nor to a text in backquotes. -/
theorem backquoted_append (h : backquoted start content place cs = .ok region)
    (more : List Char) : backquoted start content place (cs ++ more) = .ok (region.append more) :=
  (backquoted_takes h).append more

/-- The region ends with its closer, and what is left is the text after it. -/
def Region.Ends (region : Region) (closer : Char) (place : Place) (cs : List Char) : Prop :=
  ∃ used, cs = used ++ closer :: region.rest ∧ region.place = place.advance (used ++ [closer])

/-- The region and its closer have been cut off. -/
theorem Region.Ends.cutAt (h : region.Ends closer place cs) :
    CutAt place cs region.place region.rest := by
  obtain ⟨used, rfl, hp⟩ := h
  exact ⟨used ++ [closer], by simp, hp⟩

/-- A region ends with the last character of what closes it. -/
theorem Region.Taken.ends (front : List Char)
    (h : region.Taken scan (front ++ [closer]) content place cs) : region.Ends closer place cs := by
  obtain ⟨used, -, rfl, hplace, -⟩ := h
  exact ⟨used ++ front, by simp, by rw [hplace, List.append_assoc]⟩

/-- The region ends with its closer. -/
theorem balanced_ends (h : balanced opener closer missing quotation depth content place cs = .ok region) :
    region.Ends closer place cs :=
  (balanced_takes h).ends []

/-- An expression ends with a parenthesis. -/
theorem expression_ends (h : expression what missing quotation depth content place cs = .ok region) :
    region.Ends ')' place cs :=
  (expression_takes h).ends [')']

/-- A text in single quotes ends with a quote. -/
theorem singleQuoted_ends (h : singleQuoted start content place cs = .ok region) : region.Ends '\'' place cs :=
  (singleQuoted_takes h).ends []

/-- A text in backquotes ends with a backquote. -/
theorem backquoted_ends (h : backquoted start content place cs = .ok region) : region.Ends '\x60' place cs :=
  (backquoted_takes h).ends []

end Scan

/-! ## 4. Lines -/

/-- A text that ends with a newline, with no backslash right before it. -/
def EndsLine (cs : List Char) : Prop := cs.getLast? = some '\n' ∧ ¬ ['\\', '\n'] <:+ cs

namespace EndsLine

variable {cs rest : List Char}

/-- A text that ends its line is not empty. -/
theorem ne_nil (h : EndsLine cs) : cs ≠ [] := by
  rintro rfl
  cases h.1

/-- What is left of such a text is one, as long as something is left. -/
theorem right (used : List Char) (h : EndsLine (used ++ rest)) (hne : rest ≠ []) : EndsLine rest := by
  refine ⟨?_, fun hs => h.2 (hs.trans (List.suffix_append used rest))⟩
  obtain ⟨c, hc⟩ := Option.ne_none_iff_exists'.mp (mt List.getLast?_eq_none_iff.mp hne)
  have hlast := h.1
  rw [List.getLast?_append, hc] at hlast
  rw [hc]
  exact hlast

/-- What follows another character than a newline ends the line as well. -/
theorem tail {c : Char} (h : EndsLine (c :: cs)) (hc : c ≠ '\n') : EndsLine cs := by
  refine EndsLine.right [c] h ?_
  rintro rfl
  exact hc (Option.some.inj h.1)

/-- After a backslash there is a character, and more after that. -/
theorem escaped {d : Char} (h : EndsLine ('\\' :: d :: cs)) : EndsLine cs := by
  refine EndsLine.right ['\\', d] h ?_
  rintro rfl
  obtain rfl : d = '\n' := Option.some.inj h.1
  exact h.2 (List.suffix_refl _)

/-- There is a newline in it. -/
theorem mem (h : EndsLine cs) : '\n' ∈ cs := List.mem_of_getLast? h.1

/-- Characters that no newline is among come to an end before the end of the line. -/
theorem takeWhile_append (h : EndsLine cs) {p : Char → Bool} (hp : p '\n' = false) (more : List Char) :
    (cs ++ more).takeWhile p = cs.takeWhile p ∧ (cs.takeWhile p).length < cs.length := by
  have hlt : (cs.takeWhile p).length < cs.length := by
    refine Nat.lt_of_le_of_ne (List.takeWhile_prefix p).length_le fun heq => ?_
    have hmem : '\n' ∈ cs.takeWhile p := by
      rw [(List.takeWhile_prefix p).eq_of_length heq]
      exact h.mem
    have hall := List.mem_takeWhile_imp hmem
    rw [hp] at hall
    cases hall
  refine ⟨?_, hlt⟩
  rw [List.takeWhile_append, if_neg (Nat.ne_of_lt hlt)]

/-- A region that is closed by anything but a newline ends before the end of the line. -/
theorem region {region : Scan.Region} {closer : Char} {place : Place} (h : EndsLine cs)
    (hr : region.Ends closer place cs) (hc : closer ≠ '\n') : EndsLine region.rest := by
  obtain ⟨used, rfl, -⟩ := hr
  exact (EndsLine.right _ h (List.cons_ne_nil _ _)).tail hc

end EndsLine

/-! ## 5. Openings -/

namespace Opening

variable {place : Place} {c : Char} {cs : List Char} {opening : Opening}

/-- What can be opened: by a dollar sign, with a region after it or a name, or by a backquote. -/
inductive Found (place : Place) : Char → List Char → Opening → Prop where
  | arithmetic {body : List Char} {region : Scan.Region}
      (hr : Scan.expression .arithmeticExpansion ⟨.unterminated .arithmeticExpansion, place.after '$'⟩ .none 0 []
        (place.advance ['$', '(', '(']) body = .ok region) :
      Found place '$' ('(' :: '(' :: body)
        (ofRegion .arithmetic (place.advance ['$', '(', '(']) ['$', '(', '('] [')', ')'] region)
  | command {body : List Char} {region : Scan.Region} (hb : body.head? ≠ some '(')
      (hr : Scan.balanced '(' ')' ⟨.unterminated .commandSubstitution, place⟩ .none 0 []
        (place.advance ['$', '(']) body = .ok region) :
      Found place '$' ('(' :: body) (ofRegion .command (place.advance ['$', '(']) ['$', '('] [')'] region)
  | braced {body : List Char} {region : Scan.Region}
      (hr : Scan.balanced '\x7b' '\x7d' ⟨.unterminated .parameterExpansion, place⟩ .none 0 []
        (place.advance ['$', '\x7b']) body = .ok region) :
      Found place '$' ('\x7b' :: body)
        (ofRegion .braced (place.advance ['$', '\x7b']) ['$', '\x7b'] ['\x7d'] region)
  | plain {cs : List Char} (hp : cs.head? ≠ some '(') (hb : cs.head? ≠ some '\x7b') :
      Found place '$' cs (plain place cs)
  | backquoted {cs : List Char} {region : Scan.Region}
      (hr : Scan.backquoted place [] (place.after '\x60') cs = .ok region) :
      Found place '\x60' cs (ofRegion .backquoted (place.after '\x60') ['\x60'] ['\x60'] region)

/-- **What a dollar sign opens**, case by case. -/
theorem dollar_eq_ok_iff : dollar place cs = .ok opening ↔ Found place '$' cs opening := by
  constructor
  · intro h
    -- By what follows the dollar sign: two parentheses, one, a brace, or something else.
    unfold dollar at h
    split at h
    · simp only at h
      split at h
      · next hr =>
        obtain rfl := Except.ok.inj h
        exact .arithmetic hr
      · cases h
    · next hb =>
      simp only at h
      split at h
      · next hr =>
        obtain rfl := Except.ok.inj h
        refine .command (fun hhead => ?_) hr
        obtain ⟨cs, rfl⟩ := List.head?_eq_some_iff.mp hhead
        exact hb cs rfl
      · cases h
    · simp only at h
      split at h
      · next hr =>
        obtain rfl := Except.ok.inj h
        exact .braced hr
      · cases h
    · next hp hb =>
      obtain rfl := Except.ok.inj h
      refine .plain (fun hhead => ?_) fun hhead => ?_
      all_goals obtain ⟨cs, rfl⟩ := List.head?_eq_some_iff.mp hhead
      · exact hp cs rfl
      · exact hb cs rfl
  · intro h
    cases h with
    | arithmetic hr => simp only [dollar, hr]
    | @command body region hb hr =>
      rw [dollar]
      · simp only [hr]
      · rintro cs rfl
        exact hb rfl
    | braced hr => simp only [dollar, hr]
    | plain hp hb =>
      unfold dollar
      split
      · exact absurd rfl hp
      · exact absurd rfl hp
      · exact absurd rfl hb
      · rfl

/-- **An expansion that is found** is one of these. -/
theorem at?_eq_some_iff : at? place c cs = .ok (some opening) ↔ Found place c cs opening := by
  constructor
  · intro h
    -- A dollar sign and a backquote are the only openings.
    unfold at? at h
    split at h
    · next hc =>
      subst hc
      split at h
      · next ho =>
        obtain rfl := Option.some.inj (Except.ok.inj h)
        exact dollar_eq_ok_iff.mp ho
      · cases h
    · split at h
      · next hc =>
        subst hc
        simp only at h
        split at h
        · next hr =>
          obtain rfl := Option.some.inj (Except.ok.inj h)
          exact .backquoted hr
        · cases h
      · cases h
  · intro h
    have hfound := h
    unfold at?
    cases h with
    | arithmetic | command | braced | plain => rw [if_pos rfl, dollar_eq_ok_iff.mpr hfound]
    | backquoted hr =>
      rw [if_neg (by decide), if_pos rfl]
      simp only [hr]

/-- Nothing is opened by any other character. -/
theorem at?_eq_none_iff : at? place c cs = .ok none ↔ c ≠ '$' ∧ c ≠ '\x60' := by
  unfold at?
  split
  · next hc => cases dollar place cs <;> simp [hc]
  · next hc =>
    split
    · next hq =>
      simp only
      cases Scan.backquoted place [] (place.after c) cs <;> simp [hq]
    · next hq => simp [hc, hq]

/-- What is opened is shorter than the text that opens it. -/
theorem at?_length_lt (h : at? place c cs = .ok (some opening)) : opening.content.length < (c :: cs).length :=
  Nat.lt_succ_of_le (Nat.le_trans (Nat.le_add_right _ _) (at?_length h))

/-- An expansion with more text after it. -/
def append (opening : Opening) (more : List Char) : Opening :=
  { opening with rest := opening.rest ++ more }

/-- A name has ended before the newline. -/
theorem plainExtent_append (h : EndsLine cs) (more : List Char) :
    plainExtent (cs ++ more) = plainExtent cs ∧ plainExtent cs < cs.length := by
  match cs with
  | [] => exact absurd rfl h.ne_nil
  | c :: cs =>
    unfold plainExtent
    simp only [List.cons_append, List.length_cons]
    split
    · next hc =>
      have hne : c ≠ '\n' := by
        rintro rfl
        exact absurd hc (by decide)
      obtain ⟨heq, hlt⟩ := (h.tail hne).takeWhile_append
        (p := fun d => Text.isAlphanumeric d || d == '_') (by decide) more
      rw [heq]
      exact ⟨rfl, by omega⟩
    · split
      · next hc =>
        have hne : c ≠ '\n' := by
          rintro rfl
          exact absurd hc (by decide)
        have hpos := List.length_pos_iff.mpr (h.tail hne).ne_nil
        exact ⟨rfl, by omega⟩
      · exact ⟨rfl, Nat.succ_pos _⟩

/-- So a plain parameter is the same with more text behind. -/
theorem plain_append (h : EndsLine cs) (more : List Char) :
    plain place (cs ++ more) = (plain place cs).append more := by
  obtain ⟨heq, hlt⟩ := plainExtent_append h more
  unfold plain append
  simp only [heq]
  rw [List.take_append_of_le_length (Nat.le_of_lt hlt), List.drop_append_of_le_length (Nat.le_of_lt hlt)]

/-- The newline is left. -/
theorem plain_rest (h : EndsLine cs) : EndsLine (plain place cs).rest := by
  have hlt := (plainExtent_append h []).2
  have hsplit : EndsLine (cs.take (plainExtent cs) ++ cs.drop (plainExtent cs)) := by
    rwa [List.take_append_drop]
  exact EndsLine.right _ hsplit fun hnil => by
    exact absurd (List.drop_eq_nil_iff.mp hnil) (Nat.not_le_of_lt hlt)

/-- The name is cut off with its sign. -/
theorem plain_cutAt (place : Place) (cs : List Char) :
    CutAt place ('$' :: cs) (plain place cs).stop (plain place cs).rest :=
  ⟨'$' :: cs.take (plainExtent cs), by simp [plain], rfl⟩

/-- What is opened at all is over before the end of the line, and what comes after that makes no difference to it. -/
theorem at?_append (h : EndsLine cs) (ho : at? place c cs = .ok (some opening)) (more : List Char) :
    at? place c (cs ++ more) = .ok (some (opening.append more)) ∧ EndsLine opening.rest ∧
      CutAt place (c :: cs) opening.stop opening.rest := by
  rw [at?_eq_some_iff] at ho ⊢
  cases ho with
  | arithmetic hr =>
    have hends := Scan.expression_ends hr
    exact ⟨.arithmetic (Scan.expression_append hr more),
      ((h.tail (by decide)).tail (by decide)).region hends (by decide), hends.cutAt.prepend ['$', '(', '(']⟩
  | @command body _ hb hr =>
    have hends := Scan.balanced_ends hr
    have hbody := h.tail (by decide)
    -- A second parenthesis does not come with the text after the line either.
    have hhead : (body ++ more).head? = body.head? := List.head?_append_of_ne_nil _ hbody.ne_nil
    exact ⟨.command (hhead ▸ hb) (Scan.balanced_append hr more), hbody.region hends (by decide),
      hends.cutAt.prepend ['$', '(']⟩
  | braced hr =>
    have hends := Scan.balanced_ends hr
    exact ⟨.braced (Scan.balanced_append hr more), (h.tail (by decide)).region hends (by decide),
      hends.cutAt.prepend ['$', '\x7b']⟩
  | plain hp hb =>
    have hhead : (cs ++ more).head? = cs.head? := List.head?_append_of_ne_nil _ h.ne_nil
    rw [← plain_append h more]
    exact ⟨.plain (hhead ▸ hp) (hhead ▸ hb), plain_rest h, plain_cutAt place cs⟩
  | backquoted hr =>
    have hends := Scan.backquoted_ends hr
    exact ⟨.backquoted (Scan.backquoted_append hr more), h.region hends (by decide), hends.cutAt.cons _⟩

end Opening

/-! ## 6. Mistakes -/

/-- A mistake in a text, as opposed to too many steps of a parser. -/
def ScriptError.IsMistake (e : ScriptError) : Prop := e.cause ≠ .tooManySteps

namespace Scan

variable {opener closer : Char} {missing : ScriptError} {quotation : Quotation} {depth : Nat}
  {content cs : List Char} {place start : Place} {what : Delimited} {e : ScriptError}

/-- Quotes that are not closed are a mistake. -/
theorem Quotation.unclosed_isMistake (h : missing.IsMistake) :
    (quotation.unclosed missing).IsMistake := by
  cases quotation with
  | none => exact h
  | single | double => exact nofun

/-- Delimiters that do not fit together are a mistake. -/
theorem balanced_isMistake
    (h : balanced opener closer missing quotation depth content place cs = .error e)
    (hm : missing.IsMistake) : e.IsMistake := by
  fun_induction balanced opener closer missing quotation depth content place cs <;>
    grind [Quotation.unclosed_isMistake]

/-- So is an expression that does not end. -/
theorem expression_isMistake (h : expression what missing quotation depth content place cs = .error e)
    (hm : missing.IsMistake) : e.IsMistake := by
  fun_induction expression what missing quotation depth content place cs <;>
    grind [Quotation.unclosed_isMistake, ScriptError.IsMistake]

/-- So are single quotes that are not closed. -/
theorem singleQuoted_isMistake (h : singleQuoted start content place cs = .error e) :
    e.IsMistake := by
  fun_induction singleQuoted start content place cs <;> grind [ScriptError.IsMistake]

/-- So are backquotes. -/
theorem backquoted_isMistake (h : backquoted start content place cs = .error e) : e.IsMistake := by
  fun_induction backquoted start content place cs <;> grind [ScriptError.IsMistake]

end Scan

/-- **Whatever is opened and not closed** is a mistake. -/
theorem Opening.at?_isMistake {place : Place} {c : Char} {cs : List Char} {e : ScriptError}
    (h : at? place c cs = .error e) : e.IsMistake := by
  unfold at? dollar at h
  grind [Scan.balanced_isMistake, Scan.expression_isMistake, Scan.backquoted_isMistake,
    ScriptError.IsMistake]

end Shell
