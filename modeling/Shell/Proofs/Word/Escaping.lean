/-
Fields that are written with backslashes.

Texts with separators in them are written into one line with a backslash before each separator and each backslash, and
with a blank between the texts. Without `-r` `read` takes the backslashes off the whole line and cuts it after that,
so that no separator is protected: the values are those of the bare texts, joined by blanks (`unquote_escapedLine`).
They are the texts exactly if no backslash was needed: no text but the last one has a separator in it, and that one
has no white space at its ends (`fields_spaced_iff`).
-/
import Shell.Proofs.Word.LogicalLines

set_option autoImplicit false

namespace Shell.Read

open Shell.Text

variable {ifs : List Char}

/-! ## 1. Texts in a line -/

/-- A character with a backslash before it if it separates fields or is a backslash. -/
def escapeChar (ifs : List Char) (c : Char) : List Char :=
  if c = '\\' ∨ ifs.contains c = true then ['\\', c] else [c]

/-- A backslash stands before each separator and each backslash. -/
def escape (ifs text : List Char) : List Char := text.flatMap (escapeChar ifs)

/-- Texts with a blank between each one and the next. -/
def spaced (texts : List (List Char)) : List Char := [' '].intercalate texts

/-- The line that texts are written into. -/
def escapedLine (ifs : List Char) (texts : List (List Char)) : List Char := spaced (texts.map (escape ifs))

/-- One text needs no blank. -/
theorem spaced_singleton (text : List Char) : spaced [text] = text := List.intercalate_singleton

/-- A blank stands between a text and the next. -/
theorem spaced_cons (text : List Char) {texts : List (List Char)} (h : texts ≠ []) :
    spaced (text :: texts) = text ++ ' ' :: spaced texts := by
  obtain ⟨next, texts, rfl⟩ := List.exists_cons_of_ne_nil h
  unfold spaced
  rw [List.intercalate_cons_cons, List.append_assoc, List.singleton_append]

/-- No other character than a blank comes in with them. -/
theorem not_mem_spaced {c : Char} {texts : List (List Char)} (hc : c ≠ ' ') (h : ∀ text ∈ texts, c ∉ text) :
    c ∉ spaced texts := by
  induction texts with
  | nil => exact List.not_mem_nil
  | cons text texts ih =>
    obtain ⟨htext, htexts⟩ := List.forall_mem_cons.mp h
    by_cases hne : texts = []
    · subst hne
      rw [spaced_singleton]
      exact htext
    · rw [spaced_cons text hne]
      simp [htext, hc, ih htexts]

/-- No other character than a backslash comes in with escapes. -/
theorem not_mem_escape {c : Char} {text : List Char} (hc : c ≠ '\\') (h : c ∉ text) : c ∉ escape ifs text := by
  intro hmem
  obtain ⟨d, hd, hcd⟩ := List.mem_flatMap.mp hmem
  unfold escapeChar at hcd
  have hne : c ≠ d := fun he => h (he ▸ hd)
  split at hcd <;> simp [hc, hne] at hcd

/-- **Backslashes are undone** in front of any other text. -/
theorem unquote_escape {text : List Char} (h : '\n' ∉ text) (rest : List Char) :
    unquote (escape ifs text ++ rest) = text ++ unquote rest := by
  induction text with
  | nil => rfl
  | cons c text ih =>
    have hc : c ≠ '\n' := fun he => h (by simp [he])
    have htext : '\n' ∉ text := fun hmem => h (List.mem_cons_of_mem c hmem)
    have hescape : escape ifs (c :: text) ++ rest = escapeChar ifs c ++ (escape ifs text ++ rest) := by
      simp [escape]
    rw [hescape]
    unfold escapeChar
    by_cases hs : c = '\\' ∨ ifs.contains c = true
    · rw [if_pos hs, List.cons_append, List.singleton_append, unquote, ih htext, List.cons_append]
      exact fun he => hc he
    · rw [if_neg hs, List.singleton_append, unquote_cons fun he => absurd (Or.inl he) hs, ih htext, List.cons_append]

/-- What is left of the line is no longer told from texts without backslashes. -/
theorem unquote_escapedLine {texts : List (List Char)} (h : ∀ text ∈ texts, '\n' ∉ text) :
    unquote (escapedLine ifs texts) = spaced texts := by
  unfold escapedLine
  induction texts with
  | nil => rfl
  | cons text texts ih =>
    obtain ⟨htext, htexts⟩ := List.forall_mem_cons.mp h
    by_cases hne : texts = []
    · subst hne
      have hnil : unquote [] = [] := rfl
      rw [List.map_singleton, spaced_singleton, spaced_singleton, ← List.append_nil (escape ifs text),
        unquote_escape htext, hnil, List.append_nil]
    · rw [List.map_cons, spaced_cons _ (by simpa using hne), unquote_escape htext, spaced_cons text hne,
        unquote_cons fun he => absurd he (by decide), ih htexts]

/-- The line ends with what the last character of the last text is written as. -/
theorem exists_escapedLine_eq {texts : List (List Char)} (hne : texts ≠ []) (h : ∀ text ∈ texts, text ≠ []) :
    ∃ front c, escapedLine ifs texts = front ++ escapeChar ifs c := by
  unfold escapedLine
  induction texts with
  | nil => exact absurd rfl hne
  | cons text texts ih =>
    obtain ⟨htext, htexts⟩ := List.forall_mem_cons.mp h
    by_cases hlast : texts = []
    · subst hlast
      obtain ⟨front, c, rfl⟩ := (List.eq_nil_or_concat text).resolve_left htext
      exact ⟨escape ifs front, c, by simp [spaced, escape]⟩
    · obtain ⟨front, c, hline⟩ := ih hlast htexts
      refine ⟨escape ifs text ++ ' ' :: front, c, ?_⟩
      rw [List.map_cons, spaced_cons _ (by simpa using hlast), hline]
      simp

/-- A backslash at the end of the line is the second of two. -/
theorem backslashes_escapedLine {texts : List (List Char)} (hne : texts ≠ []) (h : ∀ text ∈ texts, text ≠ []) :
    backslashes (escapedLine ifs texts) ≠ 1 := by
  obtain ⟨front, c, hline⟩ : ∃ front c, escapedLine ifs texts = front ++ escapeChar ifs c :=
    exists_escapedLine_eq hne h
  rw [hline]
  unfold backslashes escapeChar
  by_cases hc : c = '\\'
  · subst hc
    simp
  · by_cases hs : c ∈ ifs <;> simp [hc, hs]

/-- **`read` takes the whole line**, and no other one. -/
theorem lines_escapedLine {texts : List (List Char)} (hne : texts ≠ [])
    (h : ∀ text ∈ texts, text ≠ [] ∧ '\n' ∉ text) (rest : List Char) :
    Lines HasOne (escapedLine ifs texts ++ '\n' :: rest) [escapedLine ifs texts ++ ['\n']] rest := by
  -- No text has a newline in it, so the first one ends the line.
  have hnewline : '\n' ∉ escapedLine ifs texts := by
    refine not_mem_spaced (by decide) fun text htext => ?_
    obtain ⟨bare, hbare, rfl⟩ := List.mem_map.mp htext
    exact not_mem_escape (by decide) (h bare hbare).2
  have hinline : ∀ c ∈ escapedLine ifs texts, Input.isInLine c = true := by
    intro c hc
    have hcn : c ≠ '\n' := fun he => hnewline (he ▸ hc)
    simpa [Input.isInLine] using hcn
  have hsplit : splitLine (escapedLine ifs texts ++ '\n' :: rest) = (escapedLine ifs texts ++ ['\n'], rest) := by
    have hd : (escapedLine ifs texts ++ ['\n']).dropWhile Input.isInLine = '\n' :: [] := by
      rw [List.dropWhile_append_of_pos hinline]
      rfl
    have ht : (escapedLine ifs texts ++ ['\n']).takeWhile Input.isInLine = escapedLine ifs texts := by
      rw [List.takeWhile_append_of_pos hinline]
      exact List.append_nil _
    have hfirst := splitLine_of_newline hd rest
    rwa [List.append_assoc, ht] at hfirst
  -- The line does not end with a backslash that joins it to the next.
  have hend : ¬ HasOne (splitLine (escapedLine ifs texts ++ '\n' :: rest)).1 := by
    rw [hsplit]
    rintro ⟨-, hone⟩
    rw [withoutNewline_append] at hone
    exact backslashes_escapedLine hne (fun text htext => (h text htext).1) hone
  have hlast := Lines.last hend
  rwa [hsplit] at hlast

/-! ## 2. Texts that need no backslash -/

/-- Fields that a line can be cut into: no separator in any but the last one, and no white space at its ends. -/
structure Unbroken (ifs : List Char) (fields : List (List Char)) : Prop where
  inner : ∀ field ∈ fields.dropLast, ∀ c ∈ field, ifs.contains c = false
  front : ∀ field ∈ fields.getLast?, ∀ c ∈ field.head?, isMargin ifs c = false
  back : ∀ field ∈ fields.getLast?, ∀ c ∈ field.getLast?, isMargin ifs c = false

/-- What is no separator is no white space that is cut off. -/
theorem not_isMargin_of_not_contains {c : Char} (h : ifs.contains c = false) : isMargin ifs c = false := by
  unfold isMargin
  rw [h, Bool.false_and]

/-- Once it is cut off, the line does not start with any. -/
theorem head?_dropWhile_isMargin (line : List Char) :
    ∀ c ∈ (line.dropWhile (isMargin ifs)).head?, isMargin ifs c = false := by
  intro c hc
  have hnot := List.head?_dropWhile_not (isMargin ifs) line
  rw [Option.mem_def.mp hc] at hnot
  simpa using hnot

/-- White space that is not at the end of a text is not taken off. -/
theorem trimEnd_eq_self {text : List Char} (h : ∀ c ∈ text.getLast?, isMargin ifs c = false) :
    trimEnd (isMargin ifs) text = text := by
  refine trimEnd_of_getLast? fun hspace => ?_
  rw [List.getLast?_map] at hspace
  obtain ⟨c, hc, hs⟩ := Option.map_eq_some_iff.mp hspace
  have hnot := h c hc
  rw [isMargin_iff.mpr hs] at hnot
  cases hnot

/-- Nor does it end with any. -/
theorem getLast?_trimEnd (text : List Char) :
    ∀ c ∈ (trimEnd (isMargin ifs) text).getLast?, isMargin ifs c = false := by
  intro c hc
  unfold trimEnd at hc
  rw [List.getLast?_reverse] at hc
  exact head?_dropWhile_isMargin text.reverse c hc

/-- Cutting at the end leaves the start as it is. -/
theorem head?_trimEnd {text : List Char} (h : ∀ c ∈ text.head?, isMargin ifs c = false) :
    ∀ c ∈ (trimEnd (isMargin ifs) text).head?, isMargin ifs c = false := by
  intro c hc
  obtain ⟨behind, happend⟩ : trimEnd (isMargin ifs) text <+: text := List.rdropWhile_prefix _ text
  exact h c (happend ▸ List.mem_head?_append_of_mem_head? hc)

/-- **The values that `read` assigns** are unbroken fields, whatever the line is. -/
theorem unbroken_takeFields (count : Nat) {line : List Char} (h : ∀ c ∈ line.head?, isMargin ifs c = false) :
    Unbroken ifs (takeFields ifs count line) := by
  induction count generalizing line with
  | zero =>
    refine ⟨nofun, fun field hfield => ?_, fun field hfield => ?_⟩
    · obtain rfl := Option.some.inj hfield
      exact head?_trimEnd h
    · obtain rfl := Option.some.inj hfield
      exact getLast?_trimEnd line
  | succ count ih =>
    have hrest := ih (head?_dropWhile_isMargin ((line.dropWhile fun c => !ifs.contains c).drop 1))
    -- There is a last field, which is none of those cut off at a separator.
    have hne : takeFields ifs count (cutField ifs line).2 ≠ [] := by
      intro hnil
      have hlength : (takeFields ifs count (cutField ifs line).2).length = count + 1 :=
        length_takeFields count _
      rw [hnil] at hlength
      cases hlength
    have hcut : cutField ifs line = (line.takeWhile fun c => !ifs.contains c,
        ((line.dropWhile fun c => !ifs.contains c).drop 1).dropWhile (isMargin ifs)) := by
      unfold cutField
      rw [List.span_eq_takeWhile_dropWhile]
    have hstep : takeFields ifs (count + 1) line =
        (cutField ifs line).1 :: takeFields ifs count (cutField ifs line).2 := rfl
    rw [hcut] at hstep hne
    rw [hstep]
    refine ⟨fun field hfield => ?_, ?_, ?_⟩
    · rw [List.dropLast_cons_of_ne_nil hne] at hfield
      rcases List.mem_cons.mp hfield with rfl | hfield
      · intro c hc
        simpa using List.mem_takeWhile_imp hc
      · exact hrest.inner field hfield
    · rw [List.getLast?_cons_of_ne_nil hne]
      exact hrest.front
    · rw [List.getLast?_cons_of_ne_nil hne]
      exact hrest.back

/-- A text that is not the last has no separator, and the others are unbroken. -/
theorem Unbroken.tail {text : List Char} {texts : List (List Char)} (h : Unbroken ifs (text :: texts))
    (hne : texts ≠ []) : (∀ c ∈ text, ifs.contains c = false) ∧ Unbroken ifs texts := by
  obtain ⟨hinner, hfront, hback⟩ := h
  rw [List.dropLast_cons_of_ne_nil hne, List.forall_mem_cons] at hinner
  rw [List.getLast?_cons_of_ne_nil hne] at hfront hback
  exact ⟨hinner.1, hinner.2, hfront, hback⟩

/-- Unbroken texts have no white space at the front of the first of them. -/
theorem Unbroken.head? {text : List Char} {texts : List (List Char)} (h : Unbroken ifs (text :: texts)) :
    ∀ c ∈ text.head?, isMargin ifs c = false := by
  by_cases hne : texts = []
  · subst hne
    exact h.front text rfl
  · intro c hc
    exact not_isMargin_of_not_contains ((h.tail hne).1 c (List.mem_of_head? hc))

section

variable {texts : List (List Char)} (htexts : ∀ text ∈ texts, text ≠ [])

include htexts

/-- Texts with a blank between them are not empty. -/
theorem spaced_ne_nil (hne : texts ≠ []) : spaced texts ≠ [] := by
  obtain ⟨text, texts, rfl⟩ := List.exists_cons_of_ne_nil hne
  by_cases hlast : texts = []
  · subst hlast
    rw [spaced_singleton]
    exact htexts text List.mem_cons_self
  · rw [spaced_cons text hlast]
    simp

/-- The line starts with no white space. -/
theorem head?_spaced (h : Unbroken ifs texts) : ∀ c ∈ (spaced texts).head?, isMargin ifs c = false := by
  intro c hc
  cases texts with
  | nil => cases hc
  | cons text texts =>
    obtain ⟨first, others, rfl⟩ := List.exists_cons_of_ne_nil (htexts text List.mem_cons_self)
    refine h.head? c ?_
    by_cases hne : texts = []
    · subst hne
      rwa [spaced_singleton] at hc
    · rwa [spaced_cons _ hne] at hc

/-- Nor does it end with any. -/
theorem getLast?_spaced (h : Unbroken ifs texts) : ∀ c ∈ (spaced texts).getLast?, isMargin ifs c = false := by
  induction texts with
  | nil => nofun
  | cons text texts ih =>
    by_cases hne : texts = []
    · subst hne
      rw [spaced_singleton]
      exact h.back text rfl
    · have hothers := (List.forall_mem_cons.mp htexts).2
      rw [spaced_cons text hne, List.getLast?_append_of_ne_nil _ (List.cons_ne_nil _ _),
        List.getLast?_cons_of_ne_nil (spaced_ne_nil hothers hne)]
      exact ih hothers (h.tail hne).2

/-- **Unbroken texts are cut apart** at the blanks between them. -/
theorem takeFields_spaced (hspace : ifs.contains ' ' = true) (hne : texts ≠ []) (h : Unbroken ifs texts) :
    takeFields ifs (texts.length - 1) (spaced texts) = texts := by
  induction texts with
  | nil => exact absurd rfl hne
  | cons text texts ih =>
    obtain ⟨htext, hothers⟩ := List.forall_mem_cons.mp htexts
    by_cases hlast : texts = []
    · subst hlast
      rw [spaced_singleton]
      exact congrArg ([·]) (trimEnd_eq_self (h.back text rfl))
    · obtain ⟨hplain, hrest⟩ := h.tail hlast
      have hlength : (text :: texts).length - 1 = texts.length - 1 + 1 := by
        have := List.length_pos_iff.mpr hlast
        simp only [List.length_cons]
        omega
      have hcut : cutField ifs (text ++ ' ' :: ([] ++ spaced texts)) = (text, spaced texts) :=
        cutField_append hplain hspace nofun (head?_spaced hothers hrest)
      rw [List.nil_append] at hcut
      rw [hlength, spaced_cons text hlast, takeFields, hcut]
      exact congrArg (text :: ·) (ih hothers hlast hrest)

/-- **Which texts are read back from one line.** -/
theorem fields_spaced_iff (hspace : ifs.contains ' ' = true) (hne : texts ≠ []) :
    fields ifs texts.length (spaced texts) = texts ↔ Unbroken ifs texts := by
  unfold fields
  constructor
  · intro h
    rw [← h]
    exact unbroken_takeFields _ (head?_trimEnd (head?_dropWhile_isMargin _))
  · intro h
    have hfront : (spaced texts).dropWhile (isMargin ifs) = spaced texts := by
      have hhead := head?_spaced htexts h
      cases hs : spaced texts with
      | nil => rfl
      | cons c rest =>
        rw [hs] at hhead
        exact List.dropWhile_cons_of_neg (Bool.eq_false_iff.mp (hhead c rfl))
    unfold trimBy
    rw [hfront, trimEnd_eq_self (getLast?_spaced htexts h)]
    exact takeFields_spaced htexts hspace hne h

end

/-! ## 3. Reading them into names -/

/-- A reader of continued lines gets the line and leaves what is behind it. -/
theorem reads_escapedLine {texts : List (List Char)} (hne : texts ≠ [])
    (h : ∀ text ∈ texts, text ≠ [] ∧ '\n' ∉ text) {origin : Delivery.Origin} (ho : origin.Proper) {rest : List Char}
    (hcontent : origin.content = escapedLine ifs texts ++ '\n' :: rest) :
    ∃ bound, ∀ turns, bound ≤ turns →
      ((origin.start [.continued]).run turns).result? origin.reader =
          some (.ok [String.ofList (escapedLine ifs texts ++ ['\n'])]) ∧
        origin.Leaves ((origin.start [.continued]).run turns) rest := by
  obtain ⟨lines, hlines, hflat⟩ := exists_lines origin.content
  have hone : Lines HasOne origin.content lines (splitContinued origin.content).2 :=
    (funext fun line => propext (isContinued_iff line)) ▸ hlines
  have hwhole : Lines HasOne (escapedLine ifs texts ++ '\n' :: rest) [escapedLine ifs texts ++ ['\n']] rest :=
    lines_escapedLine hne h rest
  rw [← hcontent] at hwhole
  obtain ⟨rfl, hrest⟩ := hwhole.unique hone
  have hread := continued_lines ho hflat hrest.symm
  rwa [List.flatten_singleton] at hread

/-- What `read` makes of the line. -/
theorem line_escapedLine {texts : List (List Char)} (hne : texts ≠ [])
    (h : ∀ text ∈ texts, text ≠ [] ∧ '\n' ∉ text) :
    Read.line false (escapedLine ifs texts ++ ['\n']) = (spaced texts, true) := by
  have hlines : Lines HasOne (escapedLine ifs texts ++ ['\n']) [escapedLine ifs texts ++ ['\n']] [] :=
    lines_escapedLine hne h []
  have hread := line_flatten hlines
  have hended : isEnded [escapedLine ifs texts ++ ['\n']] = true := by simp [isEnded]
  rw [List.flatten_singleton, joined, withoutNewline_append, unquote_escapedLine fun text ht => (h text ht).2,
    hended] at hread
  exact hread

/-- **What backslashes protect.** Texts are written into one line, with a backslash before each separator and each
backslash and with blanks between them. `read` takes that line and gives the names the values that the line would give
them without any backslash, so that they get the texts exactly if the texts are unbroken. -/
theorem escaping_protects_iff {names : List String} (hne : names ≠ []) (hdistinct : names.Nodup)
    (hvalid : ∀ name ∈ names, Name.isValid name.toList = true) {texts : List (List Char)}
    (hlength : texts.length = names.length) (htexts : ∀ text ∈ texts, text ≠ [] ∧ '\n' ∉ text) (s : State)
    (hspace : (Expansion.separators s.env).toList.contains ' ' = true) (run : Runner) (c : Context)
    (next : Except Abort Outcome → State → Job Ending) :
    let ifs := (Expansion.separators s.env).toList
    let line := escapedLine ifs texts ++ ['\n']
    ∃ k : String → Job Ending, Builtin.run run .read names c s next = .read c.input ⟨.continued, false, []⟩ k ∧
      (∀ origin : Delivery.Origin, origin.Proper → ∀ rest, origin.content = line ++ rest →
        ∃ bound, ∀ turns, bound ≤ turns →
          ((origin.start [.continued]).run turns).result? origin.reader = some (.ok [String.ofList line]) ∧
            origin.Leaves ((origin.start [.continued]).run turns) rest) ∧
      ∃ after : Environment, k (String.ofList line) = next (.ok (.status 0)) { s with env := after } ∧
        (∀ name, name ∉ names → after.get? name = s.env.get? name) ∧ { after with vars := s.env.vars } = s.env ∧
        (∀ (i : Nat) name, names[i]? = some name →
          after.get? name = ((fields ifs names.length (spaced texts)).map String.ofList)[i]?) ∧
        ((∀ (i : Nat) name, names[i]? = some name → after.get? name = (texts.map String.ofList)[i]?) ↔
          Unbroken ifs texts) := by
  intro ifs line
  have htextsNe : texts ≠ [] := by
    rintro rfl
    exact hne (List.eq_nil_of_length_eq_zero hlength.symm)
  have hargs : readArgs {} names = .ok ⟨false, names⟩ := readArgs_of_isValid _ hvalid
  refine ⟨_, run_read hargs run c s next, fun origin ho rest hcontent => ?_, ?_⟩
  · exact reads_escapedLine htextsNe htexts ho (by rw [hcontent]; simp [line])
  -- There is a value for each name.
  have hvalues : (fields ifs names.length (spaced texts)).length = names.length := by
    refine (length_takeFields _ _).trans (Nat.succ_pred_eq_of_ne_zero fun hzero => hne ?_)
    exact List.eq_nil_of_length_eq_zero hzero
  obtain ⟨hset, hothers, henv⟩ := get?_foldl_set hdistinct hvalues s.env
  have hassign : assign s.env names (spaced texts) = _ := if_neg (by simpa using hne)
  rw [← hassign] at hset hothers henv
  refine ⟨assign s.env names (spaced texts), ?_, hothers, henv, hset, ?_⟩
  · show next (.ok (.status (status (Read.line false (String.ofList line).toList).2))) _ = _
    rw [String.toList_ofList, line_escapedLine htextsNe htexts]
    rfl
  · rw [← fields_spaced_iff (fun text ht => (htexts text ht).1) hspace htextsNe, hlength]
    constructor
    · -- Names that hold the texts hold the same values as they were given.
      intro hall
      refine List.map_injective_iff.mpr (fun _ _ => String.ofList_injective) (List.ext_getElem? fun i => ?_)
      by_cases hi : i < names.length
      · have hname := List.getElem?_eq_getElem hi
        rw [← hset i _ hname, hall i _ hname]
      · have hbeyond : names.length ≤ i := Nat.le_of_not_lt hi
        rw [List.getElem?_eq_none (by rwa [List.length_map, hvalues]),
          List.getElem?_eq_none (by rwa [List.length_map, hlength])]
    · intro heq i name hname
      rw [hset i name hname, heq]

/-- A text with a blank in it and a text with a backslash are read back, where the blank is in the last one. -/
theorem lastBlank_protected :
    ["x", "y"] ≠ [] ∧ ["x", "y"].Nodup ∧ (∀ name ∈ ["x", "y"], Name.isValid name.toList = true) ∧
    ["a\\".toList, "b c".toList].length = ["x", "y"].length ∧
    (∀ text ∈ ["a\\".toList, "b c".toList], text ≠ [] ∧ '\n' ∉ text) ∧
    (Expansion.separators ({} : Environment)).toList.contains ' ' = true ∧
    ∀ next : Except Abort Outcome → State → Job Ending, ∃ k : String → Job Ending,
      Builtin.run (Execution.sequence 0) .read ["x", "y"] ({} : Session).context { env := {} } next =
        .read 0 ⟨.continued, false, []⟩ k ∧
      ∃ after : Environment, k "a\\\\ b\\ c\n" = next (.ok (.status 0)) { env := after } ∧
        after.get? "x" = some "a\\" ∧ after.get? "y" = some "b c" := by
  have hne : ["x", "y"] ≠ [] := by decide
  have hdistinct : ["x", "y"].Nodup := by decide
  have hvalid : ∀ name ∈ ["x", "y"], Name.isValid name.toList = true := by decide
  have hlength : ["a\\".toList, "b c".toList].length = ["x", "y"].length := rfl
  have htexts : ∀ text ∈ ["a\\".toList, "b c".toList], text ≠ [] ∧ '\n' ∉ text := by decide
  have hspace : (Expansion.separators ({} : Environment)).toList.contains ' ' = true := by decide
  refine ⟨hne, hdistinct, hvalid, hlength, htexts, hspace, fun next => ?_⟩
  obtain ⟨k, hrun, -, after, hafter, -, -, -, hiff⟩ := escaping_protects_iff hne hdistinct hvalid hlength htexts
    { env := {} } hspace (Execution.sequence 0) ({} : Session).context next
  -- No text but the last one has a separator in it, and that one has none at its ends.
  have hunbroken : Unbroken (Expansion.separators ({} : Environment)).toList ["a\\".toList, "b c".toList] := by
    refine ⟨?_, ?_, ?_⟩
    · intro field hfield c hc
      obtain rfl := List.mem_singleton.mp hfield
      have hchars : c = 'a' ∨ c = '\\' := by simpa using hc
      rcases hchars with rfl | rfl <;> decide
    · intro field hfield c hc
      obtain rfl := Option.some.inj hfield
      obtain rfl := Option.some.inj hc
      decide
    · intro field hfield c hc
      obtain rfl := Option.some.inj hfield
      obtain rfl := Option.some.inj hc
      decide
  have hall := hiff.mpr hunbroken
  exact ⟨k, hrun, after, hafter, hall 0 "x" rfl, hall 1 "y" rfl⟩

/-- The tree of `read x y`. -/
def readTwo : Sequence :=
  ⟨[⟨⟨false, .simple 1 (some ⟨1, [.literal "read"]⟩) [⟨1, [.literal "x"]⟩, ⟨1, [.literal "y"]⟩] [], []⟩, []⟩]⟩

/-- The blank of the first text is protected, but cuts it. -/
theorem firstBlank_cuts :
    escapedLine " \t\n".toList ["a b".toList, "c".toList] = "a\\ b c".toList ∧
      (({} : Session).runScript readTwo (.ofText "a\\ b c\n")).env.get? "x" = some "a" ∧
      (({} : Session).runScript readTwo (.ofText "a\\ b c\n")).env.get? "y" = some "b c" := by
  decide +kernel

end Shell.Read
