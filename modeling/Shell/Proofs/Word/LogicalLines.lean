/-
The logical line that `read` assembles.

Without `-r` a backslash before a newline joins the next line to a line. `read` decides that at the end of each line,
where a single backslash does it; and it takes the backslashes off when it has all lines, from the front. The two
agree on what a backslash protects: of a line that goes on the single backslash at its end is protected by none, so
it is the one that protects the newline (`joinLines_lines`). What `read` makes of the lines that it takes is therefore
always what their backslashes say (`unquote`).

It is another matter which lines it takes. An odd number of backslashes would join the next line, since all but the
last of them protect each other. `read` stops at three.
-/
import Shell.Proofs.Channel.Sharing
import Shell.Proofs.Word.ReadFields

set_option autoImplicit false

namespace Shell

open Shell.Text

/-! ## 1. Lines that go on -/

/-- The physical lines of a logical line, and the text behind them: each goes on in the next one, but the last one
does not. -/
inductive Lines (goesOn : List Char → Prop) : List Char → List (List Char) → List Char → Prop where
  | last {text : List Char} (h : ¬ goesOn (splitLine text).1) :
      Lines goesOn text [(splitLine text).1] (splitLine text).2
  | more {text rest : List Char} {lines : List (List Char)} (h : goesOn (splitLine text).1)
      (hl : Lines goesOn (splitLine text).2 lines rest) :
      Lines goesOn text ((splitLine text).1 :: lines) rest

section

variable {goesOn goesOn' : List Char → Prop} {text rest : List Char} {lines : List (List Char)}

theorem Lines.ne_nil (h : Lines goesOn text lines rest) : lines ≠ [] := by
  cases h <;> exact List.cons_ne_nil _ _

/-- A rule takes the same lines every time. -/
theorem Lines.unique {lines' : List (List Char)} {rest' : List Char} (h : Lines goesOn text lines rest)
    (h' : Lines goesOn text lines' rest') : lines' = lines ∧ rest' = rest := by
  induction h generalizing lines' with
  | last hl =>
    cases h' with
    | last _ => exact ⟨rfl, rfl⟩
    | more hl' _ => exact absurd hl' hl
  | more hl _ ih =>
    cases h' with
    | last hl' => exact absurd hl hl'
    | more _ h' =>
      obtain ⟨rfl, rfl⟩ := ih h'
      exact ⟨rfl, rfl⟩

/-- **Two rules** take the same lines if no line goes on by the weaker one and not by the other. -/
theorem Lines.iff (h : Lines goesOn text lines rest) (himp : ∀ line, goesOn line → goesOn' line) :
    Lines goesOn' text lines rest ↔ ∀ line ∈ lines, goesOn' line → goesOn line := by
  induction h with
  | @last text hl =>
    constructor
    · intro h' line hline hgo
      rw [List.mem_singleton.mp hline] at hgo
      cases h' with
      | last hl' => exact absurd hgo hl'
      | more _ hnone => exact absurd rfl hnone.ne_nil
    · exact fun hall => .last fun hgo => hl (hall _ List.mem_cons_self hgo)
  | @more text rest lines hl hrest ih =>
    constructor
    · intro h' line hline hgo
      rcases List.mem_cons.mp hline with rfl | hline
      · exact hl
      · cases h' with
        | last _ => exact absurd rfl hrest.ne_nil
        | more _ h' => exact ih.mp h' line hline hgo
    · exact fun hall => .more (himp _ hl) (ih.mpr fun line hline => hall line (List.mem_cons_of_mem _ hline))

end

/-- What a reader of continued lines takes off a text. -/
theorem exists_lines (text : List Char) : ∃ lines,
    Lines (fun line => World.isContinued line = true) text lines (splitContinued text).2 ∧
      lines.flatten = (splitContinued text).1 := by
  induction text using splitContinued.induct with
  | case1 text hc ih =>
    obtain ⟨lines, hl, hflat⟩ := ih
    rw [splitContinued, if_pos hc]
    exact ⟨_, .more hc hl, congrArg _ hflat⟩
  | case2 text hc =>
    rw [splitContinued, if_neg hc]
    exact ⟨_, .last hc, List.append_nil _⟩

/-- The first line of a text: one with a newline behind it, or all of the text. -/
theorem splitLine_cases (text : List Char) : ∃ line, '\n' ∉ line ∧
    ((splitLine text).1 = line ++ ['\n'] ∨ (splitLine text).1 = line) := by
  have hline {line : List Char} (h : ∀ c ∈ line, Input.isInLine c = true) : '\n' ∉ line :=
    fun hmem => absurd (h '\n' hmem) (by decide)
  have htake : '\n' ∉ text.takeWhile Input.isInLine := hline fun c hc => List.mem_takeWhile_imp hc
  unfold splitLine
  split
  · next hnone => exact ⟨text, hline (List.dropWhile_eq_nil_iff.mp hnone), .inr rfl⟩
  · next newline rest hd =>
    have hnewline : newline = '\n' := by
      have hhead := List.head?_dropWhile_not Input.isInLine text
      rw [hd] at hhead
      simpa [Input.isInLine] using hhead
    exact ⟨_, htake, .inl (by rw [hnewline])⟩

namespace Read

/-! ## 2. The end of a line -/

/-- A line without its newline. -/
def withoutNewline (line : List Char) : List Char :=
  if line.getLast? = some '\n' then line.dropLast else line

/-- How many backslashes a text ends with. -/
def backslashes (text : List Char) : Nat := (text.reverse.takeWhile (· == '\\')).length

/-- The backslash before the newline of a line is protected by none, for they protect each other. -/
def GoesOn (line : List Char) : Prop :=
  line.getLast? = some '\n' ∧ backslashes (withoutNewline line) % 2 = 1

/-- There is one backslash before the newline. -/
def HasOne (line : List Char) : Prop :=
  line.getLast? = some '\n' ∧ backslashes (withoutNewline line) = 1

instance (line : List Char) : Decidable (GoesOn line) := inferInstanceAs (Decidable (_ ∧ _))

instance (line : List Char) : Decidable (HasOne line) := inferInstanceAs (Decidable (_ ∧ _))

theorem HasOne.goesOn {line : List Char} (h : HasOne line) : GoesOn line :=
  ⟨h.1, by rw [h.2]⟩

@[simp] theorem withoutNewline_append (line : List Char) : withoutNewline (line ++ ['\n']) = line := by
  simp [withoutNewline]

theorem withoutNewline_of_not_mem {line : List Char} (h : '\n' ∉ line) : withoutNewline line = line :=
  if_neg fun he => h (List.mem_of_getLast? he)

/-- That is what `read` looks for. -/
theorem isContinued_iff (line : List Char) : World.isContinued line = true ↔ HasOne line := by
  obtain ⟨back, rfl⟩ : ∃ back : List Char, line = back.reverse := ⟨line.reverse, line.reverse_reverse.symm⟩
  unfold World.isContinued HasOne
  rw [List.reverse_reverse, List.getLast?_reverse]
  cases back with
  | nil => simp
  | cons c back =>
    by_cases hc : c = '\n'
    · subst hc
      rw [List.reverse_cons, withoutNewline_append, backslashes, List.reverse_reverse]
      rcases back with - | ⟨d, - | ⟨e, back⟩⟩
      · simp
      · by_cases hd : d = '\\' <;> simp [hd]
      · by_cases hd : d = '\\' <;> by_cases he : e = '\\' <;> simp [hd, he]
    · simp [hc]

/-! ## 3. What backslashes say -/

/-- A text without each backslash that protects a character, and without a newline that is protected. A backslash
at the end protects nothing. -/
def unquote : List Char → List Char
  | '\\' :: '\n' :: cs => unquote cs
  | '\\' :: c :: cs => c :: unquote cs
  | c :: cs => c :: unquote cs
  | [] => []

/-- All lines without the newline of the last one. -/
def joined : List (List Char) → List Char
  | [] => []
  | [line] => withoutNewline line
  | line :: lines => line ++ joined lines

/-- Whether a newline ends the last line. -/
def isEnded (lines : List (List Char)) : Bool := (lines.getLast?.getD []).getLast? == some '\n'

theorem joined_cons (line : List Char) {lines : List (List Char)} (h : lines ≠ []) :
    joined (line :: lines) = line ++ joined lines := by
  obtain ⟨next, lines, rfl⟩ := List.exists_cons_of_ne_nil h
  rfl

theorem isEnded_cons (line : List Char) {lines : List (List Char)} (h : lines ≠ []) :
    isEnded (line :: lines) = isEnded lines := by
  obtain ⟨next, lines, rfl⟩ := List.exists_cons_of_ne_nil h
  simp [isEnded]

/-- A character that is no backslash stays, and so does a backslash at the end. -/
theorem unquote_cons {c : Char} {cs : List Char} (h : c = '\\' → cs = []) :
    unquote (c :: cs) = c :: unquote cs := by
  by_cases hc : c = '\\'
  · rw [hc, h hc]
    rfl
  · rw [unquote]
    · exact fun _ he => absurd he hc
    · exact fun _ _ he => absurd he hc

/-- In one line backslashes have only characters to protect. -/
theorem unescapeFrom_eq (done text : List Char) (h : '\n' ∉ text) :
    unescapeFrom done text = done.reverse ++ unquote text := by
  induction done, text using unescapeFrom.induct with
  | case1 done c cs ih =>
    have hc : c ≠ '\n' := fun hc => h (by simp [hc])
    rw [unescapeFrom, ih fun hmem => h (by simp [hmem]), unquote]
    · simp
    · exact fun he => hc he
  | case2 done c cs hnot ih =>
    have hend : c = '\\' → cs = [] := fun hc =>
      List.eq_nil_iff_forall_not_mem.mpr fun d hd => by
        obtain ⟨first, others, rfl⟩ := List.exists_cons_of_ne_nil (List.ne_nil_of_mem hd)
        exact hnot first others hc rfl
    rw [unescapeFrom, ih fun hmem => h (by simp [hmem]), unquote_cons hend]
    · simp
    · exact hnot
  | case3 done =>
    rw [unescapeFrom, unquote, List.append_nil]

/-- **A protected newline** goes away with its backslash, if no backslash stands before that. -/
theorem unquote_join {front : List Char} (h : front.getLast? ≠ some '\\') (more : List Char) :
    unquote (front ++ '\\' :: '\n' :: more) = unquote (front ++ more) := by
  have hbehind {c : Char} {cs : List Char} (h : (c :: cs).getLast? ≠ some '\\') :
      cs.getLast? ≠ some '\\' := fun he => h (by rw [List.getLast?_cons, he]; rfl)
  -- The induction follows the pairs that `unquote` takes off, and the added backslash is never the second of one.
  induction front using unquote.induct with
  | case1 cs ih =>
    simp only [List.cons_append, unquote]
    exact ih (hbehind (hbehind h))
  | case2 c cs hc ih =>
    rw [List.cons_append, List.cons_append, unquote, ih (hbehind (hbehind h)), List.cons_append,
      List.cons_append, unquote]
    · exact hc
    · exact hc
  | case3 c cs _ hnot ih =>
    have hc : c ≠ '\\' := by
      rintro rfl
      cases cs with
      | nil => exact h rfl
      | cons d cs => exact hnot d cs rfl rfl
    rw [List.cons_append, List.cons_append, unquote_cons (fun he => absurd he hc),
      unquote_cons (fun he => absurd he hc), ih (hbehind h)]
  | case4 => rfl

/-! ## 4. All lines -/

theorem joinLines_append {line : List Char} (h : '\n' ∉ line) (done more : List Char) :
    joinLines done (line ++ more) = joinLines (line.reverse ++ done) more := by
  induction line generalizing done with
  | nil => rfl
  | cons c line ih =>
    obtain ⟨hc, hline⟩ := not_or.mp fun he => h (List.mem_cons.mpr he)
    rw [List.cons_append, joinLines, ih hline]
    · simp
    · exact fun he => hc he.symm

/-- A newline behind one backslash joins the next line. -/
theorem joinLines_one {done : List Char} (h : done.head? ≠ some '\\') (more : List Char) :
    joinLines ('\\' :: done) ('\n' :: more) = joinLines done more := by
  rw [joinLines]
  rintro before rfl
  exact h rfl

/-- Any other newline ends the line. -/
theorem joinLines_end {done : List Char} (h : ∀ before, done = '\\' :: before → before.head? = some '\\')
    (more : List Char) : joinLines done ('\n' :: more) = (done.reverse, true) := by
  by_cases hc : done.head? = some '\\'
  · obtain ⟨before, rfl⟩ := List.head?_eq_some_iff.mp hc
    obtain ⟨before, rfl⟩ := List.head?_eq_some_iff.mp (h before rfl)
    rw [joinLines]
  · rw [joinLines]
    · rintro before rfl
      exact hc rfl
    · rintro before rfl
      exact hc rfl

/-- The end of the last line decides whether it is a whole one. -/
theorem joinLines_last {line done : List Char} (hline : '\n' ∉ line) (hdone : done.head? ≠ some '\\')
    (hlast : ¬ HasOne (line ++ ['\n'])) :
    joinLines done (line ++ ['\n']) = (done.reverse ++ line, true) := by
  have hback : (line ++ ['\n']).getLast? = some '\n' := List.getLast?_concat
  have hcount : backslashes line ≠ 1 := fun hone => hlast ⟨hback, by rwa [withoutNewline_append]⟩
  rw [joinLines_append hline, joinLines_end]
  · simp
  · intro before hbefore
    unfold backslashes at hcount
    generalize line.reverse = back at hbefore hcount
    rcases back with - | ⟨c, - | ⟨d, back⟩⟩
    · exact absurd (congrArg List.head? hbefore) hdone
    · obtain ⟨rfl, -⟩ := List.cons.inj hbefore
      exact absurd rfl hcount
    · obtain ⟨rfl, rfl⟩ := List.cons.inj hbefore
      by_cases hd : d = '\\'
      · rw [hd]
        rfl
      · simp [hd] at hcount

/-- A line that goes on, with the backslash that protects its newline. -/
theorem HasOne.exists_front {text : List Char} (h : HasOne (splitLine text).1) :
    ∃ front, '\n' ∉ front ∧ front.getLast? ≠ some '\\' ∧ (splitLine text).1 = front ++ ['\\', '\n'] := by
  obtain ⟨line, hline, hfirst⟩ := splitLine_cases text
  obtain ⟨hlast, hone⟩ := h
  rcases hfirst with hfirst | hfirst
  · rw [hfirst, withoutNewline_append] at hone
    obtain ⟨back, rfl⟩ : ∃ back : List Char, line = back.reverse := ⟨line.reverse, line.reverse_reverse.symm⟩
    rw [backslashes, List.reverse_reverse] at hone
    cases back with
    | nil => cases hone
    | cons c back =>
      have hc : c = '\\' := by
        by_contra hc
        simp [hc] at hone
      subst hc
      -- A backslash before this one would be the second.
      refine ⟨back.reverse, fun hmem => hline (by simp_all), ?_, by rw [hfirst]; simp⟩
      rw [List.getLast?_reverse]
      intro hd
      obtain ⟨back, rfl⟩ := List.head?_eq_some_iff.mp hd
      simp at hone
  · rw [hfirst] at hlast
    exact absurd (List.mem_of_getLast? hlast) hline

/-- **The lines of a logical line**, behind what has been joined before. All that was protected at their ends is gone,
and no newline is left. -/
theorem joinLines_lines {text rest : List Char} {lines : List (List Char)} (hl : Lines HasOne text lines rest)
    {done : List Char} (hdone : done.head? ≠ some '\\') (hnewline : '\n' ∉ done) :
    ∃ line, joinLines done lines.flatten = (line, isEnded lines) ∧ '\n' ∉ line ∧
      unquote line = unquote (done.reverse ++ joined lines) := by
  induction hl generalizing done with
  | @last text hlast =>
    obtain ⟨line, hline, hfirst⟩ := splitLine_cases text
    have hnone : '\n' ∉ done.reverse ++ line := by simp [hline, hnewline]
    generalize (splitLine text).1 = first at hlast hfirst
    rw [List.flatten_singleton]
    rcases hfirst with rfl | rfl
    · refine ⟨done.reverse ++ line, ?_, hnone, ?_⟩
      · rw [joinLines_last hline hdone hlast]
        simp [isEnded]
      · rw [joined, withoutNewline_append]
    · -- The text has come to its end without a newline.
      refine ⟨done.reverse ++ first, ?_, hnone, ?_⟩
      · have hback : first.getLast? ≠ some '\n' := fun he => hline (List.mem_of_getLast? he)
        have happend := joinLines_append hline done []
        rw [List.append_nil] at happend
        rw [happend, joinLines]
        simp [isEnded, hback]
      · rw [joined, withoutNewline_of_not_mem hline]
  | @more text rest lines hone hrest ih =>
    -- The next lines are joined behind what is before the backslash, where there is no other one.
    obtain ⟨front, hfront, hback, hfirst⟩ := hone.exists_front
    rw [hfirst]
    have hhead : (front.reverse ++ done).head? ≠ some '\\' := by
      rw [List.head?_append, List.head?_reverse]
      cases hf : front.getLast? with
      | none => simpa using hdone
      | some c =>
        rw [hf] at hback
        simpa using hback
    obtain ⟨joint, hjoin, hnone, hquote⟩ := ih hhead (by simp [hfront, hnewline])
    refine ⟨joint, ?_, hnone, ?_⟩
    · rw [List.flatten_cons, List.append_assoc, joinLines_append hfront, List.cons_append, joinLines,
        List.cons_append, List.nil_append, joinLines_one hhead, hjoin, isEnded_cons _ hrest.ne_nil]
      decide
    · rw [hquote, joined_cons _ hrest.ne_nil]
      have hlast : (done.reverse ++ front).getLast? ≠ some '\\' := by
        rw [← List.head?_reverse, List.reverse_append, List.reverse_reverse]
        exact hhead
      have hprotected := unquote_join hlast (joined lines)
      simpa using hprotected.symm

/-! ## 5. Reading a logical line -/

/-- What `read` makes of all lines that it has taken. -/
theorem line_flatten {text rest : List Char} {lines : List (List Char)} (hl : Lines HasOne text lines rest) :
    Read.line false lines.flatten = (unquote (joined lines), isEnded lines) := by
  obtain ⟨joint, hjoin, hnone, hquote⟩ := joinLines_lines hl (List.head?_nil ▸ nofun) List.not_mem_nil
  have hplain := unescapeFrom_eq [] joint hnone
  show (unescape (joinLines [] lines.flatten).1, (joinLines [] lines.flatten).2) = _
  rw [hjoin, unescape, hplain, hquote]
  rfl

/-- A reader that asks for continued lines gets those that have one backslash before their newlines, and the line
after them. -/
theorem continued_lines {origin : Delivery.Origin} (ho : origin.Proper) {lines : List (List Char)}
    {rest : List Char} (hl : lines.flatten = (splitContinued origin.content).1)
    (hr : rest = (splitContinued origin.content).2) :
    ∃ bound, ∀ turns, bound ≤ turns →
      ((origin.start [.continued]).run turns).result? origin.reader =
          some (.ok [String.ofList lines.flatten]) ∧
        origin.Leaves ((origin.start [.continued]).run turns) rest := by
  obtain ⟨bound, hruns⟩ := origin.run_shares ho [.continued]
  refine ⟨bound, fun turns ht => ?_⟩
  obtain ⟨got, left, hresult, hs, hleaves⟩ := hruns turns ht
  obtain ⟨front, rfl, hcontent, htakes⟩ := hs.of_singleton
  have hsplit : splitContinued origin.content = (front, left) := (congrArg splitContinued hcontent).trans htakes
  rw [hl, hr, hsplit]
  exact ⟨hresult, hleaves⟩

/-- **`read` assembles a logical line.** It takes the first lines of what is to be read, wherever that comes from: those
with one backslash before the newline, and the line behind them. So they are the lines that go on and the one behind
them, if none of them goes on with more than one backslash, and only then. REPLY gets what their backslashes say,
and the status is 0 if a newline ends the last of them, and 1 otherwise. -/
theorem read_assembles (run : Runner) (c : Context) (s : State)
    (next : Except Abort Outcome → State → Job Ending) :
    ∃ k : String → Job Ending, Builtin.run run .read [] c s next = .read c.input ⟨.continued, false, []⟩ k ∧
      ∀ text : List Char, ∃ lines rest, Lines HasOne text lines rest ∧
        (Lines GoesOn text lines rest ↔ ∀ line ∈ lines, GoesOn line → HasOne line) ∧
        (∀ origin : Delivery.Origin, origin.Proper → origin.content = text →
          ∃ bound, ∀ turns, bound ≤ turns → ((origin.start [.continued]).run turns).result? origin.reader =
              some (.ok [String.ofList lines.flatten]) ∧
            origin.Leaves ((origin.start [.continued]).run turns) rest) ∧
        k (String.ofList lines.flatten) = next (.ok (.status (if isEnded lines then 0 else 1)))
          { s with env := s.env.set "REPLY" (String.ofList (unquote (joined lines))) } := by
  have hargs : readArgs {} [] = .ok {} := rfl
  refine ⟨_, run_read hargs run c s next, fun text => ?_⟩
  obtain ⟨lines, hlines, hflat⟩ := exists_lines text
  have hone : Lines HasOne text lines (splitContinued text).2 :=
    (funext fun line => propext (isContinued_iff line)) ▸ hlines
  refine ⟨lines, _, hone, hone.iff fun _ => HasOne.goesOn, ?_, ?_⟩
  · rintro origin ho rfl
    exact continued_lines ho hflat rfl
  · show next (.ok (.status (status (Read.line false (String.ofList _).toList).2))) _ = _
    rw [String.toList_ofList, line_flatten hone]
    rfl

/-- Two lines that are one, and a third one that is left. -/
theorem twoLines_assembled :
    Lines GoesOn "a\\\nb\nc".toList ["a\\\n".toList, "b\n".toList] "c".toList ∧
      ∀ next : Except Abort Outcome → State → Job Ending, ∃ k : String → Job Ending,
        Builtin.run (Execution.sequence 0) .read [] ({} : Session).context { env := {} } next =
          .read 0 ⟨.continued, false, []⟩ k ∧
        k "a\\\nb\n" = next (.ok (.status 0)) { env := ({} : Environment).set "REPLY" "ab" } := by
  refine ⟨.more (by decide) (.last (by decide)), fun next => ?_⟩
  obtain ⟨k, hrun, hk⟩ := read_assembles (Execution.sequence 0) ({} : Session).context { env := {} } next
  obtain ⟨lines, rest, hlines, -, -, hvalue⟩ := hk "a\\\nb\nc".toList
  have htwo : Lines HasOne "a\\\nb\nc".toList ["a\\\n".toList, "b\n".toList] "c".toList :=
    .more (by decide) (.last (by decide))
  obtain ⟨rfl, -⟩ := htwo.unique hlines
  exact ⟨k, hrun, hvalue⟩

/-- The tree of `read`. -/
def readReply : Sequence :=
  ⟨[⟨⟨false, .simple 1 (some ⟨1, [.literal "read"]⟩) [] [], []⟩, []⟩]⟩

/-- The last of three backslashes protects the newline, but `read` stops there. -/
theorem threeBackslashes_stop :
    Lines GoesOn "a\\\\\\\nb\n".toList ["a\\\\\\\n".toList, "b\n".toList] [] ∧
      unquote (joined ["a\\\\\\\n".toList, "b\n".toList]) = "a\\b".toList ∧
      (({} : Session).runScript readReply (.ofText "a\\\\\\\nb\n")).env.get? "REPLY" = some "a\\\\" := by
  refine ⟨.more (by decide) (.last (by decide)), by decide, ?_⟩
  decide +kernel

end Read

end Shell
