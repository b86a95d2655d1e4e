/-
The lines of a text, and `tac`.

A line ends at a newline or at the end of the text. So a text is its lines with newlines between them, and one more
newline at the end if the last line is ended (`AreLines`). `tac` cuts the text at every line boundary of Unicode, and
it lays out what it has cut with newlines. That makes no difference where newlines are the only boundaries, and any
other boundary becomes a newline (`reversed_eq_iff`).

What `tac` has written has newlines as its only boundaries. So a second `tac` gives the first text back if that had no
others either, with one more exception: an empty line at the front of a text that does not end with a newline comes
to stand at the end, where it is the newline behind the line before it.
-/
import Shell.Proofs.Channel.Sharing
import Shell.Proofs.Exec.Listing

set_option autoImplicit false

namespace Shell

open Text

/-! ## 1. Lines -/

/-- Lines with newlines between them, and with one behind the last line if that is `ended`. -/
def layOut (ended : Bool) (lines : List (List Char)) : List Char :=
  ['\n'].intercalate lines ++ if ended then ['\n'] else []

/-- The lines of a text. They have no newlines in them, and only a line that a newline ends can be empty at the end. -/
structure AreLines (text : List Char) (lines : List (List Char)) (ended : Bool) : Prop where
  inLine : ∀ line ∈ lines, '\n' ∉ line
  laidOut : layOut ended lines = text
  last : if ended then lines ≠ [] else lines.getLast? ≠ some []

@[simp] theorem layOut_nil : layOut false [] = [] := rfl

@[simp] theorem layOut_singleton (ended : Bool) (line : List Char) :
    layOut ended [line] = line ++ if ended then ['\n'] else [] := by
  simp [layOut]

@[simp] theorem layOut_cons_cons (ended : Bool) (line next : List Char) (lines : List (List Char)) :
    layOut ended (line :: next :: lines) = line ++ '\n' :: layOut ended (next :: lines) := by
  simp [layOut, List.intercalate_cons_cons]

/-- An empty line behind others is the newline behind the last of them. -/
theorem layOut_append_nil {lines : List (List Char)} (hne : lines ≠ []) :
    layOut false (lines ++ [[]]) = layOut true lines := by
  induction lines with
  | nil => exact absurd rfl hne
  | cons line lines ih =>
    cases lines with
    | nil => simp
    | cons next lines =>
      have hrest := ih (List.cons_ne_nil next lines)
      simpa using hrest

/-- The characters of a text are those of its lines and newlines. -/
theorem mem_layOut_of_ne {ended : Bool} {lines : List (List Char)} {c : Char} (hc : c ≠ '\n') :
    c ∈ layOut ended lines ↔ ∃ line ∈ lines, c ∈ line := by
  induction lines with
  | nil => cases ended <;> simp [layOut, hc]
  | cons line lines ih =>
    cases lines with
    | nil => cases ended <;> simp [hc]
    | cons next lines => rw [layOut_cons_cons, List.mem_append, List.mem_cons, ih]; simp [hc]

theorem getLast?_layOut {lines : List (List Char)} (h : lines.getLast? ≠ some []) :
    (layOut false lines).getLast? = lines.getLast?.bind List.getLast? := by
  induction lines with
  | nil => rfl
  | cons line lines ih =>
    cases lines with
    | nil => simp
    | cons next lines =>
      rw [List.getLast?_cons_cons] at h ⊢
      have hne : layOut false (next :: lines) ≠ [] := by
        intro hnil
        have hnone := ih h
        rw [hnil, List.getLast?_nil] at hnone
        obtain ⟨last, hlast⟩ := Option.ne_none_iff_exists'.mp
          (mt List.getLast?_eq_none_iff.mp (List.cons_ne_nil next lines))
        rw [hlast, Option.bind_some] at hnone
        rw [hlast, List.getLast?_eq_none_iff.mp hnone.symm] at h
        exact h rfl
      rw [layOut_cons_cons, List.getLast?_append, ← List.singleton_append, List.getLast?_append, ← ih h]
      obtain ⟨c, hc⟩ := Option.ne_none_iff_exists'.mp (mt List.getLast?_eq_none_iff.mp hne)
      rw [hc]
      rfl

namespace AreLines

variable {text : List Char} {lines : List (List Char)} {ended : Bool}

theorem ended_iff (h : AreLines text lines ended) : ended = true ↔ text.getLast? = some '\n' := by
  obtain ⟨hline, rfl, hlast⟩ := h
  cases ended with
  | true => simp [layOut]
  | false =>
    refine iff_of_false Bool.false_ne_true fun hnewline => ?_
    rw [getLast?_layOut hlast] at hnewline
    obtain ⟨line, hmem, hend⟩ := Option.bind_eq_some_iff.mp hnewline
    exact hline line (List.mem_of_getLast? hmem) (List.mem_of_getLast? hend)

/-- What stands between the newlines of a text: its lines, and the end of the text if a newline stands before it. -/
theorem splitOn_eq (h : AreLines text lines ended) :
    text.splitOn '\n' = if ended then lines ++ [[]] else if lines = [] then [[]] else lines := by
  obtain ⟨hline, rfl, hlast⟩ := h
  cases ended with
  | true =>
    have hline' : ∀ line ∈ lines ++ [[]], '\n' ∉ line := by
      intro line hmem
      rcases List.mem_append.mp hmem with hmem | hmem
      · exact hline line hmem
      · rw [List.mem_singleton.mp hmem]
        exact List.not_mem_nil
    have hsplit := List.splitOn_intercalate '\n' hline' (by simp)
    rw [← layOut_append_nil hlast, if_pos rfl]
    simpa [layOut] using hsplit
  | false =>
    by_cases hnil : lines = []
    · subst hnil
      rfl
    · have hsplit := List.splitOn_intercalate '\n' hline hnil
      simpa [layOut, hnil] using hsplit

theorem unique {lines' : List (List Char)} {ended' : Bool} (h : AreLines text lines ended)
    (h' : AreLines text lines' ended') : lines' = lines ∧ ended' = ended := by
  obtain rfl : ended' = ended := Bool.eq_iff_iff.mpr (h'.ended_iff.trans h.ended_iff.symm)
  refine ⟨?_, rfl⟩
  have hsplit := h'.splitOn_eq.symm.trans h.splitOn_eq
  have hlast := h.last
  have hlast' := h'.last
  cases ended' with
  | true => simpa using hsplit
  | false =>
    -- No lines at all and one empty line would be cut alike, but an empty line does not stand at the end.
    have hone : lines ≠ [[]] := by
      rintro rfl
      exact hlast rfl
    have hone' : lines' ≠ [[]] := by
      rintro rfl
      exact hlast' rfl
    by_cases hnil : lines = [] <;> by_cases hnil' : lines' = [] <;>
      simp only [hnil, hnil', Bool.false_eq_true, if_true, if_false] at hsplit
    · rw [hnil, hnil']
    · exact absurd hsplit hone'
    · exact absurd hsplit.symm hone
    · exact hsplit

end AreLines

/-- **Every text has lines.** -/
theorem exists_areLines (text : List Char) : ∃ lines ended, AreLines text lines ended := by
  -- From the right: a character is put in front of the first line, or begins one.
  induction text with
  | nil => exact ⟨[], false, nofun, rfl, nofun⟩
  | cons c text ih =>
    obtain ⟨lines, ended, hline, rfl, hlast⟩ := ih
    by_cases hc : c = '\n'
    · -- A newline ends an empty line.
      subst hc
      cases lines with
      | nil =>
        cases ended with
        | true => exact absurd rfl hlast
        | false => exact ⟨[[]], true, by simp, by simp, by simp⟩
      | cons line lines =>
        refine ⟨[] :: line :: lines, ended, ?_, by simp, by cases ended <;> simp_all⟩
        exact List.forall_mem_cons.mpr ⟨List.not_mem_nil, hline⟩
    · cases lines with
      | nil =>
        cases ended with
        | true => exact absurd rfl hlast
        | false => exact ⟨[[c]], false, by simp [Ne.symm hc], by simp, by simp⟩
      | cons line lines =>
        obtain ⟨hfirst, hlines⟩ := List.forall_mem_cons.mp hline
        refine ⟨(c :: line) :: lines, ended, ?_, ?_, ?_⟩
        · exact List.forall_mem_cons.mpr ⟨by simp [hfirst, Ne.symm hc], hlines⟩
        · cases lines <;> simp
        · cases ended with
          | true => simp
          | false =>
            cases lines with
            | nil => simp
            | cons next lines => simpa using hlast

/-! ## 2. Cutting at boundaries -/

/-- Newlines are the only boundaries of lines in a text. -/
def OnlyNewlines (text : List Char) : Prop := ∀ c ∈ text, isLineBoundary c = true → c = '\n'

theorem splitLinesFrom_append {line : List Char} (h : ∀ c ∈ line, isLineBoundary c = false)
    (content rest : List Char) (done : List Text.Line) :
    splitLinesFrom content done (line ++ rest) = splitLinesFrom (line.reverse ++ content) done rest := by
  induction line generalizing content with
  | nil => rfl
  | cons c line ih =>
    obtain ⟨hc, hline⟩ := List.forall_mem_cons.mp h
    have hne : c ≠ '\r' := by
      rintro rfl
      cases hc
    rw [List.cons_append, splitLinesFrom, hc, if_neg Bool.false_ne_true, ih hline]
    · simp
    · rintro _ rfl
      exact absurd rfl hne

/-- What has been cut off before stays in front. -/
theorem splitLinesFrom_behind (content text : List Char) (done before : List Text.Line) :
    splitLinesFrom content (done ++ before) text = before.reverse ++ splitLinesFrom content done text := by
  fun_induction splitLinesFrom content done text with
  | case1 done => rw [splitLinesFrom, List.reverse_append]
  | case2 content done hne =>
    rw [splitLinesFrom, ← List.cons_append, List.reverse_append]
    exact hne
  | case3 content done cs ih =>
    rw [splitLinesFrom]
    exact ih
  | case4 content done c cs hne hc ih =>
    rw [splitLinesFrom, if_pos hc]
    · exact ih
    · exact hne
  | case5 content done c cs hne hc ih =>
    rw [splitLinesFrom, if_neg hc]
    · exact ih
    · exact hne

/-- A line that a newline ends, in front of other text. -/
theorem splitLines_line {line : List Char} (h : ∀ c ∈ line, isLineBoundary c = false) (rest : List Char) :
    splitLines (line ++ '\n' :: rest) = ⟨line, ['\n']⟩ :: splitLines rest := by
  have hnewline : isLineBoundary '\n' = true := by decide
  unfold splitLines
  rw [splitLinesFrom_append h, splitLinesFrom, if_pos hnewline]
  · simpa using splitLinesFrom_behind [] rest [] [⟨line, ['\n']⟩]
  · nofun

theorem splitLines_last {line : List Char} (h : ∀ c ∈ line, isLineBoundary c = false) (hne : line ≠ []) :
    splitLines line = [⟨line, []⟩] := by
  have happend := splitLinesFrom_append h [] [] []
  rw [List.append_nil] at happend
  unfold splitLines
  rw [happend, splitLinesFrom]
  · simp
  · simpa using hne

/-- Where newlines are the only boundaries, a text is cut into its lines. -/
theorem AreLines.contents_splitLines {text : List Char} {lines : List (List Char)} {ended : Bool}
    (h : AreLines text lines ended) (honly : OnlyNewlines text) :
    (splitLines text).map (·.content) = lines := by
  obtain ⟨hline, rfl, hlast⟩ := h
  induction lines with
  | nil =>
    cases ended with
    | true => exact absurd rfl hlast
    | false => rfl
  | cons line lines ih =>
    obtain ⟨hfirst, hlines⟩ := List.forall_mem_cons.mp hline
    -- A line has no newline in it, and the text has no other boundary.
    have hplain : ∀ c ∈ line, isLineBoundary c = false := by
      intro c hc
      refine eq_false_of_ne_true fun hboundary => hfirst ?_
      have hmem : c ∈ layOut ended (line :: lines) := by
        cases lines <;> simp [hc]
      rwa [honly c hmem hboundary] at hc
    cases lines with
    | nil =>
      cases ended with
      | true =>
        rw [layOut_singleton, if_pos rfl, splitLines_line hplain]
        rfl
      | false =>
        rw [layOut_singleton, if_neg Bool.false_ne_true, List.append_nil,
          splitLines_last hplain (by simpa using hlast)]
        rfl
    | cons next lines =>
      have hrest : OnlyNewlines (layOut ended (next :: lines)) := by
        intro c hc
        exact honly c (by simp [hc])
      have hend : if ended then next :: lines ≠ [] else (next :: lines).getLast? ≠ some [] := by
        cases ended with
        | true => exact List.cons_ne_nil next lines
        | false => simpa using hlast
      rw [layOut_cons_cons, splitLines_line hplain, List.map_cons, ih hlines hend hrest]

/-- What is cut off has no boundaries in it. -/
theorem not_boundary_of_mem_splitLinesFrom {content text : List Char} {done : List Text.Line}
    (hcontent : ∀ c ∈ content, isLineBoundary c = false)
    (hdone : ∀ line ∈ done, ∀ c ∈ line.content, isLineBoundary c = false) :
    ∀ line ∈ splitLinesFrom content done text, ∀ c ∈ line.content, isLineBoundary c = false := by
  have hclosed (boundary : List Char) {content : List Char} {done : List Text.Line}
      (hcontent : ∀ c ∈ content, isLineBoundary c = false)
      (hdone : ∀ line ∈ done, ∀ c ∈ line.content, isLineBoundary c = false) :
      ∀ line ∈ (⟨content.reverse, boundary⟩ :: done : List Text.Line), ∀ c ∈ line.content, isLineBoundary c = false :=
    List.forall_mem_cons.mpr ⟨fun c hc => hcontent c (List.mem_reverse.mp hc), hdone⟩
  fun_induction splitLinesFrom content done text with
  | case1 done => exact fun line hmem => hdone line (List.mem_reverse.mp hmem)
  | case2 content done hne => exact fun line hmem => hclosed [] hcontent hdone line (List.mem_reverse.mp hmem)
  | case3 content done cs ih => exact ih nofun (hclosed _ hcontent hdone)
  | case4 content done c cs hne hc ih => exact ih nofun (hclosed _ hcontent hdone)
  | case5 content done c cs hne hc ih =>
    exact ih (List.forall_mem_cons.mpr ⟨eq_false_of_ne_true hc, hcontent⟩) hdone

namespace Utility.Tac

/-! ## 3. Lines in reverse -/

variable {text : List Char} {lines : List (List Char)} {ended : Bool}

theorem reversed_eq (h : AreLines text lines ended) :
    reversed text = layOut ended ((splitLines text).map (·.content)).reverse := by
  unfold reversed layOut
  rw [List.map_reverse]
  simp only [← h.ended_iff]

/-- What is written has no boundaries but newlines. -/
theorem onlyNewlines_reversed (text : List Char) : OnlyNewlines (reversed text) := by
  obtain ⟨lines, ended, h⟩ := exists_areLines text
  intro c hc hboundary
  by_contra hne
  rw [reversed_eq h, mem_layOut_of_ne hne] at hc
  obtain ⟨content, hmem, hc⟩ := hc
  obtain ⟨line, hline, rfl⟩ := List.mem_map.mp (List.mem_reverse.mp hmem)
  have hplain := @not_boundary_of_mem_splitLinesFrom [] _ [] nofun nofun line hline c hc
  rw [hplain] at hboundary
  cases hboundary

/-- **The lines are reversed** just where newlines are the only boundaries. -/
theorem reversed_eq_iff (h : AreLines text lines ended) :
    reversed text = layOut ended lines.reverse ↔ OnlyNewlines text := by
  constructor
  · intro heq c hc hboundary
    by_contra hne
    -- Every other boundary would still be there.
    rw [← h.laidOut, mem_layOut_of_ne hne] at hc
    have hmem : c ∈ reversed text := by
      rw [heq, mem_layOut_of_ne hne]
      simpa using hc
    exact hne (onlyNewlines_reversed text c hmem hboundary)
  · intro honly
    rw [reversed_eq h, h.contents_splitLines honly]

/-- In reverse, the lines of a text are those of what is written, unless an empty line comes to stand at the end. -/
theorem areLines_reverse (h : AreLines text lines ended) (hfirst : ended = true ∨ lines.head? ≠ some []) :
    AreLines (layOut ended lines.reverse) lines.reverse ended := by
  refine ⟨fun line hmem => h.inLine line (List.mem_reverse.mp hmem), rfl, ?_⟩
  have hlast := h.last
  cases ended with
  | true => simpa using hlast
  | false => simpa using hfirst

/-- **Reversed twice**, a text is as it was if newlines are its only boundaries and it does not begin with an empty line
and end without a newline. -/
theorem reversed_reversed_iff (h : AreLines text lines ended) :
    reversed (reversed text) = text ↔ OnlyNewlines text ∧ (ended = true ∨ lines.head? ≠ some []) := by
  constructor
  · intro heq
    have honly : OnlyNewlines text := heq ▸ onlyNewlines_reversed (reversed text)
    refine ⟨honly, ?_⟩
    by_contra hnot
    obtain ⟨hended, hhead⟩ := not_or.mp hnot
    obtain rfl : ended = false := eq_false_of_ne_true hended
    obtain ⟨rest, rfl⟩ := List.head?_eq_some_iff.mp (not_not.mp hhead)
    -- The first line is empty and not the only one, and what is written ends with a newline.
    have hrest : rest ≠ [] := by
      rintro rfl
      exact h.last rfl
    have hwritten : reversed text = layOut true rest.reverse := by
      rw [(reversed_eq_iff h).mpr honly, List.reverse_cons, layOut_append_nil (by simpa using hrest)]
    have hlines : AreLines (reversed text) rest.reverse true :=
      ⟨fun line hmem => h.inLine line (List.mem_cons_of_mem _ (List.mem_reverse.mp hmem)), hwritten.symm,
        by simpa using hrest⟩
    have htwice : reversed (reversed text) = layOut true rest := by
      rw [(reversed_eq_iff hlines).mpr (onlyNewlines_reversed text), List.reverse_reverse]
    have hend := h.ended_iff.mpr (by rw [← heq, htwice]; simp [layOut])
    cases hend
  · rintro ⟨honly, hfirst⟩
    have hwritten := (reversed_eq_iff h).mpr honly
    have hlines : AreLines (reversed text) lines.reverse ended := hwritten ▸ areLines_reverse h hfirst
    rw [(reversed_eq_iff hlines).mpr (onlyNewlines_reversed text), List.reverse_reverse]
    exact h.laidOut

/-! ## 4. The utility -/

/-- A text that is there as a whole is read in one piece. -/
theorem read_ofText (text : String) (sinks : Array (List String)) :
    ({ inputs := #[.ofText text], sinks := sinks } : World).read 0 0 ⟨.all, false, []⟩ =
      ({ inputs := #[.ofText ""], sinks := sinks }, .text text.toList) := by
  have hpiece (rest : List Char) :
      ({ inputs := #[⟨[], .text rest⟩], sinks := sinks } : World).readPiece 0 0 false =
        ({ inputs := #[⟨[], .text []⟩], sinks := sinks }, some rest) := rfl
  show World.readAll { inputs := #[⟨[], .text text.toList⟩], sinks := sinks } 0 0 4 false [] = _
  rw [World.readAll, hpiece]
  cases text.toList with
  | nil => rfl
  | cons c cs =>
    simp only
    rw [World.readAll, hpiece]
    simp only [List.reverse_singleton, List.flatten_singleton]
    rfl

/-- The utility reads all of standard input, and writes what it comes to. -/
theorem start_utility {call : Invocation} (hargs : call.args = []) (next : Except Abort Nat → Job Ending) :
    utility.start call next = .read call.input ⟨.all, false, []⟩ fun text =>
      Action.writeText call.output (String.ofList (reversed text.toList)) fun r => next (r.map fun _ => 0) := by
  have hempty : call.args.isEmpty = true := by rw [hargs]; rfl
  unfold Utility.start utility
  rw [hempty]
  refine congrArg (Job.read call.input ⟨.all, false, []⟩) (funext fun text => ?_)
  refine congrArg (Action.writeText call.output _) (funext fun r => ?_)
  cases r <;> rfl

/-- By itself it ends with what it has written. -/
theorem complete_utility (text : String) (vars : Table String) (files : Files) :
    utility.complete [] vars (.ofText text) files =
      ⟨.ok 0, {}, String.ofList (reversed text.toList), "", .ofText ""⟩ := by
  have hadvance (call : Invocation) (hcall : call.args = [] ∧ call.input = 0 ∧ call.output = standardOutput) :
      (utility.start call fun r => .finish ⟨r, {}⟩).advance 0 { inputs := #[.ofText text], sinks := #[[], []] } =
        (Action.writeText standardOutput (String.ofList (reversed text.toList)) fun r =>
          .finish ⟨r.map fun _ => 0, {}⟩ : Job Ending).advance 0 { inputs := #[.ofText ""], sinks := #[[], []] } := by
    obtain ⟨hargs, hinput, houtput⟩ := hcall
    rw [start_utility hargs, hinput, houtput, Job.advance, read_ofText]
    simp only [String.ofList_toList]
  exact complete_of_writes (hadvance _ ⟨rfl, rfl, rfl⟩)

/-- All of standard input is the whole text, wherever it comes from. -/
theorem all_of_origin {origin : Delivery.Origin} (ho : origin.Proper) :
    ∃ bound, ∀ turns, bound ≤ turns → ((origin.start [.all]).run turns).result? origin.reader =
      some (.ok [String.ofList origin.content]) := by
  obtain ⟨bound, hruns⟩ := origin.run_shares ho [.all]
  refine ⟨bound, fun turns ht => ?_⟩
  obtain ⟨got, left, hresult, hs, -⟩ := hruns turns ht
  obtain ⟨front, rfl, hcontent, htakes⟩ := hs.of_singleton
  have hall : (front ++ left, []) = (front, left) := htakes
  obtain ⟨-, rfl⟩ := Prod.mk.inj hall
  rw [hcontent, List.append_nil]
  exact hresult

/-- **`tac` reorders the lines of a text if newlines are its only line boundaries, and only then.** A text has lines in one
way. `tac` reads all of standard input, wherever it comes from, and writes the lines in reverse, with a newline at the end
if there was one, unless another boundary is in the text. Running it on what it has written gives the text back under
the same condition, unless the text begins with an empty line and does not end with a newline. -/
theorem tac_reorders_iff (text : String) (vars : Table String) (files : Files) :
    ∃ lines ended, (∀ lines' ended', AreLines text.toList lines' ended' ↔ lines' = lines ∧ ended' = ended) ∧
      ∃ written, utility.complete [] vars (.ofText text) files = ⟨.ok 0, {}, written, "", .ofText ""⟩ ∧
        (∀ call next, call.args = [] → ∃ k, utility.start call next = .read call.input ⟨.all, false, []⟩ k ∧
          k text = Action.writeText call.output written fun r => next (r.map fun _ => 0)) ∧
        (∀ origin : Delivery.Origin, origin.Proper → origin.content = text.toList → ∃ bound, ∀ turns, bound ≤ turns →
          ((origin.start [.all]).run turns).result? origin.reader = some (.ok [text])) ∧
        (written.toList = layOut ended lines.reverse ↔ OnlyNewlines text.toList) ∧
        ((utility.complete [] vars (.ofText written) files).output = text ↔
          OnlyNewlines text.toList ∧ (ended = true ∨ lines.head? ≠ some [])) := by
  obtain ⟨lines, ended, h⟩ := exists_areLines text.toList
  refine ⟨lines, ended, fun lines' ended' => ⟨h.unique, ?_⟩, _, complete_utility text vars files, ?_, ?_, ?_, ?_⟩
  · rintro ⟨rfl, rfl⟩
    exact h
  · exact fun call next hargs => ⟨_, start_utility hargs next, rfl⟩
  · intro origin ho hcontent
    have hall := all_of_origin ho
    rwa [hcontent, String.ofList_toList] at hall
  · rw [String.toList_ofList]
    exact reversed_eq_iff h
  · rw [complete_utility, String.toList_ofList, ← reversed_reversed_iff h, ← String.toList_inj, String.toList_ofList]

/-- Three lines, one of them empty and the last one without a newline, there and back. -/
theorem threeLines_reordered : AreLines "1\n\n2".toList [['1'], [], ['2']] false ∧
    (utility.complete [] ∅ (.ofText "1\n\n2") {}).output = "2\n\n1" ∧
    (utility.complete [] ∅ (.ofText "2\n\n1") {}).output = "1\n\n2" := by
  have hlines : AreLines "1\n\n2".toList [['1'], [], ['2']] false := ⟨by decide, by decide, by decide⟩
  have honly : OnlyNewlines "1\n\n2".toList := by simp [OnlyNewlines, isLineBoundary]
  obtain ⟨lines, ended, hunique, written, hrun, -, -, hreverse, hagain⟩ := tac_reorders_iff "1\n\n2" ∅ {}
  obtain ⟨rfl, rfl⟩ := (hunique _ _).mp hlines
  have hlaid : layOut false [['1'], [], ['2']].reverse = "2\n\n1".toList := by decide
  have hwritten : written = "2\n\n1" := String.toList_inj.mp ((hreverse.mpr honly).trans hlaid)
  subst hwritten
  exact ⟨hlines, congrArg Completion.output hrun, hagain.mpr ⟨honly, .inr (by decide)⟩⟩

/-- A carriage return inside a line becomes a newline, and the line two lines. -/
theorem carriageReturn_cuts : AreLines "a\rb\n".toList [['a', '\r', 'b']] true ∧
    layOut true [['a', '\r', 'b']].reverse = "a\rb\n".toList ∧
    (utility.complete [] ∅ (.ofText "a\rb\n") {}).output = "b\na\n" := by
  refine ⟨⟨by decide, by decide, by decide⟩, by decide, ?_⟩
  rw [complete_utility]
  decide

end Utility.Tac

end Shell
