/-
Numbered lines.

`cat -n` numbers the lines of all its sources in one count. It cuts standard input behind each newline and a file behind
each line boundary of Unicode. Whatever the boundaries are, the pieces of a text make up the text, and there is one
more piece than there are boundaries before its last character (`length_cutBehind`). What is written is longer the more
pieces there are, so it tells how many there are: a file is numbered like a stream exactly if each boundary in it,
except a last character, is a newline (`numbered_eq_iff`).
-/
import Shell.Proofs.Channel.Sharing
import Shell.Proofs.Text.Decoding
import Shell.Proofs.Text.Lines

set_option autoImplicit false

namespace Shell

open Text

/-! ## 1. Pieces of a text -/

/-- The pieces of a text that is cut behind each character of a kind. -/
def cutBehind (ends : Char → Bool) : List Char → List (List Char)
  | [] => []
  | c :: cs =>
    if ends c then [c] :: cutBehind ends cs
    else match cutBehind ends cs with
      | [] => [[c]]
      | piece :: pieces => (c :: piece) :: pieces

/-- Whether a character is a newline. -/
def isNewline (c : Char) : Bool := c == '\n'

section

variable {ends ends' : Char → Bool} {front text : List Char} {c : Char}

theorem cutBehind_cons (ends : Char → Bool) (c : Char) (cs : List Char) :
    cutBehind ends (c :: cs) =
      if ends c then [c] :: cutBehind ends cs
      else match cutBehind ends cs with
        | [] => [[c]]
        | piece :: pieces => (c :: piece) :: pieces := rfl

theorem cutBehind_of_ends (hc : ends c = true) (cs : List Char) :
    cutBehind ends (c :: cs) = [c] :: cutBehind ends cs := by
  rw [cutBehind, if_pos hc]

theorem cutBehind_singleton (ends : Char → Bool) (c : Char) : cutBehind ends [c] = [[c]] := by
  by_cases hc : ends c = true
  · rw [cutBehind_of_ends hc, cutBehind]
  · rw [cutBehind, if_neg hc, cutBehind]

theorem cutBehind_eq_nil_iff : cutBehind ends text = [] ↔ text = [] := by
  constructor
  · intro h
    cases text with
    | nil => rfl
    | cons c cs =>
      rw [cutBehind] at h
      split at h
      · cases h
      · split at h <;> cases h
  · rintro rfl
    rfl

/-- The pieces make up the text. -/
theorem flatten_cutBehind (ends : Char → Bool) (text : List Char) : (cutBehind ends text).flatten = text := by
  induction text with
  | nil => rfl
  | cons c cs ih =>
    rw [cutBehind]
    split
    · rw [List.flatten_cons, ih, List.singleton_append]
    · split
      · next h => rw [← ih, h]; rfl
      · next piece pieces h => rw [← ih, h]; rfl

/-- **There is one more piece than cuts**, and there is no cut behind the last character. -/
theorem length_cutBehind (ends : Char → Bool) (text : List Char) :
    (cutBehind ends text).length = text.dropLast.countP ends + if text = [] then 0 else 1 := by
  induction text with
  | nil => rfl
  | cons c cs ih =>
    cases cs with
    | nil =>
      rw [cutBehind_singleton]
      rfl
    | cons d ds =>
      rw [if_neg (List.cons_ne_nil _ _)] at ih ⊢
      rw [List.dropLast_cons_cons, List.countP_cons, cutBehind]
      by_cases hc : ends c = true
      · rw [if_pos hc, if_pos hc, List.length_cons, ih]
      · rw [if_neg hc, if_neg hc]
        cases hcut : cutBehind ends (d :: ds) with
        | nil => exact absurd (cutBehind_eq_nil_iff.mp hcut) (List.cons_ne_nil _ _)
        | cons piece pieces =>
          rw [hcut] at ih
          simpa using ih

/-- Only the characters before the last one matter. -/
theorem cutBehind_congr (h : ∀ c ∈ text.dropLast, ends c = ends' c) : cutBehind ends text = cutBehind ends' text := by
  induction text with
  | nil => rfl
  | cons c cs ih =>
    cases cs with
    | nil => rw [cutBehind_singleton, cutBehind_singleton]
    | cons d ds =>
      rw [List.dropLast_cons_cons] at h
      obtain ⟨hc, hcs⟩ := List.forall_mem_cons.mp h
      rw [cutBehind_cons ends c, cutBehind_cons ends' c, hc, ih hcs]

/-- A piece in front of other text. -/
theorem cutBehind_append (h : ∀ d ∈ front, ends d = false) (hc : ends c = true) (rest : List Char) :
    cutBehind ends (front ++ c :: rest) = (front ++ [c]) :: cutBehind ends rest := by
  induction front with
  | nil => exact cutBehind_of_ends hc rest
  | cons d front ih =>
    obtain ⟨hd, hfront⟩ := List.forall_mem_cons.mp h
    rw [List.cons_append, cutBehind, hd, if_neg Bool.false_ne_true, ih hfront]
    rfl

/-- The last piece, if nothing ends it. -/
theorem cutBehind_last (h : ∀ d ∈ text, ends d = false) (hne : text ≠ []) : cutBehind ends text = [text] := by
  induction text with
  | nil => exact absurd rfl hne
  | cons d text ih =>
    obtain ⟨hd, htext⟩ := List.forall_mem_cons.mp h
    rw [cutBehind, hd, if_neg Bool.false_ne_true]
    by_cases hnil : text = []
    · subst hnil
      rfl
    · rw [ih htext hnil]

end

/-! ## 2. Lines of a stream and of a file -/

/-- The first line is the first piece. -/
theorem cutBehind_splitLine {text : List Char} (hne : text ≠ []) :
    cutBehind isNewline text = (splitLine text).1 :: cutBehind isNewline (splitLine text).2 := by
  have hfront : ∀ c ∈ text.takeWhile Input.isInLine, isNewline c = false := by
    intro c hc
    have hline := List.mem_takeWhile_imp hc
    simpa [Input.isInLine, isNewline] using hline
  have hall := List.takeWhile_append_dropWhile (p := Input.isInLine) (l := text)
  unfold splitLine
  cases hdrop : text.dropWhile Input.isInLine with
  | nil =>
    rw [hdrop, List.append_nil] at hall
    rw [hall] at hfront
    exact cutBehind_last hfront hne
  | cons newline rest =>
    have hnewline : isNewline newline = true := by
      have hnot := List.head?_dropWhile_not Input.isInLine text
      rw [hdrop] at hnot
      simpa [Input.isInLine, isNewline] using hnot
    rw [hdrop] at hall
    conv => lhs; rw [← hall]
    exact cutBehind_append hfront hnewline rest

theorem map_toList_splitLinesFrom {content text : List Char} (h : '\r' ∉ text)
    (hcontent : ∀ c ∈ content, isLineBoundary c = false) (done : List Text.Line) :
    (splitLinesFrom content done text).map Line.toList =
      done.reverse.map Line.toList ++ cutBehind isLineBoundary (content.reverse ++ text) := by
  fun_induction splitLinesFrom content done text with
  | case1 done => simp [cutBehind]
  | case2 content done hne =>
    have hlast : cutBehind isLineBoundary content.reverse = [content.reverse] :=
      cutBehind_last (fun c hc => hcontent c (List.mem_reverse.mp hc)) (by simpa using hne)
    simp [hlast, Line.toList]
  | case3 content done cs ih => exact absurd List.mem_cons_self h
  | case4 content done c cs hne hc ih =>
    have hpiece : cutBehind isLineBoundary (content.reverse ++ c :: cs) = _ :=
      cutBehind_append (fun d hd => hcontent d (List.mem_reverse.mp hd)) hc cs
    rw [ih (fun hmem => h (List.mem_cons_of_mem _ hmem)) (List.forall_mem_nil _), hpiece]
    simp [Line.toList]
  | case5 content done c cs hne hc ih =>
    rw [ih (fun hmem => h (List.mem_cons_of_mem _ hmem))
      (List.forall_mem_cons.mpr ⟨eq_false_of_ne_true hc, hcontent⟩)]
    simp

/-- Without carriage returns, the lines of a text are its pieces behind line boundaries. -/
theorem map_toList_splitLines {text : List Char} (h : '\r' ∉ text) :
    (splitLines text).map Line.toList = cutBehind isLineBoundary text := by
  have hall := map_toList_splitLinesFrom h (List.forall_mem_nil _) []
  simpa [splitLines] using hall

theorem not_mem_joinNewlinesFrom {done : List Char} (hdone : '\r' ∉ done) (text : List Char) :
    '\r' ∉ joinNewlinesFrom done text := by
  fun_induction joinNewlinesFrom done text with
  | case1 done => rwa [List.mem_reverse]
  | case2 done cs ih => exact ih (by simpa using hdone)
  | case3 done cs hne ih => exact ih (by simpa using hdone)
  | case4 done c cs hne hreturn ih =>
    refine ih fun hmem => ?_
    rcases List.mem_cons.mp hmem with rfl | hmem
    · exact hreturn rfl
    · exact hdone hmem

/-- Where line ends have become newlines, there are no carriage returns. -/
theorem not_mem_joinNewlines (text : List Char) : '\r' ∉ joinNewlines text :=
  not_mem_joinNewlinesFrom List.not_mem_nil text

theorem joinNewlinesFrom_of_not_mem {text : List Char} (h : '\r' ∉ text) (done : List Char) :
    joinNewlinesFrom done text = done.reverse ++ text := by
  fun_induction joinNewlinesFrom done text with
  | case1 done => rw [List.append_nil]
  | case2 done cs ih => exact absurd List.mem_cons_self h
  | case3 done cs hne ih => exact absurd List.mem_cons_self h
  | case4 done c cs hne hreturn ih =>
    rw [ih fun hmem => h (List.mem_cons_of_mem _ hmem), List.reverse_cons, List.append_assoc]
    rfl

/-- A text without carriage returns stays as it is. -/
theorem joinNewlines_of_not_mem {text : List Char} (h : '\r' ∉ text) : joinNewlines text = text :=
  joinNewlinesFrom_of_not_mem h []

theorem isLineBoundary_of_isNewline {c : Char} (h : isNewline c = true) : isLineBoundary c = true := by
  rw [beq_iff_eq.mp h]
  decide

/-- There are no fewer boundaries than newlines, and as many only if there are no others. -/
theorem countP_isNewline (text : List Char) :
    text.countP isNewline ≤ text.countP isLineBoundary ∧
      (text.countP isNewline = text.countP isLineBoundary ↔ OnlyNewlines text) := by
  induction text with
  | nil => exact ⟨Nat.le_refl _, iff_of_true rfl (List.forall_mem_nil _)⟩
  | cons c text ih =>
    obtain ⟨hle, hiff⟩ := ih
    have hcons : OnlyNewlines (c :: text) ↔ (isLineBoundary c = true → c = '\n') ∧ OnlyNewlines text :=
      List.forall_mem_cons
    rw [List.countP_cons, List.countP_cons, hcons, ← hiff]
    by_cases hnewline : isNewline c = true
    · have hc : c = '\n' := beq_iff_eq.mp hnewline
      rw [if_pos hnewline, if_pos (isLineBoundary_of_isNewline hnewline), Nat.add_right_cancel_iff]
      exact ⟨by omega, ⟨fun heq => ⟨fun _ => hc, heq⟩, fun h => h.2⟩⟩
    · have hc : c ≠ '\n' := fun h => hnewline (beq_iff_eq.mpr h)
      by_cases hother : isLineBoundary c = true
      · simp [hnewline, hother, hc]
        omega
      · simp [hnewline, hother, hle]

/-- There are no fewer pieces behind boundaries than behind newlines, and as many only if no other boundary is followed
by anything. -/
theorem length_cutBehind_boundary (text : List Char) :
    (cutBehind isNewline text).length ≤ (cutBehind isLineBoundary text).length ∧
      ((cutBehind isNewline text).length = (cutBehind isLineBoundary text).length ↔ OnlyNewlines text.dropLast) := by
  have hcount := countP_isNewline text.dropLast
  rwa [length_cutBehind, length_cutBehind, Nat.add_le_add_iff_right, Nat.add_right_cancel_iff]

/-! ## 3. Numbers -/

/-- Pieces behind their numbers, which follow `number`. -/
def numbered (number : Nat) (pieces : List (List Char)) : List String :=
  pieces.mapIdx fun index piece => numberedLine (number + index + 1) (String.ofList piece)

theorem numbered_cons (number : Nat) (piece : List Char) (pieces : List (List Char)) :
    numbered number (piece :: pieces) =
      numberedLine (number + 1) (String.ofList piece) :: numbered (number + 1) pieces := by
  have hindex (index : Nat) : number + (index + 1) + 1 = number + 1 + index + 1 := by omega
  simp [numbered, List.mapIdx_cons, hindex]

/-- The numbers run on. -/
theorem numbered_append (number : Nat) (pieces more : List (List Char)) :
    numbered number (pieces ++ more) = numbered number pieces ++ numbered (number + pieces.length) more := by
  have hindex (index : Nat) : number + (index + pieces.length) + 1 = number + pieces.length + index + 1 := by omega
  simp [numbered, List.mapIdx_append, hindex]

/-- How many characters the numbers take that stand before so many lines. -/
def margins (number : Nat) : (lines : Nat) → Nat
  | 0 => 0
  | lines + 1 => (numberedLine (number + 1) "").length + margins (number + 1) lines

theorem length_numberedLine (number : Nat) (line : String) :
    (numberedLine number line).length = (numberedLine number "").length + line.length := by
  simp [numberedLine, String.length_append]

theorem length_numbered (number : Nat) (pieces : List (List Char)) :
    (String.join (numbered number pieces)).length = margins number pieces.length + pieces.flatten.length := by
  induction pieces generalizing number with
  | nil => rfl
  | cons piece pieces ih =>
    rw [numbered_cons, String.join_cons, String.length_append, ih, length_numberedLine, List.length_cons, margins,
      List.flatten_cons, List.length_append, String.length_ofList]
    omega

/-- Every number takes some characters. -/
theorem margins_strictMono (number : Nat) : StrictMono (margins number) := by
  refine strictMono_nat_of_lt_succ fun lines => ?_
  induction lines generalizing number with
  | zero =>
    show 0 < (numberedLine (number + 1) "").length + 0
    have htab : "\t".length = 1 := rfl
    simp only [numberedLine, String.length_append]
    omega
  | succ lines ih => exact Nat.add_lt_add_left (ih (number + 1)) _

/-- **The numbers tell how many pieces there are.** -/
theorem length_eq_of_numbered_eq {number : Nat} {pieces pieces' : List (List Char)}
    (hflatten : pieces.flatten = pieces'.flatten)
    (h : String.join (numbered number pieces) = String.join (numbered number pieces')) :
    pieces.length = pieces'.length := by
  have hlength := congrArg String.length h
  rw [length_numbered, length_numbered, hflatten, Nat.add_right_cancel_iff] at hlength
  exact (margins_strictMono number).injective hlength

/-! ## 4. Sources -/

namespace Utility.Cat

/-- The text of a file that can be read. -/
def fileText (files : Files) (path : String) : List Char :=
  match files.contents path with
  | .ok bytes => textOf bytes
  | .error _ => []

/-- A source to copy: standard input, or a file that can be read. No file has a name here that begins like an option. -/
def IsSource (files : Files) (source : String) : Prop :=
  source = "-" ∨ source.toList.head? ≠ some '-' ∧ ∃ bytes, files.contents source = .ok bytes

/-- The lines of sources. Standard input is there once, and it is cut behind newlines; a file is cut behind
the characters that end a line of it. -/
def sourceLines (files : Files) (ends : Char → Bool) : (input : List Char) → List String → List (List Char)
  | _, [] => []
  | input, source :: sources =>
    if source = "-" then cutBehind isNewline input ++ sourceLines files ends [] sources
    else cutBehind ends (fileText files source) ++ sourceLines files ends input sources

variable {files : Files}

theorem flatten_sourceLines (files : Files) (ends ends' : Char → Bool) (input : List Char) (sources : List String) :
    (sourceLines files ends input sources).flatten = (sourceLines files ends' input sources).flatten := by
  induction sources generalizing input with
  | nil => rfl
  | cons source sources ih =>
    rw [sourceLines, sourceLines]
    split
    · rw [List.flatten_append, List.flatten_append, ih]
    · rw [List.flatten_append, List.flatten_append, flatten_cutBehind, flatten_cutBehind, ih]

/-- There are as many lines behind all boundaries as behind newlines only if the files have no other boundaries before
their last characters. -/
theorem length_sourceLines (files : Files) (input : List Char) (sources : List String) :
    (sourceLines files isNewline input sources).length ≤ (sourceLines files isLineBoundary input sources).length ∧
      ((sourceLines files isNewline input sources).length = (sourceLines files isLineBoundary input sources).length ↔
        ∀ source ∈ sources, source ≠ "-" → OnlyNewlines (fileText files source).dropLast) := by
  induction sources generalizing input with
  | nil => exact ⟨Nat.le_refl _, iff_of_true rfl nofun⟩
  | cons source sources ih =>
    rw [sourceLines, sourceLines, List.forall_mem_cons]
    by_cases hdash : source = "-"
    · obtain ⟨hle, hiff⟩ := ih []
      rw [if_pos hdash, if_pos hdash, List.length_append, List.length_append, Nat.add_left_cancel_iff, hiff]
      exact ⟨Nat.add_le_add_left hle _, ⟨fun h => ⟨fun hne => absurd hdash hne, h⟩, fun h => h.2⟩⟩
    · obtain ⟨hle, hiff⟩ := ih input
      obtain ⟨hle', hiff'⟩ := length_cutBehind_boundary (fileText files source)
      rw [if_neg hdash, if_neg hdash, List.length_append, List.length_append, ← hiff, ← hiff']
      exact ⟨Nat.add_le_add hle' hle, ⟨fun h => ⟨fun _ => by omega, by omega⟩, fun h => by rw [h.1 hdash, h.2]⟩⟩

theorem sourceLines_congr {input : List Char} {sources : List String}
    (h : ∀ source ∈ sources, source ≠ "-" → OnlyNewlines (fileText files source).dropLast) :
    sourceLines files isLineBoundary input sources = sourceLines files isNewline input sources := by
  induction sources generalizing input with
  | nil => rfl
  | cons source sources ih =>
    obtain ⟨hsource, hsources⟩ := List.forall_mem_cons.mp h
    rw [sourceLines, sourceLines, ih hsources, ih hsources]
    by_cases hdash : source = "-"
    · rw [if_pos hdash, if_pos hdash]
    · rw [if_neg hdash, if_neg hdash]
      congr 1
      refine cutBehind_congr fun c hc => Bool.eq_iff_iff.mpr ⟨fun hb => ?_, fun hnewline => ?_⟩
      · exact beq_iff_eq.mpr (hsource hdash c hc hb)
      · exact isLineBoundary_of_isNewline hnewline

/-- **The lines of files are numbered as they are in a stream** exactly if newlines are the only boundaries in the
files, but for their last characters. -/
theorem numbered_eq_iff (files : Files) (input : List Char) (sources : List String) :
    String.join (numbered 0 (sourceLines files isLineBoundary input sources)) =
        String.join (numbered 0 (sourceLines files isNewline input sources)) ↔
      ∀ source ∈ sources, source ≠ "-" → OnlyNewlines (fileText files source).dropLast := by
  constructor
  · intro h
    have hlength := length_eq_of_numbered_eq (flatten_sourceLines files _ _ input sources) h
    exact (length_sourceLines files input sources).2.mp hlength.symm
  · intro h
    rw [sourceLines_congr h]

/-! ## 5. Copying -/

/-- Where a utility runs by itself: what it reads, and what has been written, the last text first. -/
def alone (input : Input) (written : List String) : World := { inputs := #[input], sinks := #[written, []] }

/-- A text that has been taken from its source, of which nothing is left there. -/
def pendingInput (text : List Char) : Input := (⟨[], .text []⟩ : Input).withPending text

/-- An input that gives a text without waiting. -/
inductive HasText : Input → List Char → Prop
  | whole (text : List Char) : HasText ⟨[], .text text⟩ text
  | pending (text : List Char) : HasText (pendingInput text) text

variable {input : Input} {text : List Char}

theorem readLine_pending (text : List Char) (written : List String) (task tries : Nat) :
    (alone (pendingInput text) written).readLine task 0 (tries + 1) false =
      (alone (pendingInput (splitLine text).2) written, some (splitLine text).1) := by
  cases text with
  | nil => rfl
  | cons c cs =>
    have hinput : (alone (pendingInput (c :: cs)) written).input 0 = pendingInput (c :: cs) := rfl
    have htake : (pendingInput (c :: cs)).takeLine? =
        match (c :: cs).dropWhile Input.isInLine with
        | [] => none
        | newline :: rest => some ((c :: cs).takeWhile Input.isInLine ++ [newline], pendingInput rest) := rfl
    have hnext : (alone (pendingInput (c :: cs)) written).nextPiece task 0 false =
        (alone (pendingInput (c :: cs)) written, some []) := rfl
    have hpending : (pendingInput (c :: cs)).pendingText = c :: cs := by
      simp [pendingInput, Input.withPending, Input.pendingText]
    rw [World.readLine, hinput, htake]
    unfold splitLine
    cases (c :: cs).dropWhile Input.isInLine with
    | nil =>
      simp only [Bool.false_eq_true, if_false, hnext, hinput, hpending]
      rfl
    | cons newline rest => rfl

/-- The next line is the first of the text, and the rest is pending. -/
theorem HasText.readLine (h : HasText input text) (written : List String) (task tries : Nat) :
    (alone input written).readLine task 0 (tries + 2) false =
      (alone (pendingInput (splitLine text).2) written, some (splitLine text).1) := by
  cases h with
  | whole =>
    cases text with
    | nil => rfl
    | cons c cs => exact readLine_pending (c :: cs) written task tries
  | pending => exact readLine_pending text written task (tries + 1)

theorem HasText.length_lt_stock (h : HasText input text) (written : List String) :
    text.length < (alone input written).stock 0 := by
  cases h with
  | whole =>
    show text.length < 0 + text.length + 4
    omega
  | pending =>
    cases text with
    | nil => exact Nat.zero_lt_succ 3
    | cons c cs =>
      show (c :: cs).length < 0 + (c :: cs).length + 0 + 4
      omega

/-- **A copy goes on to the end**, with enough turns, and leaves nothing. -/
theorem HasText.copy (h : HasText input text) {turns : Nat} (hturns : text.length < turns) (written : List String)
    (number : Nat) :
    (alone input written).copy 0 0 standardOutput turns ⟨.line, false, []⟩ (some number) =
      (alone (pendingInput []) ((numbered number (cutBehind isNewline text)).reverse ++ written),
        .all (some (number + (cutBehind isNewline text).length))) := by
  induction turns generalizing input text written number with
  | zero => exact absurd hturns (Nat.not_lt_zero _)
  | succ turns ih =>
    have hread : (alone input written).read 0 0 ⟨.line, false, []⟩ =
        (alone (pendingInput (splitLine text).2) written, .text (splitLine text).1) := by
      simp only [World.read, World.maxPieces, h.readLine]
    rw [World.copy, hread]
    have hsplit := splitLine_append text
    cases hline : (splitLine text).1 with
    | nil =>
      -- Only at the end is the next line empty.
      obtain rfl := Delivery.eq_nil_of_splitLine hline
      rfl
    | cons c cs =>
      have hne : text ≠ [] := by
        rintro rfl
        cases hline
      have hlength := congrArg List.length hsplit
      rw [hline, List.length_append, List.length_cons] at hlength
      have hwrite : (alone (pendingInput (splitLine text).2) written).write 0 standardOutput
            (numberedLine (number + 1) (String.ofList (c :: cs))) =
          (alone (pendingInput (splitLine text).2) (numberedLine (number + 1) (String.ofList (c :: cs)) :: written),
            .all) := rfl
      have hrest := ih (.pending (splitLine text).2) (by omega)
        (numberedLine (number + 1) (String.ofList (c :: cs)) :: written) (number + 1)
      simp only [hwrite, hrest]
      rw [cutBehind_splitLine hne, hline, numbered_cons, List.reverse_cons, List.append_assoc, List.length_cons]
      simp only [List.singleton_append, Nat.add_assoc, Nat.add_comm 1]

/-- What follows a numbering of standard input. -/
theorem HasText.advance_copyNumbered (h : HasText input text) (written : List String) (number : Nat)
    (next : Except Abort Nat → Job Ending) :
    (Action.copyNumbered 0 standardOutput number next).advance 0 (alone input written) =
      (next (.ok (number + (cutBehind isNewline text).length))).advance 0
        (alone (pendingInput []) ((numbered number (cutBehind isNewline text)).reverse ++ written)) := by
  unfold Action.copyNumbered
  rw [Job.advance, h.copy (h.length_lt_stock written)]
  rfl

/-- What follows a numbering of lines. -/
theorem advance_writeLines (lines : List Text.Line) (input : Input) (written : List String) (number : Nat)
    (next : Except Abort Nat → Job Ending) :
    (writeLines standardOutput number lines next).advance 0 (alone input written) =
      (next (.ok (number + lines.length))).advance 0
        (alone input ((numbered number (lines.map Line.toList)).reverse ++ written)) := by
  induction lines generalizing number written with
  | nil => rfl
  | cons line lines ih =>
    have hstep : (writeLines standardOutput number (line :: lines) next).advance 0 (alone input written) =
        (writeLines standardOutput (number + 1) lines next).advance 0
          (alone input (numberedLine (number + 1) (String.ofList line.toList) :: written)) := rfl
    rw [hstep, ih, List.map_cons, numbered_cons, List.reverse_cons, List.append_assoc, List.length_cons]
    simp only [List.singleton_append, Nat.add_assoc, Nat.add_comm 1]

/-- **The sources are copied one after the other**, in one count. Standard input is empty once it has been copied. -/
theorem advance_copyAll {call : Invocation} (hinput : call.input = standardInput)
    (houtput : call.output = standardOutput) {sources : List String}
    (hsources : ∀ source ∈ sources, IsSource call.files source) (h : HasText input text) (written : List String)
    (number : Nat) (next : Except Abort (List String) → Job Ending) :
    (copyAll call true number sources next).advance 0 (alone input written) =
      (next (.ok [])).advance 0 (alone (if "-" ∈ sources then pendingInput [] else input)
        ((numbered number (sourceLines call.files isLineBoundary text sources)).reverse ++ written)) := by
  induction sources generalizing input text written number with
  | nil => rfl
  | cons source sources ih =>
    obtain ⟨hsource, hrest⟩ := List.forall_mem_cons.mp hsources
    -- The standard input is copied once. After that it has nothing left, so it adds no more lines when it is named
    -- again.
    by_cases hdash : source = "-"
    · obtain ⟨goOn, hcopy, hgoOn⟩ : ∃ goOn,
          copyAll call true number (source :: sources) next =
              Action.copyNumbered call.input call.output number goOn ∧
            ∀ n, goOn (.ok n) = copyAll call true n sources next := by
        rw [copyAll, if_pos hdash, copyInput, if_pos rfl]
        exact ⟨_, rfl, fun _ => rfl⟩
      have hpending : (if "-" ∈ sources then pendingInput [] else pendingInput []) = pendingInput [] := ite_self _
      rw [hcopy, hinput, houtput]
      refine (h.advance_copyNumbered written number goOn).trans ?_
      rw [hgoOn, ih hrest (.pending [])]
      rw [sourceLines, if_pos hdash, if_pos (List.mem_cons.mpr (.inl hdash.symm)), numbered_append,
        List.reverse_append, List.append_assoc, hpending]
    · obtain ⟨bytes, hbytes⟩ := (hsource.resolve_left hdash).2
      obtain ⟨goOn, hcopy, hgoOn⟩ : ∃ goOn,
          copyAll call true number (source :: sources) next =
              writeLines call.output number (splitLines (textOf bytes)) goOn ∧
            ∀ n, goOn (.ok n) = copyAll call true n sources next := by
        rw [copyAll, if_neg hdash, hbytes]
        exact ⟨_, rfl, fun _ => rfl⟩
      have htext : fileText call.files source = textOf bytes := by
        rw [fileText, hbytes]
      -- The lines of a file are those of its text, with the newlines joined.
      have hlines := map_toList_splitLines (not_mem_joinNewlines (Utf8.decode bytes))
      have hleft : (if "-" ∈ source :: sources then pendingInput [] else input) =
          if "-" ∈ sources then pendingInput [] else input :=
        if_congr (List.mem_cons.trans (or_iff_right (Ne.symm hdash))) rfl rfl
      rw [hcopy, houtput, advance_writeLines, hgoOn, ih hrest h]
      rw [sourceLines, if_neg hdash, htext, numbered_append, List.reverse_append, List.append_assoc, hleft,
        textOf, ← hlines, List.length_map]

/-! ## 6. The utility -/

theorem readArgs_sources {sources : List String} (h : ∀ source ∈ sources, IsSource files source) (options : Options) :
    readArgs options sources = .ok { options with sources := options.sources.reverse ++ sources } := by
  induction sources generalizing options with
  | nil => rw [readArgs, List.append_nil]
  | cons source sources ih =>
    obtain ⟨hsource, hrest⟩ := List.forall_mem_cons.mp h
    have hnumber : source ≠ "-n" := by
      rintro rfl
      rcases hsource with hdash | ⟨hhead, -⟩
      · exact absurd hdash (by decide)
      · exact hhead (by decide)
    rw [readArgs, if_neg hnumber]
    split
    · next c cs hlist =>
      -- What begins like an option is no source.
      rcases hsource with rfl | ⟨hhead, -⟩
      · cases hlist
      · rw [hlist] at hhead
        exact absurd rfl hhead
    · rw [ih hrest, List.reverse_cons, List.append_assoc, List.singleton_append]

/-- The utility copies its sources, or standard input if there are none, and ends with the status 0 if there are no
diagnostics. -/
theorem start_utility {call : Invocation} {sources : List String} (hargs : call.args = "-n" :: sources)
    (hsources : ∀ source ∈ sources, IsSource call.files source) (next : Except Abort Nat → Job Ending) :
    ∃ k, utility.start call next = copyAll call true 0 (if sources.isEmpty then ["-"] else sources) k ∧
      k (.ok []) = next (.ok 0) := by
  have hread : readArgs {} ("-n" :: sources) = .ok ⟨true, sources⟩ := by
    rw [readArgs, if_pos rfl]
    exact readArgs_sources hsources _
  unfold Utility.start utility
  rw [hargs, hread]
  exact ⟨_, rfl, rfl⟩

/-- By itself it writes the lines of its sources behind their numbers. -/
theorem complete_utility {sources : List String} (hne : sources ≠ [])
    (hsources : ∀ source ∈ sources, IsSource files source) (vars : Table String) (text : String) :
    utility.complete ("-n" :: sources) vars (.ofText text) files =
      ⟨.ok 0, {}, String.join (numbered 0 (sourceLines files isLineBoundary text.toList sources)), "",
        .ofText (if "-" ∈ sources then "" else text)⟩ := by
  let lines := numbered 0 (sourceLines files isLineBoundary text.toList sources)
  let left : Input := if "-" ∈ sources then pendingInput [] else .ofText text
  let call : Invocation := ⟨"-n" :: sources, vars, standardInput, standardOutput, standardError, files⟩
  have hleft : left = .ofText (if "-" ∈ sources then "" else text) :=
    (apply_ite Input.ofText ("-" ∈ sources) "" text).symm
  have hempty : ¬ sources.isEmpty = true := by simpa using hne
  obtain ⟨k, hstart, hk⟩ := @start_utility call sources rfl hsources fun r => .finish ⟨r, {}⟩
  have hadvance : (utility.start call fun r => .finish ⟨r, {}⟩).advance 0 (alone (.ofText text) []) =
      (alone left (lines.reverse ++ []), .ended (.ok ⟨.ok 0, {}⟩)) := by
    have hcopies := @advance_copyAll _ _ call rfl rfl _ hsources (.whole text.toList) [] 0 k
    rw [hstart, if_neg hempty]
    exact hcopies.trans (by rw [hk]; rfl)
  have hsink : (alone left (lines.reverse ++ [])).sinkText 0 = String.join lines := by
    show String.join (lines.reverse ++ []).reverse = _
    rw [List.append_nil, List.reverse_reverse]
  refine (complete_of_advance {} hadvance rfl rfl).trans ?_
  rw [hsink, ← hleft]
  rfl

/-- Without sources it copies standard input. -/
theorem complete_stdin (vars : Table String) (text : String) (files : Files) :
    utility.complete ["-n"] vars (.ofText text) files = utility.complete ["-n", "-"] vars (.ofText text) files := rfl

/-- Requests of lines are met with the pieces behind newlines, as long as there are any. -/
theorem shares_lines {text left : List Char} {lines : Nat} {got : List String}
    (hlines : lines ≤ (cutBehind isNewline text).length)
    (h : Delivery.Shares text (List.replicate lines .line) got left) :
    (cutBehind isNewline text).map String.ofList = got ++ (cutBehind isNewline left).map String.ofList := by
  induction lines generalizing got left with
  | zero =>
    have hjoin := h.join
    obtain rfl := List.eq_nil_of_length_eq_zero h.length_eq
    rw [List.nil_append, ← hjoin]
    rfl
  | succ lines ih =>
    rw [List.replicate_succ'] at h
    obtain ⟨before, front, rfl, hs, htakes⟩ := Delivery.shares_concat h
    have hall := ih (by omega) hs
    have hsplit : splitLine (front ++ left) = (front, left) := htakes
    have hne : front ++ left ≠ [] := by
      -- There is a piece for each request.
      intro hnil
      have hlength := congrArg List.length hall
      rw [hnil, List.length_map, List.length_append, hs.length_eq, List.length_replicate] at hlength
      change _ = lines + 0 at hlength
      omega
    rw [hall, cutBehind_splitLine hne, hsplit, List.map_cons, List.append_assoc, List.singleton_append]

/-- The lines of standard input are its pieces behind newlines, wherever it comes from. An empty line is the end. -/
theorem lines_of_origin {origin : Delivery.Origin} (ho : origin.Proper) :
    ∃ bound, ∀ turns, bound ≤ turns →
      ((origin.start (List.replicate ((cutBehind isNewline origin.content).length + 1) .line)).run turns).result?
          origin.reader = some (.ok ((cutBehind isNewline origin.content).map String.ofList ++ [""])) := by
  obtain ⟨bound, hruns⟩ := origin.run_shares ho (List.replicate ((cutBehind isNewline origin.content).length + 1) .line)
  refine ⟨bound, fun turns ht => ?_⟩
  obtain ⟨got, left, hresult, hs, -⟩ := hruns turns ht
  rw [List.replicate_succ'] at hs
  obtain ⟨before, front, rfl, hbefore, -⟩ := Delivery.shares_concat hs
  have hall := shares_lines (Nat.le_refl _) hbefore
  have hlength := congrArg List.length hall
  rw [List.length_map, List.length_append, hbefore.length_eq, List.length_replicate, List.length_map] at hlength
  have hrest : cutBehind isNewline (front ++ left) = [] := List.eq_nil_of_length_eq_zero (by omega)
  obtain ⟨rfl, rfl⟩ := List.append_eq_nil_iff.mp (cutBehind_eq_nil_iff.mp hrest)
  rw [hall, hrest, List.map_nil, List.append_nil]
  exact hresult

/-- **A file is numbered like a stream if newlines are its only line boundaries, and only then**; a boundary at the very
end makes no difference. In every list of sources the numbers run on from each source to the next: by one for each
newline and for what follows the last newline, but in a file by one for every other boundary as well. Standard input is
read line by line, and its lines end at newlines, wherever it comes from. -/
theorem cat_numbers_iff (vars : Table String) (files : Files) :
    (∀ path (text : String) input, IsSource files path → path ≠ "-" →
      files.contents path = .ok (Utf8.encode text.toList) → '\r' ∉ text.toList →
        ((utility.complete ["-n", path] vars (.ofText input) files).output =
            (utility.complete ["-n"] vars (.ofText text) files).output ↔ OnlyNewlines text.toList.dropLast)) ∧
      (∀ sources (text : String), sources ≠ [] → (∀ source ∈ sources, IsSource files source) → ∃ written,
        utility.complete ("-n" :: sources) vars (.ofText text) files =
            ⟨.ok 0, {}, written, "", .ofText (if "-" ∈ sources then "" else text)⟩ ∧
          written = String.join (numbered 0 (sourceLines files isLineBoundary text.toList sources)) ∧
          (written = String.join (numbered 0 (sourceLines files isNewline text.toList sources)) ↔
            ∀ source ∈ sources, source ≠ "-" → OnlyNewlines (fileText files source).dropLast)) ∧
      (∀ (call : Invocation) next, ∃ k,
        utility.start { call with args := ["-n"] } next =
          .copy call.input call.output ⟨.line, false, []⟩ (some 0) k) ∧
      ∀ origin : Delivery.Origin, origin.Proper → ∃ bound, ∀ turns, bound ≤ turns →
        ((origin.start (List.replicate ((cutBehind isNewline origin.content).length + 1) .line)).run turns).result?
          origin.reader = some (.ok ((cutBehind isNewline origin.content).map String.ofList ++ [""])) := by
  refine ⟨?_, ?_, ?_, fun origin ho => lines_of_origin ho⟩
  · intro path text input hpath hdash hcontents hreturn
    -- Without a return, the file is read as the text that was encoded.
    have hfile : fileText files path = text.toList := by
      rw [fileText, hcontents]
      show joinNewlines (Utf8.decode _) = _
      rw [Utf8.decode_encode, joinNewlines_of_not_mem hreturn]
    have hsources : ∀ source ∈ [path], IsSource files source := List.forall_mem_singleton.mpr hpath
    have hstdin : ∀ source ∈ ["-"], IsSource files source := List.forall_mem_singleton.mpr (.inl rfl)
    -- A file is cut at all boundaries and a stream at newlines only, so the outputs agree when these are the same.
    have hiff := numbered_eq_iff files input.toList [path]
    have hlines (ends : Char → Bool) : sourceLines files ends input.toList [path] = cutBehind ends text.toList := by
      rw [sourceLines, if_neg hdash, hfile, sourceLines, List.append_nil]
    have hstream : sourceLines files isLineBoundary text.toList ["-"] = cutBehind isNewline text.toList := by
      rw [sourceLines, if_pos rfl, sourceLines, List.append_nil]
    rw [hlines, hlines, List.forall_mem_singleton, hfile] at hiff
    rw [complete_stdin, complete_utility (List.cons_ne_nil _ _) hsources,
      complete_utility (List.cons_ne_nil _ _) hstdin]
    show String.join _ = String.join _ ↔ _
    rw [hlines, hstream, hiff]
    exact ⟨fun h => h hdash, fun h _ => h⟩
  · intro sources text hne hsources
    exact ⟨_, complete_utility hne hsources vars text, rfl, numbered_eq_iff files text.toList sources⟩
  · intro call next
    obtain ⟨k, hstart, -⟩ := @start_utility { call with args := ["-n"] } [] rfl (List.forall_mem_nil _) next
    rw [hstart]
    exact ⟨_, rfl⟩

/-- One file, with the name `f`. -/
def oneFile (text : String) : Files := ⟨[(["f"], .file (Utf8.encode text.toList))]⟩

theorem contents_oneFile (text : String) : (oneFile text).contents "f" = .ok (Utf8.encode text.toList) := by
  have hbytes (bytes : List UInt8) : (⟨[(["f"], .file bytes)]⟩ : Files).contents "f" = .ok bytes := by cbv
  exact hbytes _

theorem isSource_oneFile (text : String) : IsSource (oneFile text) "f" :=
  .inr ⟨by decide, _, contents_oneFile text⟩

/-- Two lines in a file, by themselves and behind a line of standard input, and two lines of a stream. -/
theorem twoLines_numbered : '\r' ∉ "a\nb".toList ∧ ["-", "f"] ≠ [] ∧
    (utility.complete ["-n", "f"] ∅ (.ofText "") (oneFile "a\nb")).output =
      (utility.complete ["-n"] ∅ (.ofText "a\nb") (oneFile "a\nb")).output ∧
    (utility.complete ["-n", "-", "f"] ∅ (.ofText "c") (oneFile "a\nb")).output = "     1\tc     2\ta\n     3\tb" ∧
    (Delivery.Origin.file 2 "a\nbc").Proper ∧ ∃ bound, ∀ turns, bound ≤ turns →
      (((Delivery.Origin.file 2 "a\nbc").start [.line, .line, .line]).run turns).result? 0 =
        some (.ok ["a\n", "bc", ""]) := by
  have hreturn : '\r' ∉ "a\nb".toList := by decide
  have honly : OnlyNewlines "a\nb".toList.dropLast := by simp [OnlyNewlines, isLineBoundary]
  have htext : fileText (oneFile "a\nb") "f" = "a\nb".toList := by
    rw [fileText, contents_oneFile]
    decide
  have hfile := isSource_oneFile "a\nb"
  have hsources : ∀ source ∈ ["-", "f"], IsSource (oneFile "a\nb") source :=
    List.forall_mem_cons.mpr ⟨.inl rfl, List.forall_mem_singleton.mpr hfile⟩
  have hproper : (Delivery.Origin.file 2 "a\nbc").Proper := by
    show 1 ≤ 2
    decide
  have hlines : cutBehind isNewline (Delivery.Origin.file 2 "a\nbc").content = [['a', '\n'], ['b', 'c']] := by decide
  obtain ⟨halike, hall, -, horigin⟩ := cat_numbers_iff ∅ (oneFile "a\nb")
  obtain ⟨written, hrun, -, hwritten⟩ := hall ["-", "f"] "c" (by decide) hsources
  have hstream := horigin _ hproper
  rw [hlines] at hstream
  refine ⟨hreturn, by decide, ?_, ?_, hproper, hstream⟩
  · exact (halike "f" "a\nb" "" hfile (by decide) (contents_oneFile _) hreturn).mpr honly
  -- Only the file has to have newlines and no other boundaries; the standard input has none.
  · have honlys : ∀ source ∈ ["-", "f"], source ≠ "-" → OnlyNewlines (fileText (oneFile "a\nb") source).dropLast := by
      simpa [htext] using honly
    rw [hrun, hwritten.mpr honlys, sourceLines, sourceLines, sourceLines, htext]
    decide

/-- In a file, a vertical tab ends a line, and the number of the next line stands behind it. -/
theorem verticalTab_cuts : '\r' ∉ "a\x0bb\n".toList ∧
    (oneFile "a\x0bb\n").contents "f" = .ok (Utf8.encode "a\x0bb\n".toList) ∧
    (utility.complete ["-n", "f"] ∅ (.ofText "") (oneFile "a\x0bb\n")).output = "     1\ta\x0b     2\tb\n" ∧
    (utility.complete ["-n"] ∅ (.ofText "a\x0bb\n") (oneFile "a\x0bb\n")).output = "     1\ta\x0bb\n" := by
  have htext : fileText (oneFile "a\x0bb\n") "f" = "a\x0bb\n".toList := by
    rw [fileText, contents_oneFile]
    decide
  refine ⟨by decide, contents_oneFile _, ?_, ?_⟩
  · rw [complete_utility (List.cons_ne_nil _ _) (List.forall_mem_singleton.mpr (isSource_oneFile _)), sourceLines,
      sourceLines, htext]
    decide
  · rw [complete_stdin, complete_utility (List.cons_ne_nil _ _) (List.forall_mem_singleton.mpr (.inl rfl))]
    decide

end Utility.Cat

end Shell
