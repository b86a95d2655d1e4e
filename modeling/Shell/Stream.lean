/-
Streams: where commands read from and write to.

An output is a sink, which collects text, or the write end of a pipe. An input gives its text in
pieces: all of a text at once, the pieces of a file of the host, or what comes out of a pipe. It
keeps what a reader of lines has taken from its source and not used. So several commands can
take turns in reading one input, by pieces, by lines or to the end.
-/
import Shell.Text.Utf8

set_option autoImplicit false

namespace Shell

open Shell.Text

/-- Where text is written. Sinks and pipes are numbered. -/
inductive Output where
  | sink (index : Nat)
  | pipe (index : Nat)
  deriving DecidableEq, Repr, Inhabited

/-- Where the text of an input comes from. -/
inductive Source where
  /-- The rest of a text, which is the next piece. -/
  | text (rest : List Char)
  /-- The pieces of a file of the host that are still to come, none of them empty; and the piece
  that has been read for the task that asked for one. -/
  | host (rest : List (List Char)) (ready : Option (List Char))
  /-- The read end of a pipe, the state of decoding, and whether the end has been
  seen. -/
  | pipe (index : Nat) (decoder : Utf8.Decoder) (ended : Bool)
  deriving DecidableEq, Repr

/-- An input stream. -/
structure Input where
  /-- Pieces taken from the source by a reader of lines and not used yet, the last one first. None
  of them is empty, and only the last one can have a newline. -/
  pending : List (List Char) := []
  source : Source
  deriving DecidableEq, Repr

instance : Inhabited Input := ⟨⟨[], .text []⟩⟩

namespace Input

/-- The text cut into pieces of `size` characters. -/
def chunksOf (size : Nat) (text : List Char) : List (List Char) :=
  if size = 0 ∨ text = [] then []
  else text.take size :: chunksOf size (text.drop size)
termination_by text.length
decreasing_by
  cases text with
  | nil => simp_all
  | cons c cs => simp_all only [List.length_drop, List.length_cons]; omega

/-- An input that gives a text in one piece. -/
def ofText (text : String) : Input := ⟨[], .text text.toList⟩

/-- An input from a file of the host with the given text, in pieces of `size` characters or in
one piece. -/
def ofHost (size : Option Nat) (text : String) : Input :=
  let text := text.toList
  ⟨[], .host (chunksOf (size.getD text.length) text) none⟩

/-- An input from a pipe. -/
def ofPipe (index : Nat) : Input := ⟨[], .pipe index .between false⟩

/-- The pipe that an input reads from. -/
def pipe? (input : Input) : Option Nat :=
  match input.source with
  | .pipe index _ _ => some index
  | _ => none

/-- The text taken from the source and not used yet. -/
def pendingText (input : Input) : List Char := input.pending.reverse.flatten

/-- The input with nothing but this text pending. -/
def withPending (input : Input) (text : List Char) : Input :=
  { input with pending := if text.isEmpty then [] else [text] }

/-- The input with another piece pending. A piece that another reader has left with a newline
in it is made longer, so that the newline stays in the last one. -/
def addPending (input : Input) (piece : List Char) : Input :=
  match input.pending with
  | last :: earlier =>
    if last.contains '\n' then { input with pending := (last ++ piece) :: earlier }
    else { input with pending := piece :: last :: earlier }
  | [] => { input with pending := [piece] }

theorem pendingText_addPending (input : Input) (piece : List Char) :
    (input.addPending piece).pendingText = input.pendingText ++ piece := by
  unfold addPending
  split
  · next last earlier h => split <;> simp [pendingText, h]
  · next h => simp [pendingText, h]

/-- Whether a character does not end a line. -/
def isInLine (c : Char) : Bool := c != '\n'

/-- Takes a line with its newline out of the pending text; none if there is no newline. -/
def takeLine? (input : Input) : Option (List Char × Input) :=
  match input.pending with
  | [] => none
  | last :: earlier =>
    match last.dropWhile isInLine with
    | [] => none
    | newline :: rest =>
      let line := last.takeWhile isInLine ++ [newline]
      let line := if earlier.isEmpty then line else earlier.reverse.flatten ++ line
      some (line, input.withPending rest)

/-- Whether only the last of the pending pieces can have a newline. -/
def IsTidy (input : Input) : Prop := ∀ piece ∈ input.pending.tail, ∀ c ∈ piece, isInLine c = true

theorem isTidy_withPending (input : Input) (text : List Char) : (input.withPending text).IsTidy := by
  unfold IsTidy withPending
  split <;> simp

theorem isTidy_addPending {input : Input} (h : input.IsTidy) (piece : List Char) :
    (input.addPending piece).IsTidy := by
  obtain ⟨pending, source⟩ := input
  match pending with
  | [] => simp [IsTidy, addPending]
  | last :: earlier =>
    by_cases hl : '\n' ∈ last
    · simpa [IsTidy, addPending, hl] using h
    · have inLine : ∀ c ∈ last, isInLine c = true := by
        intro c hc
        have : c ≠ '\n' := fun e => hl (e ▸ hc)
        simpa [isInLine] using this
      simp only [IsTidy, List.tail_cons] at h
      simpa [IsTidy, addPending, hl] using ⟨inLine, h⟩

/-- In a tidy input, looking at the last piece alone finds the first line of all that is
pending. -/
theorem takeLine?_eq {input : Input} (h : input.IsTidy) :
    input.takeLine?.map (fun r => (r.1, r.2.pendingText)) =
      match input.pendingText.dropWhile isInLine with
      | [] => none
      | newline :: rest => some (input.pendingText.takeWhile isInLine ++ [newline], rest) := by
  obtain ⟨pending, source⟩ := input
  match pending with
  | [] => rfl
  | last :: earlier =>
    have inLine : ∀ c ∈ earlier.reverse.flatten, isInLine c = true := by
      intro c hc
      obtain ⟨piece, hp, hm⟩ := List.mem_flatten.1 hc
      exact h piece (by simpa using hp) c hm
    have view : pendingText ⟨last :: earlier, source⟩ = earlier.reverse.flatten ++ last := by
      simp [pendingText]
    rw [view, List.takeWhile_append_of_pos inLine, List.dropWhile_append_of_pos inLine]
    simp only [takeLine?]
    cases last.dropWhile isInLine with
    | nil => rfl
    | cons newline rest => cases earlier <;> cases rest <;> simp [withPending, pendingText]

/-- Everything that an input without a pipe still holds. -/
def unread (input : Input) : List Char :=
  input.pendingText ++
    match input.source with
    | .text rest => rest
    | .host rest _ => rest.flatten
    | .pipe _ _ _ => []

end Input

/-- What a reader asks for. -/
inductive Request where
  /-- The next piece. -/
  | piece
  /-- A line with its newline. -/
  | line
  /-- A line, and the lines after it as long as each is continued by the next. -/
  | continued
  /-- Everything to the end. -/
  | all
  deriving DecidableEq, Repr

/-- A request in the course of being met. -/
structure Wanted where
  request : Request
  /-- Whether the reader waits for a piece of the source, and has not to look at the input
  first. -/
  inside : Bool := false
  /-- The text read for a request that takes several pieces or lines, the last piece
  first. -/
  done : List (List Char) := []
  deriving DecidableEq, Repr

end Shell
