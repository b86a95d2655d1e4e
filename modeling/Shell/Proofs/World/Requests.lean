/-
What a request takes.

A request takes a text off the front of another one: a line, lines that go on in each other, or all of it
(`Request.split`). A request for a piece takes what happens to be at hand, so of that it is only said what it may
take (`Request.Takes`). Texts are decoded in pieces, and the cut between two pieces makes no difference
(`Utf8.decodeFrom_append`); nor does it matter to a line how much of the text is pending
(`Input.takeLine?_cases`).
-/
import Mathlib.Data.List.TakeWhile
import Shell.Proofs.World.Reading

set_option autoImplicit false

namespace Shell

/-! ## 1. Decoding in pieces

Bytes come in pieces that may end inside of a character. Decoding them one after the other gives the same text as
decoding them at once. -/

namespace Text.Utf8

/-- The text of bytes behind those that a decoder has taken in. -/
def decodeFrom (decoder : Decoder) (bytes : List UInt8) : List Char :=
  (pushAll decoder bytes []).1 ++ finish (pushAll decoder bytes []).2

/-- What has been decoded before stays in front. -/
theorem pushAll_done (decoder : Decoder) (bytes : List UInt8) (done : List Char) :
    pushAll decoder bytes done =
      (done.reverse ++ (pushAll decoder bytes []).1, (pushAll decoder bytes []).2) := by
  induction bytes generalizing decoder done with
  | nil => simp [pushAll]
  | cons b bytes ih =>
    simp only [pushAll]
    rw [ih _ (_ ++ done), ih _ (_ ++ [])]
    simp

/-- Bytes may be decoded in two parts. -/
theorem pushAll_append (decoder : Decoder) (bytes more : List UInt8) :
    pushAll decoder (bytes ++ more) [] =
      ((pushAll decoder bytes []).1 ++ (pushAll (pushAll decoder bytes []).2 more []).1,
        (pushAll (pushAll decoder bytes []).2 more []).2) := by
  induction bytes generalizing decoder with
  | nil => simp [pushAll]
  | cons b bytes ih =>
    simp only [List.cons_append, pushAll]
    rw [pushAll_done _ (bytes ++ more), pushAll_done _ bytes, ih]
    simp

/-- **Pieces make no difference**: what the first bytes complete, then what comes of the others. -/
theorem decodeFrom_append (decoder : Decoder) (bytes more : List UInt8) :
    decodeFrom decoder (bytes ++ more) =
      (pushAll decoder bytes []).1 ++ decodeFrom (pushAll decoder bytes []).2 more := by
  rw [decodeFrom, pushAll_append, decodeFrom, List.append_assoc]

/-- Decoding begins between two characters. -/
theorem decode_eq_decodeFrom (bytes : List UInt8) : decode bytes = decodeFrom .between bytes := rfl

end Text.Utf8

/-! ## 2. What a request is met with

What a request takes of a text is told without worlds and pipes, by cutting the text. -/

namespace Text

open Input

/-- The first line of a text with its newline, and the text behind it. The last line can be
without a newline. -/
def splitLine (text : List Char) : List Char × List Char :=
  match text.dropWhile isInLine with
  | [] => (text, [])
  | newline :: rest => (text.takeWhile isInLine ++ [newline], rest)

/-- The line and the rest make up the text. -/
theorem splitLine_append (text : List Char) : (splitLine text).1 ++ (splitLine text).2 = text := by
  have h := List.takeWhile_append_dropWhile (p := isInLine) (l := text)
  unfold splitLine
  split
  · exact List.append_nil text
  · next newline rest hd =>
    rw [hd] at h
    simpa using h

/-- A line that has come to its newline does not depend on what follows. -/
theorem splitLine_of_newline {text rest : List Char} {newline : Char}
    (h : text.dropWhile isInLine = newline :: rest) (more : List Char) :
    splitLine (text ++ more) = (text.takeWhile isInLine ++ [newline], rest ++ more) := by
  have hne : (text.dropWhile isInLine).isEmpty = false := by rw [h]; rfl
  have hd : (text ++ more).dropWhile isInLine = newline :: (rest ++ more) := by
    rw [List.dropWhile_append, hne, if_neg Bool.false_ne_true, h, List.cons_append]
  have ht : (text ++ more).takeWhile isInLine = text.takeWhile isInLine := by
    rw [List.takeWhile_append, if_neg fun hlen => ?_]
    -- Otherwise nothing of the text would be left behind the line.
    have hall := congrArg List.length
      (List.takeWhile_append_dropWhile (p := isInLine) (l := text))
    rw [List.length_append, h, List.length_cons] at hall
    omega
  rw [splitLine, hd, ht]

/-- Without a newline the text is a line that has not ended. -/
theorem splitLine_of_inLine {text : List Char} (h : ∀ c ∈ text, isInLine c = true) :
    splitLine text = (text, []) := by
  rw [splitLine, List.dropWhile_eq_nil_iff.2 h]

/-- There is less text behind a continued line. -/
theorem length_splitLine_lt {text : List Char} (h : World.isContinued (splitLine text).1 = true) :
    (splitLine text).2.length < text.length := by
  have hl := congrArg List.length (splitLine_append text)
  have hne : (splitLine text).1 ≠ [] := by
    intro he
    rw [he] at h
    exact absurd h (by decide)
  have := List.length_pos_iff.2 hne
  rw [List.length_append] at hl
  omega

/-- The first lines of a text, as long as each is continued by the next, and the text behind
them. -/
def splitContinued (text : List Char) : List Char × List Char :=
  if World.isContinued (splitLine text).1 = true then
    ((splitLine text).1 ++ (splitContinued (splitLine text).2).1,
      (splitContinued (splitLine text).2).2)
  else splitLine text
termination_by text.length
decreasing_by all_goals exact length_splitLine_lt ‹_›

end Text

open Text in
/-- What a request takes off a text that is there as a whole, and the text behind it. A piece of
it is all of it. -/
def Request.split (request : Request) (text : List Char) : List Char × List Char :=
  match request with
  | .piece => (text, [])
  | .line => splitLine text
  | .continued => splitContinued text
  | .all => (text, [])

/-- What a request takes and what it leaves make up the text. -/
theorem Request.split_append (request : Request) (text : List Char) :
    (request.split text).1 ++ (request.split text).2 = text := by
  unfold split
  cases request with
  | piece => exact List.append_nil text
  | line => exact Text.splitLine_append text
  | all => exact List.append_nil text
  | continued =>
    simp only
    induction text using Text.splitContinued.induct with
    | case1 text hc ih =>
      rw [Text.splitContinued, if_pos hc, List.append_assoc, ih]
      exact Text.splitLine_append text
    | case2 text hc =>
      rw [Text.splitContinued, if_neg hc]
      exact Text.splitLine_append text

/-- Two texts of which a request takes the same have the same behind it. -/
theorem Request.split_snd {request : Request} {text text' front : List Char}
    (ht : text = front ++ text')
    (h : (request.split text).1 = front ++ (request.split text').1) :
    (request.split text).2 = (request.split text').2 := by
  refine (List.append_right_inj (request.split text).1).1 ?_
  calc (request.split text).1 ++ (request.split text).2
      = front ++ text' := (request.split_append text).trans ht
    _ = front ++ ((request.split text').1 ++ (request.split text').2) := by
      rw [request.split_append]
    _ = (request.split text).1 ++ (request.split text').2 := by rw [h, List.append_assoc]

/-- Whether a request can be met with the front of a text, so that the rest is left. A piece is any
part of the text, but an empty one is its end. -/
def Request.Takes (request : Request) (front rest : List Char) : Prop :=
  match request with
  | .piece => front = [] → rest = []
  | request => request.split (front ++ rest) = (front, rest)

/-- A request takes what it splits off, unless it is for a piece, whose length is up to the source. -/
theorem Request.takes_iff {request : Request} (h : request ≠ .piece) {front rest : List Char} :
    request.Takes front rest ↔ request.split (front ++ rest) = (front, rest) := by
  cases request with
  | piece => exact absurd rfl h
  | line | continued | all => rfl

/-- What a request takes off a whole text. -/
theorem Request.takes_of_split {request : Request} (h : request ≠ .piece)
    {text front rest : List Char} (ht : text = front ++ rest)
    (hs : (request.split text).1 = front) : request.Takes front rest := by
  have happend := request.split_append text
  rw [hs] at happend
  rw [request.takes_iff h, ← ht]
  exact Prod.ext hs (List.append_cancel_left (happend.trans ht))

namespace Input

/-- The text that is put back is pending. -/
@[simp] theorem pendingText_withPending (input : Input) (text : List Char) :
    (input.withPending text).pendingText = text := by
  cases text <;> simp [withPending, pendingText]

/-- An empty text is not kept as pending. -/
theorem filled_withPending (input : Input) (text : List Char) :
    [] ∉ (input.withPending text).pending := by
  cases text <;> simp [withPending]

/-- A piece that is added is one more that is not empty. -/
theorem filled_addPending {input : Input} (h : [] ∉ input.pending) {piece : List Char}
    (hp : piece ≠ []) : [] ∉ (input.addPending piece).pending := by
  unfold addPending
  cases hl : input.pending with
  | nil => simpa using hp.symm
  | cons last earlier =>
    rw [hl] at h
    simp only
    split
    · simp_all
    · simp_all [eq_comm]

/-- When a line is taken, the rest is put back. -/
theorem takeLine?_eq_withPending {input rest : Input} {line : List Char}
    (h : input.takeLine? = some (line, rest)) : ∃ text, rest = input.withPending text := by
  unfold takeLine? at h
  split at h
  · cases h
  · split at h
    · cases h
    · exact ⟨_, (Prod.mk.inj (Option.some.inj h)).2.symm⟩

/-- Whether no line ends in what is pending. -/
def IsInLine (input : Input) : Prop := ∀ c ∈ input.pendingText, isInLine c = true

open Text in
/-- Either a line is pending, and it is the first one of all that is to come; or no line is. -/
theorem takeLine?_cases {input : Input} (h : input.IsTidy) (more : List Char) :
    (input.takeLine? = none ∧ input.IsInLine) ∨
      ∃ rest, input.takeLine? =
          some ((splitLine (input.pendingText ++ more)).1, input.withPending rest) ∧
        (splitLine (input.pendingText ++ more)).2 = rest ++ more := by
  have hview := takeLine?_eq h
  cases hd : input.pendingText.dropWhile isInLine with
  | nil =>
    rw [hd] at hview
    exact .inl ⟨Option.map_eq_none_iff.1 hview, List.dropWhile_eq_nil_iff.1 hd⟩
  | cons newline rest =>
    rw [hd] at hview
    obtain ⟨⟨line, left⟩, ht, heq⟩ := Option.map_eq_some_iff.1 hview
    obtain ⟨rfl, hleft⟩ := Prod.mk.inj heq
    refine .inr ⟨rest, ?_, ?_⟩
    · obtain ⟨text, rfl⟩ := takeLine?_eq_withPending ht
      rw [pendingText_withPending] at hleft
      rw [ht, splitLine_of_newline hd, hleft]
    · rw [splitLine_of_newline hd]

end Input

end Shell
