/-
Reading an input, as far as it goes without waiting.

All the ways to read come to one of three ends (`Supplies`): there is text; or the task waits
for a pipe that is empty and open at both ends; or the input is a file of the host, which is read
beside the tasks. What an input can give without waiting is bounded by its `load`, and each
reading takes as much off the load as it returns. That is the reason why a loop that reads again
and again has to come to the end or to a wait.

The one thing to check is the decoder of a pipe. It holds back bytes of a character, so a byte can
complete more than one character, and the load counts what the decoder would say at the end
(`Utf8.length_push_le`).
-/
import Shell.Proofs.World.Work

set_option autoImplicit false

namespace Shell

/-! ## 1. What a decoder holds back

Text that is read is never more than the bytes that it is made of, counting what the decoder holds back. -/

namespace Text.Utf8

/-- At the end of its bytes a decoder gives two characters at most. -/
theorem length_finish_le (decoder : Decoder) : (finish decoder).length ≤ 2 := by
  cases decoder <;> simp [finish]

/-- The first byte of a character gives one character at most, at once or at the end. -/
theorem length_first_le (b : Nat) : (first b).1.length + (finish (first b).2).length ≤ 1 := by
  unfold first
  repeat' split
  all_goals simp [finish]

/-- A byte completes no more characters than it and what is held back can make. -/
theorem length_push_le (decoder : Decoder) (byte : UInt8) :
    (push decoder byte).1.length + (finish (push decoder byte).2).length ≤
      1 + (finish decoder).length := by
  have hf := length_first_le byte.toNat
  cases decoder with
  | between => exact hf
  | surrogate =>
    have hs : (finish .surrogate).length = 2 := rfl
    simp only [push, List.length_cons, hs]
    omega
  | begun begun =>
    have hs : (finish (.begun begun)).length = 1 := rfl
    -- A byte that goes on completes the character or is held too; any other one ends it badly and
    -- is looked at again.
    simp only [push, hs]
    split
    · split
      · simp [finish]
      · simp [finish]
    · split
      · simp [finish]
      · simp only [List.length_cons]
        omega

/-- There are no more characters than bytes, counting what was there before and what is held back. -/
theorem length_pushAll_le (decoder : Decoder) (bytes : List UInt8) (done : List Char) :
    (pushAll decoder bytes done).1.length + (finish (pushAll decoder bytes done).2).length ≤
      done.length + bytes.length + (finish decoder).length := by
  induction bytes generalizing decoder done with
  | nil => simp [pushAll]
  | cons b bytes ih =>
    -- What the first byte leaves in the decoder is held back for the next ones.
    have hp := length_push_le decoder b
    have hi := ih (push decoder b).2 ((push decoder b).1.reverse ++ done)
    rw [List.length_append, List.length_reverse] at hi
    simp only [pushAll, List.length_cons]
    omega

end Text.Utf8

/-! ## 2. What an input holds

The load of an input bounds the text that can still be read from it without waiting. -/

namespace Input

/-- Taking a line takes its length off what is pending, and leaves the source. -/
theorem takeLine?_eq_some {input rest : Input} {line : List Char}
    (h : input.takeLine? = some (line, rest)) :
    rest.source = input.source ∧
      rest.pendingText.length + line.length = input.pendingText.length := by
  obtain ⟨pending, source⟩ := input
  cases pending with
  | nil => cases h
  | cons last earlier =>
    have hsplit := List.takeWhile_append_dropWhile (p := isInLine) (l := last)
    simp only [takeLine?] at h
    cases hd : last.dropWhile isInLine with
    | nil =>
      rw [hd] at h
      cases h
    | cons newline after =>
      rw [hd] at h hsplit
      simp only [Option.some.injEq, Prod.mk.injEq] at h
      obtain ⟨rfl, rfl⟩ := h
      refine ⟨rfl, ?_⟩
      -- The line ends in the newest piece, and what comes after it there is left.
      have hw : (withPending ⟨last :: earlier, source⟩ after).pendingText = after := by
        cases after <;> simp [withPending, pendingText]
      have hl := congrArg List.length hsplit
      rw [List.length_append, List.length_cons] at hl
      rw [hw]
      cases earlier with
      | nil =>
        simp only [pendingText, List.isEmpty_nil, if_true, List.length_append, List.reverse_cons,
          List.reverse_nil, List.nil_append, List.flatten_cons, List.flatten_nil,
          List.length_cons, List.length_nil]
        omega
      | cons e earlier =>
        simp only [pendingText, List.isEmpty_cons, Bool.false_eq_true, if_false,
          List.reverse_cons, List.flatten_append, List.flatten_cons, List.flatten_nil,
          List.length_append, List.length_cons, List.length_nil]
        omega

/-- Equal sources are the same supply. -/
theorem supply_eq_of_source {input input' : Input} (h : input'.source = input.source) :
    input'.supply = input.supply := by
  rw [supply, h, supply]

/-- To add a piece to what is pending is no change of the source. -/
theorem source_addPending (input : Input) (piece : List Char) :
    (input.addPending piece).source = input.source := by
  unfold addPending
  split
  · split <;> rfl
  · rfl

end Input

namespace World

open Shell.Text

/-- How many characters an input can give without waiting, at most. -/
def hold (w : World) (input : Input) : Nat :=
  input.pendingText.length +
    match input.source with
    | .text rest => rest.length
    | .host _ ready => (ready.getD []).length
    | .pipe pipe decoder _ => (w.channel pipe).pipe.buffer.size + (Utf8.finish decoder).length

/-- What an input of a world can give without waiting, at most. -/
def load (w : World) (index : Nat) : Nat := w.hold (w.input index)

/-- The stock that limits a copy is more than can be read. -/
theorem load_le_stock (w : World) (index : Nat) : w.load index + 2 ≤ w.stock index := by
  -- The stock adds up the lengths of the pending pieces, wherever they are joined.
  have hp (pieces : List (List Char)) (n : Nat) :
      pieces.foldl (fun n piece => n + piece.length) n = n + pieces.reverse.flatten.length := by
    induction pieces generalizing n with
    | nil => simp
    | cons piece pieces ih =>
      rw [List.foldl_cons, ih]
      simp only [List.reverse_cons, List.flatten_append, List.length_append, List.flatten_cons,
        List.flatten_nil, List.length_nil]
      omega
  simp only [load, hold, stock, hp, Input.pendingText]
  cases (w.input index).source with
  | text rest => simp only; omega
  | host rest ready => simp only; omega
  | pipe pipe decoder ended =>
    have hf := Utf8.length_finish_le decoder
    simp only
    omega

/-- An input that is put back has no more load than it holds. -/
theorem load_setInput_le (w : World) (index : Nat) (input : Input) :
    (w.setInput index input).load index ≤ w.hold input := by
  -- At a number without an input nothing is set and nothing is held.
  rcases Nat.lt_or_ge index w.inputs.size with h | h
  · rw [load, input_setInput_self input h]
    exact Nat.le_refl _
  · rw [setInput_of_size_le input h, load, input_of_size_le h]
    exact Nat.zero_le _

/-- What an input holds depends on its pipe alone. -/
theorem hold_congr {w w' : World} {input : Input}
    (h : ∀ pipe, input.supply = .pipe pipe → w'.channel pipe = w.channel pipe) :
    w'.hold input = w.hold input := by
  unfold hold
  cases hs : input.source with
  | text rest => rfl
  | host rest ready => rfl
  | pipe pipe decoder ended =>
    have hc := h pipe (by rw [Input.supply, hs])
    simp only [hc]

/-! ## 3. How a reading ends

A reading supplies a text and takes it off the load, or it leaves the task waiting where something will happen. -/

/-- The ways a reading can end: with text, or with a wait for a pipe, or with the host. -/
inductive Supplies (w : World) (task index : Nat) : World × Option (List Char) → Prop where
  | text {w' : World} {text : List Char} (hw : w.Works w')
      (hl : w'.load index + text.length ≤ w.load index) : Supplies w task index (w', some text)
  | waits {w' : World} {pipe : Nat} (hw : w.Works w')
      (hs : (w'.input index).supply = .pipe pipe)
      (he : (w'.channel pipe).pipe.isWaiting = true) :
      Supplies w task index (w'.wait pipe task, none)
  | host {w' w'' : World} (hw : w.Works w') (hs : (w.input index).supply = .host)
      (ha : w'' = w' ∨ w'' = w'.askHost task index) : Supplies w task index (w'', none)

variable {w w₁ w' : World} {task index pipe : Nat}

/-- A wait after work is a wait. -/
theorem Supplies.after (h : w₁.Supplies task index (w', none)) (hw : w.Works w₁) :
    w.Supplies task index (w', none) := by
  cases h with
  | waits hw' hs he => exact .waits (hw.trans hw') hs he
  | host hw' hs ha => exact .host (hw.trans hw') ((hw.supply index).symm.trans hs) ha

/-- Two texts one after the other are one. -/
theorem Supplies.append {text text' : List Char} (h : w.Supplies task index (w₁, some text))
    (h' : w₁.Supplies task index (w', some text')) :
    w.Supplies task index (w', some (text ++ text')) := by
  cases h with
  | text hw hl =>
    cases h' with
    | text hw' hl' =>
      refine .text (hw.trans hw') ?_
      rw [List.length_append]
      omega

/-- Supplying a text is work. -/
theorem Supplies.works {text : List Char} (h : w.Supplies task index (w', some text)) :
    w.Works w' := by
  cases h with
  | text hw _ => exact hw

/-- What has been supplied is taken off the load. -/
theorem Supplies.load {text : List Char} (h : w.Supplies task index (w', some text)) :
    w'.load index + text.length ≤ w.load index := by
  cases h with
  | text _ hl => exact hl

/-- What comes after a text comes after it. -/
theorem Supplies.prepend {r : World × Option (List Char)}
    (h : w.Supplies task index (w₁, some [])) (h' : w₁.Supplies task index r) :
    w.Supplies task index r := by
  obtain ⟨w', got⟩ := r
  cases got with
  | none => exact h'.after h.works
  | some text => exact h.append h'

/-- Setting an input that keeps its source and has less pending. -/
theorem supplies_setInput {input : Input} {text : List Char}
    (hs : input.source = (w.input index).source)
    (hp : input.pendingText.length + text.length ≤ (w.input index).pendingText.length) :
    w.Supplies task index (w.setInput index input, some text) := by
  refine .text (works_setInput w (Input.supply_eq_of_source hs)) ?_
  have hl := w.load_setInput_le index input
  have hh : w.hold input + text.length ≤ w.load index := by
    unfold World.load hold
    rw [hs]
    omega
  omega

/-! ### Bytes from a pipe -/

/-- A reader that receives nothing waits at its pipe. -/
theorem Receives.of_none {size : Option Nat} (h : w.Receives task pipe size (w', none)) :
    (w.channel pipe).pipe.isWaiting = true ∧ w' = w.wait pipe task := by
  cases h with
  | empty hw => exact ⟨hw, rfl⟩

/-- What has been received has left the buffer. -/
theorem Receives.of_some {size : Option Nat} {bytes : List UInt8}
    (h : w.Receives task pipe size (w', some bytes)) :
    w.Works w' ∧ w'.inputs = w.inputs ∧
      (w'.channel pipe).pipe.buffer.size + bytes.length ≤ (w.channel pipe).pipe.buffer.size := by
  cases h with
  | closed _ => exact ⟨.refl w, rfl, Nat.le_refl _⟩
  | taken hw _ =>
    have hlt : pipe < w.channels.size := by
      refine Nat.lt_of_not_le fun hn => ?_
      rw [channel_of_size_le hn] at hw
      cases hw
    have hd := congrArg List.length ((w.channel pipe).pipe.deliver_append size)
    rw [List.length_append, Array.length_toList, Array.length_toList] at hd
    refine ⟨works_take w pipe size, inputs_change _, ?_⟩
    rw [take, pipe_change_self _ hlt]
    omega

/-- The text that the bytes of a pipe complete is no longer than what the pipe and the decoder
held. -/
theorem supplies_decoded {decoder decoder' : Utf8.Decoder} {ended ended' : Bool}
    {bytes : List UInt8} {text : List Char}
    (hs : (w.input index).source = .pipe pipe decoder ended) (hw : w.Works w₁)
    (hi : w₁.inputs = w.inputs)
    (hb : (w₁.channel pipe).pipe.buffer.size + bytes.length ≤ (w.channel pipe).pipe.buffer.size)
    (ht : text.length + (Utf8.finish decoder').length ≤
      bytes.length + (Utf8.finish decoder).length) :
    w.Supplies task index
      (w₁.setInput index ⟨(w₁.input index).pending, .pipe pipe decoder' ended'⟩, some text) := by
  have hin : w₁.input index = w.input index := by
    rw [World.input, hi]
    rfl
  rw [hin]
  refine .text (hw.trans (works_setInput w₁ ?_)) ?_
  · rw [hin, Input.supply, Input.supply, hs]
  · have hl := w₁.load_setInput_le index
      ⟨(w.input index).pending, .pipe pipe decoder' ended'⟩
    have hh : w.load index = (w.input index).pendingText.length +
        ((w.channel pipe).pipe.buffer.size + (Utf8.finish decoder).length) := by
      rw [World.load, hold, hs]
    simp only [hold, Input.pendingText] at hl hh
    omega

/-- Pulling text out of a pipe ends so: with a text, or with the task waiting. -/
theorem supplies_pull {decoder : Utf8.Decoder} {ended : Bool}
    (hs : (w.input index).source = .pipe pipe decoder ended) (tries : Nat) :
    w.Supplies task index (w.pull task index pipe tries decoder) := by
  induction tries generalizing w decoder ended with
  | zero => exact .text (.refl w) (Nat.le_refl _)
  | succ tries ih =>
    have hrec := w.receives task pipe none
    rcases hr : w.receive task pipe none with ⟨w₁, got⟩
    rw [hr] at hrec
    cases got with
    | none =>
      obtain ⟨he, hw⟩ := hrec.of_none
      simp only [pull, hr, hw]
      exact .waits (.refl w) (by rw [Input.supply, hs]) he
    | some bytes =>
      obtain ⟨hw, hi, hb⟩ := hrec.of_some
      cases bytes with
      | nil =>
        -- The pipe has come to its end, and the decoder gives what it holds.
        simp only [pull, hr]
        refine supplies_decoded hs hw hi hb ?_
        simp [Utf8.finish]
      | cons b bytes =>
        have hlen := Utf8.length_pushAll_le decoder (b :: bytes) []
        rw [List.length_nil, Nat.zero_add] at hlen
        simp only [pull, hr]
        generalize Utf8.pushAll decoder (b :: bytes) [] = decoded at hlen ⊢
        obtain ⟨text, decoder'⟩ := decoded
        have hd : w.Supplies task index
            (w₁.setInput index ⟨(w₁.input index).pending, .pipe pipe decoder' false⟩,
              some text) :=
          supplies_decoded hs hw hi hb hlen
        by_cases ht : text.isEmpty = true
        · -- Only a part of a character has come, so the decoder holds it and the pipe is read on.
          rw [if_pos ht]
          obtain rfl : text = [] := List.isEmpty_iff.1 ht
          have hlt : index < w₁.inputs.size := by
            refine Nat.lt_of_not_le fun hn => ?_
            rw [hi] at hn
            rw [input_of_size_le hn] at hs
            cases hs
          have hsrc := congrArg Input.source (input_setInput_self (w := w₁)
            ⟨(w₁.input index).pending, .pipe pipe decoder' false⟩ hlt)
          exact hd.prepend (ih hsrc)
        · rw [if_neg ht]
          exact hd

/-! ### Pieces and lines -/

/-- So does getting the next piece of any source. -/
theorem supplies_nextPiece (w : World) (task index : Nat) (inside : Bool) :
    w.Supplies task index (w.nextPiece task index inside) := by
  have hload : w.load index = w.hold (w.input index) := rfl
  cases hs : (w.input index).source with
  | text rest =>
    -- A text is given whole, and nothing is left of it.
    simp only [nextPiece, hs]
    refine .text (works_setInput w (by simp only [Input.supply, hs])) ?_
    have hl := w.load_setInput_le index { w.input index with source := .text [] }
    simp only [hold, hs, Input.pendingText, List.length_nil] at hl hload
    omega
  | host rest ready =>
    have hh : (w.input index).supply = .host := by rw [Input.supply, hs]
    cases inside with
    | false =>
      simp only [nextPiece, hs]
      exact .host (.refl w) hh (.inr rfl)
    | true =>
      have hw : w.Works (w.setInput index { w.input index with source := .host rest none }) :=
        works_setInput w (by simp only [Input.supply, hs])
      simp only [nextPiece, hs, if_true]
      cases ready with
      | none => exact .host hw hh (.inl rfl)
      -- The piece that the host had read was part of the load.
      | some piece =>
        refine .text hw ?_
        have hl := w.load_setInput_le index { w.input index with source := .host rest none }
        simp only [hold, hs, Input.pendingText, Option.getD_none, Option.getD_some,
          List.length_nil] at hl hload
        omega
  | pipe pipe decoder ended =>
    simp only [nextPiece, hs]
    -- After its end a pipe is not asked again, unless a reading has begun before.
    by_cases he : (ended && !inside) = true
    · rw [if_pos he]
      exact .text (.refl w) (Nat.le_refl _)
    · rw [if_neg he]
      exact supplies_pull hs 2

/-- So does reading a piece, which may be pending. -/
theorem supplies_readPiece (w : World) (task index : Nat) (inside : Bool) :
    w.Supplies task index (w.readPiece task index inside) := by
  unfold readPiece
  simp only
  split
  · exact w.supplies_nextPiece task index inside
  · exact supplies_setInput rfl (by simp [Input.withPending, Input.pendingText])

/-- And so does reading a line. -/
theorem supplies_readLine (w : World) (task index tries : Nat) (inside : Bool) :
    w.Supplies task index (w.readLine task index tries inside) := by
  induction tries generalizing w inside with
  | zero => exact .text (.refl w) (Nat.le_refl _)
  | succ tries ih =>
    unfold readLine
    split
    · -- A line is pending.
      next line rest ht =>
      have ht : (w.input index).takeLine? = some (line, rest) := by
        cases inside with
        | true => cases ht
        | false => exact ht
      obtain ⟨hs, hp⟩ := Input.takeLine?_eq_some ht
      exact supplies_setInput hs (Nat.le_of_eq hp)
    · have hn := w.supplies_nextPiece task index inside
      rcases hr : w.nextPiece task index inside with ⟨w₁, got⟩
      rw [hr] at hn
      rcases got with - | (- | ⟨c, piece⟩)
      · exact hn
      · -- The source has come to its end, and what is pending is the last line.
        exact hn.prepend (supplies_setInput rfl (by simp [Input.withPending, Input.pendingText]))
      · -- The piece becomes pending, so the load is what it was before the piece was taken.
        have hw := hn.works
        have hl := hn.load
        have hadd := w₁.load_setInput_le index ((w₁.input index).addPending (c :: piece))
        have hh : w₁.hold ((w₁.input index).addPending (c :: piece)) =
            w₁.load index + (c :: piece).length := by
          unfold World.load hold
          rw [Input.pendingText_addPending, Input.source_addPending, List.length_append]
          omega
        have hset := works_setInput w₁ (Input.supply_eq_of_source
          ((w₁.input index).source_addPending (c :: piece)))
        exact Supplies.prepend (.text (hw.trans hset) (by rw [List.length_nil]; omega)) (ih _ _)

/-! ## 4. Requests

A request is met by readings, one after the other, with what had been read before. -/

/-- The ways a request can be met, if `done` has been read for it already: with text that goes on
from there, or not yet. -/
inductive Meets (w : World) (task index : Nat) (done : List (List Char)) : World × Got → Prop where
  | text {w' : World} {text : List Char} (h : w.Supplies task index (w', some text)) :
      Meets w task index done (w', .text (done.reverse.flatten ++ text))
  | waiting {w' : World} {wanted : Wanted} (h : w.Supplies task index (w', none)) :
      Meets w task index done (w', .waiting wanted)

/-- Reading on after a piece. -/
theorem Meets.prepend {done : List (List Char)} {piece : List Char} {r : World × Got}
    (h : w.Supplies task index (w₁, some piece)) (hm : w₁.Meets task index (piece :: done) r) :
    w.Meets task index done r := by
  cases hm with
  | @text w' text h' =>
    have ht : w.Meets task index done (w', .text (done.reverse.flatten ++ (piece ++ text))) :=
      .text (h.append h')
    -- The piece stands between what was done before and what came after it.
    rw [List.reverse_cons, List.flatten_append, List.flatten_singleton, List.append_assoc]
    exact ht
  | waiting h' => exact .waiting (h'.after h.works)

/-- A request is met by what has been read for it. -/
theorem meets_done (w : World) (task index : Nat) (done : List (List Char)) :
    w.Meets task index done (w, .text done.reverse.flatten) := by
  have ht : w.Meets task index done (w, .text (done.reverse.flatten ++ [])) :=
    .text (.text (.refl w) (Nat.le_refl _))
  rwa [List.append_nil] at ht

/-- All of the text is read piece by piece, so each piece meets a part of the request. -/
theorem meets_readAll (w : World) (task index tries : Nat) (inside : Bool)
    (done : List (List Char)) :
    w.Meets task index done (w.readAll task index tries inside done) := by
  induction tries generalizing w inside done with
  | zero => exact w.meets_done task index done
  | succ tries ih =>
    have hn := w.supplies_readPiece task index inside
    unfold readAll
    rcases hr : w.readPiece task index inside with ⟨w₁, got⟩
    rw [hr] at hn
    rcases got with - | (- | ⟨c, piece⟩)
    · exact .waiting hn
    · have ht : w.Meets task index done (w₁, .text (done.reverse.flatten ++ [])) := .text hn
      rwa [List.append_nil] at ht
    · exact Meets.prepend hn (ih _ _ _)

/-- A continued line is read line by line. -/
theorem meets_readContinued (w : World) (task index lines : Nat) (inside : Bool)
    (done : List (List Char)) :
    w.Meets task index done (w.readContinued task index lines inside done) := by
  induction lines generalizing w inside done with
  | zero => exact w.meets_done task index done
  | succ lines ih =>
    have hn := w.supplies_readLine task index maxPieces inside
    unfold readContinued
    rcases hr : w.readLine task index maxPieces inside with ⟨w₁, got⟩
    rw [hr] at hn
    cases got with
    | none => exact .waiting hn
    | some line =>
      simp only
      split
      -- The line may go on in the next one.
      · exact Meets.prepend hn (ih _ _ _)
      · exact Meets.prepend hn (w₁.meets_done task index (line :: done))

end World

/-- What has been read for a request that takes several pieces or lines. -/
def Wanted.before (wanted : Wanted) : List (List Char) :=
  match wanted.request with
  | .piece => []
  | .line => []
  | .continued => wanted.done
  | .all => wanted.done

namespace World

/-- **Every reading** ends in one of the ways of `Meets`. -/
theorem meets_read (w : World) (task index : Nat) (wanted : Wanted) :
    w.Meets task index wanted.before (w.read task index wanted) := by
  have hpiece := w.supplies_readPiece task index wanted.inside
  have hline := w.supplies_readLine task index maxPieces wanted.inside
  unfold read Wanted.before
  -- A continued line is followed by another one, and the other requests are met by what one reader supplies.
  cases wanted.request with
  | piece =>
    rcases hr : w.readPiece task index wanted.inside with ⟨w₁, - | text⟩
    · rw [hr] at hpiece
      exact .waiting hpiece
    · rw [hr] at hpiece
      exact .text hpiece
  | line =>
    rcases hr : w.readLine task index maxPieces wanted.inside with ⟨w₁, - | text⟩
    · rw [hr] at hline
      exact .waiting hline
    · rw [hr] at hline
      exact .text hline
  | continued =>
    rcases hr : w.readLine task index maxPieces wanted.inside with ⟨w₁, - | line⟩
    · rw [hr] at hline
      exact .waiting hline
    · rw [hr] at hline
      simp only
      split
      · exact Meets.prepend hline (w₁.meets_readContinued _ _ _ _ _)
      · exact Meets.prepend hline (w₁.meets_done task index (line :: wanted.done))
  | all => exact w.meets_readAll task index maxPieces wanted.inside wanted.done

end World

end Shell
