/-
What is still to come from an input.

A reader of a pipe sees its text in pieces, and where the pieces end depends on the capacity of
the pipe and on the order of turns. What does not depend on them is the text as a whole: what is
pending, then what the decoder makes of the bytes in the pipe and of those that somebody has still
to put into it. `coming` is this text, for given bytes to come.

A piece that is drawn from the source comes off the front of what the source has still to give (`Draws`), whether
it is a text at hand, the host or a pipe (`draws_nextPiece`). The number of tries in the loop on a pipe is the one thing
to check: an input has no more pieces at hand than `pieces` says.
-/
import Shell.Proofs.World.Requests

set_option autoImplicit false

namespace Shell

namespace World

open Shell.Text

variable {w w₁ w' : World} {index : Nat} {bytes : List UInt8}

/-! ## 1. Texts to come

What a task will read is told by what is pending, the decoder, the pipe and the bytes that are still to be put into
it (`coming`). It depends on no scheduling. -/

/-- What the source of an input has still to give, if these bytes are still to come into its
pipe. -/
def sourceText (w : World) (index : Nat) (bytes : List UInt8) : List Char :=
  match (w.input index).source with
  | .text rest => rest
  | .host rest ready => ready.getD [] ++ rest.flatten
  | .pipe pipe decoder _ =>
    Utf8.decodeFrom decoder ((w.channel pipe).pipe.buffer.toList ++ bytes)

/-- What an input has still to give. -/
def coming (w : World) (index : Nat) (bytes : List UInt8) : List Char :=
  (w.input index).pendingText ++ w.sourceText index bytes

/-- What is to come depends on the input and on the buffer of its pipe alone. -/
theorem sourceText_congr (hi : w'.input index = w.input index)
    (hp : ∀ c, (w.input index).supply = .pipe c →
      (w'.channel c).pipe.buffer = (w.channel c).pipe.buffer) (bytes : List UInt8) :
    w'.sourceText index bytes = w.sourceText index bytes := by
  unfold sourceText
  rw [hi]
  cases hs : (w.input index).source with
  | text rest => rfl
  | host rest ready => rfl
  | pipe pipe decoder ended =>
    have hc := hp pipe (by rw [Input.supply, hs])
    simp only [hc]

/-- What is to come depends on the input and on what its pipe holds. -/
theorem coming_congr (hi : w'.input index = w.input index)
    (hp : ∀ c, (w.input index).supply = .pipe c →
      (w'.channel c).pipe.buffer = (w.channel c).pipe.buffer) (bytes : List UInt8) :
    w'.coming index bytes = w.coming index bytes := by
  rw [coming, sourceText_congr hi hp, hi, coming]

/-- An input that can be read to its end without the host. Its pending pieces are in order, its
pipe is open for reading, and nothing comes into a pipe that has been closed. -/
structure Readable (w : World) (index : Nat) (bytes : List UInt8) : Prop where
  known : index < w.inputs.size
  tidy : (w.input index).IsTidy
  filled : [] ∉ (w.input index).pending
  supply : (w.input index).supply ≠ .host
  channel : ∀ c, (w.input index).supply = .pipe c → c < w.channels.size ∧
    (w.channel c).pipe.readClosed = false ∧
    ((w.channel c).pipe.writeClosed = true → bytes = [])
  /-- When the end has been seen there is nothing left, not even in the decoder. -/
  ended : ∀ c decoder, (w.input index).source = .pipe c decoder true →
    decoder = .between ∧ (w.channel c).pipe.buffer = #[] ∧ (w.channel c).pipe.writeClosed = true

/-- An input that can be read to its end, be it with the help of the host. The host has no empty
pieces, and has read one only where there is nothing more. -/
structure Legible (w : World) (index : Nat) (bytes : List UInt8) : Prop where
  known : index < w.inputs.size
  tidy : (w.input index).IsTidy
  filled : [] ∉ (w.input index).pending
  host : ∀ rest ready, (w.input index).source = .host rest ready →
    [] ∉ rest ∧ (ready = some [] → rest = [])
  channel : ∀ c, (w.input index).supply = .pipe c → c < w.channels.size ∧
    (w.channel c).pipe.readClosed = false ∧
    ((w.channel c).pipe.writeClosed = true → bytes = [])
  ended : ∀ c decoder, (w.input index).source = .pipe c decoder true →
    decoder = .between ∧ (w.channel c).pipe.buffer = #[] ∧ (w.channel c).pipe.writeClosed = true

/-- What can be read without asking the host is legible. -/
theorem Readable.legible (h : w.Readable index bytes) : w.Legible index bytes where
  known := h.known
  tidy := h.tidy
  filled := h.filled
  host := fun _ _ hs => absurd (by rw [Input.supply, hs]) h.supply
  channel := h.channel
  ended := h.ended

/-- And what is legible can be read so, if the host is not its supply. -/
theorem Legible.readable (h : w.Legible index bytes) (hs : (w.input index).supply ≠ .host) :
    w.Readable index bytes :=
  ⟨h.known, h.tidy, h.filled, hs, h.channel, h.ended⟩

/-- Inputs and pipes are all that matters. -/
theorem Legible.aside (h : w.Legible index bytes) (hi : w'.inputs = w.inputs)
    (hc : w'.channels = w.channels) : w'.Legible index bytes := by
  obtain ⟨count, inputs, channels, awake, asked, sinks, queue⟩ := w
  obtain ⟨count', inputs', channels', awake', asked', sinks', queue'⟩ := w'
  obtain rfl : inputs' = inputs := hi
  obtain rfl : channels' = channels := hc
  exact ⟨h.known, h.tidy, h.filled, h.host, h.channel, h.ended⟩

/-- The host has read nothing of an input that nobody has taken. -/
def Unasked (w : World) (index : Nat) : Prop :=
  ∀ rest ready, (w.input index).source = .host rest ready → ready = none

/-- The host reads for its own inputs only. -/
theorem unasked_of_supply (h : (w.input index).supply ≠ .host) : w.Unasked index :=
  fun _ _ hs => absurd (by rw [Input.supply, hs]) h

/-- What the host has read stands in the source. -/
theorem Unasked.congr (h : w.Unasked index) (hs : (w'.input index).source = (w.input index).source) :
    w'.Unasked index :=
  fun rest ready he => h rest ready (hs.symm.trans he)

/-- Nothing comes from a source that has ended. -/
theorem Legible.sourceText_of_ended (h : w.Legible index bytes) {c : Nat}
    {decoder : Utf8.Decoder} (hs : (w.input index).source = .pipe c decoder true) :
    w.sourceText index bytes = [] := by
  obtain ⟨rfl, hb, hw⟩ := h.ended c decoder hs
  obtain ⟨-, -, hbytes⟩ := h.channel c (by rw [Input.supply, hs])
  rw [sourceText, hs]
  simp only [hb, hbytes hw]
  rfl

/-! ## 2. What a reading touches

A reading changes its own input and its own pipe. -/

/-- At most an input and its pipe have changed. -/
structure Reads (w : World) (index : Nat) (w' : World) : Prop where
  inputs : ∀ i ≠ index, w'.input i = w.input i
  supply : (w'.input index).supply = (w.input index).supply
  pipes : ∀ c, (w.input index).supply ≠ .pipe c → (w'.channel c).pipe = (w.channel c).pipe
  sinks : w'.sinks = w.sinks

/-- Doing nothing touches nothing. -/
theorem Reads.refl (w : World) (index : Nat) : w.Reads index w :=
  ⟨fun _ _ => rfl, rfl, fun _ _ => rfl, rfl⟩

/-- Readings of one input, one after the other, touch that input only. -/
theorem Reads.trans (h : w.Reads index w₁) (h' : w₁.Reads index w') : w.Reads index w' where
  inputs := fun i hi => (h'.inputs i hi).trans (h.inputs i hi)
  supply := h'.supply.trans h.supply
  pipes := fun c hc => (h'.pipes c (by rw [h.supply]; exact hc)).trans (h.pipes c hc)
  sinks := h'.sinks.trans h.sinks

/-- Waiting touches no input. -/
theorem reads_wait (w : World) (pipe task index : Nat) : w.Reads index (w.wait pipe task) :=
  ⟨fun _ _ => rfl, rfl, fun c _ => pipe_wait w pipe task c, rfl⟩

/-- Putting an input back touches no other. -/
theorem reads_setInput {input : Input} (h : input.source = (w.input index).source) :
    w.Reads index (w.setInput index input) where
  inputs := fun _ hi => input_setInput_of_ne input hi
  supply := (works_setInput w (Input.supply_eq_of_source h)).supply index
  pipes := fun _ _ => rfl
  sinks := rfl

/-! ## 3. Pieces of the source

One piece of a source is what is drawn: it is taken off what is to come, and the rest is what comes then. -/

/-- How many pieces of the source can come without waiting, at most: a text or what is in the
buffer, and what the decoder makes of the end. -/
def pieces (w : World) (index : Nat) : Nat :=
  match (w.input index).source with
  | .text rest => min 1 rest.length
  | .host _ ready => if ready.isSome then 1 else 0
  | .pipe pipe _ ended => min 1 (w.channel pipe).pipe.buffer.size + if ended then 0 else 1

/-- An input never has more than two. -/
theorem pieces_le (w : World) (index : Nat) : w.pieces index ≤ 2 := by
  unfold pieces
  split
  · omega
  · split <;> omega
  · split <;> omega

/-- A piece comes off the front of what the source has still to give. An empty one is the end, and
none means that the reader waits. -/
structure Draws (w : World) (index : Nat) (bytes : List UInt8)
    (r : World × Option (List Char)) : Prop where
  reads : w.Reads index r.1
  legible : r.1.Legible index bytes
  pending : (r.1.input index).pending = (w.input index).pending
  text : w.sourceText index bytes = r.2.getD [] ++ r.1.sourceText index bytes
  ended : r.2 = some [] → r.1.sourceText index bytes = []
  fewer : ∀ text, r.2 = some text → text ≠ [] → r.1.pieces index < w.pieces index
  unasked : ∀ text, r.2 = some text → r.1.Unasked index

/-- What comes after an empty part comes after it. -/
theorem Draws.prepend {r : World × Option (List Char)} (hr : w.Reads index w₁)
    (hp : (w₁.input index).pending = (w.input index).pending)
    (ht : w.sourceText index bytes = w₁.sourceText index bytes)
    (hle : w₁.pieces index ≤ w.pieces index) (h : w₁.Draws index bytes r) :
    w.Draws index bytes r where
  reads := hr.trans h.reads
  legible := h.legible
  pending := h.pending.trans hp
  text := ht.trans h.text
  ended := h.ended
  fewer := fun text hs hne => Nat.lt_of_lt_of_le (h.fewer text hs hne) hle
  unasked := h.unasked

/-- The world after all that is in a pipe has been taken, with what the input knows then. -/
def drawn (w : World) (index pipe : Nat) (decoder : Utf8.Decoder) (ended : Bool) : World :=
  (w.take pipe none).setInput index ⟨(w.input index).pending, .pipe pipe decoder ended⟩

section

variable {pipe : Nat} {decoder decoder' : Utf8.Decoder} {ended ended' : Bool}

/-- The input has what was pending, and a source that has moved on. -/
theorem input_drawn (h : index < w.inputs.size) :
    (w.drawn index pipe decoder ended).input index =
      ⟨(w.input index).pending, .pipe pipe decoder ended⟩ := by
  refine input_setInput_self _ ?_
  rw [take, inputs_change]
  exact h

/-- The pipe is empty. -/
theorem pipe_drawn (h : pipe < w.channels.size) :
    ((w.drawn index pipe decoder ended).channel pipe).pipe =
      { (w.channel pipe).pipe with buffer := #[] } :=
  pipe_change_self _ h

/-- The world has only changed at the input and at its pipe. -/
theorem reads_drawn (hi : index < w.inputs.size)
    (hs : (w.input index).source = .pipe pipe decoder ended) :
    w.Reads index (w.drawn index pipe decoder' ended') where
  inputs := by
    intro i hne
    refine (input_setInput_of_ne _ hne).trans ?_
    rw [World.input, take, inputs_change]
    rfl
  supply := by
    rw [input_drawn hi, Input.supply, Input.supply, hs]
  pipes := by
    intro c hc
    have hne : c ≠ pipe := by
      rintro rfl
      exact hc (by rw [Input.supply, hs])
    exact congrArg Channel.pipe (channel_change_of_ne _ hne)
  sinks := by
    show (w.change pipe _).sinks = w.sinks
    exact sinks_change _

/-- The input stays legible. If its end has been seen, the decoder may hold nothing and the pipe must be closed. -/
theorem Legible.drawn (h : w.Legible index bytes)
    (hs : (w.input index).source = .pipe pipe decoder ended)
    (he : ended' = true → decoder' = .between ∧ (w.channel pipe).pipe.writeClosed = true) :
    (w.drawn index pipe decoder' ended').Legible index bytes := by
  have hsupply : (w.input index).supply = .pipe pipe := by rw [Input.supply, hs]
  obtain ⟨hlt, hread, hbytes⟩ := h.channel pipe hsupply
  have hin : (w.drawn index pipe decoder' ended').input index =
      ⟨(w.input index).pending, .pipe pipe decoder' ended'⟩ := input_drawn h.known
  -- The bytes have gone from the pipe into the decoder.
  have hpipe : ((w.drawn index pipe decoder' ended').channel pipe).pipe =
      { (w.channel pipe).pipe with buffer := #[] } := pipe_drawn hlt
  refine ⟨?_, ?_, ?_, ?_, ?_, ?_⟩
  · rw [World.drawn, size_setInput, take, inputs_change]
    exact h.known
  · rw [hin]
    exact h.tidy
  · rw [hin]
    exact h.filled
  · intro rest ready hsrc
    rw [hin] at hsrc
    cases hsrc
  · intro c hc
    rw [(reads_drawn h.known hs).supply, hsupply] at hc
    obtain rfl := Supply.pipe.inj hc
    refine ⟨?_, ?_⟩
    · show pipe < (w.change pipe _).channels.size
      rw [size_change]
      exact hlt
    · rw [hpipe]
      exact ⟨hread, hbytes⟩
  · intro c decoder₁ hsrc
    rw [hin] at hsrc
    obtain ⟨rfl, rfl, rfl⟩ := Source.pipe.inj hsrc
    rw [hpipe]
    exact ⟨(he rfl).1, rfl, (he rfl).2⟩

/-- It is no input of the host. -/
theorem unasked_drawn (hi : index < w.inputs.size) : (w.drawn index pipe decoder ended).Unasked index := by
  intro rest ready hsrc
  rw [input_drawn hi] at hsrc
  cases hsrc

/-- What comes from now on is what the decoder makes of the bytes to come. -/
theorem sourceText_drawn (hi : index < w.inputs.size) (hlt : pipe < w.channels.size) :
    (w.drawn index pipe decoder ended).sourceText index bytes = Utf8.decodeFrom decoder bytes := by
  rw [sourceText, input_drawn hi]
  simp only [pipe_drawn hlt]
  rfl

/-- With an empty pipe there is one piece to come, which is the end, until that has been seen. -/
theorem pieces_drawn (hi : index < w.inputs.size) (hlt : pipe < w.channels.size) :
    (w.drawn index pipe decoder ended).pieces index = if ended then 0 else 1 := by
  rw [pieces, input_drawn hi]
  simp only [pipe_drawn hlt]
  exact Nat.zero_add _

/-- Nothing has come yet. -/
theorem Legible.waits (h : w.Legible index bytes) (pipe task : Nat) :
    w.Draws index bytes (w.wait pipe task, none) where
  reads := w.reads_wait pipe task index
  legible := by
    refine ⟨h.known, h.tidy, h.filled, h.host, fun c hc => ?_, fun c decoder hc => ?_⟩
    · rw [pipe_wait, size_wait]
      exact h.channel c hc
    · rw [pipe_wait]
      exact h.ended c decoder hc
  pending := rfl
  text := by
    have hi : (w.wait pipe task).input index = w.input index := rfl
    rw [sourceText_congr hi fun c _ => congrArg Pipe.buffer (pipe_wait w pipe task c)]
    rfl
  ended := fun he => absurd he.symm (Option.some_ne_none _)
  fewer := fun _ he => absurd he.symm (Option.some_ne_none _)
  unasked := fun _ he => absurd he.symm (Option.some_ne_none _)

/-- The pipe has come to its end, and the decoder gives what it holds. -/
theorem Legible.ends (h : w.Legible index bytes)
    (hs : (w.input index).source = .pipe pipe decoder ended)
    (hb : (w.channel pipe).pipe.buffer = #[])
    (hc : (w.channel pipe).pipe.writeClosed = true) :
    w.Draws index bytes (w.drawn index pipe .between true, some (Utf8.finish decoder)) := by
  obtain ⟨hlt, -, hbytes⟩ := h.channel pipe (by rw [Input.supply, hs])
  have htext : w.sourceText index bytes = Utf8.finish decoder := by
    rw [sourceText, hs, hbytes hc]
    simp only [hb]
    rfl
  have hnone : (w.drawn index pipe .between true).sourceText index bytes = [] := by
    rw [sourceText_drawn h.known hlt, hbytes hc]
    rfl
  refine ⟨reads_drawn h.known hs, h.drawn hs fun _ => ⟨rfl, hc⟩, ?_, ?_, fun _ => hnone, ?_,
    fun _ _ => unasked_drawn h.known⟩
  · rw [input_drawn h.known]
  · rw [htext, hnone]
    exact (List.append_nil _).symm
  · intro text he hne
    -- A decoder that gives a text here has not seen the end before.
    have hfresh : ended = false := by
      refine Bool.eq_false_iff.2 fun hend => hne ?_
      subst hend
      rw [← Option.some.inj he, (h.ended pipe decoder hs).1]
      rfl
    rw [pieces_drawn h.known hlt, pieces, hs, hfresh]
    simp

/-- Bytes come out of the pipe, and the decoder takes them in. -/
structure Taken (w : World) (index pipe : Nat) (bytes : List UInt8) (text : List Char)
    (decoder : Utf8.Decoder) : Prop where
  reads : w.Reads index (w.drawn index pipe decoder false)
  legible : (w.drawn index pipe decoder false).Legible index bytes
  input : (w.drawn index pipe decoder false).input index =
    ⟨(w.input index).pending, .pipe pipe decoder false⟩
  buffer : ((w.drawn index pipe decoder false).channel pipe).pipe.buffer = #[]
  text : w.sourceText index bytes =
    text ++ (w.drawn index pipe decoder false).sourceText index bytes
  fewer : (w.drawn index pipe decoder false).pieces index < w.pieces index

/-- What a pipe holds becomes a piece of text, and the pipe is empty. -/
theorem Legible.taken (h : w.Legible index bytes)
    (hs : (w.input index).source = .pipe pipe decoder ended)
    (hb : (w.channel pipe).pipe.buffer.toList ≠ []) :
    w.Taken index pipe bytes
      (Utf8.pushAll decoder (w.channel pipe).pipe.buffer.toList []).1
      (Utf8.pushAll decoder (w.channel pipe).pipe.buffer.toList []).2 := by
  obtain ⟨hlt, -, -⟩ := h.channel pipe (by rw [Input.supply, hs])
  refine ⟨reads_drawn h.known hs, h.drawn hs fun he => absurd he Bool.false_ne_true,
    input_drawn h.known, ?_, ?_, ?_⟩
  · rw [pipe_drawn hlt]
  · rw [sourceText_drawn h.known hlt, ← Utf8.decodeFrom_append, sourceText, hs]
  · -- There was something in the buffer, so the end had not been seen.
    have hfresh : ended = false := by
      refine Bool.eq_false_iff.2 fun hend => hb ?_
      subst hend
      rw [(h.ended pipe decoder hs).2.1]
    have hsize : 0 < (w.channel pipe).pipe.buffer.size := by
      rw [← Array.length_toList]
      exact List.length_pos_iff.2 hb
    rw [pieces_drawn h.known hlt, pieces, hs, hfresh]
    simp only [Bool.false_eq_true, if_false]
    omega

/-- **Reading a pipe.** What is in the buffer is taken at once, so a second try finds it empty, and
then there is the end or a wait. -/
theorem draws_pull (task : Nat) (h : w.Legible index bytes)
    (hs : (w.input index).source = .pipe pipe decoder ended) (tries : Nat)
    (ht : min 1 (w.channel pipe).pipe.buffer.size < tries) :
    w.Draws index bytes (w.pull task index pipe tries decoder) := by
  induction tries generalizing w decoder ended with
  | zero => omega
  | succ tries ih =>
    obtain ⟨-, hread, -⟩ := h.channel pipe (by rw [Input.supply, hs])
    have hin : (w.take pipe none).input index = w.input index := by
      rw [World.input, take, inputs_change]
      rfl
    have hrec := w.receives task pipe none
    rcases hr : w.receive task pipe none with ⟨w₁, got⟩
    rw [hr] at hrec
    cases hrec with
    | closed hc => exact absurd (hread.symm.trans hc) Bool.false_ne_true
    | empty hw =>
      simp only [pull, hr]
      exact h.waits pipe task
    | taken hw _ =>
      have htaken := h.taken hs
      have hlen : (w.channel pipe).pipe.buffer.toList.length =
          (w.channel pipe).pipe.buffer.size := Array.length_toList
      have hend := h.ends hs
      rw [show ((w.channel pipe).pipe.deliver none).1 =
        (w.channel pipe).pipe.buffer.toList from rfl] at hr
      generalize hb : (w.channel pipe).pipe.buffer.toList = buffer at htaken hr hlen
      cases buffer with
      | nil =>
        have hempty : (w.channel pipe).pipe.buffer = #[] := Array.toList_eq_nil_iff.1 hb
        simp only [pull, hr, hin]
        -- The pipe is empty and nobody has to wait, so it has come to its end.
        refine hend hempty ?_
        rw [Pipe.isWaiting, hempty, hread] at hw
        simpa using hw
      | cons b rest =>
        have htaken := htaken (List.cons_ne_nil b rest)
        rw [List.length_cons] at hlen
        simp only [pull, hr, hin]
        generalize Utf8.pushAll decoder (b :: rest) [] = decoded at htaken ⊢
        obtain ⟨text, decoder'⟩ := decoded
        have hpend := congrArg Input.pending htaken.input
        by_cases hempty : text.isEmpty = true
        · rw [if_pos hempty]
          obtain rfl := List.isEmpty_iff.1 hempty
          -- Only a part of a character has come, and the buffer is empty now.
          refine .prepend htaken.reads hpend htaken.text (Nat.le_of_lt htaken.fewer)
            (ih htaken.legible (congrArg Input.source htaken.input) ?_)
          rw [htaken.buffer, List.size_toArray, List.length_nil]
          omega
        · rw [if_neg hempty]
          refine ⟨htaken.reads, htaken.legible, hpend, htaken.text, fun he => ?_,
            fun _ _ _ => htaken.fewer, fun _ _ => unasked_drawn h.known⟩
          exact absurd (List.isEmpty_iff.2 (Option.some.inj he)) hempty

end

/-- An input that is no pipe with another source. -/
theorem Legible.setSource (h : w.Legible index bytes) {source : Source}
    (hhost : ∀ rest ready, source = .host rest ready → [] ∉ rest ∧ (ready = some [] → rest = []))
    (hpipe : ∀ c decoder ended, source ≠ .pipe c decoder ended) :
    (w.setInput index { w.input index with source := source }).Legible index bytes := by
  have hin := input_setInput_self (w := w) { w.input index with source := source } h.known
  refine ⟨?_, ?_, ?_, ?_, ?_, ?_⟩
  · rw [size_setInput]
    exact h.known
  · rw [hin]
    exact h.tidy
  · rw [hin]
    exact h.filled
  · rw [hin]
    exact hhost
  · intro c hc
    rw [hin, Input.supply] at hc
    cases source with
    | text rest => cases hc
    | host rest ready => cases hc
    | pipe c decoder ended => exact absurd rfl (hpipe c decoder ended)
  · intro c decoder hc
    rw [hin] at hc
    exact absurd hc (hpipe c decoder true)

/-- A file with other pieces. -/
theorem Legible.setHost (h : w.Legible index bytes) {rest : List (List Char)} {ready : Option (List Char)}
    (hrest : [] ∉ rest) (hready : ready = some [] → rest = []) :
    (w.setInput index { w.input index with source := .host rest ready }).Legible index bytes := by
  refine h.setSource (fun more ready' he => ?_) fun _ _ _ he => by cases he
  obtain ⟨rfl, rfl⟩ := Source.host.inj he
  exact ⟨hrest, hready⟩

/-- Nothing has been drawn, and what is to come is as before. -/
theorem draws_none (hr : w.Reads index w') (hl : w'.Legible index bytes)
    (hp : (w'.input index).pending = (w.input index).pending)
    (ht : w.sourceText index bytes = w'.sourceText index bytes) : w.Draws index bytes (w', none) where
  reads := hr
  legible := hl
  pending := hp
  text := ht
  ended := fun he => by cases he
  fewer := fun _ he => by cases he
  unasked := fun _ he => by cases he

/-- To move the source on touches the input only. -/
theorem reads_setSource {source : Source} (hi : index < w.inputs.size)
    (h : (⟨(w.input index).pending, source⟩ : Input).supply = (w.input index).supply) :
    w.Reads index (w.setInput index { w.input index with source := source }) where
  inputs := fun _ hi => input_setInput_of_ne _ hi
  supply := by
    rw [input_setInput_self _ hi]
    exact h
  pipes := fun _ _ => rfl
  sinks := rfl

/-- A text is given whole, and nothing is left of it. -/
theorem Legible.draws_text (h : w.Legible index bytes) {rest : List Char}
    (hs : (w.input index).source = .text rest) :
    w.Draws index bytes (w.setInput index { w.input index with source := .text [] }, some rest) := by
  have hin := input_setInput_self (w := w) { w.input index with source := .text [] } h.known
  have hnone : (w.setInput index { w.input index with source := .text [] }).sourceText index bytes = [] := by
    rw [sourceText, hin]
  refine ⟨reads_setSource h.known ?_, h.setSource nofun nofun, ?_, ?_, fun _ => hnone, ?_, ?_⟩
  · rw [Input.supply, Input.supply, hs]
  · rw [hin]
  · rw [hnone, sourceText, hs]
    exact (List.append_nil rest).symm
  · intro text he hne
    have hlen := List.length_pos_iff.2 hne
    rw [← Option.some.inj he] at hlen
    rw [pieces, hin, pieces, hs]
    simp only [List.length_nil]
    omega
  · intro _ _ more ready hsrc
    rw [hin] at hsrc
    cases hsrc

/-- What the host has read is taken; or it has read nothing yet. -/
theorem Legible.draws_ready (h : w.Legible index bytes) {rest : List (List Char)} {ready : Option (List Char)}
    (hs : (w.input index).source = .host rest ready) :
    w.Draws index bytes (w.setInput index { w.input index with source := .host rest none }, ready) := by
  have hin := input_setInput_self (w := w) { w.input index with source := .host rest none } h.known
  obtain ⟨hrest, hready⟩ := h.host rest ready hs
  have hleft : (w.setInput index { w.input index with source := .host rest none }).sourceText index bytes =
      rest.flatten := by
    rw [sourceText, hin]
    rfl
  refine ⟨reads_setSource h.known ?_, h.setHost hrest (fun he => by cases he), ?_, ?_, fun he => ?_, ?_, ?_⟩
  · rw [Input.supply, Input.supply, hs]
  · rw [hin]
  · rw [hleft, sourceText, hs]
  · have he : ready = some [] := he
    rw [hleft, hready he, List.flatten_nil]
  · intro text he _
    have he : ready = some text := he
    rw [pieces, hin, pieces, hs, he]
    exact Nat.zero_lt_one
  · intro _ _ more ready' hsrc
    rw [hin] at hsrc
    exact (Source.host.inj hsrc).2.symm

/-- The host reads the next piece of a file. -/
theorem hostReads_of_host {rest : List (List Char)} {ready : Option (List Char)}
    (hs : (w.input index).source = .host rest ready) (task : Nat) :
    w.hostReads task index = (w.setInput index
      { w.input index with source := .host rest.tail (some (rest.headD [])) }).push (.arrival task) := by
  simp only [hostReads, hs]

/-- The host reads a piece, which does not change what is to come. -/
theorem Legible.draws_hostReads (h : w.Legible index bytes) (task : Nat) {rest : List (List Char)}
    (hs : (w.input index).source = .host rest none) : w.Draws index bytes (w.hostReads task index, none) := by
  obtain ⟨hrest, -⟩ := h.host rest none hs
  have hin := input_setInput_self (w := w)
    { w.input index with source := .host rest.tail (some (rest.headD [])) } h.known
  have hset : (w.setInput index
      { w.input index with source := .host rest.tail (some (rest.headD [])) }).Legible index bytes := by
    refine h.setHost (fun hmem => hrest (List.mem_of_mem_tail hmem)) fun hnil => ?_
    cases rest with
    | nil => rfl
    | cons piece rest => exact absurd (Option.some.inj hnil ▸ List.mem_cons_self) hrest
  have hreads : w.Reads index (w.setInput index
      { w.input index with source := .host rest.tail (some (rest.headD [])) }) :=
    reads_setSource h.known (by rw [Input.supply, Input.supply, hs])
  rw [hostReads_of_host hs]
  refine draws_none ⟨hreads.inputs, hreads.supply, hreads.pipes, rfl⟩ (hset.aside rfl rfl) ?_ ?_
  · exact (congrArg Input.pending hin).trans rfl
  · show _ = (w.setInput index _).sourceText index bytes
    rw [sourceText, sourceText, hin, hs]
    cases rest <;> rfl

/-- The host is asked for a piece, and may read it at once. -/
theorem Legible.draws_asked (h : w.Legible index bytes) (task : Nat) {rest : List (List Char)}
    (hs : (w.input index).source = .host rest none) : w.Draws index bytes (w.askHost task index, none) := by
  unfold askHost
  split
  · exact draws_none ⟨fun _ _ => rfl, rfl, fun _ _ => rfl, rfl⟩ (h.aside rfl rfl) rfl rfl
  · have hd := h.draws_hostReads task hs
    exact draws_none ⟨hd.reads.inputs, hd.reads.supply, hd.reads.pipes, hd.reads.sinks⟩
      (hd.legible.aside rfl rfl) hd.pending hd.text

/-- The next piece of an input, in every state of a reader. -/
theorem draws_nextPiece (task : Nat) (inside : Bool) (h : w.Legible index bytes)
    (hu : inside = false → w.Unasked index) :
    w.Draws index bytes (w.nextPiece task index inside) := by
  -- By what the input is supplied from.
  cases hs : (w.input index).source with
  | host rest ready =>
    simp only [nextPiece, hs]
    cases inside with
    | true => exact h.draws_ready hs
    | false =>
      obtain rfl := hu rfl rest ready hs
      exact h.draws_asked task hs
  | text rest =>
    simp only [nextPiece, hs]
    exact h.draws_text hs
  | pipe pipe decoder ended =>
    simp only [nextPiece, hs]
    by_cases he : (ended && !inside) = true
    · -- After its end a pipe is not asked again.
      rw [if_pos he]
      obtain rfl : ended = true := (Bool.and_eq_true_iff.1 he).1
      have hnone := h.sourceText_of_ended hs
      refine ⟨.refl w index, h, rfl, hnone.trans hnone.symm, fun _ => hnone, fun text ht hne => ?_,
        fun _ _ rest ready hsrc => ?_⟩
      · exact absurd (Option.some.inj ht).symm hne
      · rw [hs] at hsrc
        cases hsrc
    · rw [if_neg he]
      exact draws_pull task h hs 2 (by omega)

end World

end Shell
