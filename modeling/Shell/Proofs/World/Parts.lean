/-
What a reading is made of.

However much is asked of an input, a reading of it does two things only, again and again: it takes all
that is in the pipe, and it sets the input to what is known then (`ReadsOnce`). At last there is a result,
or the reader waits for the pipe or for the host (`Halts`). So what the two things keep is kept by every reading.

This is used to count. Tasks that have a turn to come and tasks that wait for the pipe are as many
before a reading as after it, and nobody is woken for nothing: bytes have been taken then, or the pipe
has been closed (`Spends`).
-/
import Mathlib.Logic.Relation
import Shell.Proofs.World.Fetching

set_option autoImplicit false

namespace Shell

/-- The text that a request came to, if it did. -/
def World.Got.text? : World.Got → Option (List Char)
  | .text chars => some chars
  | .waiting _ => none

/-- The pieces of a file that the host has not read yet. -/
def Input.ahead (input : Input) : List (List Char) :=
  match input.source with
  | .host rest _ => rest
  | _ => []

namespace World

/-! ## 1. The parts of a reading

A reading is a number of steps at one input (`ReadsOn`) and a halt: it has an answer, or it pauses until the pipe
changes or the host answers (`Halts`). -/

/-- The input is set without a change of where it reads from and of what the host has to read, or all that is in
its pipe is taken. -/
inductive ReadsOnce (index : Nat) (w : World) : World → Prop where
  | set {input : Input} (hs : input.supply = (w.input index).supply)
      (ha : input.ahead = (w.input index).ahead) : ReadsOnce index w (w.setInput index input)
  | take {pipe : Nat} (hs : (w.input index).supply = .pipe pipe)
      (hw : (w.channel pipe).pipe.isWaiting = false) : ReadsOnce index w (w.take pipe none)

/-- What a reading does before it comes to a result or to a wait. -/
def ReadsOn (index : Nat) : World → World → Prop := Relation.ReflTransGen (ReadsOnce index)

variable {w w₁ w' : World} {task index pipe : Nat} {α : Type}

/-- A single step of a reading does no more than work. -/
theorem ReadsOnce.works (h : ReadsOnce index w w') : w.Works w' := by
  cases h with
  | set hs _ => exact works_setInput w hs
  | take _ _ => exact works_take w _ none

/-- A reading may have no step at all. -/
theorem ReadsOn.refl (w : World) (index : Nat) : ReadsOn index w w := Relation.ReflTransGen.refl

/-- One reading may go on after another. -/
theorem ReadsOn.trans (h : ReadsOn index w w₁) (h' : ReadsOn index w₁ w') : ReadsOn index w w' :=
  Relation.ReflTransGen.trans h h'

/-- Since each step does no more than work, so does a reading. -/
theorem ReadsOn.works (h : ReadsOn index w w') : w.Works w' := by
  induction h with
  | refl => exact .refl w
  | tail _ hstep ih => exact ih.trans hstep.works

/-- What an input is supplied by is never changed by reading it. -/
theorem ReadsOn.supply (h : ReadsOn index w w') : (w'.input index).supply = (w.input index).supply :=
  h.works.supply index

/-- To put an input back with the same supply, and with the same pieces ahead, is a step of a reading. -/
theorem readsOn_set {input : Input} (hs : input.supply = (w.input index).supply)
    (ha : input.ahead = (w.input index).ahead) : ReadsOn index w (w.setInput index input) :=
  Relation.ReflTransGen.single (.set hs ha)

/-- Another text is pending. -/
theorem readsOn_renew {input : Input} (h : input.source = (w.input index).source) :
    ReadsOn index w (w.setInput index input) :=
  readsOn_set (Input.supply_eq_of_source h) (by rw [Input.ahead, h, Input.ahead])

/-- The host has what it had to read. -/
theorem ReadsOn.ahead (h : ReadsOn index w w') : (w'.input index).ahead = (w.input index).ahead := by
  induction h with
  | refl => rfl
  | @tail w₁ w' _ hstep ih =>
    refine Eq.trans ?_ ih
    cases hstep with
    | @set input _ ha =>
      rcases Nat.lt_or_ge index w₁.inputs.size with hlt | hge
      · rw [input_setInput_self input hlt, ha]
      · rw [setInput_of_size_le input hge]
    | take _ _ =>
      rw [World.input, World.take, inputs_change]
      rfl

/-- Without a pipe a reading changes nothing but the inputs. -/
theorem ReadsOn.inputs (h : ReadsOn index w w') (hs : ∀ pipe, (w.input index).supply ≠ .pipe pipe) :
    w' = { w with inputs := w'.inputs } := by
  induction h with
  | refl => rfl
  | @tail w₁ w' hreads hstep ih =>
    have hreads : ReadsOn index w w₁ := hreads
    cases hstep with
    | @set input _ _ =>
      exact congrArg (fun w : World => { w with inputs := (w₁.setInput index input).inputs }) ih
    | take hc _ => exact absurd (hreads.supply.symm.trans hc) (hs _)

/-- A number without an input stands for a text. -/
theorem lt_size_of_host {rest : List (List Char)} {ready : Option (List Char)}
    (hs : (w.input index).source = .host rest ready) : index < w.inputs.size := by
  refine Nat.lt_of_not_le fun hn => ?_
  rw [input_of_size_le hn] at hs
  cases hs

/-- The host has read a piece for a reader that has waited for one, and none for others. -/
def Answered (w : World) (index : Nat) (inside : Bool) : Prop :=
  ∀ rest ready, (w.input index).source = .host rest ready → ready.isSome = inside

/-- For a reader that has not waited for a piece the host has read none. -/
theorem Answered.unasked {inside : Bool} (h : w.Answered index inside) (hi : inside = false) :
    w.Unasked index := by
  intro rest ready hs
  have hready := h rest ready hs
  rw [hi] at hready
  exact Option.not_isSome_iff_eq_none.1 (by rw [hready]; exact Bool.false_ne_true)

/-- And if the host has read none, a reader has its answer that has not waited for one. -/
theorem Unasked.answered (h : w.Unasked index) : w.Answered index false := by
  intro rest ready hs
  rw [h rest ready hs]
  rfl

/-- The host reads pieces for its own inputs only. -/
theorem answered_of_supply {inside : Bool} (h : (w.input index).supply ≠ .host) :
    w.Answered index inside :=
  fun _ _ hs => absurd (by rw [Input.supply, hs]) h

/-- What the host has read stands in the source. -/
theorem Unasked.setInput {input : Input} (h : w.Unasked index)
    (hs : input.source = (w.input index).source) : (w.setInput index input).Unasked index := by
  rcases Nat.lt_or_ge index w.inputs.size with hlt | hge
  · exact h.congr (by rw [input_setInput_self input hlt, hs])
  · rwa [setInput_of_size_le input hge]

/-- The task waits for bytes, or for a piece that the host reads. -/
inductive Pauses (w : World) (task index : Nat) : World → Prop where
  | bytes {pipe : Nat} (hs : (w.input index).supply = .pipe pipe)
      (he : (w.channel pipe).pipe.isWaiting = true) : Pauses w task index (w.wait pipe task)
  | host (hs : (w.input index).supply = .host) : Pauses w task index (w.askHost task index)

/-- A reading has a result, or the task waits. -/
inductive Halts (w : World) (task index : Nat) : World × Option α → Prop where
  | done {w' : World} {a : α} (h : ReadsOn index w w') (hu : w'.Unasked index) :
      Halts w task index (w', some a)
  | waits {w₁ w' : World} (h : ReadsOn index w w₁) (hu : w₁.Unasked index)
      (hp : w₁.Pauses task index w') : Halts w task index (w', none)

/-- A reading halts as it does after some of its steps. -/
theorem Halts.prepend {r : World × Option α} (h : ReadsOn index w w₁)
    (h' : w₁.Halts task index r) : w.Halts task index r := by
  cases h' with
  | done hr hu => exact .done (h.trans hr) hu
  | waits hr hu hp => exact .waits (h.trans hr) hu hp

/-- If it halts with an answer, it has been a reading, and no piece of the host is left to be taken. -/
theorem Halts.reads {a : α} (h : w.Halts task index (w', some a)) :
    ReadsOn index w w' ∧ w'.Unasked index := by
  cases h with
  | done hr hu => exact ⟨hr, hu⟩

/-- What is made of a result does not matter. -/
theorem Halts.congr {β : Type} {a : α} {b : β} (h : w.Halts task index (w', some a)) :
    w.Halts task index (w', some b) :=
  .done h.reads.1 h.reads.2

/-- Without an answer it makes no difference what kind of answer was wanted. -/
theorem Halts.of_none {β : Type} (h : w.Halts task index (w', (none : Option α))) :
    w.Halts task index (w', (none : Option β)) := by
  cases h with
  | waits hr hu hp => exact .waits hr hu hp

/-- Without an answer there is a world in which the reading pauses. -/
theorem Halts.exists_pause (h : w.Halts task index (w', (none : Option α))) :
    ∃ w₁, ReadsOn index w w₁ ∧ w₁.Unasked index ∧ w₁.Pauses task index w' := by
  cases h with
  | waits hr hu hp => exact ⟨_, hr, hu, hp⟩

/-- The next piece becomes pending, or what is pending is used up. -/
theorem Halts.set {a b : α} {input : Input} (h : w.Halts task index (w₁, some a))
    (hs : input.source = (w₁.input index).source) :
    w.Halts task index (w₁.setInput index input, some b) :=
  .done (h.reads.1.trans (readsOn_renew hs)) (h.reads.2.setInput hs)

/-! ## 2. Pieces, lines and requests

Each function that reads is shown to halt by the function that it is made of, from pieces up to requests. -/

/-- Pulling text out of a pipe halts: at a piece, at the end, or at a pipe that is empty. -/
theorem halts_pull (decoder : Text.Utf8.Decoder) (hs : (w.input index).supply = .pipe pipe)
    (tries : Nat) : w.Halts task index (w.pull task index pipe tries decoder) := by
  have hpipe {w' : World} (h : ReadsOn index w w') : w'.Unasked index :=
    unasked_of_supply (by rw [h.supply, hs]; exact nofun)
  induction tries generalizing w decoder with
  | zero => exact .done (.refl w index) (hpipe (.refl w index))
  | succ tries ih =>
    have hrec := w.receives task pipe none
    rcases hr : w.receive task pipe none with ⟨w₁, got⟩
    rw [hr] at hrec
    rcases got with - | bytes
    · obtain ⟨he, hw⟩ := hrec.of_none
      simp only [pull, hr, hw]
      exact .waits (.refl w index) (hpipe (.refl w index)) (.bytes hs he)
    · have hreads : ReadsOn index w w₁ := by
        cases hrec with
        | closed _ => exact .refl w index
        | taken hw _ => exact Relation.ReflTransGen.single (.take hs hw)
      have hs₁ : (w₁.input index).supply = .pipe pipe := hreads.supply.trans hs
      have hahead : (w₁.input index).ahead = [] := by
        unfold Input.ahead
        split
        · next hsrc =>
          rw [Input.supply, hsrc] at hs₁
          cases hs₁
        · rfl
      have hset (pending : List (List Char)) (decoder : Text.Utf8.Decoder) (ended : Bool) :
          ReadsOn index w (w₁.setInput index ⟨pending, .pipe pipe decoder ended⟩) :=
        hreads.trans (readsOn_set hs₁.symm hahead.symm)
      cases bytes with
      | nil =>
        simp only [pull, hr]
        exact .done (hset _ _ _) (hpipe (hset _ _ _))
      | cons b bytes =>
        simp only [pull, hr]
        split
        -- The bytes make no character yet, and the pipe is read on.
        · have hsource := (hset (w₁.input index).pending
            (Text.Utf8.pushAll decoder (b :: bytes) []).2 false)
          exact .prepend hsource (ih _ (hsource.supply.trans hs) fun h => hpipe (hsource.trans h))
        · exact .done (hset _ _ _) (hpipe (hset _ _ _))

/-- Getting the next piece of a source halts, whatever the source is. -/
theorem halts_nextPiece (task : Nat) {inside : Bool} (hh : w.Answered index inside) :
    w.Halts task index (w.nextPiece task index inside) := by
  -- By what the input is supplied from. Only the host is asked, and only if it has not answered.
  cases hs : (w.input index).source with
  | host rest ready =>
    simp only [nextPiece, hs]
    cases inside with
    | false => exact .waits (.refl w index) (hh.unasked rfl) (.host (by rw [Input.supply, hs]))
    | true =>
      obtain ⟨piece, rfl⟩ := Option.isSome_iff_exists.1 (hh rest ready hs)
      refine .done (readsOn_set ?_ ?_) ?_
      · rw [Input.supply, Input.supply, hs]
      · rw [Input.ahead, Input.ahead, hs]
      · intro more ready hsrc
        rw [input_setInput_self _ (lt_size_of_host hs)] at hsrc
        exact (Source.host.inj hsrc).2.symm
  | text rest =>
    have htext : (w.input index).supply = .text := by rw [Input.supply, hs]
    simp only [nextPiece, hs]
    have hset : ReadsOn index w (w.setInput index { w.input index with source := .text [] }) :=
      readsOn_set (by rw [Input.supply, htext]) (by rw [Input.ahead, Input.ahead, hs])
    exact .done hset (unasked_of_supply (by rw [hset.supply, htext]; exact fun he => by cases he))
  | pipe pipe decoder ended =>
    have hpipe : (w.input index).supply = .pipe pipe := by rw [Input.supply, hs]
    simp only [nextPiece, hs]
    split
    · exact .done (.refl w index) (unasked_of_supply (by rw [hpipe]; exact fun he => by cases he))
    · exact halts_pull decoder hpipe 2

/-- So does reading a piece, which is the next one of the source unless one is pending. -/
theorem halts_readPiece (task : Nat) {inside : Bool} (hh : w.Answered index inside) :
    w.Halts task index (w.readPiece task index inside) := by
  unfold readPiece
  simp only
  split
  · exact halts_nextPiece task hh
  · next hp =>
    have hi : inside = false := (Bool.or_eq_false_iff.1 (Bool.eq_false_iff.2 hp)).1
    exact .done (readsOn_renew rfl) ((hh.unasked hi).setInput rfl)

/-- A line is got from pieces, so its reading halts where that of a piece does. A piece that the host has read is
taken in the first try. -/
theorem halts_readLine (task tries : Nat) {inside : Bool} (hh : w.Answered index inside)
    (ht : 0 < tries ∨ inside = false) :
    w.Halts task index (w.readLine task index tries inside) := by
  induction tries generalizing w inside with
  | zero => exact .done (.refl w index) (hh.unasked (ht.resolve_left (Nat.lt_irrefl 0)))
  | succ tries ih =>
    unfold readLine
    split
    · next line rest ht =>
      obtain ⟨hi, ht⟩ : inside = false ∧ (w.input index).takeLine? = some (line, rest) := by
        cases inside with
        | true => cases ht
        | false => exact ⟨rfl, ht⟩
      have hsource := (Input.takeLine?_eq_some ht).1
      exact .done (readsOn_renew hsource) ((hh.unasked hi).setInput hsource)
    · have hpiece := halts_nextPiece task hh
      rcases hr : w.nextPiece task index inside with ⟨w₁, got⟩
      rw [hr] at hpiece
      rcases got with - | (- | ⟨c, piece⟩)
      · exact hpiece
      · exact hpiece.set rfl
      -- A piece without a newline becomes pending, and the input is asked again.
      · have hadded : w.Halts task index
            (w₁.setInput index ((w₁.input index).addPending (c :: piece)), some (c :: piece)) :=
          hpiece.set ((w₁.input index).source_addPending (c :: piece))
        exact .prepend hadded.reads.1 (ih hadded.reads.2.answered (.inr rfl))

/-- All of the text is got piece by piece, and it is the same for it. -/
theorem halts_readAll (task tries : Nat) {inside : Bool} (done : List (List Char))
    (hh : w.Answered index inside) (ht : 0 < tries ∨ inside = false) :
    w.Halts task index ((w.readAll task index tries inside done).1,
      (w.readAll task index tries inside done).2.text?) := by
  induction tries generalizing w inside done with
  | zero => exact .done (.refl w index) (hh.unasked (ht.resolve_left (Nat.lt_irrefl 0)))
  | succ tries ih =>
    have hpiece := halts_readPiece task hh
    unfold readAll
    rcases hr : w.readPiece task index inside with ⟨w₁, got⟩
    rw [hr] at hpiece
    rcases got with - | (- | ⟨c, piece⟩)
    · exact hpiece.of_none
    · exact hpiece.congr
    · exact .prepend hpiece.reads.1 (ih _ hpiece.reads.2.answered (.inr rfl))

/-- A continued line is got line by line, from an input for which the host has read no piece. -/
theorem halts_readContinued (task lines : Nat) (done : List (List Char)) (hu : w.Unasked index) :
    w.Halts task index ((w.readContinued task index lines false done).1,
      (w.readContinued task index lines false done).2.text?) := by
  induction lines generalizing w done with
  | zero => exact .done (.refl w index) hu
  | succ lines ih =>
    have hline := halts_readLine task maxPieces hu.answered (.inr rfl)
    unfold readContinued
    rcases hr : w.readLine task index maxPieces false with ⟨w₁, got⟩
    rw [hr] at hline
    rcases got with - | line
    · exact hline.of_none
    · simp only
      split
      · exact .prepend hline.reads.1 (ih _ hline.reads.2)
      · exact hline.congr

/-- **Every reading** is made of these parts, and then there is a result or a wait. -/
theorem halts_read (task : Nat) {wanted : Wanted} (hh : w.Answered index wanted.inside) :
    w.Halts task index ((w.read task index wanted).1, (w.read task index wanted).2.text?) := by
  have hpiece := halts_readPiece task hh
  have hline := halts_readLine task maxPieces hh (.inl (by decide))
  unfold read
  -- A request is put together from pieces and lines, each of which halts.
  cases wanted.request with
  | piece =>
    rcases hr : w.readPiece task index wanted.inside with ⟨w₁, - | text⟩
    · rw [hr] at hpiece
      exact hpiece.of_none
    · rw [hr] at hpiece
      exact hpiece.congr
  | line =>
    rcases hr : w.readLine task index maxPieces wanted.inside with ⟨w₁, - | text⟩
    · rw [hr] at hline
      exact hline.of_none
    · rw [hr] at hline
      exact hline.congr
  | continued =>
    rcases hr : w.readLine task index maxPieces wanted.inside with ⟨w₁, - | line⟩
    · rw [hr] at hline
      exact hline.of_none
    · rw [hr] at hline
      simp only
      split
      · exact .prepend hline.reads.1 (halts_readContinued task _ _ hline.reads.2)
      · exact hline.congr
  | all => exact halts_readAll task maxPieces wanted.done hh (.inl (by decide))

/-! ## 3. Counting

How many wait at a pipe, and what a reading may add to them. -/

/-- How many have a turn to come or wait for a pipe. -/
def posts (w : World) (pipe : Nat) : Nat :=
  w.queue.toList.length + (w.channel pipe).waiting.length

/-- A task that begins to wait is one more. -/
theorem posts_wait (task : Nat) (h : pipe < w.channels.size) :
    (w.wait pipe task).posts pipe = w.posts pipe + 1 := by
  have hchannel := channel_wait_self (w := w) task h
  rw [posts, hchannel, List.length_append]
  rfl

/-- Those who waited for a pipe have a turn to come when it has changed. -/
theorem posts_change (f : Pipe → Pipe) (h : pipe < w.channels.size) :
    (w.change pipe f).posts pipe = w.posts pipe := by
  rw [posts, queue_change, channel_change_self f h, List.length_append, List.length_map]
  rfl

/-- Nobody has been lost or doubled, and if somebody has been woken then there are fewer bytes in the pipe, or
it was closed. -/
structure Spends (pipe : Nat) (w w' : World) : Prop where
  posts : w'.posts pipe = w.posts pipe
  size : (w'.channel pipe).pipe.buffer.size ≤ (w.channel pipe).pipe.buffer.size
  quiet : (w'.channel pipe).pipe.buffer.size < (w.channel pipe).pipe.buffer.size ∨
    w'.queue.toList = w.queue.toList ∨ ¬ (w.channel pipe).pipe.IsOpen

/-- If nothing happens, nobody is lost and nobody woken. -/
theorem Spends.refl (pipe : Nat) (w : World) : Spends pipe w w :=
  ⟨rfl, Nat.le_refl _, .inr (.inl rfl)⟩

/-- This can be said of one thing after the other, if the first of them does not close the pipe. -/
theorem Spends.trans (h : Spends pipe w w₁) (h' : Spends pipe w₁ w')
    (ho : (w.channel pipe).pipe.IsOpen → (w₁.channel pipe).pipe.IsOpen) : Spends pipe w w' where
  posts := h'.posts.trans h.posts
  size := Nat.le_trans h'.size h.size
  quiet := by
    have hsize := h.size
    have hsize' := h'.size
    rcases h.quiet with hlt | hqueue | hclosed
    · exact .inl (by omega)
    · rcases h'.quiet with hlt | hqueue' | hclosed
      · exact .inl (by omega)
      · exact .inr (.inl (hqueue'.trans hqueue))
      · exact .inr (.inr fun hopen => hclosed (ho hopen))
    · exact .inr (.inr hclosed)

/-- A step of a reading wakes those who wait at its pipe only if it takes bytes out. -/
theorem ReadsOnce.spends (h : ReadsOnce index w w') (hs : (w.input index).supply = .pipe pipe)
    (hlt : pipe < w.channels.size) : Spends pipe w w' := by
  cases h with
  | set _ _ => exact ⟨rfl, Nat.le_refl _, .inr (.inl rfl)⟩
  | @take c hc hw =>
    obtain rfl := Supply.pipe.inj (hc.symm.trans hs)
    have hempty : ((w.take c none).channel c).pipe.buffer.size = 0 := by
      rw [World.take, pipe_change_self _ hlt]
      rfl
    refine ⟨posts_change _ hlt, by omega, ?_⟩
    rcases Nat.eq_zero_or_pos (w.channel c).pipe.buffer.size with hzero | hpos
    -- Nothing was there to take and nobody had to wait, so the pipe was closed.
    · refine .inr (.inr fun hopen => ?_)
      rw [(Pipe.isWaiting_iff _).2 ⟨hzero, hopen⟩] at hw
      cases hw
    · exact .inl (by omega)

/-- So it is for a reading as a whole. -/
theorem ReadsOn.spends (h : ReadsOn index w w') (hs : (w.input index).supply = .pipe pipe)
    (hlt : pipe < w.channels.size) : Spends pipe w w' := by
  induction h with
  | refl => exact .refl pipe w
  | @tail w₁ w' hreads hstep ih =>
    have hreads : ReadsOn index w w₁ := hreads
    have hworks := hreads.works
    refine ih.trans (hstep.spends (hreads.supply.trans hs) ?_) (hworks.isOpen_iff pipe).2
    rw [hworks.channels]
    exact hlt

end World

end Shell
