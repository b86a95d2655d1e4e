/-
A writer and a reader of one pipe.

A machine has one pipe, a task that writes parcels into it and a task that makes requests at its other end. Events
are dealt with in any order (`Machine.Events`), so all interleavings of the two are covered, and the capacity cuts
characters into pieces wherever it likes.

`Underway` is what holds between two events: what the reader has got, followed by what is still to come to it, is the text
of all that is written, and whoever is not done is heeded. A turn of one of the two keeps this if it leaves the pipe as the
other expects it (`Underway.became`).
-/
import Shell.Proofs.Channel.Ends
import Shell.Proofs.Pipeline.Attention

set_option autoImplicit false

namespace Shell

open Shell.Text

/-- So many events of the queue have been dealt with, in any order. -/
inductive Machine.Events {ρ : Type} (m : Machine ρ) : Nat → Machine ρ → Prop where
  | none : Events m 0 m
  | next {n : Nat} {m₁ : Machine ρ} {event : Event} {queue : Queue Event} (h : Events m n m₁)
      (hp : m₁.Picks event queue) : Events m (n + 1) ((m₁.withQueue queue).handle event)

/-- A first event, and then others. -/
theorem Machine.Events.cons {ρ : Type} {m m' : Machine ρ} {n : Nat} {event : Event}
    {queue : Queue Event} (hp : m.Picks event queue)
    (h : Machine.Events ((m.withQueue queue).handle event) n m') : m.Events (n + 1) m' := by
  induction h with
  | none => exact .next .none hp
  | next _ hp' ih => exact .next ih hp'

namespace Delivery

/-- A machine with a task that writes parcels into a pipe, and one that makes requests at its other end. -/
def start (capacity : Nat) (parcels : List Parcel) (requests : List Request) :
    Machine (List String) :=
  let m : Machine (List String) := { world := ({} : World).addPipe capacity }
  (m.addTask { phase := .active (writing parcels) }).addTask { phase := .active (reading requests []) }

/-- The number of the task that writes. -/
def writer : Nat := 0

/-- The number of the task that reads. -/
def reader : Nat := 1

variable {capacity : Nat} {text : List Char} {requests : List Request} {left left' : Nat}
  {unsent unsent' : List UInt8}
  {w w₁ w' : World} {m : Machine (List String)} {queue : Queue Event}

/-! ## 1. The world of the two tasks -/

/-- There is one pipe with an input that reads from it, and these bytes are still to come into the pipe. -/
structure Standing (capacity : Nat) (unsent : List UInt8) (w : World) : Prop where
  lone : PipeCall.Lone capacity w
  inputs : w.inputs.size = 1
  supply : (w.input 0).supply = .pipe 0
  readable : w.Readable 0 unsent

/-- What is to come is in the pipe, or has still to be written. -/
theorem coming_eq (hs : (w.input 0).supply = .pipe 0) (hi : w'.input 0 = w.input 0)
    (hb : (w'.channel 0).pipe.buffer.toList ++ unsent' =
      (w.channel 0).pipe.buffer.toList ++ unsent) : w'.coming 0 unsent' = w.coming 0 unsent := by
  unfold World.coming World.sourceText
  rw [hi]
  cases hsrc : (w.input 0).source with
  | text rest => rfl
  | host rest ready => rfl
  | pipe pipe decoder ended =>
    rw [Input.supply, hsrc] at hs
    obtain rfl := Supply.pipe.inj hs
    simp only [hb]

/-- Something is to come of every byte. -/
theorem coming_ne_nil (hs : (w.input 0).supply = .pipe 0)
    (hb : (w.channel 0).pipe.buffer.toList ++ unsent ≠ []) : w.coming 0 unsent ≠ [] := by
  unfold World.coming World.sourceText
  cases hsrc : (w.input 0).source with
  | text rest =>
    rw [Input.supply, hsrc] at hs
    cases hs
  | host rest ready =>
    rw [Input.supply, hsrc] at hs
    cases hs
  | pipe pipe decoder ended =>
    rw [Input.supply, hsrc] at hs
    obtain rfl := Supply.pipe.inj hs
    intro hnil
    exact Utf8.decodeFrom_ne_nil hb (List.append_eq_nil_iff.mp hnil).2

/-- The input is what it was. -/
theorem input_of_inputs (h : w'.inputs = w.inputs) (i : Nat) : w'.input i = w.input i := by
  rw [World.input, h, World.input]

namespace Standing

/-- The reader has not closed its end. -/
theorem readClosed (h : Standing capacity unsent w) : (w.channel 0).pipe.readClosed = false :=
  (h.readable.channel 0 h.supply).2.1

/-- The pipe is open as long as the writer has not closed it. -/
theorem isOpen (h : Standing capacity unsent w) (hc : (w.channel 0).pipe.writeClosed = false) :
    (w.channel 0).pipe.IsOpen :=
  ⟨hc, h.readClosed⟩

/-- Events of tasks may come and go. -/
theorem withQueue (h : Standing capacity unsent w) {queue : Queue Event}
    (hq : ∀ event ∈ queue.toList, ∃ i, event = .resume i) :
    Standing capacity unsent { w with queue := queue } where
  lone := h.lone.withQueue hq
  inputs := h.inputs
  supply := h.supply
  readable := ⟨h.readable.known, h.readable.tidy, h.readable.filled, h.readable.supply,
    h.readable.channel, h.readable.ended⟩

/-- A task may wait. -/
theorem wait (h : Standing capacity unsent w) (task : Nat) :
    Standing capacity unsent (w.wait 0 task) where
  lone := h.lone.wait task
  inputs := h.inputs
  supply := h.supply
  readable := ((h.readable.legible.waits 0 task).legible).readable h.readable.supply

/-- The lone pipe stays what it is when somebody works on it. -/
theorem lone_of_works (h : Standing capacity unsent w) (hw : w.Works w') :
    PipeCall.Lone capacity w' where
  channels := hw.channels.trans h.lone.channels
  capacity := (hw.capacity 0).trans h.lone.capacity
  bounded := hw.bounded 0 h.lone.bounded
  queue := by
    obtain ⟨tasks, hq⟩ := hw.queue
    intro event he
    rw [hq, List.mem_append, List.mem_map] at he
    rcases he with he | ⟨i, -, rfl⟩
    · exact h.lone.queue event he
    · exact ⟨i, rfl⟩
  asked := hw.asked.trans h.lone.asked

/-- The reader has read on. -/
theorem reads (h : Standing capacity unsent w) (hr : World.ReadsOn 0 w w')
    (hread : w'.Readable 0 unsent) : Standing capacity unsent w' where
  lone := h.lone_of_works hr.works
  inputs := hr.works.inputs.trans h.inputs
  supply := hr.supply.trans h.supply
  readable := hread

/-- The writer has changed the pipe, which was open, and not the input. -/
theorem readable_of_inputs (h : Standing capacity unsent w)
    (hopen : (w.channel 0).pipe.writeClosed = false) (hi : w'.inputs = w.inputs)
    (hsize : w'.channels.size = w.channels.size)
    (hread : (w'.channel 0).pipe.readClosed = false)
    (hclosed : (w'.channel 0).pipe.writeClosed = true → unsent' = []) : w'.Readable 0 unsent' := by
  have hin := input_of_inputs hi 0
  have hpipe {c : Nat} (hc : (w'.input 0).supply = .pipe c) : c = 0 := by
    rw [hin, h.supply] at hc
    exact (Supply.pipe.inj hc).symm
  refine ⟨by rw [hi]; exact h.readable.known, by rw [hin]; exact h.readable.tidy,
    by rw [hin]; exact h.readable.filled, by rw [hin]; exact h.readable.supply, ?_, ?_⟩
  · intro c hc
    obtain rfl := hpipe hc
    refine ⟨?_, hread, hclosed⟩
    rw [hsize]
    exact h.lone.channels_pos
  · intro c decoder hsrc
    -- The end of a pipe is not seen before it has been closed.
    obtain rfl : c = 0 := hpipe (by rw [Input.supply, hsrc])
    rw [hin] at hsrc
    have hc := (h.readable.ended 0 decoder hsrc).2.2
    rw [hopen] at hc
    cases hc

/-- The writer has worked on. -/
theorem pours (h : Standing capacity unsent w) (hc : (w.channel 0).pipe.writeClosed = false)
    (hp : Pours w unsent w' unsent') : Standing capacity unsent' w' where
  lone := h.lone_of_works hp.works
  inputs := hp.works.inputs.trans h.inputs
  supply := (hp.works.supply 0).trans h.supply
  readable := by
    refine h.readable_of_inputs hc hp.inputs hp.works.channels
      ((hp.works.readClosed 0).trans h.readClosed) fun hc' => ?_
    rw [hp.works.writeClosed, hc] at hc'
    cases hc'

/-- The writer closes its end. -/
theorem pipe_closeWrite (h : Standing capacity unsent w) :
    ((w.closeWrite 0).channel 0).pipe = (w.channel 0).pipe.closeWrite :=
  World.pipe_change_self Pipe.closeWrite h.lone.channels_pos

/-- The writer has closed the pipe. -/
theorem closeWrite (h : Standing capacity [] w) (hc : (w.channel 0).pipe.writeClosed = false) :
    Standing capacity [] (w.closeWrite 0) := by
  have hi : (w.closeWrite 0).inputs = w.inputs := World.inputs_change _
  refine ⟨h.lone.closeWrite, (congrArg Array.size hi).trans h.inputs, ?_, ?_⟩
  · rw [input_of_inputs hi 0]
    exact h.supply
  · refine h.readable_of_inputs hc hi (World.size_change _) ?_ fun _ => rfl
    rw [h.pipe_closeWrite]
    exact h.readClosed

end Standing

/-! ## 2. What the two are at -/

/-- What the writer is at when it has these bytes still to write. -/
inductive Speaks (w : World) (unsent : List UInt8) : Phase (List String) → Prop where
  | begins {parcels : List Parcel} (hu : unsent = bytesOf parcels)
      (hc : (w.channel 0).pipe.writeClosed = false) : Speaks w unsent (.active (writing parcels))
  | sends {bytes : List UInt8} {parcels : List Parcel} (hu : unsent = bytes ++ bytesOf parcels)
      (hc : (w.channel 0).pipe.writeClosed = false) :
      Speaks w unsent (.active (.send 0 bytes (orFail (writing parcels))))
  | ended (hu : unsent = []) (hc : (w.channel 0).pipe.writeClosed = true) :
      Speaks w unsent (.ended (.ok []))

/-- The writer looks at nothing but whether it has closed the pipe. -/
theorem Speaks.congr {phase : Phase (List String)} (h : Speaks w unsent phase)
    (hc : (w'.channel 0).pipe.writeClosed = (w.channel 0).pipe.writeClosed) :
    Speaks w' unsent phase := by
  cases h with
  | begins hu hopen => exact .begins hu (hc.trans hopen)
  | sends hu hopen => exact .sends hu (hc.trans hopen)
  | ended hu hclosed => exact .ended hu (hc.trans hclosed)

/-- **A turn of the writer** puts in what fits, or closes the pipe and ends. -/
theorem Speaks.puts {job : Job (List String)} (h : Speaks w unsent (.active job))
    (hst : Standing capacity unsent w) (task : Nat) :
    (w.channel 0).pipe.writeClosed = false ∧ Puts w task unsent (job.advance task w) := by
  have h0 := hst.lone.channels_pos
  cases h with
  | begins hu hc =>
    rw [hu]
    exact ⟨hc, puts_writing _ h0 (hst.isOpen hc)⟩
  | sends hu hc =>
    rw [hu]
    exact ⟨hc, puts_send _ h0 (hst.isOpen hc) fun _ h0 ho => puts_writing _ h0 ho⟩

/-- What the reader is at when it has got something of the text and has so many requests left. -/
inductive Listens (w : World) (unsent : List UInt8) (text : List Char) (requests : List Request) :
    Phase (List String) → Nat → Prop where
  | begins {left : List Request} {got : List String} (ha : Asks w unsent text requests left got) :
      Listens w unsent text requests (.active (reading left got)) left.length
  | awaits {wanted : Wanted} {left : List Request} {got : List String}
      (ha : Awaits w unsent text requests wanted left got) :
      Listens w unsent text requests (.active (awaiting wanted left got)) (left.length + 1)
  | ended {got : List String} (hs : Shares text requests got (w.coming 0 unsent)) :
      Listens w unsent text requests (.ended (.ok got)) 0

/-- The reader looks at what has come and what is still to come. -/
theorem Listens.congr {phase : Phase (List String)} (h : Listens w unsent text requests phase left)
    (hi : w'.input 0 = w.input 0) (hc : w'.coming 0 unsent' = w.coming 0 unsent) :
    Listens w' unsent' text requests phase left := by
  cases h with
  | begins ha =>
    unfold Asks at ha
    rw [← hc] at ha
    exact .begins ha
  | awaits ha => exact .awaits (ha.congr (congrArg Input.pending hi) hc)
  | ended hs =>
    rw [← hc] at hs
    exact .ended hs

/-- **A turn of the reader** takes what is there, or waits. -/
theorem Listens.gets {job : Job (List String)}
    (h : Listens w unsent text requests (.active job) left) (hst : Standing capacity unsent w)
    (task : Nat) : Gets w task unsent text requests left (job.advance task w) := by
  have hread := hst.readable.legible
  cases h with
  | begins ha => exact gets_reading _ hread (World.unasked_of_supply hst.readable.supply) ha
  | awaits ha =>
    exact gets_read hread (World.answered_of_supply hst.readable.supply) ha fun _ _ h hu ha =>
      gets_reading _ h hu ha

/-! ## 3. Between two events -/

/-- Where a task can have to wait: the writer for room, and the reader for bytes. The writer reads nothing, and
there is no second input. -/
def Heeded (w : World) (i : Nat) : Prop :=
  if i = writer then w.Heeds i 1 (.pipe 0) else w.Heeds i 0 (.sink 0)

/-- What holds between two events. The reader has got a part of the text, and the rest of the text is to come. -/
structure Underway (capacity : Nat) (text : List Char) (requests : List Request)
    (unsent : List UInt8) (left : Nat) (m : Machine (List String)) : Prop where
  size : m.tasks.size = 2
  alone : ∀ i, (m.task i).starter = none ∧ (m.task i).cancelled = false
  standing : Standing capacity unsent m.world
  posts : m.world.posts 0 ≤ 2
  writes : Speaks m.world unsent (m.task writer).phase
  reads : Listens m.world unsent text requests (m.task reader).phase left
  heeded : ∀ i, m.result? i = none → Heeded m.world i

/-- What has still to happen: all bytes have to go in and to come out, the requests have to be met, and the pipe has
to be closed. -/
def weight (unsent : List UInt8) (left : Nat) (w : World) : Nat :=
  2 * unsent.length + (w.channel 0).pipe.buffer.size + left +
    if (w.channel 0).pipe.writeClosed then 0 else 1

/-- A bound for the number of events. Nobody is woken but by something that had to happen, and there are never more
than two in the queue. -/
def measure (unsent : List UInt8) (left : Nat) (w : World) : Nat :=
  3 * weight unsent left w + w.queue.toList.length

/-- Others do not see that an event has left the queue. -/
theorem heeds_withQueue {i j input : Nat} {output : Output} (hp : m.Picks (.resume i) queue)
    (hne : j ≠ i) (h : m.world.Heeds j input output) :
    (m.withQueue queue).world.Heeds j input output := by
  cases h with
  | turn ht =>
    refine .turn (((hp.mem_iff _).mp ht).resolve_left fun he => hne ?_)
    exact Event.resume.inj he
  | bytes hs he hw => exact .bytes hs he hw
  | room ho hopen hf hw => exact .room ho hopen hf hw

/-- Whoever has a turn in the queue keeps it while another has one. -/
theorem Heeded.withQueue {i j : Nat} (hp : m.Picks (.resume i) queue) (hne : j ≠ i)
    (h : Heeded m.world j) : Heeded (m.withQueue queue).world j := by
  unfold Heeded at h ⊢
  split
  · next hj =>
    rw [if_pos hj] at h
    exact heeds_withQueue hp hne h
  · next hj =>
    rw [if_neg hj] at h
    exact heeds_withQueue hp hne h

/-- Whoever is heeded is so afterwards. -/
theorem Heeded.attends {i : Nat} (h : Heeded w i) (ha : w.Attends w') : Heeded w' i := by
  unfold Heeded at h ⊢
  split
  · next hi =>
    rw [if_pos hi] at h
    exact ha.heeds h
  · next hi =>
    rw [if_neg hi] at h
    exact ha.heeds h

/-- The queue is shorter by an event that has been picked. -/
theorem posts_withQueue {event : Event} (hp : m.Picks event queue) :
    (m.withQueue queue).world.queue.toList.length + 1 = m.world.queue.toList.length ∧
      (m.withQueue queue).world.posts 0 + 1 = m.world.posts 0 := by
  obtain ⟨before, after, hm, hq⟩ := hp
  have hlength : queue.toList.length + 1 = m.world.queue.toList.length := by
    rw [hm, hq, List.length_append, List.length_append, List.length_cons]
    omega
  refine ⟨hlength, ?_⟩
  show queue.toList.length + _ + 1 = m.world.queue.toList.length + _
  rw [← hlength]
  show queue.toList.length + (m.world.channel 0).waiting.length + 1 = _
  omega

namespace Underway

variable {i : Nat}

/-- The world is the same without the event. -/
theorem standing_withQueue (h : Underway capacity text requests unsent left m)
    (hp : m.Picks (.resume i) queue) : Standing capacity unsent (m.withQueue queue).world :=
  h.standing.withQueue fun event he => h.standing.lone.queue event ((hp.mem_iff event).mpr (.inr he))

/-- A task that has ended has no turn, and an event is lost. -/
theorem idle (h : Underway capacity text requests unsent left m) (hp : m.Picks (.resume i) queue)
    {result : Except Abort (List String)} (hr : m.result? i = some result) :
    Underway capacity text requests unsent left (m.withQueue queue) where
  size := h.size
  alone := h.alone
  standing := h.standing_withQueue hp
  posts := by
    have hposts := h.posts
    have := (posts_withQueue hp).2
    omega
  writes := h.writes.congr rfl
  reads := h.reads.congr rfl rfl
  heeded := by
    intro j hj
    refine (h.heeded j hj).withQueue hp ?_
    rintro rfl
    rw [show (m.withQueue queue).result? j = m.result? j from rfl, hr] at hj
    cases hj

/-- A task has had a turn, and has left the world to the others as they need it. -/
theorem became (h : Underway capacity text requests unsent left m) (hp : m.Picks (.resume i) queue)
    (hn : m.result? i = none) {phase : Phase (List String)}
    (ha : (m.withQueue queue).world.Attends w') (hst : Standing capacity unsent' w')
    (hposts : w'.posts 0 ≤ 2)
    (hw : Speaks w' unsent' (if writer = i then phase else (m.task writer).phase))
    (hr : Listens w' unsent' text requests (if reader = i then phase else (m.task reader).phase) left')
    (hself : (∃ result, phase = .ended result) ∨ Heeded w' i) :
    Underway capacity text requests unsent' left' ((m.withQueue queue).became i phase w') := by
  have hlt : i < (m.withQueue queue).tasks.size := Machine.lt_size_of_result?_eq_none hn
  have hphase (j : Nat) : (((m.withQueue queue).became i phase w').task j).phase =
      if j = i then phase else (m.task j).phase := by
    by_cases hji : j = i
    · subst hji
      rw [if_pos rfl, Machine.task_became_self _ _ hlt]
    · rw [if_neg hji, Machine.task_became_of_ne _ _ hji]
      rfl
  -- Only the task that had the turn has a new phase. All that is said of the other one is about the world, which
  -- has not lost an event for it.
  refine ⟨(Machine.size_became _ _ _ _).trans h.size, fun j => ?_, hst, hposts, ?_, ?_,
    fun j hj => ?_⟩
  · by_cases hji : j = i
    · subst hji
      rw [Machine.task_became_self _ _ hlt]
      exact h.alone j
    · rw [Machine.task_became_of_ne _ _ hji]
      exact h.alone j
  · rw [hphase]
    exact hw
  · rw [hphase]
    exact hr
  · by_cases hji : j = i
    · subst hji
      rcases hself with ⟨result, rfl⟩ | hself
      · rw [Machine.result?_became_self _ hlt] at hj
        cases hj
      · exact hself
    · rw [Machine.result?_became_of_ne _ _ hji] at hj
      exact ((h.heeded j hj).withQueue hp hji).attends ha

end Underway

end Delivery

end Shell
