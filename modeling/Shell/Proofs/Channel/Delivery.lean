/-
A text goes through a pipe.

Every event keeps two tasks at the ends of a pipe under way and makes a measure less (`Underway.event`), so there are
only so many events. When no event is left then both tasks have come to their ends, for a pipe with room for a byte is not
full and empty at once. So what the reader has got is the text of all that has been written (`text_survives`), and no
character is lost or changed, wherever the capacity has cut it.
-/
import Shell.Proofs.Channel.Exchange

set_option autoImplicit false

namespace Shell

open Shell.Text

namespace Delivery

variable {capacity : Nat} {text : List Char} {requests : List Request} {left left' : Nat}
  {unsent unsent' : List UInt8}
  {w w₁ w' : World} {m : Machine (List String)} {queue : Queue Event}

/-! ## 1. Events -/

/-- The machine after an event, with a smaller measure. -/
def Advanced (capacity : Nat) (text : List Char) (requests : List Request) (bound : Nat)
    (m : Machine (List String)) : Prop :=
  ∃ unsent left, Underway capacity text requests unsent left m ∧ measure unsent left m.world < bound

/-- Either something has happened that had to, or only an event has been used up. -/
theorem measure_lt (hposts : w'.posts 0 ≤ 2)
    (h : weight unsent' left' w' < weight unsent left w ∨
      weight unsent' left' w' = weight unsent left w ∧
        w'.queue.toList.length + 1 = w.queue.toList.length)
    (hq : 0 < w.queue.toList.length) : measure unsent' left' w' < measure unsent left w := by
  unfold World.posts at hposts
  unfold measure
  omega

/-- The bytes that the writer has put in are in the pipe. -/
theorem Pours.weight_le (h : Pours w unsent w' unsent') (left : Nat) :
    weight unsent' left w' < weight unsent left w ∨
      weight unsent' left w' = weight unsent left w ∧ w'.queue.toList = w.queue.toList := by
  have hbytes := congrArg List.length h.bytes
  have hsize (pipe : Pipe) : pipe.buffer.toList.length = pipe.buffer.size := Array.length_toList
  rw [List.length_append, List.length_append, hsize, hsize] at hbytes
  unfold weight
  rw [h.works.writeClosed 0]
  rcases h.quiet with hlt | ⟨heq, hqueue⟩
  · exact .inl (by omega)
  · exact .inr ⟨by omega, hqueue⟩

/-- The reader takes bytes out, or has met a request. -/
theorem weight_le_of_spends (h : World.Spends 0 w w') (hw : w.Works w')
    (ho : (w.channel 0).pipe.IsOpen) (hl : left' ≤ left) :
    weight unsent left' w' < weight unsent left w ∨
      weight unsent left' w' = weight unsent left w ∧ w'.queue.toList = w.queue.toList := by
  have hsize := h.size
  unfold weight
  rw [hw.writeClosed 0]
  rcases h.quiet with hlt | hqueue | hclosed
  · exact .inl (by omega)
  · rcases Nat.lt_or_ge (left' + (w'.channel 0).pipe.buffer.size)
      (left + (w.channel 0).pipe.buffer.size) with hlt | hge
    · exact .inl (by omega)
    · exact .inr ⟨by omega, hqueue⟩
  · exact absurd ho hclosed

theorem weight_lt_of_spends (h : World.Spends 0 w w') (hw : w.Works w') (hl : left' < left) :
    weight unsent left' w' < weight unsent left w := by
  have hsize := h.size
  unfold weight
  rw [hw.writeClosed 0]
  omega

/-- A task that begins to wait has done nothing by that. -/
theorem weight_wait (unsent : List UInt8) (left : Nat) (w : World) (task : Nat) :
    weight unsent left (w.wait 0 task) = weight unsent left w := by
  have hpipe := w.pipe_wait 0 task 0
  rw [weight, hpipe, weight]

/-- To close the pipe was the last thing that the writer had to do. -/
theorem Standing.weight_closeWrite (h : Standing capacity unsent w) (left : Nat)
    (hc : (w.channel 0).pipe.writeClosed = false) :
    weight unsent left (w.closeWrite 0) + 1 = weight unsent left w := by
  rw [weight, h.pipe_closeWrite, weight, hc]
  rfl

theorem Standing.posts_closeWrite (h : Standing capacity unsent w) :
    (w.closeWrite 0).posts 0 = w.posts 0 :=
  World.posts_change Pipe.closeWrite h.lone.channels_pos

/-- A turn that has done nothing that had to happen has used up its event. -/
theorem measure_turn_lt {event : Event} (hp : m.Picks event queue) (hposts : w'.posts 0 ≤ 2)
    (h : weight unsent' left' w' < weight unsent left (m.withQueue queue).world ∨
      weight unsent' left' w' = weight unsent left (m.withQueue queue).world ∧
        w'.queue.toList = (m.withQueue queue).world.queue.toList) :
    measure unsent' left' w' < measure unsent left m.world := by
  have hweight : weight unsent left (m.withQueue queue).world = weight unsent left m.world := rfl
  have hqueue := (posts_withQueue hp).1
  rw [hweight] at h
  refine measure_lt hposts (h.imp_right fun ⟨heq, hsame⟩ => ⟨heq, ?_⟩) (by omega)
  rw [hsame]
  exact hqueue

namespace Underway

variable {job : Job (List String)}

/-- When an event has been picked there is still room for a task that begins to wait. -/
theorem posts_lt (h : Underway capacity text requests unsent left m) {event : Event}
    (hp : m.Picks event queue) : (m.withQueue queue).world.posts 0 < 2 := by
  have hposts := (posts_withQueue hp).2
  have hle := h.posts
  omega

/-- The writer waits for room in a full pipe. -/
theorem writer_waits (h : Underway capacity text requests unsent left m)
    (hp : m.Picks (.resume writer) queue) (hn : m.result? writer = none) {bytes : List UInt8}
    {parcels : List Parcel} (hc : ((m.withQueue queue).world.channel 0).pipe.writeClosed = false)
    (hpours : Pours (m.withQueue queue).world unsent w' (bytes ++ bytesOf parcels))
    (ho : (w'.channel 0).pipe.IsOpen) (hf : (w'.channel 0).pipe.room = 0) :
    Advanced capacity text requests (measure unsent left m.world)
      ((m.withQueue queue).became writer (.active (.send 0 bytes (orFail (writing parcels))))
        (w'.wait 0 writer)) := by
  have hst := (h.standing_withQueue hp).pours hc hpours
  have h0 := hst.lone.channels_pos
  have hpipe := w'.pipe_wait 0 writer 0
  -- The turn that has been taken is replaced by no other: the writer waits.
  have hposts : (w'.wait 0 writer).posts 0 ≤ 2 := by
    have hlt := h.posts_lt hp
    rw [World.posts_wait writer h0, hpours.posts]
    omega
  -- The writer has put in what fits. It goes on with the rest when there is room, for which it waits.
  refine ⟨bytes ++ bytesOf parcels, left, h.became hp hn
    (hpours.works.attends.trans (w'.attends_wait 0 writer)) (hst.wait writer) hposts ?_ ?_
    (.inr ?_), ?_⟩
  · rw [if_pos rfl]
    exact .sends rfl (by rw [hpipe, hpours.works.writeClosed, hc])
  · rw [if_neg (by decide)]
    have hinput := input_of_inputs hpours.inputs 0
    refine h.reads.congr hinput (coming_eq h.standing.supply hinput ?_)
    rw [hpipe]
    exact hpours.bytes
  · exact .room rfl (by rw [hpipe]; exact ho) (by rw [hpipe]; exact hf)
      (World.mem_wait writer h0)
  · refine measure_turn_lt hp hposts ?_
    rw [Machine.world_became, weight_wait]
    exact hpours.weight_le left

/-- The writer has put in all it had, and closes the pipe. -/
theorem writer_ends (h : Underway capacity text requests unsent left m)
    (hp : m.Picks (.resume writer) queue) (hn : m.result? writer = none)
    (hc : ((m.withQueue queue).world.channel 0).pipe.writeClosed = false)
    (hpours : Pours (m.withQueue queue).world unsent w' []) :
    Advanced capacity text requests (measure unsent left m.world)
      ((m.withQueue queue).became writer (.ended (.ok [])) (w'.closeWrite 0)) := by
  have hst := (h.standing_withQueue hp).pours hc hpours
  have hc' : (w'.channel 0).pipe.writeClosed = false := (hpours.works.writeClosed 0).trans hc
  have hpipe := hst.pipe_closeWrite
  -- Closing the pipe may wake the reader, which is one turn for the one taken.
  have hposts : (w'.closeWrite 0).posts 0 ≤ 2 := by
    have hlt := h.posts_lt hp
    rw [hst.posts_closeWrite, hpours.posts]
    omega
  have hin : (w'.closeWrite 0).inputs = w'.inputs := World.inputs_change _
  -- Nothing is left to write, and the pipe has been closed.
  refine ⟨[], left, h.became hp hn (hpours.works.attends.trans (w'.attends_change 0 _))
    (hst.closeWrite hc') hposts ?_ ?_ (.inl ⟨_, rfl⟩), ?_⟩
  · rw [if_pos rfl]
    exact .ended rfl (by rw [hpipe]; rfl)
  · rw [if_neg (by decide)]
    have hinput := input_of_inputs (hin.trans hpours.inputs) 0
    refine h.reads.congr hinput (coming_eq h.standing.supply hinput ?_)
    rw [hpipe]
    exact hpours.bytes
  · refine measure_turn_lt hp hposts (.inl ?_)
    have hle := hpours.weight_le left
    have hclosed := hst.weight_closeWrite left hc'
    rw [Machine.world_became]
    omega

/-- **A turn of the writer.** -/
theorem writer_turn (h : Underway capacity text requests unsent left m)
    (hp : m.Picks (.resume writer) queue) (hj : (m.task writer).phase = .active job) :
    Advanced capacity text requests (measure unsent left m.world)
      ((m.withQueue queue).resume writer) := by
  have hwrites := h.writes
  rw [hj] at hwrites
  have hspeaks : Speaks (m.withQueue queue).world unsent (.active job) := hwrites.congr rfl
  obtain ⟨hc, hputs⟩ := hspeaks.puts (h.standing_withQueue hp) writer
  have hn := Machine.result?_eq_none_of_active hj
  have hj' : ((m.withQueue queue).task writer).phase = .active job := hj
  obtain ⟨hstarter, hcancelled⟩ := h.alone writer
  generalize hadv : job.advance writer (m.withQueue queue).world = r at hputs
  cases hputs with
  | waits hpours _ ho hf =>
    rw [Machine.resume_of_waiting hj' hcancelled hadv]
    exact h.writer_waits hp hn hc hpours ho hf
  | ends hpours =>
    rw [Machine.resume_of_ended hj' hcancelled hstarter hadv]
    exact h.writer_ends hp hn hc hpours

/-- The reader waits for bytes at an empty pipe. -/
theorem reader_waits (h : Underway capacity text requests unsent left m)
    (hp : m.Picks (.resume reader) queue) (hn : m.result? reader = none) {job : Job (List String)}
    (hr : World.ReadsOn 0 (m.withQueue queue).world w') (hs : (w'.input 0).supply = .pipe 0)
    (he : (w'.channel 0).pipe.isWaiting = true) (hread : (w'.wait 0 reader).Readable 0 unsent)
    (hlistens : Listens (w'.wait 0 reader) unsent text requests (.active job) left')
    (hl : left' ≤ left) :
    Advanced capacity text requests (measure unsent left m.world)
      ((m.withQueue queue).became reader (.active job) (w'.wait 0 reader)) := by
  have hst := h.standing_withQueue hp
  have hworks := hr.works
  have hlone := hst.lone_of_works hworks
  have hspends := hr.spends hst.supply hst.lone.channels_pos
  have hopen := (hworks.isOpen_iff 0).mp ((Pipe.isWaiting_iff _).mp he).2
  have hst' : Standing capacity unsent (w'.wait 0 reader) :=
    ⟨hlone.wait reader, hworks.inputs.trans hst.inputs, hs, hread⟩
  have hpipe := w'.pipe_wait 0 reader 0
  -- The turn that has been taken is replaced by no other: the reader waits.
  have hposts : (w'.wait 0 reader).posts 0 ≤ 2 := by
    have hlt := h.posts_lt hp
    rw [World.posts_wait reader hlone.channels_pos, hspends.posts]
    omega
  -- The writer is where it was, and the reader waits for bytes that are not there.
  refine ⟨unsent, left', h.became hp hn
    (hworks.attends.trans (w'.attends_wait 0 reader)) hst' hposts ?_ ?_ (.inr ?_), ?_⟩
  · rw [if_neg (by decide)]
    exact h.writes.congr (by rw [hpipe]; exact hworks.writeClosed 0)
  · rw [if_pos rfl]
    exact hlistens
  · exact .bytes hs (by rw [hpipe]; exact he) (World.mem_wait reader hlone.channels_pos)
  · refine measure_turn_lt hp hposts ?_
    rw [Machine.world_became, weight_wait]
    exact weight_le_of_spends hspends hworks hopen hl

/-- The reader has had its requests met. -/
theorem reader_ends (h : Underway capacity text requests unsent left m)
    (hp : m.Picks (.resume reader) queue) (hn : m.result? reader = none) {got : List String}
    (hr : World.ReadsOn 0 (m.withQueue queue).world w') (hread : w'.Readable 0 unsent)
    (hlistens : Listens w' unsent text requests (.ended (.ok got)) 0)
    (hl : 0 < left ∨ w' = (m.withQueue queue).world) :
    Advanced capacity text requests (measure unsent left m.world)
      ((m.withQueue queue).became reader (.ended (.ok got)) w') := by
  have hst := h.standing_withQueue hp
  have hworks := hr.works
  have hspends := hr.spends hst.supply hst.lone.channels_pos
  have hposts : w'.posts 0 ≤ 2 := by
    have hlt := h.posts_lt hp
    rw [hspends.posts]
    omega
  refine ⟨unsent, 0, h.became hp hn hworks.attends (hst.reads hr hread) hposts ?_ ?_
    (.inl ⟨_, rfl⟩), ?_⟩
  · rw [if_neg (by decide)]
    exact h.writes.congr (hworks.writeClosed 0)
  · rw [if_pos rfl]
    exact hlistens
  · refine measure_turn_lt hp hposts ?_
    rw [Machine.world_became]
    rcases Nat.eq_zero_or_pos left with hzero | hleft
    -- There was nothing to ask for, so nothing has been done.
    · obtain rfl : w' = (m.withQueue queue).world := hl.resolve_left (by omega)
      subst hzero
      exact .inr ⟨rfl, rfl⟩
    · exact .inl (weight_lt_of_spends hspends hworks hleft)

/-- **A turn of the reader.** -/
theorem reader_turn (h : Underway capacity text requests unsent left m)
    (hp : m.Picks (.resume reader) queue) (hj : (m.task reader).phase = .active job) :
    Advanced capacity text requests (measure unsent left m.world)
      ((m.withQueue queue).resume reader) := by
  have hreads := h.reads
  rw [hj] at hreads
  have hlistens : Listens (m.withQueue queue).world unsent text requests (.active job) left :=
    hreads.congr rfl rfl
  have hst := h.standing_withQueue hp
  have hgets := hlistens.gets hst reader
  have hn := Machine.result?_eq_none_of_active hj
  have hj' : ((m.withQueue queue).task reader).phase = .active job := hj
  obtain ⟨hstarter, hcancelled⟩ := h.alone reader
  generalize hadv : job.advance reader (m.withQueue queue).world = r at hgets
  cases hgets with
  | waits hr _ hpause hread ha _ hl =>
    have hsupply := hr.supply.trans hst.supply
    rw [Machine.resume_of_waiting hj' hcancelled hadv]
    cases hpause with
    | bytes hs he =>
      obtain rfl := Supply.pipe.inj (hs.symm.trans hsupply)
      -- To begin to wait is no change of the input.
      have hwait := ((World.alike_wait _ 0 reader).supply 0).trans hs
      exact h.reader_waits hp hn hr hs he (hread.readable (by rw [hwait]; exact nofun)) (.awaits ha) hl
    | host hs =>
      rw [hsupply] at hs
      cases hs
  | ends hr _ hread hs hl =>
    have hsupply := hr.supply.trans hst.supply
    rw [Machine.resume_of_ended hj' hcancelled hstarter hadv]
    exact h.reader_ends hp hn hr (hread.readable (by rw [hsupply]; exact nofun)) (.ended hs) hl

/-- **Every event** keeps what is known, and makes the measure less. -/
theorem event (h : Underway capacity text requests unsent left m) {event : Event}
    (hp : m.Picks event queue) :
    Advanced capacity text requests (measure unsent left m.world)
      ((m.withQueue queue).handle event) := by
  obtain ⟨i, rfl⟩ := h.standing.lone.queue event ((hp.mem_iff event).mpr (.inl rfl))
  show Advanced _ _ _ _ ((m.withQueue queue).resume i)
  cases hr : m.result? i with
  | some result =>
    have hidle : (m.withQueue queue).resume i = m.withQueue queue :=
      Machine.resume_of_result? (m := m.withQueue queue) hr
    have hqueue := (posts_withQueue hp).1
    rw [hidle]
    refine ⟨unsent, left, h.idle hp hr, ?_⟩
    show 3 * weight unsent left m.world + _ < 3 * weight unsent left m.world + _
    omega
  | none =>
    -- Only the two tasks can be running.
    have hlt := Machine.lt_size_of_result?_eq_none hr
    rw [h.size] at hlt
    have htasks : i = writer ∨ i = reader := by
      unfold writer reader
      omega
    have hphase : ∃ job, (m.task i).phase = .active job := by
      rcases htasks with rfl | rfl
      · have hwrites := h.writes
        cases hphase : (m.task writer).phase <;> rw [hphase] at hwrites <;> cases hwrites
        · exact ⟨_, rfl⟩
        · exact ⟨_, rfl⟩
        · rw [Machine.result?_eq_of_ended hphase] at hr
          cases hr
      · have hreads := h.reads
        cases hphase : (m.task reader).phase <;> rw [hphase] at hreads <;> cases hreads
        · exact ⟨_, rfl⟩
        · exact ⟨_, rfl⟩
        · rw [Machine.result?_eq_of_ended hphase] at hr
          cases hr
    obtain ⟨job, hj⟩ := hphase
    rcases htasks with rfl | rfl
    · exact h.writer_turn hp hj
    · exact h.reader_turn hp hj

/-- **Every run** keeps what is known, and has no more events than the measure allows. -/
theorem events {m' : Machine (List String)} {n : Nat}
    (h : Underway capacity text requests unsent left m) (he : m.Events n m') :
    ∃ unsent' left', Underway capacity text requests unsent' left' m' ∧
      n + measure unsent' left' m'.world ≤ measure unsent left m.world := by
  induction he with
  | none => exact ⟨unsent, left, h, Nat.le_of_eq (Nat.zero_add _)⟩
  | next _ hp ih =>
    obtain ⟨unsent₁, left₁, h₁, hle⟩ := ih
    obtain ⟨unsent', left', h', hlt⟩ := h₁.event hp
    exact ⟨unsent', left', h', by omega⟩

/-! ## 2. When no event is left -/

/-- A writer that has not ended looks at a full pipe. -/
theorem room_eq_zero (h : Underway capacity text requests unsent left m)
    (hq : m.world.queue.toList = []) (hn : m.result? writer = none) :
    (m.world.channel 0).pipe.room = 0 := by
  have hheeded : m.world.Heeds writer 1 (.pipe 0) := h.heeded writer hn
  have hdry : ¬ m.world.Dry 1 := by
    rintro ⟨pipe, hs, -⟩
    rw [World.input_of_size_le (Nat.le_of_eq h.standing.inputs)] at hs
    cases hs
  by_contra hroom
  have hturn : .resume writer ∈ m.world.queue.toList := by
    refine hheeded.resume hdry ?_
    rintro ⟨pipe, ho, -, hf⟩
    obtain rfl := Output.pipe.inj ho
    exact hroom hf
  rw [hq] at hturn
  cases hturn

/-- A reader that has not ended looks at an empty pipe that is open. -/
theorem isWaiting (h : Underway capacity text requests unsent left m)
    (hq : m.world.queue.toList = []) (hn : m.result? reader = none) :
    (m.world.channel 0).pipe.isWaiting = true := by
  have hheeded : m.world.Heeds reader 0 (.sink 0) := h.heeded reader hn
  by_contra hwait
  have hturn : .resume reader ∈ m.world.queue.toList := by
    refine hheeded.resume ?_ ?_
    · rintro ⟨pipe, hs, he⟩
      obtain rfl := Supply.pipe.inj (hs.symm.trans h.standing.supply)
      exact hwait he
    · rintro ⟨pipe, ho, -⟩
      cases ho
  rw [hq] at hturn
  cases hturn

theorem result?_writer (h : Underway capacity text requests unsent left m) :
    m.result? writer = none ∨ m.result? writer = some (.ok []) ∧
      (m.world.channel 0).pipe.writeClosed = true := by
  have hwrites := h.writes
  unfold Machine.result?
  cases hphase : (m.task writer).phase <;> rw [hphase] at hwrites <;> cases hwrites
  · exact .inl rfl
  · exact .inl rfl
  · next _ hc => exact .inr ⟨rfl, hc⟩

theorem result?_reader (h : Underway capacity text requests unsent left m) :
    m.result? reader = none ∨ ∃ got, m.result? reader = some (.ok got) ∧
      Shares text requests got (m.world.coming 0 unsent) := by
  have hreads := h.reads
  unfold Machine.result?
  cases hphase : (m.task reader).phase <;> rw [hphase] at hreads <;> cases hreads
  · exact .inl rfl
  · exact .inl rfl
  · next hs => exact .inr ⟨_, rfl, hs⟩

theorem capacity_eq (h : Underway capacity text requests unsent left m) :
    (m.world.channel 0).pipe.capacity = capacity :=
  h.standing.lone.capacity

/-- The reader has come to its end: if it looked at an empty pipe then the writer would look at a full one. -/
theorem reader_ended (h : Underway capacity text requests unsent left m) (hcap : 1 ≤ capacity)
    (hq : m.world.queue.toList = []) : ∃ got, m.result? reader = some (.ok got) := by
  rcases h.result?_reader with hn | ⟨got, hgot, -⟩
  · obtain ⟨hempty, hopen⟩ := (Pipe.isWaiting_iff _).mp (h.isWaiting hq hn)
    rcases h.result?_writer with hnw | ⟨-, hc⟩
    · have hroom := h.room_eq_zero hq hnw
      have hcapacity := h.capacity_eq
      unfold Pipe.room at hroom
      unfold Pipe.IsEmpty at hempty
      omega
    · exact absurd hc hopen.not_writeClosed
  · exact ⟨got, hgot⟩

/-- The writer has come to its end if nothing is to come to the reader. -/
theorem writer_ended (h : Underway capacity text requests unsent left m) (hcap : 1 ≤ capacity)
    (hq : m.world.queue.toList = []) (hc : m.world.coming 0 unsent = []) :
    m.result? writer = some (.ok []) := by
  rcases h.result?_writer with hnw | ⟨hended, -⟩
  · have hroom := h.room_eq_zero hq hnw
    have hcapacity := h.capacity_eq
    have hbuffer : (m.world.channel 0).pipe.buffer.toList ≠ [] := by
      refine List.length_pos_iff.mp ?_
      rw [Array.length_toList]
      unfold Pipe.room at hroom
      omega
    refine absurd hc (coming_ne_nil h.standing.supply fun hnil => ?_)
    exact hbuffer (List.append_eq_nil_iff.mp hnil).1
  · exact hended

/-- Every run can be carried on until no event is left. -/
theorem exists_quiet (h : Underway capacity text requests unsent left m) :
    ∃ n m', m.Events n m' ∧ m'.isQuiet = true := by
  induction hk : measure unsent left m.world using Nat.strongRecOn generalizing m unsent left with
  | _ k ih =>
    subst hk
    cases hq : m.world.queue.toList with
    | nil =>
      refine ⟨0, m, .none, Bool.and_eq_true_iff.mpr ⟨(Queue.isEmpty_iff _).mpr hq, ?_⟩⟩
      rw [h.standing.lone.asked]
      rfl
    | cons event rest =>
      have hp : m.Picks event ⟨rest, []⟩ := ⟨[], rest, hq, List.append_nil rest⟩
      obtain ⟨unsent', left', h', hlt⟩ := h.event hp
      obtain ⟨n, m', hevents, hquiet⟩ := ih _ hlt h' rfl
      exact ⟨n + 1, m', .cons hp hevents, hquiet⟩

end Underway

/-! ## 3. The text -/

/-- What a reader has got of a text with so many requests: a part from the front of it, without gaps. An empty result
is the end of the text, and there are no others behind it. With more requests than characters it is reached. -/
structure Delivered (text : String) (requests : Nat) (got : List String) : Prop where
  count : got.length = requests
  front : ∃ rest, String.join got ++ rest = text
  ended : ∀ before after, got = before ++ "" :: after →
    String.join before = text ∧ ∀ t ∈ after, t = ""
  reached : text.length < requests → "" ∈ got

theorem flatMap_toList_of_empty {ends : List String} (h : ∀ t ∈ ends, t = "") :
    ends.flatMap String.toList = [] := by
  refine List.flatMap_eq_nil_iff.mpr fun t ht => ?_
  rw [h t ht]
  rfl

/-- Texts that are not empty are no more than their characters. -/
theorem length_le_of_ne_empty {texts : List String} (h : ∀ t ∈ texts, t ≠ "") :
    texts.length ≤ (texts.flatMap String.toList).length := by
  induction texts with
  | nil => exact Nat.zero_le _
  | cons t texts ih =>
    have hpos : 0 < t.toList.length := by
      refine List.length_pos_iff.mpr fun hnil => h t List.mem_cons_self ?_
      exact String.toList_eq_nil_iff.mp hnil
    have hrest := ih fun t ht => h t (List.mem_cons_of_mem _ ht)
    rw [List.flatMap_cons, List.length_append, List.length_cons]
    omega

/-- With more requests than characters the end is reached. -/
theorem Served.ended {text left : List Char} {got : List String} (h : Served text got left)
    (hlt : text.length < got.length) : "" ∈ got ∧ left = [] := by
  have htext := congrArg List.length h.text
  obtain ⟨texts, ends, rfl, htexts, hends, hleft⟩ := h.order
  have hle := length_le_of_ne_empty htexts
  rw [List.flatMap_append, List.length_append, List.length_append] at htext
  rw [List.length_append] at hlt
  cases ends with
  | nil =>
    rw [List.length_nil] at hlt
    omega
  | cons t ends =>
    refine ⟨List.mem_append_right _ ?_, hleft (List.cons_ne_nil t ends)⟩
    rw [← hends t List.mem_cons_self]
    exact List.mem_cons_self

theorem Served.delivered {text : String} {got : List String} {left : List Char}
    (h : Served text.toList got left) : Delivered text got.length got := by
  have htext := h.text
  have hended := h.ended
  rw [String.length_toList] at hended
  obtain ⟨texts, ends, rfl, htexts, hends, hleft⟩ := h.order
  rw [List.flatMap_append, flatMap_toList_of_empty hends, List.append_nil] at htext
  -- Empty results at the end add nothing to the text.
  have hjoin {more : List String} (hmore : ∀ t ∈ more, t = "") :
      (String.join (texts ++ more)).toList = texts.flatMap String.toList := by
    rw [String.toList_join, List.flatMap_append, flatMap_toList_of_empty hmore, List.append_nil]
  refine ⟨rfl, ⟨String.ofList left, ?_⟩, fun before after heq => ?_, fun hlt => ?_⟩
  · rw [← String.toList_inj, String.toList_append, hjoin hends, String.toList_ofList]
    exact htext
  · -- The empty result is none of the texts, so it stands among the ends.
    have hsplit : ∃ more, before = texts ++ more ∧ ends = more ++ "" :: after := by
      rcases List.append_eq_append_iff.mp heq with ⟨more, hb, he⟩ | ⟨more, ht, ha⟩
      · exact ⟨more, hb, he⟩
      · cases more with
        | nil =>
          rw [List.append_nil] at ht
          exact ⟨[], by rw [ht, List.append_nil], by rw [List.nil_append]; exact ha.symm⟩
        | cons t more =>
          obtain ⟨rfl, -⟩ := List.cons.inj ha
          refine absurd rfl (htexts "" ?_)
          rw [ht]
          exact List.mem_append_right _ List.mem_cons_self
    obtain ⟨more, rfl, rfl⟩ := hsplit
    have hmore : ∀ t ∈ more, t = "" := fun t ht => hends t (List.mem_append_left _ ht)
    refine ⟨?_, fun t ht => hends t (List.mem_append_right _ (List.mem_cons_of_mem _ ht))⟩
    rw [← String.toList_inj, hjoin hmore, ← htext, hleft (by simp), List.append_nil]
  · exact (hended hlt).1

theorem underway_start (capacity : Nat) (parcels : List Parcel) (requests : List Request) :
    Underway capacity (Utf8.decode (bytesOf parcels)) requests (bytesOf parcels) requests.length
      (start capacity parcels requests) where
  size := rfl
  alone := by
    intro i
    match i with
    | 0 => exact ⟨rfl, rfl⟩
    | 1 => exact ⟨rfl, rfl⟩
    | i + 2 => exact ⟨rfl, rfl⟩
  standing :=
    { lone :=
        { channels := rfl
          capacity := rfl
          bounded := Nat.zero_le _
          queue := by
            intro event he
            have he : event ∈ [Event.resume 0, Event.resume 1] := he
            rcases List.mem_cons.mp he with rfl | he
            · exact ⟨0, rfl⟩
            · exact ⟨1, List.mem_singleton.mp he⟩
          asked := rfl }
      inputs := rfl
      supply := rfl
      readable := by
        refine ⟨Nat.one_pos, nofun, nofun, nofun, fun c hc => ?_, fun c decoder hc => ?_⟩
        · obtain rfl : 0 = c := Supply.pipe.inj hc
          exact ⟨Nat.one_pos, rfl, nofun⟩
        · cases hc }
  posts := Nat.le_refl 2
  writes := .begins rfl rfl
  reads := .begins ⟨[], rfl, .none⟩
  heeded := by
    intro i hi
    have hlt := Machine.lt_size_of_result?_eq_none hi
    have hcases : i = 0 ∨ i = 1 := by
      have hsize : (start capacity parcels requests).tasks.size = 2 := rfl
      omega
    rcases hcases with rfl | rfl
    · exact .turn List.mem_cons_self
    · exact .turn (List.mem_cons_of_mem _ List.mem_cons_self)

/-- **A text survives a pipe**, whatever the capacity and the order of turns. The text is that of all bytes that
are written, and that of the texts if texts are written. The tasks come to their ends after so many events at the
latest, and the reader gets what `Delivered` says. -/
theorem text_survives {capacity : Nat} (hcap : 1 ≤ capacity) (parcels : List Parcel)
    (requests : List Request) :
    ∃ text : String,
      (∀ t, Utf8.Decodes (bytesOf parcels) t ↔ t = text.toList) ∧
      (∀ texts, parcels = texts.map .text → text = String.join texts) ∧
      ∀ n m, (start capacity parcels requests).Events n m →
        n ≤ 6 * (bytesOf parcels).length + 3 * requests.length + 5 ∧
        (m.isQuiet = true → (∃ got, m.result? reader = some (.ok got)) ∧
          (text.length < requests.length → m.result? writer = some (.ok []))) ∧
        ∀ result, m.result? reader = some result →
          ∃ got, result = .ok got ∧ Delivered text requests.length got := by
  refine ⟨String.ofList (Utf8.decode (bytesOf parcels)), fun t => ?_, ?_, fun n m he => ?_⟩
  · rw [String.toList_ofList]
    exact Utf8.decodes_iff
  · rintro texts rfl
    rw [bytesOf_texts, Utf8.decode_encode, String.ofList_toList]
  obtain ⟨unsent, left, h, hle⟩ := (underway_start capacity parcels requests).events he
  -- What the reader has when it ends is what it has been served.
  have hdelivered {result : Except Abort (List String)} (hr : m.result? reader = some result) :
      ∃ got, result = .ok got ∧
        Delivered (String.ofList (Utf8.decode (bytesOf parcels))) requests.length got ∧
        Served (Utf8.decode (bytesOf parcels)) got (m.world.coming 0 unsent) := by
    rcases h.result?_reader with hn | ⟨got, hgot, hshares⟩
    · rw [hr] at hn
      cases hn
    · have hcount := hshares.length_eq
      have hserved := hshares.served
      refine ⟨got, Option.some.inj (hr.symm.trans hgot), ?_, hserved⟩
      have htext : Served (String.ofList (Utf8.decode (bytesOf parcels))).toList got
          (m.world.coming 0 unsent) := by
        rw [String.toList_ofList]
        exact hserved
      rw [← hcount]
      exact htext.delivered
  -- The turns are bounded by the measure at the start. A quiet machine has nobody left who is heeded, so both have
  -- ended.
  refine ⟨?_, fun hquiet => ?_, fun result hr => ?_⟩
  · have hstart : measure (bytesOf parcels) requests.length (start capacity parcels requests).world =
        3 * (2 * (bytesOf parcels).length + 0 + requests.length + 1) + 2 := rfl
    omega
  · have hq : m.world.queue.toList = [] :=
      (Queue.isEmpty_iff _).mp (Bool.and_eq_true_iff.mp hquiet).1
    obtain ⟨got, hgot⟩ := h.reader_ended hcap hq
    refine ⟨⟨got, hgot⟩, fun hlt => h.writer_ended hcap hq ?_⟩
    obtain ⟨got', heq, hd, hserved⟩ := hdelivered hgot
    refine (hserved.ended ?_).2
    rw [String.length_ofList] at hlt
    rw [hd.count]
    exact hlt
  · obtain ⟨got, heq, hd, -⟩ := hdelivered hr
    exact ⟨got, heq, hd⟩

/-- A letter of two bytes goes through a pipe for one, and comes out in one piece. -/
theorem twoBytes_survive : 1 ≤ 1 ∧ ∃ n m,
    (start 1 [.text "é"] [.piece, .piece]).Events n m ∧ m.result? reader = some (.ok ["é", ""]) := by
  obtain ⟨text, -, htexts, hruns⟩ := text_survives (Nat.le_refl 1) [.text "é"] [.piece, .piece]
  have htext : text = "é" := htexts ["é"] rfl
  obtain ⟨n, m, he, hquiet⟩ := (underway_start 1 [.text "é"] [.piece, .piece]).exists_quiet
  obtain ⟨-, hquiets, hresults⟩ := hruns n m he
  obtain ⟨got, hgot⟩ := (hquiets hquiet).1
  obtain ⟨_, heq, hd⟩ := hresults _ hgot
  obtain rfl := Except.ok.inj heq
  obtain ⟨first, second, rfl⟩ : ∃ first second, got = [first, second] := by
    have hcount := hd.count
    match got with
    | [first, second] => exact ⟨first, second, rfl⟩
  refine ⟨Nat.le_refl 1, n, m, he, ?_⟩
  -- The text has one character, and there were two requests, so the end has been reached.
  have hreached : "" ∈ [first, second] := hd.reached (by rw [htext]; decide)
  by_cases hfirst : first = ""
  · -- Then the text would be empty.
    subst hfirst
    have hnone := (hd.ended [] [second] rfl).1
    rw [htext] at hnone
    exact absurd hnone (by decide)
  · obtain rfl : second = "" := by
      have hsecond := (List.mem_cons.mp hreached).resolve_left (Ne.symm hfirst)
      exact (List.mem_singleton.mp hsecond).symm
    have hjoin := (hd.ended [first] [] rfl).1
    rw [htext, String.join_cons] at hjoin
    rw [hgot, ← hjoin]
    simp

end Delivery

end Shell
