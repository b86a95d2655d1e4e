/-
Nobody who waits is forgotten.

A task that waits for a pipe is woken by whatever happens to the pipe next. `Attends` says this of
a part of a run: whoever waited before has a turn to come, or still waits for a pipe that is as it
was. `Heeds` is what a stage that has not ended can count on at any time: a turn, or a wait for
which there is a reason. The first keeps the second (`Attends.heeds`).

While other tasks have their turns, a task that waits counts on little: that its pipes and inputs are
still there, that a pipe which has been closed stays closed, and that it is not forgotten. `World.Regards`
says so of one task and of any part of a run, also of one in which pipes are made and other tasks are told
to end. So whatever the task had reason to wait for, it still has, or it has a turn to come (`Regards.heeds`).
-/
import Shell.Proofs.Pipeline.Stage
import Shell.Proofs.World.Later

set_option autoImplicit false

namespace Shell.World

variable {w w₁ w' : World}

/-- Whoever waited still waits for the same, or has a turn to come. -/
structure Attends (w w' : World) : Prop where
  supply : ∀ i, (w'.input i).supply = (w.input i).supply
  queue : ∀ event ∈ w.queue.toList, event ∈ w'.queue.toList
  waiting : ∀ c, ∀ j ∈ (w.channel c).waiting, .resume j ∈ w'.queue.toList ∨
    j ∈ (w'.channel c).waiting ∧ (w'.channel c).pipe = (w.channel c).pipe

/-- Over two parts of a run. -/
theorem Attends.trans (h : w.Attends w₁) (h' : w₁.Attends w') : w.Attends w' where
  supply := fun i => (h'.supply i).trans (h.supply i)
  queue := fun event he => h'.queue event (h.queue event he)
  waiting := by
    intro c j hj
    rcases h.waiting c j hj with he | ⟨hj₁, hp₁⟩
    · exact .inl (h'.queue _ he)
    · rcases h'.waiting c j hj₁ with he | ⟨hj', hp'⟩
      · exact .inl he
      · exact .inr ⟨hj', hp'.trans hp₁⟩

/-- Work on inputs and sinks wakes nobody and forgets nobody. -/
theorem Works.attends (h : w.Works w') : w.Attends w' where
  supply := h.supply
  queue := fun _ he => h.mem_queue he
  waiting := by
    intro c j hj
    rcases h.woken c j hj with hj' | he
    · exact .inr ⟨hj', (h.waiting c j hj').2⟩
    · exact .inl he

/-- Another task that waits does not take a place. -/
theorem attends_wait (w : World) (index task : Nat) : w.Attends (w.wait index task) where
  supply := fun _ => rfl
  queue := fun _ he => he
  waiting := by
    intro c j hj
    -- The others are still there, with one more behind them.
    refine .inr ⟨?_, pipe_wait w index task c⟩
    by_cases hc : c = index
    · subst hc
      rcases Nat.lt_or_ge c w.channels.size with hlt | hge
      · rw [channel_wait_self task hlt]
        exact List.mem_append_left _ hj
      · rw [channel_of_size_le hge] at hj
        cases hj
    · rw [channel_wait_of_ne task hc]
      exact hj

/-- Whatever is changed of a pipe, those who waited for it have a turn to come. -/
theorem attends_change (w : World) (index : Nat) (f : Pipe → Pipe) :
    w.Attends (w.change index f) where
  supply := by
    intro i
    rw [World.input, inputs_change]
    rfl
  queue := by
    intro event he
    rw [queue_change]
    exact List.mem_append_left _ he
  waiting := by
    intro c j hj
    by_cases hc : c = index
    · subst hc
      refine .inl ?_
      rw [queue_change]
      exact List.mem_append_right _ (List.mem_map_of_mem hj)
    · rw [channel_change_of_ne f hc]
      exact .inr ⟨hj, rfl⟩

/-- An event more does not take a turn away. -/
theorem attends_push (w : World) (event : Event) : w.Attends (w.push event) where
  supply := fun _ => rfl
  queue := by
    intro e he
    show e ∈ (w.queue.push event).toList
    rw [Queue.toList_push]
    exact List.mem_append_left _ he
  waiting := fun _ _ hj => .inr ⟨hj, rfl⟩

/-- Nothing has happened. -/
theorem Attends.refl (w : World) : w.Attends w := (Works.refl w).attends

/-- Closing the ends of a stage wakes those who wait at them. -/
theorem attends_closeEnds (w : World) (input : Nat) (output : Output) :
    w.Attends (w.closeEnds input output) :=
  closeEnds_induction Attends.refl Attends.trans (fun w index => w.attends_change index _)
    (fun w index => w.attends_change index _) w input output

/-! ## What comes to the queue -/

/-- Nothing has come to the queue but turns, and nobody has asked the host. -/
structure Wakes (w w' : World) : Prop where
  asked : w'.asked = w.asked
  queue : ∃ tasks : List Nat, w'.queue.toList = w.queue.toList ++ tasks.map .resume

/-- Over two parts of a run. -/
theorem Wakes.trans (h : w.Wakes w₁) (h' : w₁.Wakes w') : w.Wakes w' where
  asked := h'.asked.trans h.asked
  queue := by
    obtain ⟨tasks, hq⟩ := h.queue
    obtain ⟨tasks', hq'⟩ := h'.queue
    refine ⟨tasks ++ tasks', ?_⟩
    rw [hq', hq, List.map_append, List.append_assoc]

/-- Work on inputs and sinks leaves the queue as it is. -/
theorem Works.wakes (h : w.Works w') : w.Wakes w' := ⟨h.asked, h.queue⟩

/-- Nobody is woken by waiting. -/
theorem wakes_wait (w : World) (index task : Nat) : w.Wakes (w.wait index task) :=
  ⟨rfl, [], (List.append_nil _).symm⟩

/-- A change wakes those who wait at the pipe. -/
theorem wakes_change (w : World) (index : Nat) (f : Pipe → Pipe) : w.Wakes (w.change index f) :=
  ⟨asked_change f, _, queue_change f⟩

/-- So do the ends that are closed. -/
theorem wakes_closeEnds (w : World) (input : Nat) (output : Output) :
    w.Wakes (w.closeEnds input output) :=
  closeEnds_induction (fun w => (Works.refl w).wakes) Wakes.trans
    (fun w index => w.wakes_change index _) (fun w index => w.wakes_change index _) w input output

/-! ## Stages that have not ended -/

/-- A stage has a turn to come, or waits and has a reason to. -/
inductive Heeds (w : World) (task input : Nat) (output : Output) : Prop where
  | turn (h : .resume task ∈ w.queue.toList)
  | bytes {pipe : Nat} (hs : (w.input input).supply = .pipe pipe)
      (he : (w.channel pipe).pipe.isWaiting = true) (hw : task ∈ (w.channel pipe).waiting)
  | room {pipe : Nat} (ho : output = .pipe pipe) (hopen : (w.channel pipe).pipe.IsOpen)
      (hf : (w.channel pipe).pipe.room = 0) (hw : task ∈ (w.channel pipe).waiting)

variable {task input : Nat} {output : Output}

/-- **A stage that could count on a turn still can**, since it is not forgotten. -/
theorem Attends.heeds (ha : w.Attends w') (h : w.Heeds task input output) :
    w'.Heeds task input output := by
  cases h with
  | turn h => exact .turn (ha.queue _ h)
  | @bytes pipe hs he hw =>
    -- Woken, or still right to wait, since the pipe is as it was.
    rcases ha.waiting pipe task hw with hq | ⟨hw', hp⟩
    · exact .turn hq
    · refine .bytes ((ha.supply input).trans hs) ?_ hw'
      rw [hp]
      exact he
  | @room pipe ho hopen hf hw =>
    rcases ha.waiting pipe task hw with hq | ⟨hw', hp⟩
    · exact .turn hq
    · refine .room ho ?_ ?_ hw'
      · rw [hp]
        exact hopen
      · rw [hp]
        exact hf

/-- A stage that is not held up has a turn to come. -/
theorem Heeds.resume (h : w.Heeds task input output) (hd : ¬ w.Dry input)
    (hc : ¬ w.Clogged output) : .resume task ∈ w.queue.toList := by
  cases h with
  | turn h => exact h
  | bytes hs he _ => exact absurd ⟨_, hs, he⟩ hd
  | room ho hopen hf _ => exact absurd ⟨_, ho, hopen, hf⟩ hc

end Shell.World

namespace Shell.World

/-! ## What one task can go on relying on -/

variable {w w₁ w' : World} {task input : Nat} {output : Output}

/-- The second world is later, and its pipes have the capacity that they had. -/
structure Lasts (w w' : World) : Prop extends Later w w' where
  capacity : ∀ c < w.channels.size, (w'.channel c).pipe.capacity = (w.channel c).pipe.capacity
  asked : w.asked = [] → w'.asked = []

/-- Over two parts of a run. -/
theorem Lasts.trans (h : w.Lasts w₁) (h' : w₁.Lasts w') : w.Lasts w' where
  toLater := h.toLater.trans h'.toLater
  capacity c hc := (h'.capacity c (Nat.lt_of_lt_of_le hc h.channels)).trans (h.capacity c hc)
  asked ha := h'.asked (h.asked ha)

/-- And a task that had a turn to come or waited in the first world is not forgotten. -/
structure Regards (w : World) (task : Nat) (w' : World) : Prop extends Lasts w w' where
  turn : .resume task ∈ w.queue.toList → .resume task ∈ w'.queue.toList
  waiting : ∀ c < w.channels.size, task ∈ (w.channel c).waiting → .resume task ∈ w'.queue.toList ∨
    task ∈ (w'.channel c).waiting ∧ (w'.channel c).pipe = (w.channel c).pipe

/-- Nothing has happened. -/
theorem Regards.refl (w : World) (task : Nat) : w.Regards task w where
  toLater := .refl w
  capacity _ _ := rfl
  asked := id
  turn := id
  waiting _ _ hw := .inr ⟨hw, rfl⟩

/-- Over two parts of a run. -/
theorem Regards.trans (h : w.Regards task w₁) (h' : w₁.Regards task w') : w.Regards task w' where
  toLasts := h.toLasts.trans h'.toLasts
  turn ht := h'.turn (h.turn ht)
  waiting c hc hw := by
    rcases h.waiting c hc hw with ht | ⟨hw₁, hp₁⟩
    · exact .inl (h'.turn ht)
    · rcases h'.waiting c (Nat.lt_of_lt_of_le hc h.channels) hw₁ with ht | ⟨hw', hp'⟩
      · exact .inl ht
      · exact .inr ⟨hw', hp'.trans hp₁⟩

/-- No task is forgotten where nobody who waits is. -/
theorem Attends.regards (h : w.Attends w') (hl : w.Later w')
    (hcapacity : ∀ c, (w'.channel c).pipe.capacity = (w.channel c).pipe.capacity)
    (hasked : w'.asked = w.asked) (task : Nat) : w.Regards task w' where
  toLater := hl
  capacity c _ := hcapacity c
  asked ha := hasked.trans ha
  turn := h.queue _
  waiting c _ hw := h.waiting c task hw

/-- Work on inputs and sinks changes nothing that a task relies on. -/
theorem Works.regards (h : w.Works w') (task : Nat) : w.Regards task w' :=
  h.attends.regards h.later h.capacity h.asked task

/-- Nor does another task that waits. -/
theorem regards_wait (w : World) (index waiter task : Nat) : w.Regards task (w.wait index waiter) :=
  (w.attends_wait index waiter).regards (w.later_wait index waiter)
    (w.alike_wait index waiter).capacity rfl task

/-- Nor an event more. -/
theorem regards_push (w : World) (event : Event) (task : Nat) : w.Regards task (w.push event) :=
  (w.attends_push event).regards (w.later_push event) (fun _ => rfl) rfl task

/-- Nor a change of a pipe that opens no end again. -/
theorem regards_change (w : World) (index : Nat) (f : Pipe → Pipe)
    (hw : ∀ p, p.writeClosed = true → (f p).writeClosed = true)
    (hr : ∀ p, p.readClosed = true → (f p).readClosed = true)
    (hc : ∀ p, (f p).capacity = p.capacity) (task : Nat) : w.Regards task (w.change index f) := by
  refine (w.attends_change index f).regards (w.later_change index f hw hr) (fun c => ?_) (asked_change f) task
  rcases Nat.lt_or_ge index w.channels.size with hlt | hge
  · by_cases hi : c = index
    · subst hi
      rw [pipe_change_self f hlt, hc]
    · rw [channel_change_of_ne f hi]
  · rw [change_of_size_le f hge]

/-- Nor the ends that are closed. -/
theorem regards_closeEnds (w : World) (input : Nat) (output : Output) (task : Nat) :
    w.Regards task (w.closeEnds input output) :=
  closeEnds_induction (r := fun w w' => w.Regards task w') (fun w => .refl w task) Regards.trans
    (fun w index => w.regards_change index Pipe.closeWrite (fun _ _ => rfl) (fun _ h => h) (fun _ => rfl) task)
    (fun w index => w.regards_change index Pipe.closeRead (fun _ h => h) (fun _ _ => rfl) (fun _ => rfl) task)
    w input output

/-- Another task is made to wait no longer. -/
theorem regards_unwait (w : World) {waiter : Nat} (h : task ≠ waiter) : w.Regards task (w.unwait waiter) where
  toLater := w.later_unwait waiter
  capacity c _ := (w.alike_unwait waiter).capacity c
  asked ha := by
    show w.asked.filter _ = []
    rw [ha, List.filter_nil]
  turn ht := by
    show _ ∈ (w.queue.filter _).toList
    rw [Queue.toList_filter]
    exact List.mem_filter.mpr ⟨ht, by simp⟩
  waiting c hc hw := by
    have hchannel : (w.unwait waiter).channel c =
        { w.channel c with waiting := (w.channel c).waiting.filter (· ≠ waiter) } := by
      simp only [channel, unwait, Array.getD_eq_getD_getElem?, Array.getElem?_map, Array.getElem?_eq_getElem hc,
        Option.map_some, Option.getD_some]
    rw [hchannel]
    exact .inr ⟨List.mem_filter.mpr ⟨hw, by simpa using h⟩, rfl⟩

/-- **A task that is not held up for nothing is not forgotten.** -/
theorem Regards.heeds (h : w.Regards task w') (hi : input < w.inputs.size)
    (hs : ∀ c, (w.input input).supply = .pipe c → c < w.channels.size)
    (ho : ∀ c, output = .pipe c → c < w.channels.size) (hh : w.Heeds task input output) :
    w'.Heeds task input output := by
  cases hh with
  | turn ht => exact .turn (h.turn ht)
  | @bytes pipe hp he hw =>
    rcases h.waiting pipe (hs pipe hp) hw with ht | ⟨hw', hsame⟩
    · exact .turn ht
    · exact .bytes ((h.supply input hi).trans hp) (by rwa [hsame]) hw'
  | @room pipe hp hopen hf hw =>
    rcases h.waiting pipe (ho pipe hp) hw with ht | ⟨hw', hsame⟩
    · exact .turn ht
    · exact .room hp (by rwa [hsame]) (by rwa [hsame]) hw'

end Shell.World
