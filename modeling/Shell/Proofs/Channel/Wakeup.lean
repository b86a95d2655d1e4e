/-
No lost wake-up.

Readers, writers and those who close wait for one and the same thing, that the pipe changes.
This file proves that a call is never left waiting for a change that has already happened: if
no task has a turn to come, then every pending write looks at a full buffer and every pending
read at an empty one, with both ends open.

The invariant is `Attended`: a pending call has a turn to come or waits, and if it waits then it
is right to. A change of the pipe may make the second part false, but it moves everybody who
waits to the queue, so nothing is left of which it could be false. That is why one wake-up for
all after each change is enough, and why the change of a write that does not fit has to come
before its wait.
-/
import Shell.Proofs.Channel.Calls

set_option autoImplicit false

namespace Shell.PipeCall

variable {capacity : Nat} {h h' : History}

/-- A task is right to wait for a pipe: it writes and there is no room, or it reads and there is
nothing, and both ends are open. -/
inductive Blocked (pipe : Pipe) : Phase PipeResult → Prop where
  | write {rest : List UInt8} (ho : pipe.IsOpen) (hf : pipe.IsFull) :
      Blocked pipe (.active (.send 0 rest finished))
  | read {size : Option Nat} (ho : pipe.IsOpen) (he : pipe.IsEmpty) :
      Blocked pipe (.active (.receive 0 size fun bytes => .finish (.bytes bytes)))

/-- Every pending call has a turn to come, or waits and is right to. -/
structure Attended (h : History) : Prop where
  present : ∀ i, h.machine.result? i = none →
    .resume i ∈ h.machine.world.queue.toList ∨ i ∈ (h.machine.world.channel 0).waiting
  known : ∀ i ∈ (h.machine.world.channel 0).waiting, i < h.machine.tasks.size
  blocked : ∀ i ∈ (h.machine.world.channel 0).waiting, h.machine.result? i = none →
    Blocked h.pipe (h.machine.task i).phase

/-- Nobody waits at first. -/
theorem attended_start (capacity : Nat) : Attended (.start capacity) where
  present := by intro i hi; cases hi
  known := by intro i hi; cases hi
  blocked := by intro i hi; cases hi

/-! ## The steps

There are two kinds: a task begins to wait, or the pipe changes and everybody who waits is told. A turn is one of
them, or first one and then the other. -/

/-- What a turn of task `i` has to do so that nobody is forgotten: all others still have a turn
to come or wait; if others wait then the pipe is as it was and they waited before; and if the
task itself is not done then it waits and is right to. -/
structure Attends (h : History) (queue : Queue Event) (i : Nat) (phase : Phase PipeResult)
    (w : World) : Prop where
  others : ∀ j, .resume j ∈ queue.toList ∨ j ∈ (h.machine.world.channel 0).waiting →
    .resume j ∈ w.queue.toList ∨ j ∈ (w.channel 0).waiting
  unchanged : ∀ j ∈ (w.channel 0).waiting, j ≠ i →
    (w.channel 0).pipe = h.pipe ∧ j ∈ (h.machine.world.channel 0).waiting
  self : (∃ result, phase = .ended result) ∨
    i ∈ (w.channel 0).waiting ∧ Blocked (w.channel 0).pipe phase

/-- The task that had the turn is in its new phase, and everybody else is attended to as before. -/
theorem Attended.of_became (ha : Attended h) {i : Nat} {queue : Queue Event}
    {phase : Phase PipeResult} {w : World} {accepted delivered : Pieces}
    (hp : h.machine.Picks (.resume i) queue) (hn : h.machine.result? i = none)
    (hw : Attends h queue i phase w) :
    Attended { h with
      machine := (h.machine.withQueue queue).became i phase w
      accepted := accepted
      delivered := delivered } := by
  have hlt : i < (h.machine.withQueue queue).tasks.size := Machine.lt_size_of_result?_eq_none hn
  refine ⟨fun j hj => ?_, fun j hjw => ?_, fun j hjw hj => ?_⟩
  · by_cases hji : j = i
    · subst hji
      rcases hw.self with ⟨result, rfl⟩ | ⟨hmem, -⟩
      · rw [Machine.result?_became_self _ hlt] at hj
        cases hj
      · exact .inr hmem
    -- The event that has left the queue was that of task `i` alone.
    · rw [Machine.result?_became_of_ne _ _ hji] at hj
      refine hw.others j ?_
      rcases ha.present j hj with he | he
      · rcases (hp.mem_iff _).1 he with heq | he
        · exact absurd (Event.resume.inj heq) hji
        · exact .inl he
      · exact .inr he
  · rw [Machine.size_became]
    by_cases hji : j = i
    · rw [hji]
      exact hlt
    · exact ha.known j (hw.unchanged j hjw hji).2
  · by_cases hji : j = i
    · subst hji
      rcases hw.self with ⟨result, rfl⟩ | ⟨-, hb⟩
      · rw [Machine.result?_became_self _ hlt] at hj
        cases hj
      · rw [Machine.task_became_self _ _ hlt]
        exact hb
    -- Another task that waits looks at the pipe as it was, and was right to wait for it.
    · obtain ⟨hpipe, hold⟩ := hw.unchanged j hjw hji
      rw [Machine.result?_became_of_ne _ _ hji] at hj
      rw [Machine.task_became_of_ne _ _ hji]
      have hb := ha.blocked j hold hj
      rw [← hpipe] at hb
      exact hb

section

variable (h) (queue : Queue Event) (i : Nat)

/-- The task is done without a change. -/
theorem attends_same (result : Except Abort PipeResult) :
    Attends h queue i (.ended result) (h.machine.withQueue queue).world :=
  ⟨fun _ hj => hj, fun _ hj _ => ⟨rfl, hj⟩, .inl ⟨result, rfl⟩⟩

/-- The task waits without a change. -/
theorem attends_wait {phase : Phase PipeResult} (h0 : 0 < h.machine.world.channels.size)
    (hb : Blocked h.pipe phase) :
    Attends h queue i phase ((h.machine.withQueue queue).world.wait 0 i) := by
  have hch := World.channel_wait_self (w := (h.machine.withQueue queue).world) i h0
  refine ⟨fun j hj => ?_, fun j hj hji => ?_, .inr ⟨?_, ?_⟩⟩
  · rw [hch]
    rcases hj with hj | hj
    · exact .inl hj
    · exact .inr (List.mem_append_left _ hj)
  · rw [hch] at hj ⊢
    rcases List.mem_append.1 hj with hj | hj
    · exact ⟨rfl, hj⟩
    · exact absurd (List.mem_singleton.1 hj) hji
  · rw [hch]
    exact List.mem_append_right _ (List.mem_singleton.2 rfl)
  · rw [hch]
    exact hb

/-- The pipe changes, and the task is done. Everybody who waited has a turn to come. -/
theorem attends_change (result : Except Abort PipeResult) (f : Pipe → Pipe)
    (h0 : 0 < h.machine.world.channels.size) :
    Attends h queue i (.ended result) ((h.machine.withQueue queue).world.change 0 f) := by
  have hch := World.channel_change_self (w := (h.machine.withQueue queue).world) f h0
  refine ⟨fun j hj => .inl ?_, fun j hj _ => ?_, .inl ⟨result, rfl⟩⟩
  · rw [World.queue_change]
    rcases hj with hj | hj
    · exact List.mem_append_left _ hj
    · exact List.mem_append_right _ (List.mem_map_of_mem hj)
  · rw [hch] at hj
    cases hj

/-- The pipe changes, and the task waits. It is the only one that does. -/
theorem attends_change_wait {phase : Phase PipeResult} (f : Pipe → Pipe)
    (h0 : 0 < h.machine.world.channels.size) (hb : Blocked (f h.pipe) phase) :
    Attends h queue i phase (((h.machine.withQueue queue).world.change 0 f).wait 0 i) := by
  have hch := World.channel_change_self (w := (h.machine.withQueue queue).world) f h0
  have hwt := World.channel_wait_self (w := (h.machine.withQueue queue).world.change 0 f) i
    (by rw [World.size_change]; exact h0)
  rw [hch, List.nil_append] at hwt
  refine ⟨fun j hj => .inl ?_, fun j hj hji => ?_, .inr ⟨?_, ?_⟩⟩
  · show _ ∈ ((h.machine.withQueue queue).world.change 0 f).queue.toList
    rw [World.queue_change]
    rcases hj with hj | hj
    · exact List.mem_append_left _ hj
    · exact List.mem_append_right _ (List.mem_map_of_mem hj)
  · rw [hwt] at hj
    exact absurd (List.mem_singleton.1 hj) hji
  · rw [hwt]
    exact List.mem_singleton.2 rfl
  · rw [hwt]
    exact hb

end

/-- **The step.** -/
theorem Attended.of_turned (ha : Attended h) (hs : Sound capacity h) {i : Nat}
    {queue : Queue Event} (hp : h.machine.Picks (.resume i) queue) (ht : Turned h queue i h') :
    Attended h' := by
  have h0 := hs.world.channels_pos
  cases ht with
  | idle hr =>
    -- The event that has left the queue was that of a task that has ended.
    refine ⟨fun j hj => ?_, ha.known, ha.blocked⟩
    rcases ha.present j hj with he | he
    · rcases (hp.mem_iff _).1 he with heq | he
      · obtain rfl := Event.resume.inj heq
        exact absurd (hr.symm.trans hj) (Option.some_ne_none _)
      · exact .inl he
    · exact .inr he
  | sends hph hsend =>
    refine ha.of_became hp (Machine.result?_eq_none_of_active hph) ?_
    cases hsend with
    | nothing => exact attends_same h queue i _
    | refused _ _ => exact attends_same h queue i _
    | full _ ho hf => exact attends_wait h queue i h0 (.write ho (hs.world.bounded.isFull hf))
    | whole _ _ _ _ => exact attends_change h queue i _ _ h0
    | part ho _ hd =>
      -- What is left does not fit into the pipe after the change.
      exact attends_change_wait h queue i _ h0
        (.write ⟨ho.write, ho.read⟩ (hs.world.bounded.isFull_accept hd))
  | receives hph hrec =>
    refine ha.of_became hp (Machine.result?_eq_none_of_active hph) ?_
    cases hrec with
    | empty hw =>
      have hb := (Pipe.isWaiting_iff _).1 hw
      exact attends_wait h queue i h0 (.read hb.2 hb.1)
    | closed _ => exact attends_same h queue i _
    | taken _ _ => exact attends_change h queue i _ _ h0
  | closesWrite hph =>
    exact ha.of_became hp (Machine.result?_eq_none_of_active hph)
      (attends_change h queue i _ Pipe.closeWrite h0)
  | closesRead hph =>
    exact ha.of_became hp (Machine.result?_eq_none_of_active hph)
      (attends_change h queue i _ Pipe.closeRead h0)

/-- A new call has its first turn to come. -/
theorem Attended.of_call (ha : Attended h) (call : PipeCall) :
    Attended (h.made call) := by
  have hq : (h.made call).machine.world.queue.toList =
      h.machine.world.queue.toList ++ [.resume h.machine.tasks.size] :=
    Queue.toList_push _ _
  refine ⟨fun i hi => ?_, fun i hw => ?_, fun i hw hi => ?_⟩
  · rw [hq]
    by_cases he : i = h.machine.tasks.size
    · rw [he]
      exact .inl (List.mem_append_right _ (List.mem_singleton.2 rfl))
    · rw [History.machine_made, Machine.result?, Machine.task_addTask_of_ne _ he] at hi
      rcases ha.present i hi with hm | hm
      · exact .inl (List.mem_append_left _ hm)
      · exact .inr hm
  · rw [History.machine_made, Machine.size_addTask]
    exact Nat.lt_succ_of_lt (ha.known i hw)
  · have he : i ≠ h.machine.tasks.size := Nat.ne_of_lt (ha.known i hw)
    rw [History.machine_made, Machine.result?, Machine.task_addTask_of_ne _ he] at hi
    rw [History.machine_made, Machine.task_addTask_of_ne _ he]
    exact ha.blocked i hw hi

/-- Each step of a history keeps it so. -/
theorem Attended.next (ha : Attended h) (hs : Sound capacity h) (hn : h.Next h') :
    Attended h' := by
  rcases hs.next_cases hn with ⟨call, _, rfl⟩ | ⟨i, queue, hp, ht⟩
  · exact ha.of_call call
  · exact ha.of_turned hs hp ht

/-- So it is in every history, by induction. -/
theorem attended_of (hr : History.Of capacity h) : Attended h := by
  induction hr with
  | refl => exact attended_start capacity
  | tail hc hn ih => exact ih.next (sound_of hc) hn

/-! ## Quiescence

Where no event is left, who is not done waits, and it is right to wait. With room for a byte a writer and a reader
cannot both be right, so only those are left who wait for somebody who does not come. -/

/-- When nobody has a turn to come, every pending call is right to wait. -/
theorem Attended.blocked_of_isQuiet (ha : Attended h) (hq : h.machine.isQuiet = true) {i : Nat}
    (hi : h.machine.result? i = none) : Blocked h.pipe (h.machine.task i).phase := by
  rcases ha.present i hi with he | hw
  · have hempty : h.machine.world.queue.isEmpty = true := (Bool.and_eq_true_iff.1 hq).1
    rw [(Queue.isEmpty_iff _).1 hempty] at he
    cases he
  · exact ha.blocked i hw hi

/-- A pending call that is right to wait is a write to a full pipe or a read from an empty
one. -/
theorem Sound.of_blocked (hs : Sound capacity h) {i : Nat} {call : PipeCall}
    (hi : h.calls[i]? = some call) (hb : Blocked h.pipe (h.machine.task i).phase) :
    h.pipe.IsOpen ∧ ((∃ bytes, call = .write bytes) ∧ h.pipe.buffer.size = capacity ∨
      (∃ size, call = .read size) ∧ h.pipe.buffer.size = 0) := by
  have hst := hs.stands i call hi
  generalize (h.machine.task i).phase = phase at hst hb
  cases hb with
  | write ho hf =>
    have hc : h.pipe.capacity = capacity := hs.world.capacity
    exact ⟨ho, .inl ⟨⟨_, hst.of_send⟩, hf.trans hc⟩⟩
  | read ho he => exact ⟨ho, .inr ⟨⟨_, hst.of_receive.1⟩, he⟩⟩

/-- **No wake-up is lost.** In every history of a pipe with a capacity, when nobody has a turn to
come: a pending call is a write or a read; a pending write looks at a full buffer and a pending
read at an empty one, with both ends open; there are not both; and after the read end has been
closed nothing is pending. -/
theorem quiet_history_pending (hcap : 1 ≤ capacity) (hr : History.Of capacity h)
    (hq : h.machine.isQuiet = true) :
    (∀ i call, h.calls[i]? = some call → h.machine.result? i = none →
      h.pipe.writeClosed = false ∧ h.pipe.readClosed = false ∧
      ((∃ bytes, call = .write bytes) ∧ h.pipe.buffer.size = capacity ∨
        (∃ size, call = .read size) ∧ h.pipe.buffer.size = 0)) ∧
    (∀ i j bytes size, h.calls[i]? = some (.write bytes) → h.calls[j]? = some (.read size) →
      h.machine.result? i = none → ∃ result, h.machine.result? j = some result) ∧
    (h.pipe.readClosed = true → ∀ i < h.calls.length, ∃ result,
      h.machine.result? i = some result) := by
  have hs := sound_of hr
  have ha := attended_of hr
  have hpending {i : Nat} {call : PipeCall} (hi : h.calls[i]? = some call)
      (hn : h.machine.result? i = none) := hs.of_blocked hi (ha.blocked_of_isQuiet hq hn)
  refine ⟨fun i call hi hn => ?_, fun i j bytes size hi hj hn => ?_, fun hc i hi => ?_⟩
  · obtain ⟨ho, hp⟩ := hpending hi hn
    exact ⟨ho.write, ho.read, hp⟩
  · refine Option.ne_none_iff_exists'.1 fun hm => ?_
    -- The write would look at a full buffer and the read at an empty one, and with a capacity no
    -- buffer is both.
    have hfull : h.pipe.buffer.size = capacity := by
      rcases (hpending hi hn).2 with ⟨-, hf⟩ | ⟨⟨_, hcall⟩, -⟩
      · exact hf
      · cases hcall
    have hempty : h.pipe.buffer.size = 0 := by
      rcases (hpending hj hm).2 with ⟨⟨_, hcall⟩, -⟩ | ⟨-, he⟩
      · cases hcall
      · exact he
    omega
  · refine Option.ne_none_iff_exists'.1 fun hn => ?_
    have ho := (hpending (List.getElem?_eq_getElem hi) hn).1
    exact absurd hc ho.not_readClosed

/-- A write of two bytes into a pipe for one, which waits for ever. -/
def stuckHistory : History := ((History.start 1).made (.write [1, 2])).stepped

/-- The write has no result, and the pipe is full. -/
theorem stuckHistory_pending :
    stuckHistory.machine.result? 0 = none ∧ stuckHistory.pipe.buffer.size = 1 := by
  have hr : History.Of 1 stuckHistory := (History.Of.made .refl (.write _)).stepped
  have hn : stuckHistory.machine.result? 0 = none := rfl
  have hp := (quiet_history_pending (Nat.le_refl 1) hr rfl).1 0 _ rfl hn
  rcases hp.2.2 with ⟨-, hf⟩ | ⟨⟨_, hcall⟩, -⟩
  · exact ⟨hn, hf⟩
  · cases hcall

end Shell.PipeCall
