/-
The books of a pipe.

A pipe is first in, first out, however its calls are interleaved: what has gone in is what has
come out followed by what is in the buffer. This file proves it for every history, with what
it means for one write (its pieces are a beginning of its bytes, and all of them exactly if the
write has been met) and with what closing the read end does (nothing comes out any more).

The balance is kept by each turn (`Balanced.of_turned`). That a closed pipe stays dry needs a
second step lemma, because it is about two histories, one of which continues the other
(`Dry.next`).
-/
import Shell.Proofs.Channel.Calls

set_option autoImplicit false

namespace Shell.PipeCall

variable {capacity : Nat} {h h' : History}

/-! ## 1. The balance

While the read end is open, the bytes that were accepted are those that were delivered and then those in the pipe.
Afterwards the pipe is empty. Each way that a history goes on keeps this. -/

/-- What went in is what came out and what is in the buffer, until the read end is closed and
the buffer is dropped. -/
structure Balanced (h : History) : Prop where
  whileOpen : h.pipe.readClosed = false →
    h.accepted.bytes = h.delivered.bytes ++ h.pipe.buffer.toList
  afterwards : h.pipe.readClosed = true → h.pipe.buffer = #[]

/-- Nothing has been put in or taken out at first. -/
theorem balanced_start (capacity : Nat) : Balanced (.start capacity) where
  whileOpen := by intro _; rfl
  afterwards := by intro hr; cases hr

/-- A turn in which nothing moves. -/
theorem Balanced.of_same (hb : Balanced h) (hr : h'.pipe.readClosed = h.pipe.readClosed)
    (hp : h'.pipe.buffer = h.pipe.buffer) (ha : h'.accepted.bytes = h.accepted.bytes)
    (hd : h'.delivered.bytes = h.delivered.bytes) : Balanced h' := by
  refine ⟨?_, ?_⟩
  · rw [hr, hp, ha, hd]
    exact hb.whileOpen
  · rw [hr, hp]
    exact hb.afterwards

/-- A turn in which a pipe that is still read takes in a piece. -/
theorem Balanced.of_put (hb : Balanced h) {piece bytes : List UInt8}
    (ho : h.pipe.readClosed = false) (hp : h'.pipe = (h.pipe.accept bytes).1)
    (ht : bytes.take h.pipe.room = piece)
    (ha : h'.accepted.bytes = h.accepted.bytes ++ piece)
    (hd : h'.delivered.bytes = h.delivered.bytes) : Balanced h' := by
  refine ⟨fun _ => ?_, fun hr => ?_⟩
  · rw [ha, hd, hb.whileOpen ho, hp, Pipe.toList_accept, ht, List.append_assoc]
  · rw [hp, Pipe.readClosed_accept, ho] at hr
    cases hr

/-- A turn in which a pipe that is still read gives a piece. -/
theorem Balanced.of_take (hb : Balanced h) {size : Option Nat}
    (ho : h.pipe.readClosed = false) (hp : h'.pipe = (h.pipe.deliver size).2)
    (ha : h'.accepted.bytes = h.accepted.bytes)
    (hd : h'.delivered.bytes = h.delivered.bytes ++ (h.pipe.deliver size).1) : Balanced h' := by
  refine ⟨fun _ => ?_, fun hr => ?_⟩
  · rw [ha, hd, hb.whileOpen ho, hp, List.append_assoc, Pipe.deliver_append]
  · rw [hp, Pipe.readClosed_deliver, ho] at hr
    cases hr

/-- **The step.** A turn moves a piece into the buffer, or out of it, or nothing. -/
theorem Balanced.of_turned (hb : Balanced h) (hs : Sound capacity h) {i : Nat}
    {queue : Queue Event} (ht : Turned h queue i h') : Balanced h' := by
  have h0 : 0 < (h.machine.withQueue queue).world.channels.size := hs.world.channels_pos
  cases ht with
  | idle _ => exact hb.of_same rfl rfl (by simp) (by simp)
  | @sends rest w sent _ hsend =>
    cases hsend with
    | nothing => exact hb.of_same rfl rfl (by simp [putIn, afterSending]) (by simp)
    | refused _ _ => exact hb.of_same rfl rfl (by simp [putIn, afterSending]) (by simp)
    | full _ _ _ =>
      have hp := World.pipe_wait (h.machine.withQueue queue).world 0 i 0
      exact hb.of_same (congrArg Pipe.readClosed hp) (congrArg Pipe.buffer hp)
        (by simp [putIn_none]) (by simp)
    | whole _ ho _ hd =>
      -- All bytes fit, so the piece that is taken in is the whole.
      have ht := List.take_append_drop ((h.machine.withQueue queue).world.channel 0).pipe.room rest
      rw [hd, List.append_nil] at ht
      exact hb.of_put ho.read (World.pipe_change_self _ h0) ht (by simp [putIn, afterSending])
        (by simp)
    | part ho _ hd =>
      -- The wait comes after the change and does not touch the pipe.
      refine hb.of_put ho.read ((World.pipe_wait _ _ _ _).trans (World.pipe_change_self _ h0))
        rfl ?_ (by simp)
      rw [Pieces.bytes_append, Pieces.bytes_singleton, putIn_part _ hd]
      rfl
  | receives _ hrec =>
    cases hrec with
    | empty _ =>
      have hp := World.pipe_wait (h.machine.withQueue queue).world 0 i 0
      exact hb.of_same (congrArg Pipe.readClosed hp) (congrArg Pipe.buffer hp) (by simp) (by simp)
    | closed _ => exact hb.of_same rfl rfl (by simp) (by simp)
    | taken _ hr => exact hb.of_take hr (World.pipe_change_self _ h0) (by simp) (by simp; rfl)
  | closesWrite _ =>
    have hp := World.pipe_change_self Pipe.closeWrite h0
    have hr := congrArg Pipe.readClosed hp
    have hbuf := congrArg Pipe.buffer hp
    exact hb.of_same hr hbuf (by simp) (by simp)
  | closesRead _ =>
    have hp := World.pipe_change_self Pipe.closeRead h0
    -- Both parts change at once: the end is closed and the buffer is dropped.
    refine ⟨fun hr => ?_, fun _ => ?_⟩
    · exact absurd (hr.symm.trans (congrArg Pipe.readClosed hp)) Bool.false_ne_true
    · exact congrArg Pipe.buffer hp

/-- The books balance after each turn. -/
theorem Balanced.next (hb : Balanced h) (hs : Sound capacity h) (hn : h.Next h') :
    Balanced h' := by
  rcases hs.next_cases hn with ⟨call, _, rfl⟩ | ⟨i, queue, _, ht⟩
  · exact hb.of_same rfl rfl rfl rfl
  · exact hb.of_turned hs ht

/-- So they do in every history, by induction. -/
theorem balanced_of (hr : History.Of capacity h) : Balanced h := by
  induction hr with
  | refl => exact balanced_start capacity
  | tail hc hn ih => exact ih.next (sound_of hc) hn

/-! ## 2. After the read end has been closed

Nothing is delivered any more, and reads come to the end at once. -/

/-- What is still true when a history `h` with a closed read end has been continued to `h'`:
nothing has come out since. -/
structure Dry (h h' : History) : Prop where
  closed : h'.pipe.readClosed = true
  delivered : h'.delivered.bytes = h.delivered.bytes
  /-- A read that has ended since has got nothing. -/
  reads : ∀ i bytes, h'.machine.result? i = some (.ok (.bytes bytes)) →
    h.machine.result? i = some (.ok (.bytes bytes)) ∨ bytes = []

theorem dry_refl (hr : h.pipe.readClosed = true) : Dry h h :=
  ⟨hr, rfl, fun _ _ hi => .inl hi⟩

/-- A turn of a task that does not end in a read of something. -/
theorem Dry.of_became {h₀ : History} (hd : Dry h₀ h) {i : Nat} {queue : Queue Event}
    {phase : Phase PipeResult} {w : World} {piece : List UInt8}
    (hr : (w.channel 0).pipe.readClosed = true) (hn : h.machine.result? i = none)
    (hp : ∀ bytes, phase = .ended (.ok (.bytes bytes)) → bytes = []) :
    Dry h₀ { h with
      machine := (h.machine.withQueue queue).became i phase w
      accepted := h.accepted ++ [(i, piece)]
      delivered := h.delivered ++ [(i, [])] } := by
  have hlt : i < (h.machine.withQueue queue).tasks.size := Machine.lt_size_of_result?_eq_none hn
  refine ⟨hr, by simpa using hd.delivered, ?_⟩
  intro j bytes hj
  by_cases he : j = i
  · subst he
    rw [Machine.result?, Machine.task_became_self _ _ hlt] at hj
    refine .inr (hp bytes ?_)
    cases phase <;> simp_all
  · rw [Machine.result?_became_of_ne _ _ he] at hj
    exact hd.reads j bytes hj

/-- A turn gives no reader any bytes once the read end has been closed. -/
theorem Dry.of_turned {h₀ : History} (hd : Dry h₀ h) (hs : Sound capacity h) {i : Nat}
    {queue : Queue Event} (ht : Turned h queue i h') : Dry h₀ h' := by
  have h0 : 0 < (h.machine.withQueue queue).world.channels.size := hs.world.channels_pos
  have hr : ((h.machine.withQueue queue).world.channel 0).pipe.readClosed = true := hd.closed
  cases ht with
  | idle _ => exact ⟨hd.closed, by simpa using hd.delivered, hd.reads⟩
  | sends hp hsend =>
    -- A write finds the read end closed, so it is empty or refused.
    have hn := Machine.result?_eq_none_of_active hp
    cases hsend with
    | nothing => exact hd.of_became hr hn (by intro _ he; cases he)
    | refused _ _ => exact hd.of_became hr hn (by intro _ he; cases he)
    | full _ ho _ => exact absurd hr ho.not_readClosed
    | whole _ ho _ _ => exact absurd hr ho.not_readClosed
    | part ho _ _ => exact absurd hr ho.not_readClosed
  | receives hp hrec =>
    -- A read finds the read end closed, so it gets nothing.
    have hn := Machine.result?_eq_none_of_active hp
    cases hrec with
    | empty hw => exact absurd hr ((Pipe.isWaiting_iff _).1 hw).2.not_readClosed
    | closed _ =>
      refine hd.of_became hr hn ?_
      intro bytes he
      cases he
      rfl
    | taken _ hc => exact absurd hr (Bool.eq_false_iff.1 hc)
  | closesWrite hp =>
    have hc := congrArg Pipe.readClosed (World.pipe_change_self Pipe.closeWrite h0)
    exact hd.of_became (hc.trans hr) (Machine.result?_eq_none_of_active hp)
      (by intro _ he; cases he)
  | closesRead hp =>
    have hc := congrArg Pipe.readClosed (World.pipe_change_self Pipe.closeRead h0)
    exact hd.of_became hc (Machine.result?_eq_none_of_active hp) (by intro _ he; cases he)

/-- Nor does a step of the history. -/
theorem Dry.next {h₀ : History} (hd : Dry h₀ h) (hs : Sound capacity h) (hn : h.Next h') :
    Dry h₀ h' := by
  rcases hs.next_cases hn with ⟨call, _, rfl⟩ | ⟨i, queue, _, ht⟩
  · refine ⟨hd.closed, hd.delivered, ?_⟩
    intro i bytes hi
    by_cases he : i = h.machine.tasks.size
    · rw [History.machine_made, Machine.result?, he, Machine.task_addTask_self] at hi
      cases hi
    · rw [History.machine_made, Machine.result?, Machine.task_addTask_of_ne _ he] at hi
      exact hd.reads i bytes hi
  · exact hd.of_turned hs ht

/-- So it is however the history goes on. -/
theorem dry_of_continues (hr : History.Of capacity h) (hc : h.pipe.readClosed = true)
    (hh : h.Continues h') : Dry h h' := by
  induction hh with
  | refl => exact dry_refl hc
  | tail hh hn ih => exact ih.next ((sound_of hr).continues hh) hn

/-- A read whose turn comes after the read end was closed is done, and has got nothing. -/
theorem Sound.read_dry (hs : Sound capacity h) (hc : h.pipe.readClosed = true) {i : Nat}
    {size : Option Nat} (hi : h.calls[i]? = some (.read size))
    (hn : h.machine.result? i = none) (queue : Queue Event) :
    ((h.machine.withQueue queue).resume i).result? i = some (.ok (.bytes [])) := by
  have hlt := (List.getElem?_eq_some_iff.1 hi).1
  obtain ⟨hst, hca⟩ := hs.alone i hlt
  have hp : (h.machine.task i).phase =
      .active (.receive 0 size fun bytes => .finish (.bytes bytes)) := by
    have hstands := hs.stands i _ hi
    generalize h.accepted.bytesOf i = done at hstands
    generalize (h.machine.task i).started = started at hstands
    generalize hph : (h.machine.task i).phase = phase at hstands
    cases hstands with
    | unread => rfl
    | read =>
      rw [Machine.result?_eq_of_ended hph] at hn
      cases hn
  have hcq : ((h.machine.withQueue queue).world.channel 0).pipe.readClosed = true := hc
  rw [resume_receive (m := h.machine.withQueue queue) hp hst hca]
  rw [World.receive_of_readClosed hcq]
  exact Machine.result?_became_self _ (Machine.lt_size_of_result?_eq_none hn)

/-! ## 3. One write

The bytes that a write has got rid of are the first ones of its bytes, however often it had to wait. -/

/-- What has been accepted from a write is a beginning of its bytes, and all of them exactly if
the write has had a turn and has been met. -/
theorem Sound.write (hs : Sound capacity h) {i : Nat} {bytes : List UInt8}
    (hi : h.calls[i]? = some (.write bytes)) :
    h.accepted.bytesOf i <+: bytes ∧
      (h.machine.result? i = some (.ok .none) ↔
        (h.machine.task i).started = true ∧ h.accepted.bytesOf i = bytes) := by
  have hst := hs.stands i _ hi
  generalize h.accepted.bytesOf i = done at hst ⊢
  generalize hp : (h.machine.task i).phase = phase at hst
  generalize (h.machine.task i).started = started at hst ⊢
  have hne {rest : List UInt8} (hr : rest ≠ []) : done ≠ done ++ rest := by
    intro he
    exact hr (List.self_eq_append_right.1 he)
  cases hst with
  | @unwritten _ _ rest _ hd hn =>
    refine ⟨⟨rest, hd⟩, ?_⟩
    -- The write is pending. If it has had a turn then something is left of it.
    rw [Machine.result?_eq_none_of_active hp, ← hd]
    constructor
    · intro he
      cases he
    · rintro ⟨hst, he⟩
      exact absurd he (hne (hn hst))
  | written =>
    refine ⟨List.prefix_refl _, ?_⟩
    rw [Machine.result?_eq_of_ended hp]
    exact ⟨fun _ => ⟨rfl, rfl⟩, fun _ => rfl⟩
  | @refused _ _ rest _ _ hd hr =>
    refine ⟨⟨rest, hd⟩, ?_⟩
    rw [Machine.result?_eq_of_ended hp, ← hd]
    constructor
    · intro he
      cases he
    · rintro ⟨_, he⟩
      exact absurd he (hne hr)

/-! ## 4. The books

The three parts together, for every history. -/

/-- **A pipe keeps its books.** In every history of a pipe, however its calls are interleaved:
no more is buffered than the capacity; what went in is what came out followed by the buffer,
until the read end is closed, and from then on the buffer is empty, nothing comes out, reads
get nothing, and a read that has not ended is done at its next turn; and what went in from one
write is a beginning of its bytes, all of them exactly if the write was met. -/
theorem history_keeps_books (hr : History.Of capacity h) :
    h.pipe.buffer.size ≤ capacity ∧
    (h.pipe.readClosed = false →
      h.accepted.bytes = h.delivered.bytes ++ h.pipe.buffer.toList) ∧
    (h.pipe.readClosed = true → ∀ h', h.Continues h' →
      h'.pipe.buffer = #[] ∧ h'.delivered.bytes = h.delivered.bytes ∧
      (∀ i bytes, h'.machine.result? i = some (.ok (.bytes bytes)) →
        h.machine.result? i = some (.ok (.bytes bytes)) ∨ bytes = []) ∧
      ∀ i size queue, h'.calls[i]? = some (.read size) → h'.machine.result? i = none →
        ((h'.machine.withQueue queue).resume i).result? i = some (.ok (.bytes []))) ∧
    ∀ i bytes, h.calls[i]? = some (.write bytes) →
      h.accepted.bytesOf i <+: bytes ∧
      (h.machine.result? i = some (.ok .none) ↔
        (h.machine.task i).started = true ∧ h.accepted.bytesOf i = bytes) := by
  have hs := sound_of hr
  have hb := balanced_of hr
  refine ⟨?_, hb.whileOpen, ?_, fun i bytes hi => hs.write hi⟩
  · have h1 : h.pipe.buffer.size ≤ h.pipe.capacity := hs.world.bounded
    have h2 : h.pipe.capacity = capacity := hs.world.capacity
    rwa [h2] at h1
  · intro hc h' hh
    have hd := dry_of_continues hr hc hh
    exact ⟨(balanced_of (hr.trans hh)).afterwards hd.closed, hd.delivered, hd.reads,
      fun i size queue hi hn => (hs.continues hh).read_dry hd.closed hi hn queue⟩

/-- A write of three bytes into a pipe for two, a read of one of them, and the end of reading. -/
def shortHistory : History :=
  ((((History.start 2).made (.write [1, 2, 3])).stepped.made (.read (some 1))).stepped.made
    .closeRead).stepped.stepped

/-- All three bytes of the write have been accepted, the last of them after one has been read. -/
theorem shortHistory_keeps_books :
    History.Of 2 shortHistory ∧ shortHistory.pipe.readClosed = true ∧
      shortHistory.accepted.bytesOf 0 = [1, 2, 3] := by
  have hr : History.Of 2 shortHistory :=
    (History.Of.made (.stepped (.made (.stepped (.made .refl (.write _))) (.read _)))
      .closeRead).stepped.stepped
  have hw := ((history_keeps_books hr).2.2.2 0 [1, 2, 3] rfl).2
  have hmet : shortHistory.machine.result? 0 = some (.ok .none) := rfl
  exact ⟨hr, rfl, (hw.1 hmet).2⟩

end Shell.PipeCall
