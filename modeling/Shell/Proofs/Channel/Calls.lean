/-
Histories of calls on one pipe.

A history is a machine with one pipe, the calls that have been made on it, and the bytes that
have gone into the pipe and come out of it so far. It grows in two ways: another call is made,
or some event of the queue is dealt with, whichever it is. So all interleavings of all calls
are histories, with each call cut into the pieces in which it happens to be met.

What went in and what came out is read off the calls alone: a write has put in what it has no
longer to put in, and a read has got what it ended with. The pipe is not looked at. That is
what makes the balance of the two with the buffer say something.

`Sound` is what every history keeps. It says of each call how far it can have come
(`Stands`), which is all that later files need to know about calls.
-/
import Shell.PipeCall
import Shell.Proofs.Channel.Transfer
import Shell.Proofs.Turns

set_option autoImplicit false

namespace Shell

/-- The task that an event is about. -/
def Event.task : Event → Nat
  | .resume task => task
  | .arrival task => task
  | .report task _ => task

namespace PipeCall

/-! ## 1. Histories -/

/-- The calls on the pipe itself, and not on the streams at its ends. -/
inductive IsOnPipe : PipeCall → Prop where
  | write (bytes : List UInt8) : IsOnPipe (.write bytes)
  | read (size : Option Nat) : IsOnPipe (.read size)
  | closeWrite : IsOnPipe .closeWrite
  | closeRead : IsOnPipe .closeRead

/-- Bytes that went into a pipe or came out of it, in pieces, each with the number of the call
that wrote or read it. -/
abbrev Pieces := List (Nat × List UInt8)

/-- The bytes of all pieces in their order. -/
def Pieces.bytes (pieces : Pieces) : List UInt8 := pieces.flatMap (·.2)

/-- The bytes of the pieces of one call in their order. -/
def Pieces.bytesOf (pieces : Pieces) (call : Nat) : List UInt8 :=
  Pieces.bytes (pieces.filter fun piece => piece.1 == call)

/-- What a write puts in during a turn: what it has to write before and not after. -/
def putIn : Phase PipeResult → Phase PipeResult → List UInt8
  | .active (.send _ bytes _), .active (.send _ rest _) => bytes.take (bytes.length - rest.length)
  | .active (.send _ bytes _), .ended (.ok _) => bytes
  | _, _ => []

/-- What a read gets during a turn. -/
def gotOut : Phase PipeResult → Phase PipeResult → List UInt8
  | .active (.receive _ _ _), .ended (.ok (.bytes bytes)) => bytes
  | _, _ => []

/-- A machine with one pipe, the calls made on it, and what has gone in and come out. -/
structure History where
  machine : Machine PipeResult
  /-- The calls, each with the number of its task. -/
  calls : List PipeCall := []
  accepted : Pieces := []
  delivered : Pieces := []

namespace History

/-- The pipe that the calls are on. -/
def pipe (h : History) : Pipe := (h.machine.world.channel 0).pipe

/-- The history after a turn of a task that leaves the machine `after`. -/
def turned (h : History) (task : Nat) (after : Machine PipeResult) : History :=
  { machine := after
    calls := h.calls
    accepted :=
      h.accepted ++ [(task, putIn (h.machine.task task).phase (after.task task).phase)]
    delivered :=
      h.delivered ++ [(task, gotOut (h.machine.task task).phase (after.task task).phase)] }

/-- The history after another call has been made, which has its first turn to come. -/
def made (h : History) (call : PipeCall) : History :=
  { h with
    machine := h.machine.addTask { phase := .active call.job }
    calls := h.calls ++ [call] }

@[simp] theorem machine_made (h : History) (call : PipeCall) :
    (h.made call).machine = h.machine.addTask { phase := .active call.job } := rfl

@[simp] theorem calls_made (h : History) (call : PipeCall) :
    (h.made call).calls = h.calls ++ [call] := rfl

@[simp] theorem accepted_made (h : History) (call : PipeCall) :
    (h.made call).accepted = h.accepted := rfl

/-- A history with one more call, or after one more turn. -/
inductive Next (h : History) : History → Prop where
  | call {call : PipeCall} (hc : call.IsOnPipe) : Next h (h.made call)
  | turn {event : Event} {queue : Queue Event} (hp : h.machine.Picks event queue) :
      Next h (h.turned event.task ((h.machine.withQueue queue).handle event))

/-- One history continues another. -/
def Continues : History → History → Prop := Relation.ReflTransGen Next

/-- The history after the next event of the queue, if there is one. -/
def stepped (h : History) : History :=
  match h.machine.world.queue.next? with
  | none => h
  | some (event, queue) => h.turned event.task ((h.machine.withQueue queue).handle event)

/-- The history of a pipe that has just been made. -/
def start (capacity : Nat) : History := { machine := PipeCall.machine capacity }

/-- A history of a pipe. -/
def Of (capacity : Nat) (h : History) : Prop := Continues (start capacity) h

end History

/-! ## 2. How far a call can have come -/

/-- What the task of a call can be at, with the bytes that have been accepted from it. -/
inductive Stands : PipeCall → List UInt8 → Phase PipeResult → (started : Bool) → Prop where
  | unwritten {bytes done rest : List UInt8} {started : Bool} (h : done ++ rest = bytes)
      (hs : started = true → rest ≠ []) :
      Stands (.write bytes) done (.active (.send 0 rest finished)) started
  | written {bytes : List UInt8} : Stands (.write bytes) bytes (.ended (.ok .none)) true
  | refused {bytes done rest : List UInt8} {abort : Abort} {started : Bool}
      (h : done ++ rest = bytes) (hr : rest ≠ []) :
      Stands (.write bytes) done (.ended (.error abort)) started
  | unread {size : Option Nat} {started : Bool} :
      Stands (.read size) []
        (.active (.receive 0 size fun bytes => .finish (.bytes bytes))) started
  | read {size : Option Nat} {bytes : List UInt8} :
      Stands (.read size) [] (.ended (.ok (.bytes bytes))) true
  | writeOpen {started : Bool} :
      Stands .closeWrite [] (.active (.closeWrite 0 (.finish .none))) started
  | writeClosed : Stands .closeWrite [] (.ended (.ok .none)) true
  | readOpen {started : Bool} :
      Stands .closeRead [] (.active (.closeRead 0 (.finish .none))) started
  | readClosed : Stands .closeRead [] (.ended (.ok .none)) true

/-- A call that has not had a turn. -/
theorem IsOnPipe.stands {call : PipeCall} (h : call.IsOnPipe) :
    Stands call [] (.active call.job) false := by
  cases h with
  | write bytes => exact .unwritten (List.nil_append _) (fun h => Bool.noConfusion h)
  | read size => exact .unread
  | closeWrite => exact .writeOpen
  | closeRead => exact .readOpen

/-! ## 3. What a turn of a call does -/

/-- What a write is at after as much has been sent as could be. -/
def afterSending : World.Sent → Phase PipeResult
  | .all => .ended (.ok .none)
  | .refused abort => .ended (.error abort)
  | .waiting rest => .active (.send 0 rest finished)

/-- What a read is at after it has got something, or nothing yet. -/
def afterReceiving (size : Option Nat) : Option (List UInt8) → Phase PipeResult
  | some bytes => .ended (.ok (.bytes bytes))
  | none => .active (.receive 0 size fun bytes => .finish (.bytes bytes))

section

variable {m : Machine PipeResult} {i : Nat}

/-- **A turn of a writer** is one attempt to put in what it has left. -/
theorem resume_send {bytes : List UInt8}
    (hp : (m.task i).phase = .active (.send 0 bytes finished))
    (hs : (m.task i).starter = none) (hc : (m.task i).cancelled = false) :
    m.resume i =
      m.became i (afterSending (m.world.send i 0 bytes).2) (m.world.send i 0 bytes).1 := by
  rcases hw : m.world.send i 0 bytes with ⟨w, sent⟩
  cases sent with
  | all => exact Machine.resume_of_ended hp hc hs (by simp only [Job.advance, hw]; rfl)
  | refused abort => exact Machine.resume_of_ended hp hc hs (by simp only [Job.advance, hw]; rfl)
  | waiting rest => exact Machine.resume_of_waiting hp hc (by simp only [Job.advance, hw])

/-- **A turn of a reader** is one attempt to get something. -/
theorem resume_receive {size : Option Nat}
    (hp : (m.task i).phase = .active (.receive 0 size fun bytes => .finish (.bytes bytes)))
    (hs : (m.task i).starter = none) (hc : (m.task i).cancelled = false) :
    m.resume i =
      m.became i (afterReceiving size (m.world.receive i 0 size).2)
        (m.world.receive i 0 size).1 := by
  rcases hw : m.world.receive i 0 size with ⟨w, got⟩
  cases got with
  | some bytes => exact Machine.resume_of_ended hp hc hs (by simp only [Job.advance, hw])
  | none => exact Machine.resume_of_waiting hp hc (by simp only [Job.advance, hw])

end

/-- The ways a turn of a task can go. After each of them the machine has one task at another
phase and another world, and what went in and came out is plain. -/
inductive Turned (h : History) (queue : Queue Event) (i : Nat) : History → Prop where
  /-- The call has ended, or was never made. -/
  | idle {result : Except Abort PipeResult} (hr : h.machine.result? i = some result) :
      Turned h queue i
        { h with
          machine := h.machine.withQueue queue
          accepted := h.accepted ++ [(i, [])]
          delivered := h.delivered ++ [(i, [])] }
  | sends {rest : List UInt8} {w : World} {sent : World.Sent}
      (hp : (h.machine.task i).phase = .active (.send 0 rest finished))
      (hs : World.Sends (h.machine.withQueue queue).world i 0 rest (w, sent)) :
      Turned h queue i
        { h with
          machine := (h.machine.withQueue queue).became i (afterSending sent) w
          accepted := h.accepted ++
            [(i, putIn (.active (.send 0 rest finished)) (afterSending sent))]
          delivered := h.delivered ++ [(i, [])] }
  | receives {size : Option Nat} {w : World} {got : Option (List UInt8)}
      (hp : (h.machine.task i).phase =
        .active (.receive 0 size fun bytes => .finish (.bytes bytes)))
      (hs : World.Receives (h.machine.withQueue queue).world i 0 size (w, got)) :
      Turned h queue i
        { h with
          machine := (h.machine.withQueue queue).became i (afterReceiving size got) w
          accepted := h.accepted ++ [(i, [])]
          delivered := h.delivered ++ [(i, got.getD [])] }
  | closesWrite (hp : (h.machine.task i).phase = .active (.closeWrite 0 (.finish .none))) :
      Turned h queue i
        { h with
          machine := (h.machine.withQueue queue).became i (.ended (.ok .none))
            ((h.machine.withQueue queue).world.closeWrite 0)
          accepted := h.accepted ++ [(i, [])]
          delivered := h.delivered ++ [(i, [])] }
  | closesRead (hp : (h.machine.task i).phase = .active (.closeRead 0 (.finish .none))) :
      Turned h queue i
        { h with
          machine := (h.machine.withQueue queue).became i (.ended (.ok .none))
            ((h.machine.withQueue queue).world.closeRead 0)
          accepted := h.accepted ++ [(i, [])]
          delivered := h.delivered ++ [(i, [])] }

/-- **Every turn of a call goes in one of these ways**, if the call can be at what `Stands` says
of it. -/
theorem turned_of_stands {h : History} {queue : Queue Event} {i : Nat} {call : PipeCall}
    {done : List UInt8} {phase : Phase PipeResult} {started : Bool}
    (hs : (h.machine.task i).starter = none) (hc : (h.machine.task i).cancelled = false)
    (hp : (h.machine.task i).phase = phase) (hst : Stands call done phase started) :
    Turned h queue i (h.turned i ((h.machine.withQueue queue).resume i)) := by
  have hlt {job : Job PipeResult} (hj : (h.machine.task i).phase = .active job) :
      i < (h.machine.withQueue queue).tasks.size :=
    Machine.lt_size_of_result?_eq_none (Machine.result?_eq_none_of_active hj)
  have hend {result : Except Abort PipeResult} (he : (h.machine.task i).phase = .ended result) :
      Turned h queue i (h.turned i ((h.machine.withQueue queue).resume i)) := by
    have hr : (h.machine.withQueue queue).result? i = some result :=
      Machine.result?_eq_of_ended (m := h.machine.withQueue queue) he
    rw [Machine.resume_of_result? hr, History.turned, he]
    exact .idle (Machine.result?_eq_of_ended he)
  cases hst with
  | unwritten hd hn =>
    -- The turn is one `send`, and `putIn` reads off the two phases what it has put in.
    rw [resume_send (m := h.machine.withQueue queue) hp hs hc, History.turned, hp,
      Machine.task_became_self _ _ (hlt hp)]
    exact .sends hp (World.sends _ i 0 _)
  | @unread size started =>
    rw [resume_receive (m := h.machine.withQueue queue) hp hs hc, History.turned, hp,
      Machine.task_became_self _ _ (hlt hp)]
    have hr := World.receives (h.machine.withQueue queue).world i 0 size
    generalize (h.machine.withQueue queue).world.receive i 0 size = r at hr ⊢
    obtain ⟨w, got⟩ := r
    cases got <;> exact .receives hp hr
  | writeOpen =>
    rw [Machine.resume_of_ended (m := h.machine.withQueue queue) hp hc hs rfl, History.turned,
      hp, Machine.task_became_self _ _ (hlt hp)]
    exact .closesWrite hp
  | readOpen =>
    rw [Machine.resume_of_ended (m := h.machine.withQueue queue) hp hc hs rfl, History.turned,
      hp, Machine.task_became_self _ _ (hlt hp)]
    exact .closesRead hp
  | written => exact hend hp
  | refused _ _ => exact hend hp
  | read => exact hend hp
  | writeClosed => exact hend hp
  | readClosed => exact hend hp

/-! ## 4. What every history keeps -/

@[simp] theorem Pieces.bytes_append (a b : Pieces) :
    Pieces.bytes (a ++ b) = Pieces.bytes a ++ Pieces.bytes b :=
  List.flatMap_append

@[simp] theorem Pieces.bytes_singleton (call : Nat) (bytes : List UInt8) :
    Pieces.bytes [(call, bytes)] = bytes := by
  simp [Pieces.bytes]

@[simp] theorem Pieces.bytesOf_append (a b : Pieces) (call : Nat) :
    Pieces.bytesOf (a ++ b) call = Pieces.bytesOf a call ++ Pieces.bytesOf b call := by
  simp [Pieces.bytesOf]

@[simp] theorem Pieces.bytesOf_singleton_self (call : Nat) (bytes : List UInt8) :
    Pieces.bytesOf [(call, bytes)] call = bytes := by
  simp [Pieces.bytesOf]

/-- A piece of one call is no piece of another. -/
theorem Pieces.bytesOf_singleton_of_ne {call i : Nat} (bytes : List UInt8) (h : i ≠ call) :
    Pieces.bytesOf [(call, bytes)] i = [] := by
  simp [Pieces.bytesOf, Pieces.bytes, Ne.symm h]

/-- An empty piece adds nothing to any call. -/
theorem Pieces.bytesOf_singleton_nil (call i : Nat) : Pieces.bytesOf [(call, [])] i = [] := by
  by_cases h : i = call
  · rw [h, bytesOf_singleton_self]
  · exact bytesOf_singleton_of_ne [] h

/-- What stays as it is in a world that has one pipe and no tasks but calls on it. -/
structure Lone (capacity : Nat) (w : World) : Prop where
  channels : w.channels.size = 1
  capacity : (w.channel 0).pipe.capacity = capacity
  bounded : (w.channel 0).pipe.IsBounded
  /-- Nothing is in the queue but turns. -/
  queue : ∀ event ∈ w.queue.toList, ∃ i, event = .resume i
  asked : w.asked = []

namespace Lone

variable {capacity : Nat} {w : World}

theorem channels_pos (hw : Lone capacity w) : 0 < w.channels.size := by
  rw [hw.channels]
  exact Nat.one_pos

/-- Events of tasks may come and go. -/
theorem withQueue (hw : Lone capacity w) {queue : Queue Event}
    (hq : ∀ event ∈ queue.toList, ∃ i, event = .resume i) :
    Lone capacity { w with queue := queue } :=
  ⟨hw.channels, hw.capacity, hw.bounded, hq, hw.asked⟩

/-- The pipe may change within its capacity. -/
theorem change (hw : Lone capacity w) (f : Pipe → Pipe)
    (hc : (f (w.channel 0).pipe).capacity = (w.channel 0).pipe.capacity)
    (hb : (f (w.channel 0).pipe).IsBounded) : Lone capacity (w.change 0 f) := by
  have hch := World.channel_change_self f hw.channels_pos
  refine ⟨by rw [World.size_change, hw.channels], ?_, by rw [hch]; exact hb, ?_, ?_⟩
  · rw [hch]
    exact hc.trans hw.capacity
  · intro event he
    rw [World.queue_change, List.mem_append, List.mem_map] at he
    rcases he with he | ⟨i, -, rfl⟩
    · exact hw.queue event he
    · exact ⟨i, rfl⟩
  · rw [World.asked_change, hw.asked]

/-- A task may wait. -/
theorem wait (hw : Lone capacity w) (task : Nat) : Lone capacity (w.wait 0 task) :=
  ⟨by rw [World.size_wait, hw.channels], by rw [World.pipe_wait, hw.capacity],
    by rw [World.pipe_wait]; exact hw.bounded, hw.queue, hw.asked⟩

/-- Bytes are put in within the capacity. -/
theorem put (hw : Lone capacity w) (bytes : List UInt8) : Lone capacity (w.put 0 bytes) :=
  hw.change _ rfl (hw.bounded.accept bytes)

/-- Bytes are taken out. -/
theorem take (hw : Lone capacity w) (size : Option Nat) : Lone capacity (w.take 0 size) :=
  hw.change _ (Pipe.capacity_deliver _ _) (hw.bounded.deliver size)

/-- The writing end is closed. -/
theorem closeWrite (hw : Lone capacity w) : Lone capacity (w.closeWrite 0) :=
  hw.change _ rfl hw.bounded.closeWrite

/-- The reading end is closed. -/
theorem closeRead (hw : Lone capacity w) : Lone capacity (w.closeRead 0) :=
  hw.change _ rfl (Pipe.isBounded_closeRead _)

/-- Whichever way an attempt to write goes, there is one pipe with the same capacity. -/
theorem sends (hw : Lone capacity w) {task : Nat} {bytes : List UInt8} {w' : World}
    {sent : World.Sent} (hs : World.Sends w task 0 bytes (w', sent)) : Lone capacity w' := by
  cases hs with
  | nothing => exact hw
  | refused _ _ => exact hw
  | full _ _ _ => exact hw.wait task
  | whole _ _ _ _ => exact hw.put bytes
  | part _ _ _ => exact (hw.put bytes).wait task

/-- So it is with an attempt to read. -/
theorem receives (hw : Lone capacity w) {task : Nat} {size : Option Nat} {w' : World}
    {got : Option (List UInt8)} (hs : World.Receives w task 0 size (w', got)) :
    Lone capacity w' := by
  cases hs with
  | empty _ => exact hw.wait task
  | closed _ => exact hw
  | taken _ _ => exact hw.take size

end Lone

/-- What every history keeps. -/
structure Sound (capacity : Nat) (h : History) : Prop where
  world : Lone capacity h.machine.world
  size : h.machine.tasks.size = h.calls.length
  alone : ∀ i < h.calls.length,
    (h.machine.task i).starter = none ∧ (h.machine.task i).cancelled = false
  /-- Nothing has been accepted from calls that are still to be made. -/
  later : ∀ i, h.calls.length ≤ i → h.accepted.bytesOf i = []
  stands : ∀ i call, h.calls[i]? = some call →
    Stands call (h.accepted.bytesOf i) (h.machine.task i).phase (h.machine.task i).started

theorem sound_start (capacity : Nat) : Sound capacity (.start capacity) where
  world :=
    { channels := rfl
      capacity := rfl
      bounded := Nat.zero_le _
      queue := by intro event he; cases he
      asked := rfl }
  size := rfl
  alone := by intro i hi; cases hi
  later := by intro i _; rfl
  stands := by intro i call hi; cases hi

namespace Sound

variable {capacity : Nat} {h : History}

/-- A turn of a sound history goes in one of the ways of `Turned`. -/
theorem turned (hs : Sound capacity h) (queue : Queue Event) (i : Nat) :
    Turned h queue i (h.turned i ((h.machine.withQueue queue).resume i)) := by
  rcases Nat.lt_or_ge i h.calls.length with hi | hi
  · obtain ⟨hst, hc⟩ := hs.alone i hi
    exact turned_of_stands hst hc rfl (hs.stands i _ (List.getElem?_eq_getElem hi))
  -- A number that belongs to no call stands for a task that has ended.
  · have hd : h.machine.task i = default := Machine.task_of_size_le (by rw [hs.size]; exact hi)
    have hp : (h.machine.task i).phase = .ended (.error .cancelled) := by rw [hd]; rfl
    have hr : (h.machine.withQueue queue).result? i = some (.error .cancelled) :=
      Machine.result?_eq_of_ended (m := h.machine.withQueue queue) hp
    rw [Machine.resume_of_result? hr, History.turned, hp]
    exact .idle (Machine.result?_eq_of_ended hp)

/-- A history grows by a call or by one of the ways of `Turned`. -/
theorem next_cases (hs : Sound capacity h) {h' : History} (hn : h.Next h') :
    (∃ call : PipeCall, call.IsOnPipe ∧ h' = h.made call) ∨
    ∃ i queue, h.machine.Picks (.resume i) queue ∧ Turned h queue i h' := by
  cases hn with
  | call hc => exact .inl ⟨_, hc, rfl⟩
  | @turn event queue hp =>
    obtain ⟨i, rfl⟩ := hs.world.queue event ((hp.mem_iff event).2 (.inl rfl))
    exact .inr ⟨i, queue, hp, hs.turned queue i⟩

/-- After a call has been made. -/
theorem call (hs : Sound capacity h) {call : PipeCall} (hc : call.IsOnPipe) :
    Sound capacity (h.made call) where
  world := by
    refine ⟨hs.world.channels, hs.world.capacity, hs.world.bounded, ?_, hs.world.asked⟩
    intro event he
    have hq : event ∈ h.machine.world.queue.toList ++ [.resume h.machine.tasks.size] := by
      rw [← Queue.toList_push]
      exact he
    rcases List.mem_append.1 hq with he | he
    · exact hs.world.queue event he
    · exact ⟨_, List.mem_singleton.1 he⟩
  size := by
    rw [History.machine_made, History.calls_made, Machine.size_addTask, List.length_append,
      List.length_singleton, hs.size]
  alone := by
    intro i hi
    rw [History.calls_made, List.length_append, List.length_singleton] at hi
    rw [History.machine_made]
    by_cases he : i = h.machine.tasks.size
    · subst he
      rw [Machine.task_addTask_self]
      exact ⟨rfl, rfl⟩
    · rw [Machine.task_addTask_of_ne _ he]
      exact hs.alone i (by have := hs.size; omega)
  later := by
    intro i hi
    rw [History.calls_made, List.length_append, List.length_singleton] at hi
    exact hs.later i (by omega)
  stands := by
    intro i c hi
    rw [History.calls_made] at hi
    rw [History.machine_made, History.accepted_made]
    by_cases he : i = h.calls.length
    -- Nothing is booked on numbers that are still to come, so the new call begins with nothing.
    · have hcc : c = call := by
        rw [he, List.getElem?_concat_length] at hi
        exact (Option.some.inj hi).symm
      have ht : (h.machine.addTask { phase := .active call.job }).task i =
          { phase := .active call.job } := by
        rw [he, ← hs.size]
        exact Machine.task_addTask_self _ _
      rw [hcc, ht, hs.later i (Nat.le_of_eq he.symm)]
      exact hc.stands
    · have hlt : i < h.calls.length := by
        have := (List.getElem?_eq_some_iff.1 hi).1
        rw [List.length_append, List.length_singleton] at this
        omega
      rw [List.getElem?_append_left hlt] at hi
      rw [Machine.task_addTask_of_ne _ (by rw [hs.size]; exact he)]
      exact hs.stands i c hi

/-- After a turn in which one call has come further. -/
theorem became (hs : Sound capacity h) {i : Nat} {queue : Queue Event} {phase : Phase PipeResult}
    {w : World} {piece out : List UInt8} (hw : Lone capacity w)
    (hr : h.machine.result? i = none)
    (hst : ∀ call, h.calls[i]? = some call →
      Stands call (h.accepted.bytesOf i ++ piece) phase true) :
    Sound capacity { h with
      machine := (h.machine.withQueue queue).became i phase w
      accepted := h.accepted ++ [(i, piece)]
      delivered := h.delivered ++ [(i, out)] } := by
  have hlt : i < h.machine.tasks.size := Machine.lt_size_of_result?_eq_none hr
  refine ⟨hw, by rw [Machine.size_became]; exact hs.size, ?_, ?_, ?_⟩
  · intro j hj
    by_cases he : j = i
    · subst he
      rw [Machine.task_became_self _ _ (m := h.machine.withQueue queue) hlt]
      exact hs.alone j hj
    · rw [Machine.task_became_of_ne _ _ he]
      exact hs.alone j hj
  · intro j hj
    -- A call still to be made is not the one that has had the turn.
    have hne : j ≠ i := by
      rintro rfl
      rw [hs.size] at hlt
      exact absurd hlt (Nat.not_lt.2 hj)
    rw [Pieces.bytesOf_append, hs.later j hj, Pieces.bytesOf_singleton_of_ne _ hne]
    rfl
  · intro j c hj
    by_cases he : j = i
    · subst he
      rw [Machine.task_became_self _ _ (m := h.machine.withQueue queue) hlt,
        Pieces.bytesOf_append, Pieces.bytesOf_singleton_self]
      exact hst c hj
    · rw [Machine.task_became_of_ne _ _ he, Pieces.bytesOf_append,
        Pieces.bytesOf_singleton_of_ne _ he, List.append_nil]
      exact hs.stands j c hj

end Sound

/-! ### How a call comes further -/

/-- The call of a task that is sending is a write of what it has sent and has still to send. -/
theorem Stands.of_send {call : PipeCall} {done rest : List UInt8} {started : Bool}
    (h : Stands call done (.active (.send 0 rest finished)) started) :
    call = .write (done ++ rest) := by
  cases h with
  | unwritten h _ => rw [h]

/-- A reader at work has got nothing yet. -/
theorem Stands.of_receive {call : PipeCall} {done : List UInt8} {size : Option Nat}
    {started : Bool}
    (h : Stands call done
      (.active (.receive 0 size fun bytes => .finish (.bytes bytes))) started) :
    call = .read size ∧ done = [] := by
  cases h with
  | unread => exact ⟨rfl, rfl⟩

/-- A call that is about to close the writing end. -/
theorem Stands.of_closeWrite {call : PipeCall} {done : List UInt8} {started : Bool}
    (h : Stands call done (.active (.closeWrite 0 (.finish .none))) started) :
    call = .closeWrite ∧ done = [] := by
  cases h with
  | writeOpen => exact ⟨rfl, rfl⟩

/-- A call that is about to close the reading end. -/
theorem Stands.of_closeRead {call : PipeCall} {done : List UInt8} {started : Bool}
    (h : Stands call done (.active (.closeRead 0 (.finish .none))) started) :
    call = .closeRead ∧ done = [] := by
  cases h with
  | readOpen => exact ⟨rfl, rfl⟩

/-- What a write has put in, if the rest is what comes after it. -/
theorem putIn_part (bytes : List UInt8) {n : Nat} (h : bytes.drop n ≠ []) :
    putIn (.active (.send 0 bytes finished)) (afterSending (.waiting (bytes.drop n))) =
      bytes.take n := by
  have hl : n < bytes.length := Nat.lt_of_not_le fun hn => h (List.drop_eq_nil_of_le hn)
  have hn : bytes.length - (bytes.drop n).length = n := by
    rw [List.length_drop]
    omega
  simp only [afterSending, putIn, hn]

/-- What has all been left has not been put in. -/
theorem putIn_none (bytes : List UInt8) :
    putIn (.active (.send 0 bytes finished)) (afterSending (.waiting bytes)) = [] := by
  simp [afterSending, putIn]

/-- After an attempt to write, the call stands where the bytes put in say. -/
theorem stands_sends {w w' : World} {i : Nat} {done rest : List UInt8} {sent : World.Sent}
    (hs : World.Sends w i 0 rest (w', sent)) :
    Stands (.write (done ++ rest))
      (done ++ putIn (.active (.send 0 rest finished)) (afterSending sent))
      (afterSending sent) true := by
  cases hs with
  | nothing => exact .written
  | refused hb _ =>
    refine .refused ?_ hb
    show done ++ [] ++ rest = done ++ rest
    rw [List.append_nil]
  | full hb _ _ =>
    rw [putIn_none, List.append_nil]
    exact .unwritten rfl fun _ => hb
  | whole _ _ _ _ => exact .written
  | part _ _ hd =>
    -- What has been put in and what is left make up what was to be sent.
    rw [putIn_part rest hd]
    refine .unwritten ?_ fun _ => hd
    rw [List.append_assoc, List.take_append_drop]

/-- After an attempt to read, the call has ended or waits. -/
theorem stands_receives {size : Option Nat} (got : Option (List UInt8)) :
    Stands (.read size) [] (afterReceiving size got) true := by
  cases got with
  | none => exact .unread
  | some bytes => exact .read

namespace Sound

variable {capacity : Nat} {h : History}

/-- **One turn keeps the books**: what it adds to what went in and came out is what it has changed in the pipe. -/
theorem of_turned (hs : Sound capacity h) {h' : History} {i : Nat} {queue : Queue Event}
    (hp : h.machine.Picks (.resume i) queue) (ht : Turned h queue i h') : Sound capacity h' := by
  have hw : Lone capacity (h.machine.withQueue queue).world :=
    hs.world.withQueue fun e he => hs.world.queue e ((hp.mem_iff e).2 (.inr he))
  -- What the task was at before its turn tells which call it is.
  have hst : ∀ {call : PipeCall} {phase : Phase PipeResult}, h.calls[i]? = some call →
      (h.machine.task i).phase = phase →
      Stands call (h.accepted.bytesOf i) phase (h.machine.task i).started := by
    rintro call _ hc rfl
    exact hs.stands i call hc
  cases ht with
  | idle hr =>
    refine ⟨hw, hs.size, hs.alone, ?_, ?_⟩
    · intro j hj
      rw [Pieces.bytesOf_append, hs.later j hj]
      exact Pieces.bytesOf_singleton_nil i j
    · intro j c hj
      rw [Pieces.bytesOf_append, Pieces.bytesOf_singleton_nil, List.append_nil]
      exact hs.stands j c hj
  | sends hph hsend =>
    refine hs.became (hw.sends hsend) (Machine.result?_eq_none_of_active hph) ?_
    intro call hc
    obtain rfl := (hst hc hph).of_send
    exact stands_sends hsend
  | @receives size w got hph hrec =>
    refine hs.became (hw.receives hrec) (Machine.result?_eq_none_of_active hph) ?_
    intro call hc
    obtain ⟨rfl, hd⟩ := (hst hc hph).of_receive
    rw [hd]
    exact stands_receives got
  | closesWrite hph =>
    refine hs.became hw.closeWrite (Machine.result?_eq_none_of_active hph) ?_
    intro call hc
    obtain ⟨rfl, hd⟩ := (hst hc hph).of_closeWrite
    rw [hd]
    exact .writeClosed
  | closesRead hph =>
    refine hs.became hw.closeRead (Machine.result?_eq_none_of_active hph) ?_
    intro call hc
    obtain ⟨rfl, hd⟩ := (hst hc hph).of_closeRead
    rw [hd]
    exact .readClosed

/-- So does each step, be it a turn or another call. -/
theorem next (hs : Sound capacity h) {h' : History} (hn : h.Next h') : Sound capacity h' := by
  rcases hs.next_cases hn with ⟨call, hc, rfl⟩ | ⟨i, queue, hp, ht⟩
  · exact hs.call hc
  · exact hs.of_turned hp ht

/-- So do any steps. -/
theorem continues (hs : Sound capacity h) {h' : History} (hc : h.Continues h') :
    Sound capacity h' := by
  induction hc with
  | refl => exact hs
  | tail _ hn ih => exact ih.next hn

end Sound

/-- **Every history keeps the books.** -/
theorem sound_of {capacity : Nat} {h : History} (hr : History.Of capacity h) : Sound capacity h :=
  (sound_start capacity).continues hr

/-! ## 5. Calls and turns

A history goes on with a call, or with a turn of the task that is next. -/

namespace History

variable {capacity : Nat} {h : History}

/-- A history with one call more. -/
theorem Of.made (hr : Of capacity h) {call : PipeCall} (hc : call.IsOnPipe) :
    Of capacity (h.made call) :=
  hr.tail (.call hc)

/-- The turn that the queue asks for is one of the steps. -/
theorem continues_stepped (h : History) : h.Continues h.stepped := by
  unfold stepped
  cases hn : h.machine.world.queue.next? with
  | none => exact .refl
  | some next => exact .single (.turn (Machine.picks_next hn))

/-- A history with one turn more, in the order of the queue. -/
theorem Of.stepped (hr : Of capacity h) : Of capacity h.stepped :=
  Relation.ReflTransGen.trans hr h.continues_stepped

end History

end PipeCall

end Shell
