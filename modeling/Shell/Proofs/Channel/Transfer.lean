/-
Writing to a pipe and reading from it, case by case.

`send` and `receive` are the only operations that move bytes. Each is described once, by
an inductive relation with one rule for every way it can go, guards included. A proof about
a write or a read takes the cases of that relation and does not open the operation again.

The one thing to check is `part`: a write that does not fit puts in what fits, wakes those
who wait, and only then begins to wait itself, in a pipe that is now full.
-/
import Shell.Proofs.Channel.Basic

set_option autoImplicit false

namespace Shell.World

/-! ## Changing a pipe

Everything that happens to a pipe is a change of it followed by waking those who wait for
it. -/

/-- The world with a pipe changed and those woken who wait for it. -/
def change (w : World) (index : Nat) (f : Pipe → Pipe) : World := (w.modifyPipe index f).wake index

/-- The world after a pipe has taken in as much as it has room for. -/
def put (w : World) (index : Nat) (bytes : List UInt8) : World :=
  w.change index fun p => (p.accept bytes).1

/-- The world after a pipe has given bytes. -/
def take (w : World) (index : Nat) (size : Option Nat) : World :=
  w.change index fun p => (p.deliver size).2

section

variable {w : World} {index : Nat} (f : Pipe → Pipe)

/-- A change makes no pipe. -/
@[simp] theorem size_change : (w.change index f).channels.size = w.channels.size := by
  rw [change, size_wake, size_modifyPipe]

/-- It leaves the other pipes alone. -/
theorem channel_change_of_ne {i : Nat} (h : i ≠ index) :
    (w.change index f).channel i = w.channel i := by
  rw [change, channel_wake_of_ne h, channel_modifyPipe_of_ne f h]

/-- The pipe is changed, and whoever waited there waits no longer. -/
theorem channel_change_self (h : index < w.channels.size) :
    (w.change index f).channel index = { pipe := f (w.channel index).pipe, waiting := [] } := by
  rw [change, channel_wake_self, channel_modifyPipe_self f h]

/-- So the pipe in it is what it has been changed to. -/
theorem pipe_change_self (h : index < w.channels.size) :
    ((w.change index f).channel index).pipe = f (w.channel index).pipe := by
  rw [channel_change_self f h]

/-- Those who waited for the pipe come to the end of the queue, in their order. -/
theorem queue_change :
    (w.change index f).queue.toList =
      w.queue.toList ++ (w.channel index).waiting.map Event.resume := by
  rw [change, queue_wake, waiting_modifyPipe]
  rfl

/-- The inputs are as they were. -/
theorem inputs_change : (w.change index f).inputs = w.inputs := by
  unfold change wake
  split <;> rfl

/-- So is what the host has been asked. -/
theorem asked_change : (w.change index f).asked = w.asked := by
  unfold change wake
  split <;> rfl

/-- So are the sinks. -/
theorem sinks_change : (w.change index f).sinks = w.sinks := by
  unfold change wake
  split <;> rfl

/-- So is the count of commands. -/
theorem count_change : (w.change index f).count = w.count := by
  unfold change wake
  split <;> rfl

end

/-! ## Writing -/

/-- The ways a write of bytes by a task can go. -/
inductive Sends (w : World) (task index : Nat) : List UInt8 → World × Sent → Prop where
  /-- Nothing is no write at all. -/
  | nothing : Sends w task index [] (w, .all)
  | refused {bytes : List UInt8} {abort : Abort} (hb : bytes ≠ [])
      (hr : (w.channel index).pipe.refusal? = some abort) :
      Sends w task index bytes (w, .refused abort)
  | full {bytes : List UInt8} (hb : bytes ≠ []) (ho : (w.channel index).pipe.IsOpen)
      (hf : (w.channel index).pipe.room = 0) :
      Sends w task index bytes (w.wait index task, .waiting bytes)
  | whole {bytes : List UInt8} (hb : bytes ≠ []) (ho : (w.channel index).pipe.IsOpen)
      (hr : (w.channel index).pipe.room ≠ 0)
      (hd : bytes.drop (w.channel index).pipe.room = []) :
      Sends w task index bytes (w.put index bytes, .all)
  | part {bytes : List UInt8} (ho : (w.channel index).pipe.IsOpen)
      (hr : (w.channel index).pipe.room ≠ 0)
      (hd : bytes.drop (w.channel index).pipe.room ≠ []) :
      Sends w task index bytes
        ((w.put index bytes).wait index task, .waiting (bytes.drop (w.channel index).pipe.room))

theorem sends (w : World) (task index : Nat) (bytes : List UInt8) :
    Sends w task index bytes (w.send task index bytes) := by
  -- The guards of `send` in their order: nothing to write, a closed end, no room.
  by_cases hb : bytes = []
  · subst hb
    exact .nothing
  have hne : bytes.isEmpty = false := by simpa using hb
  cases hr : (w.channel index).pipe.refusal? with
  | some abort =>
    have h : w.send task index bytes = (w, .refused abort) := by
      simp [send, hne, hr]
    rw [h]
    exact .refused hb hr
  | none =>
    have ho := (Pipe.refusal?_eq_none_iff _).1 hr
    by_cases hf : (w.channel index).pipe.room = 0
    · have h : w.send task index bytes = (w.wait index task, .waiting bytes) := by
        simp [send, hne, hr, hf]
      rw [h]
      exact .full hb ho hf
    · by_cases hd : bytes.drop (w.channel index).pipe.room = []
      · have h : w.send task index bytes = (w.put index bytes, .all) := by
          simp [send, hne, hr, hf, hd, put, change]
        rw [h]
        exact .whole hb ho hf hd
      · have hd' : (bytes.drop (w.channel index).pipe.room).isEmpty = false := by simpa using hd
        have h : w.send task index bytes =
            ((w.put index bytes).wait index task,
              .waiting (bytes.drop (w.channel index).pipe.room)) := by
          simp only [send, hne, hr, hf, hd', put, change, Bool.false_eq_true, if_false]
        rw [h]
        exact .part ho hf hd

/-- A pipe that is closed at an end takes no bytes. -/
theorem send_of_not_isOpen {w : World} {index : Nat} (h : ¬ (w.channel index).pipe.IsOpen)
    (task : Nat) {bytes : List UInt8} (hb : bytes ≠ []) :
    ∃ abort, w.send task index bytes = (w, .refused abort) := by
  have hs := w.sends task index bytes
  generalize w.send task index bytes = r at hs ⊢
  cases hs with
  | nothing => exact absurd rfl hb
  | refused _ _ => exact ⟨_, rfl⟩
  | full _ ho _ => exact absurd ho h
  | whole _ ho _ _ => exact absurd ho h
  | part ho _ _ => exact absurd ho h

/-! ## Reading -/

/-- The ways a read of bytes by a task can go. -/
inductive Receives (w : World) (task index : Nat) (size : Option Nat) :
    World × Option (List UInt8) → Prop where
  | empty (hw : (w.channel index).pipe.isWaiting = true) :
      Receives w task index size (w.wait index task, none)
  /-- After the read end was closed there is nothing to read. -/
  | closed (hr : (w.channel index).pipe.readClosed = true) :
      Receives w task index size (w, some [])
  | taken (hw : (w.channel index).pipe.isWaiting = false)
      (hr : (w.channel index).pipe.readClosed = false) :
      Receives w task index size
        (w.take index size, some ((w.channel index).pipe.deliver size).1)

theorem receives (w : World) (task index : Nat) (size : Option Nat) :
    Receives w task index size (w.receive task index size) := by
  cases hw : (w.channel index).pipe.isWaiting with
  | true =>
    have h : w.receive task index size = (w.wait index task, none) := by simp [receive, hw]
    rw [h]
    exact .empty hw
  | false =>
    cases hr : (w.channel index).pipe.readClosed with
    | true =>
      have h : w.receive task index size = (w, some []) := by simp [receive, hw, hr]
      rw [h]
      exact .closed hr
    | false =>
      have h : w.receive task index size =
          (w.take index size, some ((w.channel index).pipe.deliver size).1) := by
        simp [receive, hw, hr, take, change]
      rw [h]
      exact .taken hw hr

/-- A pipe that is closed for reading gives nothing. -/
theorem receive_of_readClosed {w : World} {index : Nat}
    (h : (w.channel index).pipe.readClosed = true) (task : Nat) (size : Option Nat) :
    w.receive task index size = (w, some []) := by
  have hr := w.receives task index size
  generalize w.receive task index size = r at hr ⊢
  cases hr with
  | empty hw => exact absurd h ((Pipe.isWaiting_iff _).1 hw).2.not_readClosed
  | closed _ => rfl
  | taken _ hf => exact absurd h (Bool.eq_false_iff.1 hf)

end Shell.World
