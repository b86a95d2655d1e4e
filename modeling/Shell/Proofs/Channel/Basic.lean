/-
The channels of a world, one equation for each operation on them.

A channel is a pipe and the tasks that wait for it to change. Three kinds of fact are
needed of it again and again: what is in the buffer as a list of bytes, whether an end is
closed, and who waits. Each operation gets its equations here, for the channel it is about
and for all others, and later files do not open the operations any more.

A number without a channel stands for a channel that nothing can be done to. So most
equations need no bound: what is added to such a channel is lost, and nobody waits for it.
-/
import Shell.World

set_option autoImplicit false

namespace Shell

namespace Pipe

/-! ## Pipes -/

/-- Both ends are open. -/
structure IsOpen (pipe : Pipe) : Prop where
  write : pipe.writeClosed = false
  read : pipe.readClosed = false

/-- The writing end of an open pipe is not closed. -/
theorem IsOpen.not_writeClosed {pipe : Pipe} (h : pipe.IsOpen) : ¬ pipe.writeClosed = true :=
  Bool.eq_false_iff.1 h.write

/-- Nor is its reading end. -/
theorem IsOpen.not_readClosed {pipe : Pipe} (h : pipe.IsOpen) : ¬ pipe.readClosed = true :=
  Bool.eq_false_iff.1 h.read

/-- There is no room for another byte. -/
def IsFull (pipe : Pipe) : Prop := pipe.buffer.size = pipe.capacity

/-- There is nothing to read. -/
def IsEmpty (pipe : Pipe) : Prop := pipe.buffer.size = 0

/-- No more bytes are buffered than the capacity allows. -/
def IsBounded (pipe : Pipe) : Prop := pipe.buffer.size ≤ pipe.capacity

/-- A pipe that is open refuses no writer. -/
theorem refusal?_eq_none_iff (pipe : Pipe) : pipe.refusal? = none ↔ pipe.IsOpen := by
  constructor
  · intro h
    unfold refusal? at h
    split at h
    · cases h
    · next hr =>
      split at h
      · cases h
      · next hw => exact ⟨by simpa using hw, by simpa using hr⟩
  · rintro ⟨hw, hr⟩
    simp [refusal?, hw, hr]

/-- A reader waits at a pipe that is empty and open. -/
theorem isWaiting_iff (pipe : Pipe) : pipe.isWaiting = true ↔ pipe.IsEmpty ∧ pipe.IsOpen := by
  constructor
  · intro h
    simp only [isWaiting, Bool.and_eq_true, Bool.not_eq_true', Array.isEmpty_iff] at h
    exact ⟨by simp [IsEmpty, h.1.1], h.1.2, h.2⟩
  · rintro ⟨he, hw, hr⟩
    have hb : pipe.buffer = #[] := Array.eq_empty_of_size_eq_zero he
    simp [isWaiting, hb, hw, hr]

/-- A bounded pipe without room is full. -/
theorem IsBounded.isFull {pipe : Pipe} (hb : pipe.IsBounded) (h : pipe.room = 0) : pipe.IsFull := by
  unfold IsBounded at hb
  unfold IsFull
  unfold room at h
  omega

/-- With a capacity a pipe is not full and empty at once. -/
theorem IsFull.not_isEmpty {pipe : Pipe} (hf : pipe.IsFull) (hc : 1 ≤ pipe.capacity) :
    ¬ pipe.IsEmpty := by
  intro he
  unfold IsFull at hf
  unfold IsEmpty at he
  omega

/-! ### Taking in bytes -/

/-- Bytes are pushed behind those that are there. -/
theorem toList_foldl_push (bytes : List UInt8) (buffer : Array UInt8) :
    (bytes.foldl Array.push buffer).toList = buffer.toList ++ bytes := by
  induction bytes generalizing buffer with
  | nil => simp
  | cons b bytes ih =>
    rw [List.foldl_cons, ih, Array.toList_push, List.append_assoc, List.singleton_append]

/-- **Taking in** as many bytes as there is room for. -/
theorem toList_accept (pipe : Pipe) (bytes : List UInt8) :
    (pipe.accept bytes).1.buffer.toList = pipe.buffer.toList ++ bytes.take pipe.room :=
  toList_foldl_push _ _

@[simp] theorem capacity_accept (pipe : Pipe) (bytes : List UInt8) :
    (pipe.accept bytes).1.capacity = pipe.capacity := rfl

@[simp] theorem writeClosed_accept (pipe : Pipe) (bytes : List UInt8) :
    (pipe.accept bytes).1.writeClosed = pipe.writeClosed := rfl

@[simp] theorem readClosed_accept (pipe : Pipe) (bytes : List UInt8) :
    (pipe.accept bytes).1.readClosed = pipe.readClosed := rfl

/-- The buffer grows by the bytes it takes in. -/
theorem size_accept (pipe : Pipe) (bytes : List UInt8) :
    (pipe.accept bytes).1.buffer.size = pipe.buffer.size + min pipe.room bytes.length := by
  rw [← Array.length_toList, toList_accept, List.length_append, List.length_take,
    Array.length_toList]

/-- No more are in the buffer than there is room for. -/
theorem IsBounded.accept {pipe : Pipe} (hb : pipe.IsBounded) (bytes : List UInt8) :
    (pipe.accept bytes).1.IsBounded := by
  unfold IsBounded at hb ⊢
  rw [size_accept, capacity_accept, room]
  omega

/-- If not all of the bytes fit then the pipe is full. -/
theorem IsBounded.isFull_accept {pipe : Pipe} (hb : pipe.IsBounded) {bytes : List UInt8}
    (h : bytes.drop pipe.room ≠ []) : (pipe.accept bytes).1.IsFull := by
  have hl : pipe.room < bytes.length :=
    Nat.lt_of_not_le fun hn => h (List.drop_eq_nil_of_le hn)
  unfold IsBounded at hb
  unfold room at hl
  rw [IsFull, size_accept, capacity_accept, room]
  omega

/-! ### Giving bytes -/

/-- What is given was at the front of the buffer, and the rest stays in it. -/
theorem deliver_append (pipe : Pipe) (size : Option Nat) :
    (pipe.deliver size).1 ++ (pipe.deliver size).2.buffer.toList = pipe.buffer.toList := by
  unfold deliver
  cases size with
  | none => simp
  | some n =>
    by_cases h : n < pipe.buffer.size
    · simp only [if_pos h, Array.toList_extract, List.extract_eq_take_drop]
      rw [List.take_of_length_le (l := pipe.buffer.toList.drop n) (by simp),
        List.take_append_drop]
    · simp [if_neg h]

@[simp] theorem capacity_deliver (pipe : Pipe) (size : Option Nat) :
    (pipe.deliver size).2.capacity = pipe.capacity := by
  unfold deliver
  split
  · split <;> rfl
  · rfl

@[simp] theorem writeClosed_deliver (pipe : Pipe) (size : Option Nat) :
    (pipe.deliver size).2.writeClosed = pipe.writeClosed := by
  unfold deliver
  split
  · split <;> rfl
  · rfl

@[simp] theorem readClosed_deliver (pipe : Pipe) (size : Option Nat) :
    (pipe.deliver size).2.readClosed = pipe.readClosed := by
  unfold deliver
  split
  · split <;> rfl
  · rfl

/-- Giving bytes does not fill the buffer. -/
theorem size_deliver_le (pipe : Pipe) (size : Option Nat) :
    (pipe.deliver size).2.buffer.size ≤ pipe.buffer.size := by
  have h := congrArg List.length (pipe.deliver_append size)
  rw [List.length_append, Array.length_toList, Array.length_toList] at h
  omega

/-- So it stays within its bound. -/
theorem IsBounded.deliver {pipe : Pipe} (hb : pipe.IsBounded) (size : Option Nat) :
    (pipe.deliver size).2.IsBounded := by
  unfold IsBounded at hb ⊢
  rw [capacity_deliver]
  exact Nat.le_trans (pipe.size_deliver_le size) hb

/-! ### Closing -/

/-- Closing the writing end leaves the buffer as it is. -/
theorem IsBounded.closeWrite {pipe : Pipe} (hb : pipe.IsBounded) : pipe.closeWrite.IsBounded := hb

/-- Closing the reading end empties the buffer. -/
theorem isBounded_closeRead (pipe : Pipe) : pipe.closeRead.IsBounded := by
  simp [IsBounded, Pipe.closeRead]

end Pipe

namespace World

/-! ## Channels -/

/-- Nobody waits at a number without a channel, and nothing is in it. -/
theorem channel_of_size_le {w : World} {index : Nat} (h : w.channels.size ≤ index) :
    w.channel index = default := by
  unfold channel
  rw [Array.getD_eq_getD_getElem?, Array.getElem?_eq_none h]
  rfl

/-- The channel of a number that is in use. -/
theorem channel_eq_getElem {w : World} {index : Nat} (h : index < w.channels.size) :
    w.channel index = w.channels[index] := by
  unfold channel
  rw [Array.getD_eq_getD_getElem?, Array.getElem?_eq_getElem h]
  rfl

/-! ### Changing a pipe -/

@[simp] theorem size_modifyPipe (w : World) (index : Nat) (f : Pipe → Pipe) :
    (w.modifyPipe index f).channels.size = w.channels.size := by
  simp [modifyPipe]

/-- The other channels stay as they are. -/
theorem channel_modifyPipe_of_ne {w : World} {index i : Nat} (f : Pipe → Pipe) (h : i ≠ index) :
    (w.modifyPipe index f).channel i = w.channel i := by
  unfold channel modifyPipe
  rw [Array.getD_eq_getD_getElem?, Array.getD_eq_getD_getElem?, Array.getElem?_modify,
    if_neg (Ne.symm h)]

/-- The channel itself has its pipe changed. -/
theorem channel_modifyPipe_self {w : World} {index : Nat} (f : Pipe → Pipe)
    (h : index < w.channels.size) :
    (w.modifyPipe index f).channel index =
      { w.channel index with pipe := f (w.channel index).pipe } := by
  unfold channel modifyPipe
  rw [Array.getD_eq_getD_getElem?, Array.getD_eq_getD_getElem?, Array.getElem?_modify,
    if_pos rfl, Array.getElem?_eq_getElem h]
  rfl

/-- Who waits does not depend on the pipe. -/
theorem waiting_modifyPipe (w : World) (index : Nat) (f : Pipe → Pipe) (i : Nat) :
    ((w.modifyPipe index f).channel i).waiting = (w.channel i).waiting := by
  by_cases hi : i = index
  · subst hi
    rcases Nat.lt_or_ge i w.channels.size with h | h
    · rw [channel_modifyPipe_self f h]
    · rw [channel_of_size_le h, channel_of_size_le (by simpa using h)]
  · rw [channel_modifyPipe_of_ne f hi]

/-! ### Waiting and waking -/

@[simp] theorem size_wait (w : World) (index task : Nat) :
    (w.wait index task).channels.size = w.channels.size := by
  simp [wait]

/-- Nobody waits at the other channels on that account. -/
theorem channel_wait_of_ne {w : World} {index i : Nat} (task : Nat) (h : i ≠ index) :
    (w.wait index task).channel i = w.channel i := by
  unfold channel wait
  rw [Array.getD_eq_getD_getElem?, Array.getD_eq_getD_getElem?, Array.getElem?_modify,
    if_neg (Ne.symm h)]

/-- A task that waits is the last of those that do. -/
theorem channel_wait_self {w : World} {index : Nat} (task : Nat) (h : index < w.channels.size) :
    (w.wait index task).channel index =
      { w.channel index with waiting := (w.channel index).waiting ++ [task] } := by
  unfold channel wait
  rw [Array.getD_eq_getD_getElem?, Array.getD_eq_getD_getElem?, Array.getElem?_modify,
    if_pos rfl, Array.getElem?_eq_getElem h]
  rfl

/-- A task that waits for a channel is among those that do. -/
theorem mem_wait {w : World} {index : Nat} (task : Nat) (h : index < w.channels.size) :
    task ∈ ((w.wait index task).channel index).waiting := by
  rw [channel_wait_self task h]
  exact List.mem_append_right _ (List.mem_singleton.2 rfl)

@[simp] theorem pipe_wait (w : World) (index task i : Nat) :
    ((w.wait index task).channel i).pipe = (w.channel i).pipe := by
  by_cases hi : i = index
  · subst hi
    rcases Nat.lt_or_ge i w.channels.size with h | h
    · rw [channel_wait_self task h]
    · rw [channel_of_size_le h, channel_of_size_le (by simpa using h)]
  · rw [channel_wait_of_ne task hi]

@[simp] theorem size_wake (w : World) (index : Nat) :
    (w.wake index).channels.size = w.channels.size := by
  unfold wake
  split
  · rfl
  · simp

/-- Who waits at the other channels goes on waiting. -/
theorem channel_wake_of_ne {w : World} {index i : Nat} (h : i ≠ index) :
    (w.wake index).channel i = w.channel i := by
  unfold wake
  split
  · rfl
  · unfold channel
    rw [Array.getD_eq_getD_getElem?, Array.getD_eq_getD_getElem?, Array.getElem?_setIfInBounds,
      if_neg (Ne.symm h)]

/-- Nobody waits at a channel that has been woken. -/
theorem channel_wake_self (w : World) (index : Nat) :
    (w.wake index).channel index = { w.channel index with waiting := [] } := by
  rcases Nat.lt_or_ge index w.channels.size with h | h
  · unfold wake
    rw [Array.getElem?_eq_getElem h]
    unfold channel
    simp [Array.getD_eq_getD_getElem?, h]
  · rw [channel_of_size_le h, channel_of_size_le (by simpa using h)]
    rfl

/-- Those who wait for a channel come to the end of the queue, in their order. -/
theorem queue_wake (w : World) (index : Nat) :
    (w.wake index).queue.toList =
      w.queue.toList ++ (w.channel index).waiting.map Event.resume := by
  unfold wake
  rcases Nat.lt_or_ge index w.channels.size with h | h
  · rw [Array.getElem?_eq_getElem h, channel_eq_getElem h]
    exact Queue.toList_pushAll _ _
  · rw [Array.getElem?_eq_none h, channel_of_size_le h]
    exact (List.append_nil _).symm

end World

end Shell
