/-
What a task does to the world between two waits.

A task moves bytes, reads its input, counts commands and writes to sinks. `Works` says what all
of this has in common: no end of a pipe is closed, nothing new is made, an input keeps its
supply, and whoever waited for a pipe that is no longer as it was has a turn to come. It is
reflexive and transitive, so it is enough to prove it of each operation once.

Waiting is left out on purpose. A task that waits does so as the last thing in its turn, and
whether it is right to wait is a question about the world just before.
-/
import Shell.Proofs.Channel.Transfer

set_option autoImplicit false

namespace Shell

/-! ## 1. Supplies

An input is supplied by a pipe, by the host or by a text, and this never changes. -/

/-- Where the text of an input comes from, without what changes as it is read. -/
inductive Supply where
  | text
  | host
  | pipe (index : Nat)
  deriving DecidableEq, Repr

/-- What an input is supplied by. -/
def Input.supply (input : Input) : Supply :=
  match input.source with
  | .text _ => .text
  | .host _ _ => .host
  | .pipe index _ _ => .pipe index

/-- The pipe of an input is the one that supplies it. -/
theorem Input.pipe?_eq_some_iff (input : Input) (index : Nat) :
    input.pipe? = some index ↔ input.supply = .pipe index := by
  unfold pipe? supply
  cases input.source <;> simp

namespace World

/-- A number without an input stands for an empty text. -/
theorem input_of_size_le {w : World} {index : Nat} (h : w.inputs.size ≤ index) :
    w.input index = default := by
  unfold World.input
  rw [Array.getD_eq_getD_getElem?, Array.getElem?_eq_none h]
  rfl

/-- An input that has been set is there. -/
theorem input_setInput_self {w : World} {index : Nat} (input : Input)
    (h : index < w.inputs.size) : (w.setInput index input).input index = input := by
  simp only [World.input, setInput, Array.getD_eq_getD_getElem?]
  rw [Array.getElem?_setIfInBounds, if_pos rfl, if_pos h]
  rfl

/-- The other inputs are as they were. -/
theorem input_setInput_of_ne {w : World} {index i : Nat} (input : Input) (h : i ≠ index) :
    (w.setInput index input).input i = w.input i := by
  simp only [World.input, setInput, Array.getD_eq_getD_getElem?]
  rw [Array.getElem?_setIfInBounds, if_neg (Ne.symm h)]

/-- Nothing is set at a number without an input. -/
theorem setInput_of_size_le {w : World} {index : Nat} (input : Input)
    (h : w.inputs.size ≤ index) : w.setInput index input = w := by
  unfold setInput
  rw [Array.setIfInBounds_eq_of_size_le h]

/-- There are as many inputs as before. -/
@[simp] theorem size_setInput (w : World) (index : Nat) (input : Input) :
    (w.setInput index input).inputs.size = w.inputs.size := by
  simp [setInput]

/-- Nothing changes at a number without a channel. -/
theorem change_of_size_le {w : World} {index : Nat} (f : Pipe → Pipe)
    (h : w.channels.size ≤ index) : w.change index f = w := by
  have hm : w.modifyPipe index f = w := by
    unfold modifyPipe
    congr 1
    ext i hi
    · simp
    · rw [Array.getElem_modify, if_neg]
      rintro rfl
      simp only [Array.size_modify] at hi
      omega
  rw [change, hm, wake, Array.getElem?_eq_none h]

/-! ### A new pipe -/

/-- A new pipe changes no other. -/
theorem channel_addPipe_of_lt {w : World} {c : Nat} (capacity : Nat) (h : c < w.channels.size) :
    (w.addPipe capacity).channel c = w.channel c := by
  simp only [channel, addPipe, Array.getD_eq_getD_getElem?]
  rw [Array.getElem?_push_lt h, Array.getElem?_eq_getElem h]

/-- It is empty, and nobody waits at it. -/
theorem channel_addPipe_self (w : World) (capacity : Nat) :
    (w.addPipe capacity).channel w.channels.size = { pipe := { capacity := capacity } } := by
  simp only [channel, addPipe, Array.getD_eq_getD_getElem?]
  rw [Array.getElem?_push_size]
  rfl

/-- It changes none of the inputs. -/
theorem input_addPipe_of_lt {w : World} {i : Nat} (capacity : Nat) (h : i < w.inputs.size) :
    (w.addPipe capacity).input i = w.input i := by
  simp only [World.input, addPipe, Array.getD_eq_getD_getElem?]
  rw [Array.getElem?_push_lt h, Array.getElem?_eq_getElem h]

/-- There is an input for it. -/
theorem input_addPipe_self (w : World) (capacity : Nat) :
    (w.addPipe capacity).input w.inputs.size = .ofPipe w.channels.size := by
  simp only [World.input, addPipe, Array.getD_eq_getD_getElem?]
  rw [Array.getElem?_push_size]
  rfl

/-- It is one more pipe. -/
@[simp] theorem size_channels_addPipe (w : World) (capacity : Nat) :
    (w.addPipe capacity).channels.size = w.channels.size + 1 := Array.size_push ..

/-- And one more input. -/
@[simp] theorem size_inputs_addPipe (w : World) (capacity : Nat) :
    (w.addPipe capacity).inputs.size = w.inputs.size + 1 := Array.size_push ..

/-! ## 2. Work

What tasks never do is told by two relations. They make no pipes and close no ends, and change no supply (`Alike`).
And while they put bytes in and take them out, nobody is forgotten who waits: a pipe that has changed has no
waiters, and who waits no longer has a turn to come (`Works`). -/

/-- Two worlds with the same pipes and inputs, up to what is in them. -/
structure Alike (w w' : World) : Prop where
  channels : w'.channels.size = w.channels.size
  inputs : w'.inputs.size = w.inputs.size
  supply : ∀ i, (w'.input i).supply = (w.input i).supply
  capacity : ∀ c, (w'.channel c).pipe.capacity = (w.channel c).pipe.capacity
  writeClosed : ∀ c, (w'.channel c).pipe.writeClosed = (w.channel c).pipe.writeClosed
  readClosed : ∀ c, (w'.channel c).pipe.readClosed = (w.channel c).pipe.readClosed
  bounded : ∀ c, (w.channel c).pipe.IsBounded → (w'.channel c).pipe.IsBounded

/-- The second world comes from the first by work without waiting. -/
structure Works (w w' : World) : Prop extends Alike w w' where
  asked : w'.asked = w.asked
  /-- Who still waits, waits for a pipe that is as it was. -/
  waiting : ∀ c, ∀ j ∈ (w'.channel c).waiting,
    j ∈ (w.channel c).waiting ∧ (w'.channel c).pipe = (w.channel c).pipe
  /-- Who waits no longer has a turn to come. -/
  woken : ∀ c, ∀ j ∈ (w.channel c).waiting,
    j ∈ (w'.channel c).waiting ∨ .resume j ∈ w'.queue.toList
  queue : ∃ tasks : List Nat, w'.queue.toList = w.queue.toList ++ tasks.map .resume
  count : w.count ≤ w'.count

namespace Alike

variable {w w' w'' : World}

theorem trans (h : w.Alike w') (h' : w'.Alike w'') : w.Alike w'' where
  channels := h'.channels.trans h.channels
  inputs := h'.inputs.trans h.inputs
  supply := fun i => (h'.supply i).trans (h.supply i)
  capacity := fun c => (h'.capacity c).trans (h.capacity c)
  writeClosed := fun c => (h'.writeClosed c).trans (h.writeClosed c)
  readClosed := fun c => (h'.readClosed c).trans (h.readClosed c)
  bounded := fun c hb => h'.bounded c (h.bounded c hb)

/-- Worlds that are alike have the same pipes open. -/
theorem isOpen_iff (h : w.Alike w') (c : Nat) :
    (w'.channel c).pipe.IsOpen ↔ (w.channel c).pipe.IsOpen := by
  constructor
  · rintro ⟨hw, hr⟩
    exact ⟨(h.writeClosed c).symm.trans hw, (h.readClosed c).symm.trans hr⟩
  · rintro ⟨hw, hr⟩
    exact ⟨(h.writeClosed c).trans hw, (h.readClosed c).trans hr⟩

end Alike

/-- Pipes and supplies are all that matters. -/
theorem alike_of_pipes {w w' : World} (hs : w'.channels.size = w.channels.size)
    (hi : w'.inputs.size = w.inputs.size) (hp : ∀ c, (w'.channel c).pipe = (w.channel c).pipe)
    (hu : ∀ i, (w'.input i).supply = (w.input i).supply) : w.Alike w' where
  channels := hs
  inputs := hi
  supply := hu
  capacity := fun c => congrArg Pipe.capacity (hp c)
  writeClosed := fun c => congrArg Pipe.writeClosed (hp c)
  readClosed := fun c => congrArg Pipe.readClosed (hp c)
  bounded := by
    intro c hb
    rw [hp c]
    exact hb

/-- A world in which somebody waits is alike. -/
theorem alike_wait (w : World) (index task : Nat) : w.Alike (w.wait index task) :=
  alike_of_pipes (size_wait w index task) rfl (pipe_wait w index task) fun _ => rfl

/-- Neither a pipe nor an input is touched. -/
theorem alike_aside {w w' : World} (hc : w'.channels = w.channels) (hi : w'.inputs = w.inputs) :
    w.Alike w' := by
  refine alike_of_pipes (congrArg Array.size hc) (congrArg Array.size hi) (fun c => ?_)
    fun i => ?_
  · rw [channel, hc]
    rfl
  · rw [World.input, hi]
    rfl

namespace Works

variable {w w' w'' : World}

/-- Doing nothing is work. -/
theorem refl (w : World) : w.Works w where
  toAlike := alike_aside rfl rfl
  asked := rfl
  waiting := fun _ _ hj => ⟨hj, rfl⟩
  woken := fun _ _ hj => .inl hj
  queue := ⟨[], (List.append_nil _).symm⟩
  count := Nat.le_refl _

/-- The events of the queue stay in it. -/
theorem mem_queue (h : w.Works w') {event : Event} (he : event ∈ w.queue.toList) :
    event ∈ w'.queue.toList := by
  obtain ⟨tasks, hq⟩ := h.queue
  rw [hq]
  exact List.mem_append_left _ he

/-- So is doing one thing after the other. -/
theorem trans (h : w.Works w') (h' : w'.Works w'') : w.Works w'' where
  toAlike := h.toAlike.trans h'.toAlike
  asked := h'.asked.trans h.asked
  waiting := by
    intro c j hj
    obtain ⟨hj', hp'⟩ := h'.waiting c j hj
    obtain ⟨hj, hp⟩ := h.waiting c j hj'
    exact ⟨hj, hp'.trans hp⟩
  woken := by
    intro c j hj
    rcases h.woken c j hj with hj | he
    · exact h'.woken c j hj
    · exact .inr (h'.mem_queue he)
  queue := by
    obtain ⟨tasks, hq⟩ := h.queue
    obtain ⟨tasks', hq'⟩ := h'.queue
    refine ⟨tasks ++ tasks', ?_⟩
    rw [hq', hq, List.map_append, List.append_assoc]
  count := Nat.le_trans h.count h'.count

end Works

/-! ## 3. The operations that are work

Each basic operation is work, by the fields of the relation. -/

variable {w : World}

/-- Only the count and the sinks are touched. -/
theorem works_aside (w : World) {count : Nat} (h : w.count ≤ count) (sinks : Array (List String)) :
    w.Works { w with count := count, sinks := sinks } where
  toAlike := alike_aside rfl rfl
  asked := rfl
  waiting := fun _ _ hj => ⟨hj, rfl⟩
  woken := fun _ _ hj => .inl hj
  queue := ⟨[], (List.append_nil _).symm⟩
  count := h

/-- Putting an input back with the same supply is work. -/
theorem works_setInput (w : World) {index : Nat} {input : Input}
    (h : input.supply = (w.input index).supply) : w.Works (w.setInput index input) where
  toAlike := by
    refine alike_of_pipes rfl (size_setInput w index input) (fun _ => rfl) fun i => ?_
    by_cases hi : i = index
    · subst hi
      rcases Nat.lt_or_ge i w.inputs.size with hlt | hge
      · rw [input_setInput_self input hlt, h]
      · rw [setInput_of_size_le input hge]
    · rw [input_setInput_of_ne input hi]
  asked := rfl
  waiting := fun _ _ hj => ⟨hj, rfl⟩
  woken := fun _ _ hj => .inl hj
  queue := ⟨[], (List.append_nil _).symm⟩
  count := Nat.le_refl _

/-- A change of a pipe that closes no end and keeps it bounded. -/
theorem works_change (w : World) (index : Nat) (f : Pipe → Pipe)
    (hc : ∀ p, (f p).capacity = p.capacity) (hw : ∀ p, (f p).writeClosed = p.writeClosed)
    (hr : ∀ p, (f p).readClosed = p.readClosed) (hb : ∀ p, p.IsBounded → (f p).IsBounded) :
    w.Works (w.change index f) := by
  rcases Nat.lt_or_ge index w.channels.size with hlt | hge
  case inr =>
    -- A number without a channel, where nothing can be changed.
    rw [change_of_size_le f hge]
    exact .refl w
  have hself := channel_change_self f hlt
  have hin : (w.change index f).inputs = w.inputs := inputs_change f
  have field {α : Type} (g : Pipe → α) (hg : ∀ p, g (f p) = g p) (c : Nat) :
      g ((w.change index f).channel c).pipe = g (w.channel c).pipe := by
    by_cases hi : c = index
    · subst hi
      rw [hself]
      exact hg _
    · rw [channel_change_of_ne f hi]
  refine ⟨⟨size_change f, congrArg Array.size hin, ?_, field _ hc, field _ hw, field _ hr, ?_⟩,
    asked_change f, ?_, ?_, ?_, Nat.le_of_eq (count_change f).symm⟩
  · intro i
    rw [World.input, hin]
    rfl
  · intro c hbc
    by_cases hi : c = index
    · subst hi
      rw [hself]
      exact hb _ hbc
    · rw [channel_change_of_ne f hi]
      exact hbc
  · intro c j hj
    by_cases hi : c = index
    -- Nobody waits for the pipe that has been changed.
    · subst hi
      rw [hself] at hj
      cases hj
    · rw [channel_change_of_ne f hi] at hj ⊢
      exact ⟨hj, rfl⟩
  · intro c j hj
    by_cases hi : c = index
    · subst hi
      -- All who waited for it have come to the queue.
      refine .inr ?_
      rw [queue_change]
      exact List.mem_append_right _ (List.mem_map_of_mem hj)
    · rw [channel_change_of_ne f hi]
      exact .inl hj
  · exact ⟨(w.channel index).waiting, queue_change f⟩

/-- So is putting bytes into a pipe. -/
theorem works_put (w : World) (index : Nat) (bytes : List UInt8) : w.Works (w.put index bytes) :=
  w.works_change index _ (fun p => p.capacity_accept bytes) (fun p => p.writeClosed_accept bytes)
    (fun p => p.readClosed_accept bytes) fun _ hb => hb.accept bytes

/-- So is taking them out. -/
theorem works_take (w : World) (index : Nat) (size : Option Nat) :
    w.Works (w.take index size) :=
  w.works_change index _ (fun p => p.capacity_deliver size) (fun p => p.writeClosed_deliver size)
    (fun p => p.readClosed_deliver size) fun _ hb => hb.deliver size

end World

end Shell
