/-
Turns in any order.

A machine takes the events of its queue in their order. Much of what is true of a run does
not depend on this order, and is stated here for every order: a turn deals with some event of
the queue, whichever it is, or lets the host read. Each step of a machine is such a turn
(`turn_step`), so what holds after any turns holds after every run (`turns_run`).
-/
import Mathlib.Logic.Relation
import Shell.Scheduler

set_option autoImplicit false

namespace Shell

variable {ρ : Type}

/-- The next of a queue is the first of its list. -/
theorem Queue.next?_eq_some {α : Type} {q rest : Queue α} {a : α} (h : q.next? = some (a, rest)) :
    q.toList = a :: rest.toList := by
  obtain ⟨front, back⟩ := q
  cases front with
  | cons b front =>
    simp only [next?, Option.some.injEq, Prod.mk.injEq] at h
    obtain ⟨rfl, rfl⟩ := h
    rfl
  | nil =>
    simp only [next?] at h
    -- The front is used up, and the back is turned round.
    cases hb : back.reverse with
    | nil => rw [hb] at h; cases h
    | cons b front =>
      rw [hb] at h
      simp only [Option.some.injEq, Prod.mk.injEq] at h
      obtain ⟨rfl, rfl⟩ := h
      simp [toList, hb]

namespace Machine

/-! ## Tasks -/

/-- A number without a task stands for a task that has ended. -/
theorem task_of_size_le {m : Machine ρ} {i : Nat} (h : m.tasks.size ≤ i) : m.task i = default := by
  unfold task
  rw [Array.getD_eq_getD_getElem?, Array.getElem?_eq_none h]
  rfl

/-- So a task that has not ended has a number of its own. -/
theorem lt_size_of_result?_eq_none {m : Machine ρ} {i : Nat} (h : m.result? i = none) :
    i < m.tasks.size := by
  refine Nat.lt_of_not_le fun hn => ?_
  rw [result?, task_of_size_le hn] at h
  cases h

/-- A task that is at work has no result. -/
theorem result?_eq_none_of_active {m : Machine ρ} {i : Nat} {job : Job ρ}
    (h : (m.task i).phase = .active job) : m.result? i = none := by
  rw [result?, h]

/-- A task has a result exactly when it has ended. -/
theorem result?_eq_some_iff {m : Machine ρ} {i : Nat} {result : Except Abort ρ} :
    m.result? i = some result ↔ (m.task i).phase = .ended result := by
  unfold result?
  cases (m.task i).phase <;> simp

/-- A task that has ended has its result. -/
theorem result?_eq_of_ended {m : Machine ρ} {i : Nat} {result : Except Abort ρ}
    (h : (m.task i).phase = .ended result) : m.result? i = some result := by
  rw [result?, h]

@[simp] theorem size_modifyTask (m : Machine ρ) (i : Nat) (f : Task ρ → Task ρ) :
    (m.modifyTask i f).tasks.size = m.tasks.size := by
  simp [modifyTask]

/-- The other tasks stay as they are. -/
theorem task_modifyTask_of_ne {m : Machine ρ} {i j : Nat} (f : Task ρ → Task ρ) (h : j ≠ i) :
    (m.modifyTask i f).task j = m.task j := by
  unfold task modifyTask
  rw [Array.getD_eq_getD_getElem?, Array.getD_eq_getD_getElem?, Array.getElem?_modify,
    if_neg (Ne.symm h)]

/-- The task itself is changed. -/
theorem task_modifyTask_self {m : Machine ρ} {i : Nat} (f : Task ρ → Task ρ)
    (h : i < m.tasks.size) : (m.modifyTask i f).task i = f (m.task i) := by
  unfold task modifyTask
  rw [Array.getD_eq_getD_getElem?, Array.getD_eq_getD_getElem?, Array.getElem?_modify,
    if_pos rfl, Array.getElem?_eq_getElem h]
  rfl

/-- The tasks after one more has been added. -/
theorem task_addTask_of_ne {m : Machine ρ} {i : Nat} (task : Task ρ) (h : i ≠ m.tasks.size) :
    (m.addTask task).task i = m.task i := by
  unfold Machine.task
  rw [Array.getD_eq_getD_getElem?, Array.getD_eq_getD_getElem?]
  show (((m.tasks.push task)[i]?).getD default) = _
  rw [Array.getElem?_push, if_neg h]

/-- A new task is the last one. -/
theorem task_addTask_self (m : Machine ρ) (task : Task ρ) :
    (m.addTask task).task m.tasks.size = task := by
  unfold Machine.task
  rw [Array.getD_eq_getD_getElem?]
  show (((m.tasks.push task)[m.tasks.size]?).getD default) = _
  rw [Array.getElem?_push, if_pos rfl]
  rfl

@[simp] theorem size_addTask (m : Machine ρ) (task : Task ρ) :
    (m.addTask task).tasks.size = m.tasks.size + 1 := Array.size_push ..

/-! ## A turn of one task -/

/-- The machine after a task has had a turn: what it is at then, and the world it left. -/
def became (m : Machine ρ) (i : Nat) (phase : Phase ρ) (w : World) : Machine ρ :=
  { m.modifyTask i fun t => { t with started := true, phase := phase } with world := w }

@[simp] theorem world_became (m : Machine ρ) (i : Nat) (phase : Phase ρ) (w : World) :
    (m.became i phase w).world = w := rfl

@[simp] theorem size_became (m : Machine ρ) (i : Nat) (phase : Phase ρ) (w : World) :
    (m.became i phase w).tasks.size = m.tasks.size :=
  size_modifyTask m i _

/-- A turn of one task leaves the others as they are. -/
theorem task_became_of_ne {m : Machine ρ} {i j : Nat} (phase : Phase ρ) (w : World) (h : j ≠ i) :
    (m.became i phase w).task j = m.task j :=
  task_modifyTask_of_ne (m := m) _ h

/-- The task has started, and is in its new phase. -/
theorem task_became_self {m : Machine ρ} {i : Nat} (phase : Phase ρ) (w : World)
    (h : i < m.tasks.size) :
    (m.became i phase w).task i = { m.task i with started := true, phase := phase } :=
  task_modifyTask_self (m := m) _ h

/-- The results of the others are what they were. -/
theorem result?_became_of_ne {m : Machine ρ} {i j : Nat} (phase : Phase ρ) (w : World)
    (h : j ≠ i) : (m.became i phase w).result? j = m.result? j := by
  rw [result?, task_became_of_ne phase w h]
  rfl

/-- A task that ends has its result. -/
theorem result?_became_self {m : Machine ρ} {i : Nat} {result : Except Abort ρ} (w : World)
    (h : i < m.tasks.size) : (m.became i (.ended result) w).result? i = some result := by
  rw [result?, task_became_self _ w h]

/-- Two changes of one task are one. -/
theorem modifyTask_modifyTask (m : Machine ρ) (i : Nat) (f g : Task ρ → Task ρ) :
    (m.modifyTask i f).modifyTask i g = m.modifyTask i fun t => g (f t) := by
  simp only [modifyTask]
  congr 1
  ext j
  · simp
  · simp only [Array.getElem_modify]
    split <;> rfl

/-- The machine in which the job of a task has left the world `w`, before anything is made of
it. The task counts as started. -/
def begun (m : Machine ρ) (i : Nat) (w : World) : Machine ρ :=
  { m.modifyTask i fun t => { t with started := true } with world := w }

/-- The task has started. -/
theorem task_begun_self {m : Machine ρ} {i : Nat} (w : World) (h : i < m.tasks.size) :
    (m.begun i w).task i = { m.task i with started := true } :=
  task_modifyTask_self (m := m) _ h

/-- Then what the task is at is written down. -/
theorem setPhase_begun (m : Machine ρ) (i : Nat) (phase : Phase ρ) (w : World) :
    (m.begun i w).setPhase i phase = m.became i phase w :=
  congrArg (fun t : Machine ρ => { t with world := w })
    (modifyTask_modifyTask m i (fun t => { t with started := true })
      fun t => { t with phase := phase })

section

variable {m : Machine ρ} {i : Nat} {job : Job ρ} {w : World}

/-- **A task that is not cancelled** goes on with its job. -/
theorem resume_of_active (hp : (m.task i).phase = .active job)
    (hc : (m.task i).cancelled = false) :
    m.resume i = (m.begun i m.world).go i job := by
  simp only [resume, hp, hc, Bool.false_eq_true, if_false]
  rfl

/-- A task that waits again is at the job that is left. -/
theorem resume_of_waiting {rest : Job ρ} (hp : (m.task i).phase = .active job)
    (hc : (m.task i).cancelled = false) (ha : job.advance i m.world = (w, .active rest)) :
    m.resume i = m.became i (.active rest) w := by
  have hw : (m.begun i m.world).world = m.world := rfl
  rw [resume_of_active hp hc, go, hw, ha]
  exact m.setPhase_begun i (.active rest) w

/-- A task that comes to its end is ended. -/
theorem resume_of_end {result : Except Abort ρ} (hp : (m.task i).phase = .active job)
    (hc : (m.task i).cancelled = false) (ha : job.advance i m.world = (w, .ended result)) :
    m.resume i = (m.begun i w).endTask i result := by
  have hw : (m.begun i m.world).world = m.world := rfl
  rw [resume_of_active hp hc, go, hw, ha]
  rfl

/-- A task without a starter ends, and nothing else happens. -/
theorem resume_of_ended {result : Except Abort ρ} (hp : (m.task i).phase = .active job)
    (hc : (m.task i).cancelled = false) (hs : (m.task i).starter = none)
    (ha : job.advance i m.world = (w, .ended result)) :
    m.resume i = m.became i (.ended result) w := by
  have hself := m.task_begun_self w (lt_size_of_result?_eq_none (result?_eq_none_of_active hp))
  rw [resume_of_end hp hc ha]
  simp only [endTask, hself, hs]
  exact m.setPhase_begun i (.ended result) w

end

/-- A task that has ended has no more turns. -/
theorem resume_of_result? {m : Machine ρ} {i : Nat} {result : Except Abort ρ}
    (h : m.result? i = some result) : m.resume i = m := by
  unfold result? at h
  unfold resume
  split at h
  · next hp => simp only [hp]
  · cases h

/-! ## Turns -/

/-- Deals with an event that has left the queue. -/
def handle (m : Machine ρ) : Event → Machine ρ
  | .resume index => m.resume index
  | .arrival index => m.push (.resume index)
  | .report index late => m.report index late

/-- The machine with another queue. -/
def withQueue (m : Machine ρ) (queue : Queue Event) : Machine ρ :=
  m.mapWorld fun w => { w with queue := queue }

/-- An event of the queue, and the queue without it. -/
def Picks (m : Machine ρ) (event : Event) (queue : Queue Event) : Prop :=
  ∃ before after, m.world.queue.toList = before ++ event :: after ∧
    queue.toList = before ++ after

/-- One turn, in whichever order the events of the queue are dealt with. -/
inductive Turn (m : Machine ρ) : Machine ρ → Prop where
  | event {event : Event} {queue : Queue Event} (h : m.Picks event queue) :
      Turn m ((m.withQueue queue).handle event)
  | host : Turn m (m.mapWorld World.hostTurn)

/-- Any number of turns. -/
def Turns : Machine ρ → Machine ρ → Prop := Relation.ReflTransGen Turn

/-- A queue keeps its other events when one is picked, and gets no new ones. -/
theorem Picks.mem_iff {m : Machine ρ} {event : Event} {queue : Queue Event}
    (h : m.Picks event queue) (e : Event) :
    e ∈ m.world.queue.toList ↔ e = event ∨ e ∈ queue.toList := by
  obtain ⟨before, after, hm, hq⟩ := h
  rw [hm, hq]
  simp only [List.mem_append, List.mem_cons]
  exact or_left_comm

/-- The only event of a queue is the one that is picked. -/
theorem Picks.of_singleton {m : Machine ρ} {event first : Event} {queue : Queue Event}
    (h : m.Picks event queue) (hq : m.world.queue.toList = [first]) :
    event = first ∧ queue.toList = [] := by
  obtain ⟨before, after, hm, hqueue⟩ := h
  rw [hq] at hm
  cases before with
  | nil =>
    obtain ⟨rfl, rfl⟩ := List.cons.inj hm
    exact ⟨rfl, hqueue⟩
  | cons e before => cases before <;> cases hm

/-- The host does nothing if nobody has asked it. -/
theorem mapWorld_hostTurn {m : Machine ρ} (h : m.world.asked = []) :
    m.mapWorld World.hostTurn = m := by
  have hw : m.world.hostTurn = m.world := by
    unfold World.hostTurn
    rw [h]
  exact congrArg (fun w => { m with world := w }) hw

/-! ## The order of the queue is one of the orders -/

/-- The next event is one of the queue. -/
theorem picks_next {m : Machine ρ} {event : Event} {queue : Queue Event}
    (h : m.world.queue.next? = some (event, queue)) : m.Picks event queue :=
  ⟨[], queue.toList, Queue.next?_eq_some h, rfl⟩

/-- A machine without events and without anything asked is quiet. -/
theorem isQuiet_of_next?_eq_none {m : Machine ρ} (hn : m.world.queue.next? = none)
    (ha : m.world.asked = []) : m.isQuiet = true := by
  have hnext := Queue.next?_eq m.world.queue
  rw [hn, Option.map_none, eq_comm, Option.map_eq_none_iff, List.head?_eq_none_iff] at hnext
  rw [isQuiet, (Queue.isEmpty_iff _).mpr hnext, ha]
  rfl

/-- **A step of the machine is a turn.** -/
theorem turn_step (m : Machine ρ) : Turn m m.step := by
  unfold step
  cases h : m.world.queue.next? with
  | none => exact .host
  | some next =>
    obtain ⟨event, queue⟩ := next
    -- The step deals with the event as `handle` does, kind by kind.
    have ht := Turn.event (picks_next h)
    cases event <;> exact ht

/-- **A run of the machine is made of turns.** -/
theorem turns_run (turns : Nat) (m : Machine ρ) : Turns m (m.run turns) := by
  induction turns generalizing m with
  | zero => exact .refl
  | succ turns ih =>
    unfold run
    split
    · exact .refl
    · exact .head (turn_step m) (ih m.step)

end Machine

end Shell
