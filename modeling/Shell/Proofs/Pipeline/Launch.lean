/-
The first turn of a pipeline.

A task has come to a pipeline and nobody else has anything to do (`Alone`). There is one turn, and
it starts the stages: each of them has its first turn to come, the pipes between them are empty and
open, and their starter waits (`Launched`). So the pipeline is under way (`Launched.underway`).
-/
import Shell.Proofs.Pipeline.Flow

set_option autoImplicit false

namespace Shell.Machine

variable {ρ : Type} {m m' : Machine ρ} {p stages capacity input : Nat} {output : Output}
  {stage : Nat → Nat → Output → Job ρ} {next : Except Abort ρ → Job ρ}

/-- Nobody but a task has anything to do, and neither what it reads nor what it writes will ever
make a stage wait. -/
structure Alone (m : Machine ρ) (p input : Nat) (output : Output) : Prop where
  live : (m.task p).cancelled = false
  others : ∀ i, i ≠ p → ∃ r, m.result? i = some r
  queue : m.world.queue.toList = [.resume p]
  asked : m.world.asked = []
  known : input < m.world.inputs.size
  supply : (m.world.input input).supply ≠ .host
  inner : ∀ q, (m.world.input input).supply = .pipe q →
    q < m.world.channels.size ∧ ¬ (m.world.channel q).pipe.IsOpen
  outer : ∀ c, output = .pipe c →
    c < m.world.channels.size ∧ (m.world.channel c).pipe.readClosed = true

/-- Where the stages will be. -/
def line (m : Machine ρ) (p stages capacity input : Nat) (output : Output) : Line where
  starter := p
  stages := stages
  capacity := capacity
  input := input
  output := output
  task := m.tasks.size
  pipe := m.world.channels.size
  fresh := m.world.inputs.size

/-- The stages of a pipeline have been started. -/
structure Launched (m : Machine ρ) (p stages capacity input : Nat) (output : Output)
    (stage : Nat → Nat → Output → Job ρ) (next : Except Abort ρ → Job ρ) (m' : Machine ρ) :
    Prop where
  size : m'.tasks.size = m.tasks.size + stages
  starter : m'.task p =
    { m.task p with started := true, phase := .joining m.tasks.size stages 0 next }
  oldTask : ∀ i < m.tasks.size, i ≠ p → m'.task i = m.task i
  newTask : ∀ k < stages, m'.task (m.tasks.size + k) =
    { phase := .active (stage k ((m.line p stages capacity input output).inputOf k)
        ((m.line p stages capacity input output).outputOf k))
      starter := p
      input := (m.line p stages capacity input output).inputOf k
      output := (m.line p stages capacity input output).outputOf k }
  channels : m'.world.channels.size = m.world.channels.size + (stages - 1)
  oldChannel : ∀ c < m.world.channels.size, m'.world.channel c = m.world.channel c
  newChannel : ∀ k, k + 1 < stages →
    m'.world.channel (m.world.channels.size + k) = { pipe := { capacity := capacity } }
  inputs : m'.world.inputs.size = m.world.inputs.size + (stages - 1)
  oldInput : ∀ i < m.world.inputs.size, m'.world.input i = m.world.input i
  newInput : ∀ k, k + 1 < stages →
    m'.world.input (m.world.inputs.size + k) = .ofPipe (m.world.channels.size + k)
  queue : m'.world.queue.toList = (List.range' m.tasks.size stages).map .resume
  asked : m'.world.asked = []
  sinks : m'.world.sinks = m.world.sinks

/-- **The first turn** starts the stages. -/
theorem Alone.launched (h : m.Alone p input output)
    (hp : (m.task p).phase = .active (.pipeline stages capacity input output stage next))
    (hpos : 1 ≤ stages) {queue : Queue Event} (hq : queue.toList = []) :
    m.Launched p stages capacity input output stage next ((m.withQueue queue).resume p) := by
  have hlt : p < m.tasks.size := lt_size_of_result?_eq_none (result?_eq_none_of_active hp)
  rw [resume_of_pipeline (m := m.withQueue queue) hp h.live]
  have hsize := size_became (m.withQueue queue) p (.joining m.tasks.size stages 0 next)
    (m.withQueue queue).world
  -- The starter waits first, and then the stages are added one by one.
  have hs := started p capacity output stage stages 0 input
    ((m.withQueue queue).became p (.joining m.tasks.size stages 0 next)
      (m.withQueue queue).world) hpos
  have hshift : (fun k => stage (0 + k)) = stage := funext fun k => by rw [Nat.zero_add]
  rw [hshift] at hs
  have hold {i : Nat} (hi : i < m.tasks.size) := hs.oldTask i (Nat.lt_of_lt_of_eq hi hsize.symm)
  refine ⟨hs.size.trans (congrArg (· + stages) hsize), ?_, fun i hi hne => ?_, fun k hk => ?_,
    hs.channels, hs.oldChannel, hs.newChannel, hs.inputs, hs.oldInput, hs.newInput, ?_,
    hs.asked.trans h.asked, hs.sinks⟩
  · exact (hold hlt).trans (task_became_self (m := m.withQueue queue) _ _ hlt)
  · exact (hold hi).trans (task_became_of_ne (m := m.withQueue queue) _ _ hne)
  · have hnew := hs.newTask k hk
    rw [hsize] at hnew
    exact hnew
  · have hqueue := hs.queue
    rw [hsize, world_became, show (m.withQueue queue).world.queue.toList = [] from hq] at hqueue
    exact hqueue

/-- The new pipes are empty and open, and the outer streams are as they were. -/
theorem Alone.pipes (h : m.Alone p input output)
    (hs : m.Launched p stages capacity input output stage next m') {done : Nat → Prop}
    (hd : ∀ k < stages, ¬ done k) :
    (m.line p stages capacity input output).Pipes m'.world done := by
  -- New pipes are empty and open at both ends, and old ones are untouched.
  refine ⟨hs.channels, hs.inputs, fun k hk => ?_, h.known, ?_, fun q hq => ?_, fun c ho => ?_,
    fun k hk => ?_, fun k hk => ?_, fun k hk => ?_, fun k hk => ?_⟩
  · show (m'.world.input (m.world.inputs.size + k)).supply = .pipe (m.world.channels.size + k)
    rw [hs.newInput k hk]
    rfl
  · show (m'.world.input input).supply ≠ .host
    rw [hs.oldInput _ h.known]
    exact h.supply
  · have hq' : (m'.world.input input).supply = .pipe q := hq
    rw [hs.oldInput _ h.known] at hq'
    obtain ⟨hlt, hno⟩ := h.inner q hq'
    rw [hs.oldChannel q hlt]
    exact ⟨hlt, hno⟩
  · obtain ⟨hlt, hr⟩ := h.outer c ho
    rw [hs.oldChannel c hlt]
    exact ⟨hlt, hr⟩
  · show (m'.world.channel (m.world.channels.size + k)).pipe.capacity = capacity
    rw [hs.newChannel k hk]
  · show (m'.world.channel (m.world.channels.size + k)).pipe.IsBounded
    rw [hs.newChannel k hk]
    exact Nat.zero_le capacity
  · have hk' : k + 1 < stages := hk
    show (m'.world.channel (m.world.channels.size + k)).pipe.writeClosed = true ↔ done k
    rw [hs.newChannel k hk]
    exact ⟨fun he => absurd he Bool.false_ne_true, fun he => absurd he (hd k (by omega))⟩
  · show (m'.world.channel (m.world.channels.size + k)).pipe.readClosed = true ↔ done (k + 1)
    rw [hs.newChannel k hk]
    exact ⟨fun he => absurd he Bool.false_ne_true, fun he => absurd he (hd (k + 1) hk)⟩

theorem Launched.not_isDone (hs : m.Launched p stages capacity input output stage next m') {k : Nat}
    (hk : k < stages) : ¬ (m.line p stages capacity input output).IsDone m' k :=
  Line.not_isDone_iff.2 (result?_eq_none_of_active (congrArg Task.phase (hs.newTask k hk)))

/-- **When all stages have been started the pipeline is under way.** -/
theorem Alone.underway (h : m.Alone p input output) (hlt : p < m.tasks.size)
    (hs : m.Launched p stages capacity input output stage next m') :
    (m.line p stages capacity input output).Underway m' := by
  have hdone (k : Nat) (hk : k < stages) := hs.not_isDone hk
  refine ⟨hs.size, hlt, fun i hi hne => ?_, hs.asked, h.pipes hs hdone, fun k hk => ?_,
    fun k hk r hr => ?_, ⟨0, next, congrArg Task.phase hs.starter, ?_⟩, fun event he => ?_⟩
  -- The old tasks are as they were.
  · rw [result?, hs.oldTask i hi hne]
    exact h.others i hne
  · show Line.Seat _ k (m'.task (m.tasks.size + k))
    rw [hs.newTask k hk]
    exact ⟨rfl, rfl, rfl, rfl⟩
  · have hnone := Line.not_isDone_iff.1 (hdone k hk)
    exact absurd (hr.symm.trans hnone) (Option.some_ne_none r)
  · have hreports : m'.world.queue.toList.countP Event.isReport = 0 := by
      rw [hs.queue, countP_resumes]
    have hcount : (m.line p stages capacity input output).count m' = 0 :=
      List.countP_eq_zero.2 fun k hk => hdone k (List.mem_range.1 hk)
    rw [hreports, hcount]
  · rw [hs.queue] at he
    obtain ⟨j, -, rfl⟩ := List.mem_map.1 he
    exact .inl ⟨j, rfl⟩

end Shell.Machine
