/-
The start of a pipeline.

The stages of a pipeline get consecutive numbers, and so do the pipes between them and the inputs
that read from these pipes. `Started` says where everything is when all stages have been started:
stage `k` reads from pipe `k - 1` and writes to pipe `k`, counted from the first new one, except
that the first stage reads and the last one writes where the pipeline does.

The stages are started from the left. The one thing to check is that what is left to the right
of a stage is again a pipeline, with the new input for its first stage (`started`).
-/
import Shell.Proofs.Turns
import Shell.Proofs.World.Work

set_option autoImplicit false

namespace Shell

variable {ρ : Type}

/-! ## 1. Where the stages read and write

The loop of the code starts the stages from the left, each with a new pipe on its right. What it has done at the end
can be said without the loop: stage `k` reads the pipe before it and writes the one behind it. -/

/-- The input of stage `k`, if the first stage reads from `input` and the new inputs begin at
`fresh`. -/
def inputAt (input fresh : Nat) : Nat → Nat
  | 0 => input
  | k + 1 => fresh + k

/-- The output of stage `k` of `stages`, if the last one writes to `output` and the new pipes begin
at `fresh`. -/
def outputAt (output : Output) (stages fresh k : Nat) : Output :=
  if k + 1 < stages then .pipe (fresh + k) else output

/-- Seen from the second stage, the inputs are numbered from one later on. -/
theorem inputAt_succ (input fresh k : Nat) :
    inputAt fresh (fresh + 1) k = inputAt input fresh (k + 1) := by
  cases k with
  | zero => rfl
  | succ k =>
    simp only [inputAt]
    omega

/-- Seen from the second stage, the pipes are numbered from one later on, and the last stage is the same. -/
theorem outputAt_succ (output : Output) (stages fresh k : Nat) :
    outputAt output stages (fresh + 1) k = outputAt output (stages + 1) fresh (k + 1) := by
  unfold outputAt
  by_cases h : k + 1 < stages
  · rw [if_pos h, if_pos (by omega), Nat.add_assoc, Nat.add_comm 1 k]
  · rw [if_neg h, if_neg (by omega)]

namespace Machine

/-! ## 2. All stages

By induction on the stages. In the induction step the first stage is there already, so what is left is a shorter
pipeline that reads from the first new pipe. -/

/-- The second machine is the first with all stages of a pipeline started. -/
structure Started (m : Machine ρ) (starter stages capacity input : Nat) (output : Output)
    (stage : Nat → Nat → Output → Job ρ) (m' : Machine ρ) : Prop where
  size : m'.tasks.size = m.tasks.size + stages
  oldTask : ∀ i < m.tasks.size, m'.task i = m.task i
  newTask : ∀ k < stages, m'.task (m.tasks.size + k) =
    { phase := .active (stage k (inputAt input m.world.inputs.size k)
        (outputAt output stages m.world.channels.size k))
      starter := starter
      input := inputAt input m.world.inputs.size k
      output := outputAt output stages m.world.channels.size k }
  channels : m'.world.channels.size = m.world.channels.size + (stages - 1)
  oldChannel : ∀ c < m.world.channels.size, m'.world.channel c = m.world.channel c
  newChannel : ∀ k, k + 1 < stages →
    m'.world.channel (m.world.channels.size + k) = { pipe := { capacity := capacity } }
  inputs : m'.world.inputs.size = m.world.inputs.size + (stages - 1)
  oldInput : ∀ i < m.world.inputs.size, m'.world.input i = m.world.input i
  newInput : ∀ k, k + 1 < stages →
    m'.world.input (m.world.inputs.size + k) = .ofPipe (m.world.channels.size + k)
  queue : m'.world.queue.toList =
    m.world.queue.toList ++ (List.range' m.tasks.size stages).map .resume
  asked : m'.world.asked = m.world.asked
  sinks : m'.world.sinks = m.world.sinks

/-- A new task has its first turn after all that is to come. -/
theorem queue_addTask (m : Machine ρ) (task : Task ρ) :
    (m.addTask task).world.queue.toList = m.world.queue.toList ++ [.resume m.tasks.size] :=
  Queue.toList_push _ _

/-- One more stage on the left of a pipeline. -/
theorem Started.cons {m m' : Machine ρ} {starter stages capacity input : Nat} {output : Output}
    {stage : Nat → Nat → Output → Job ρ}
    (h : Started
      ((m.mapWorld fun w => w.addPipe capacity).addTask
        { phase := .active (stage 0 input (.pipe m.world.channels.size)), starter := starter,
          input := input, output := .pipe m.world.channels.size })
      starter (stages + 1) capacity m.world.inputs.size output (fun k => stage (k + 1)) m') :
    m.Started starter (stages + 2) capacity input output stage m' := by
  generalize hm₁ : (m.mapWorld fun w => w.addPipe capacity).addTask
    { phase := .active (stage 0 input (.pipe m.world.channels.size)), starter := starter,
      input := input, output := .pipe m.world.channels.size } = m₁ at h
  -- What the rest of the pipeline adds comes after what this stage has added, so every number is
  -- one greater there.
  have hsize : m₁.tasks.size = m.tasks.size + 1 := by
    rw [← hm₁]
    exact size_addTask _ _
  have hch : m₁.world.channels.size = m.world.channels.size + 1 := by
    rw [← hm₁]
    exact World.size_channels_addPipe m.world capacity
  have hin : m₁.world.inputs.size = m.world.inputs.size + 1 := by
    rw [← hm₁]
    exact World.size_inputs_addPipe m.world capacity
  -- Each field speaks of something old, of this stage, which was new before the rest, or of the rest.
  refine ⟨?_, ?_, ?_, ?_, ?_, ?_, ?_, ?_, ?_, ?_, ?_, ?_⟩
  · rw [h.size, hsize]
    omega
  · intro i hi
    rw [h.oldTask i (by omega), ← hm₁]
    exact task_addTask_of_ne (m := m.mapWorld fun w => w.addPipe capacity) _ (Nat.ne_of_lt hi)
  · intro k hk
    cases k with
    | zero =>
      -- This stage was there before the rest was started.
      have ho : outputAt output (stages + 2) m.world.channels.size 0 =
          .pipe m.world.channels.size := if_pos (by omega)
      rw [Nat.add_zero, h.oldTask _ (by omega), ← hm₁, ho]
      exact task_addTask_self (m.mapWorld fun w => w.addPipe capacity) _
    | succ k =>
      have hnew := h.newTask k (by omega)
      rw [hsize, hin, hch, inputAt_succ input, outputAt_succ] at hnew
      rw [show m.tasks.size + (k + 1) = m.tasks.size + 1 + k by omega]
      exact hnew
  · rw [h.channels, hch]
    omega
  · intro c hc
    rw [h.oldChannel c (by omega), ← hm₁]
    exact World.channel_addPipe_of_lt capacity hc
  · intro k hk
    cases k with
    | zero =>
      rw [Nat.add_zero, h.oldChannel _ (by omega), ← hm₁]
      exact World.channel_addPipe_self m.world capacity
    | succ k =>
      have hnew := h.newChannel k (by omega)
      rw [hch] at hnew
      rw [show m.world.channels.size + (k + 1) = m.world.channels.size + 1 + k by omega]
      exact hnew
  · rw [h.inputs, hin]
    omega
  · intro i hi
    rw [h.oldInput i (by omega), ← hm₁]
    exact World.input_addPipe_of_lt capacity hi
  · intro k hk
    cases k with
    | zero =>
      rw [Nat.add_zero, h.oldInput _ (by omega), ← hm₁]
      exact World.input_addPipe_self m.world capacity
    | succ k =>
      have hnew := h.newInput k (by omega)
      rw [hin, hch] at hnew
      rw [show m.world.inputs.size + (k + 1) = m.world.inputs.size + 1 + k by omega,
        show m.world.channels.size + (k + 1) = m.world.channels.size + 1 + k by omega]
      exact hnew
  · have hq : m₁.world.queue.toList = m.world.queue.toList ++ [.resume m.tasks.size] := by
      rw [← hm₁]
      exact queue_addTask _ _
    rw [h.queue, hsize, hq, List.range'_succ (s := m.tasks.size) (n := stages + 1), List.map_cons,
      List.append_assoc, List.singleton_append]
  · rw [h.asked, ← hm₁]
    rfl
  · rw [h.sinks, ← hm₁]
    rfl

/-- A single stage reads and writes where the pipeline does. -/
theorem started_single (m : Machine ρ) (starter capacity input : Nat) (output : Output)
    (stage : Nat → Nat → Output → Job ρ) :
    m.Started starter 1 capacity input output stage
      (m.addTask
        { phase := .active (stage 0 input output), starter := starter, input := input,
          output := output }) := by
  refine ⟨size_addTask _ _, ?_, ?_, rfl, fun _ _ => rfl, ?_, rfl, fun _ _ => rfl, ?_,
    queue_addTask _ _, rfl, rfl⟩
  · intro i hi
    exact task_addTask_of_ne _ (Nat.ne_of_lt hi)
  · intro k hk
    obtain rfl : k = 0 := by omega
    have ho : outputAt output 1 m.world.channels.size 0 = output := if_neg (by omega)
    rw [Nat.add_zero, ho]
    exact task_addTask_self _ _
  · intro k hk
    omega
  · intro k hk
    omega

/-- **Starting the stages from the left** puts everything where `Started` says. -/
theorem started (starter capacity : Nat) (output : Output) (stage : Nat → Nat → Output → Job ρ)
    (stages index input : Nat) (m : Machine ρ) (h : 1 ≤ stages) :
    m.Started starter stages capacity input output (fun k => stage (index + k))
      (startStages starter capacity output stage stages index input m) := by
  induction stages generalizing index input m with
  | zero => omega
  | succ stages ih =>
    cases stages with
    | zero => exact started_single m starter capacity input output fun k => stage (index + k)
    | succ stages =>
      refine Started.cons ?_
      have hrest := ih (index + 1) m.world.inputs.size
        ((m.mapWorld fun w => w.addPipe capacity).addTask
          { phase := .active (stage index input (.pipe m.world.channels.size)),
            starter := starter, input := input, output := .pipe m.world.channels.size })
        (by omega)
      -- The stages of the rest are counted on from this one.
      have hshift : (fun k => stage (index + 1 + k)) = fun k => stage (index + (k + 1)) := by
        funext k
        rw [show index + 1 + k = index + (k + 1) by omega]
      rw [hshift] at hrest
      exact hrest

/-- The turn of a task that comes to a pipeline. -/
theorem resume_of_pipeline {m : Machine ρ} {i stages capacity input : Nat} {output : Output}
    {stage : Nat → Nat → Output → Job ρ} {next : Except Abort ρ → Job ρ}
    (hp : (m.task i).phase = .active (.pipeline stages capacity input output stage next))
    (hc : (m.task i).cancelled = false) :
    m.resume i = startStages i capacity output stage stages 0 input
      (m.became i (.joining m.tasks.size stages 0 next) m.world) := by
  -- The stages get the numbers after those of all tasks there are.
  have hsize : (m.begun i m.world).tasks.size = m.tasks.size := size_modifyTask m i _
  rw [resume_of_active hp hc]
  unfold go
  simp only [Job.advance]
  exact congrArg (startStages i capacity output stage stages 0 input)
    ((congrArg (fun n => (m.begun i m.world).setPhase i (.joining n stages 0 next)) hsize).trans
      (m.setPhase_begun i _ m.world))

end Machine

end Shell
