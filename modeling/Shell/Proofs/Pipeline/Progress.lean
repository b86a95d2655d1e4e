/-
Pipelines do not deadlock.

A run of a pipeline begins with a task that has come to it (`AtPipeline`). Turns follow in any
order, and between them the rest of the job of a stage can become any other job of a stage. For
jobs are finite, and a stage that goes on for ever is one that is given job after job (`Moves`).

Such a run has three parts. In the first nothing has happened; in the second `Flows` holds; and in
the third all stages have ended (`course`). Only the second is of interest, and there some stage
that has not ended is not held up by the pipes around it (`Line.Pipes.exists_free`), and so has a
turn to come (`Heeds.resume`).

A stage runs code. If the code keeps to its own streams then the job of the stage is one in the
sense of `IsStage`, whatever the code is left with (`isStage_stageJob`). The one thing to check is
a write that is refused: it stops the code, and the stage ends with status 141 all the same.
-/
import Shell.Execution
import Shell.Proofs.Pipeline.Stage
import Shell.Proofs.Pipeline.Launch

set_option autoImplicit false

namespace Shell

/-! ## 1. Codes that are stages -/

namespace Exec

variable {α β : Type}

/-- Code that reads its own input and writes its own output and sinks, and that nothing stops
but `exit` and a refused write. -/
def KeepsToStreams (x : Exec α) : Prop :=
  ∀ (c : Context) (s : State) (next : Except Abort α → State → Job Ending),
    (∀ a s, (next (.ok a) s).IsStage c.input c.output) →
    (∀ status s, (next (.error (.exit status)) s).IsStage c.input c.output) →
    (∀ s, (next (.error .brokenPipe) s).IsStage c.input c.output) →
    (x c s next).IsStage c.input c.output

theorem keepsToStreams_pure (a : α) : (pure a : Exec α).KeepsToStreams :=
  fun _ s _ h _ _ => h a s

theorem KeepsToStreams.bind {x : Exec α} {f : α → Exec β} (hx : x.KeepsToStreams)
    (hf : ∀ a, (f a).KeepsToStreams) : (x >>= f).KeepsToStreams := by
  intro c s next h he hb
  exact hx c s _ (fun a s => hf a c s next h he hb) he hb

theorem keepsToStreams_writeOutput (text : String) : (writeOutput text).KeepsToStreams := by
  intro c s next h _ hb
  show (Action.writeText c.output text fun r => next r s).IsStage c.input c.output
  unfold Action.writeText
  split
  · exact h () s
  · exact .write (h () s) (hb s)

/-- Code that copies its input to its output. -/
def copyInput : Exec Unit := fun c s next =>
  lift (Action.copy c.input c.output) c s next

theorem keepsToStreams_copyInput : copyInput.KeepsToStreams :=
  fun _ s _ h _ hb => .copy (fun _ => h () s) (hb s)

end Exec

namespace Execution

variable {c : Context} {s : State}

/-- **The job of a stage** reads and writes the ends that the stage was given, and ends with a
status. -/
theorem isStage_stageJob {x : Exec Outcome} (hx : x.KeepsToStreams) (input : Nat)
    (output : Output) : (stageJob c s x input output).IsStage input output := by
  refine hx { c with input := input, output := output } (Exec.forked s false) _ ?_ ?_ ?_
  · intro outcome after
    exact .finish _
  · intro status after
    exact .finish _
  · intro after
    exact .finish (⟨.ok brokenPipeStatus, s.env⟩ : Ending)

/-- So codes that keep to their streams come to a pipeline of such jobs. -/
theorem stages_eq_pipeline {codes : List (Exec Outcome)} (hx : ∀ x ∈ codes, x.KeepsToStreams)
    (hcap : 1 ≤ c.limits.pipeCapacity) (next : Except Abort Nat → State → Job Ending) :
    ∃ stage rest, (∀ k input output, (stage k input output).IsStage input output) ∧
      stages codes c s next =
        .pipeline codes.length c.limits.pipeCapacity.toNat c.input c.output stage rest := by
  refine ⟨fun k input output => stageJob c s (codes.getD k (return .status 0)) input output, _,
    fun k input output => isStage_stageJob ?_ input output, if_neg (by omega)⟩
  rw [List.getD_eq_getElem?_getD]
  cases hk : codes[k]? with
  | some x => exact hx x (List.mem_of_getElem? hk)
  | none => exact Exec.keepsToStreams_pure _

end Execution

variable {ρ : Type} {m m₁ m' : Machine ρ} {p stages capacity input : Nat} {output : Output}

namespace Machine

/-! ## 2. The start -/

/-- A task has come to a pipeline and nobody else has anything to do. The outer input and the
outer output never make a stage wait. -/
structure AtPipeline (m : Machine ρ) (p stages capacity input : Nat) (output : Output) : Prop where
  job : ∃ stage next,
    (m.task p).phase = .active (.pipeline stages capacity input output stage next) ∧
      ∀ k input output, (stage k input output).IsStage input output
  live : (m.task p).cancelled = false
  others : ∀ i, i ≠ p → ∃ r, m.result? i = some r
  queue : m.world.queue.toList = [.resume p]
  asked : m.world.asked = []
  known : input < m.world.inputs.size
  supply : (m.world.input input).supply ≠ .host
  inner : ∀ q, (m.world.input input).supply = .pipe q →
    q < m.world.channels.size ∧ ¬ (m.world.channel q).pipe.IsOpen
  outer : ∀ c, output = .pipe c →
    c < m.world.channels.size ∧ (m.world.channel c).pipe.readClosed = true

theorem AtPipeline.alone (h : m.AtPipeline p stages capacity input output) :
    m.Alone p input output :=
  ⟨h.live, h.others, h.queue, h.asked, h.known, h.supply, h.inner, h.outer⟩

/-- **The first turn** starts the stages, and then each has its first turn to come. -/
theorem AtPipeline.flows (h : m.AtPipeline p stages capacity input output) (hpos : 1 ≤ stages)
    {queue : Queue Event} (hq : queue.toList = []) :
    (m.line p stages capacity input output).Flows ((m.withQueue queue).resume p) := by
  obtain ⟨stage, next, hp, hstage⟩ := h.job
  have hlt : p < m.tasks.size := lt_size_of_result?_eq_none (result?_eq_none_of_active hp)
  have hs := h.alone.launched hp hpos hq
  refine ⟨h.alone.underway hlt hs, fun k hk => ?_⟩
  show Line.Stands _ _ k (((m.withQueue queue).resume p).task (m.tasks.size + k)).phase
  rw [hs.newTask k hk]
  refine .active (hstage _ _ _) (.turn ?_)
  rw [hs.queue]
  refine List.mem_map_of_mem (List.mem_range'_1.2 ⟨Nat.le_add_right _ _, ?_⟩)
  exact Nat.add_lt_add_left hk _

/-! ## 3. Moves -/

/-- One turn, or another job for a stage that has not ended. -/
inductive Moves (first stages : Nat) (m : Machine ρ) : Machine ρ → Prop where
  | turn {m' : Machine ρ} (h : m.Turn m') : Moves first stages m m'
  /-- A stage that goes on for ever does a job and then another one. -/
  | renewed {k : Nat} {job job' : Job ρ} (hk : k < stages)
      (hp : (m.task (first + k)).phase = .active job)
      (hj : job'.IsStage (m.task (first + k)).input (m.task (first + k)).output) :
      Moves first stages m (m.setPhase (first + k) (.active job'))

end Machine

namespace Line

variable {line : Line}

/-- Another job is no change to anything around the stage. -/
theorem Flows.renewed (h : line.Flows m) {k : Nat} {job job' : Job ρ} (hk : k < line.stages)
    (hp : (m.task (line.task + k)).phase = .active job)
    (hj : job'.IsStage (m.task (line.task + k)).input (m.task (line.task + k)).output) :
    line.Flows (m.setPhase (line.task + k) (.active job')) := by
  have hn := Machine.result?_eq_none_of_active hp
  have hself : (m.setPhase (line.task + k) (.active job')).task (line.task + k) =
      { m.task (line.task + k) with phase := .active job' } :=
    Machine.task_modifyTask_self (m := m) _ (Machine.lt_size_of_result?_eq_none hn)
  have hrest {i : Nat} (hi : i ≠ line.task + k) :
      (m.setPhase (line.task + k) (.active job')).task i = m.task i :=
    Machine.task_modifyTask_of_ne (m := m) _ hi
  have hst := h.starter
  have hseat := h.seats k hk
  have hdone (j : Nat) :
      line.IsDone (m.setPhase (line.task + k) (.active job')) j ↔ line.IsDone m j := by
    unfold IsDone
    by_cases hjk : j = k
    -- The stage has not ended before and does not end by getting another job.
    · subst hjk
      rw [hn, Machine.result?, hself]
    · rw [Machine.result?, hrest (by omega)]
      rfl
  refine ⟨⟨(Machine.size_modifyTask _ _ _).trans h.size, hst, fun i hi hne => ?_,
    h.asked, h.pipes.congr fun j _ => (hdone j).symm, fun j hjs => ?_, fun j hjs r hr => ?_, ?_,
    fun event he => ?_⟩, fun j hjs => ?_⟩
  · rw [Machine.result?, hrest (by omega)]
    exact h.others i hi hne
  · by_cases hjk : j = k
    · subst hjk
      rw [hself]
      exact ⟨hseat.starter, hseat.input, hseat.output, hseat.live⟩
    · rw [hrest (by omega)]
      exact h.seats j hjs
  · by_cases hjk : j = k
    · subst hjk
      rw [Machine.result?, hself] at hr
      cases hr
    · rw [Machine.result?, hrest (by omega)] at hr
      exact h.fine j hjs r hr
  · obtain ⟨ended, next, hjoin, hcount⟩ := h.joins
    refine ⟨ended, next, ?_, ?_⟩
    -- The starter is none of the stages.
    · rw [hrest (by omega)]
      exact hjoin
    · rw [count_congr hdone]
      exact hcount
  · rcases h.events event he with hr | ⟨j, hj, heq, hd⟩
    · exact .inl hr
    · exact .inr ⟨j, hj, heq, (hdone j).2 hd⟩
  · by_cases hjk : j = k
    · subst hjk
      rw [hseat.input, hseat.output] at hj
      have hstands := h.stands j hk
      rw [hp] at hstands
      rw [hself]
      cases hstands with
      | active _ hh => exact .active hj hh
    · rw [hrest (by omega)]
      exact h.stands j hjs

/-- **Every turn** keeps the pipeline flowing, until all stages have ended. -/
theorem Flows.turn (h : line.Flows m) (ht : m.Turn m') :
    line.Flows m' ∨ ∀ k < line.stages, line.IsDone m k := by
  cases ht with
  | @event event queue hp =>
    rcases h.events event ((hp.mem_iff event).2 (.inl rfl)) with ⟨i, rfl⟩ | ⟨k, -, rfl, -⟩
    · exact .inl (h.resume hp)
    · exact h.report hp
  | host =>
    rw [Machine.mapWorld_hostTurn h.asked]
    exact .inl h

/-! ## 4. Runs -/

/-- The three parts of a run. -/
inductive Course (line : Line) (m m' : Machine ρ) : Prop where
  | before (h : m' = m)
  | flows (h : line.Flows m')
  | after (hsize : line.task + line.stages ≤ m'.tasks.size)
      (h : ∀ k < line.stages, line.IsDone m' k)

/-- Stages that have ended stay so. -/
theorem course_of_done (hsize : line.task + line.stages ≤ m.tasks.size)
    (h : ∀ k < line.stages, line.IsDone m k) (ht : m.Turn m') : line.Course m₁ m' := by
  have hl := Machine.later_turn ht
  refine .after (Nat.le_trans hsize hl.size) fun k hk => ?_
  obtain ⟨r, hr⟩ := Option.isSome_iff_exists.1 (h k hk)
  rw [IsDone, hl.result _ (by omega) r hr]
  rfl

end Line

namespace Machine

/-- **A run of a pipeline** is in one of its three parts. -/
theorem AtPipeline.course (h : m.AtPipeline p stages capacity input output)
    (hpos : 1 ≤ stages) (hr : Relation.ReflTransGen (Moves m.tasks.size stages) m m') :
    (m.line p stages capacity input output).Course m m' := by
  induction hr with
  | refl => exact .before rfl
  | @tail m₁ m₂ _ hm ih =>
    cases ih with
    | before heq =>
      subst heq
      cases hm with
      | turn ht =>
        cases ht with
        | event hp =>
          -- The only turn there is starts the stages.
          obtain ⟨rfl, hq⟩ := hp.of_singleton h.queue
          exact .flows (h.flows hpos hq)
        | host =>
          rw [mapWorld_hostTurn h.asked]
          exact .before rfl
      | renewed _ hp _ =>
        -- There are no stages yet.
        have hlt := lt_size_of_result?_eq_none (result?_eq_none_of_active hp)
        omega
    | flows hf =>
      cases hm with
      | turn ht =>
        rcases hf.turn ht with hf' | hd
        · exact .flows hf'
        -- The last end has been noticed.
        · exact Line.course_of_done (Nat.le_of_eq hf.size.symm) hd ht
      | renewed hk hp hj => exact .flows (hf.renewed hk hp hj)
    | after hsize hd =>
      cases hm with
      | turn ht => exact Line.course_of_done hsize hd ht
      | renewed hk hp _ =>
        exact absurd (hd _ hk) (Line.not_isDone_iff.2 (result?_eq_none_of_active hp))

/-- A task can take a step: it has a turn to come, and neither what it reads nor what it writes
makes it wait then. -/
structure CanStep (m : Machine ρ) (i : Nat) : Prop where
  turn : .resume i ∈ m.world.queue.toList
  bytes : ¬ m.world.Dry (m.task i).input
  room : ¬ m.world.Clogged (m.task i).output

/-- **A pipeline does not deadlock.** Whatever its stages do with their own streams, as long as
one of them has not ended there is one that has not ended and can take a step. -/
theorem exists_canStep (h : m.AtPipeline p stages capacity input output) (hcap : 1 ≤ capacity)
    (hr : Relation.ReflTransGen (Moves m.tasks.size stages) m m') {k : Nat} (hk : k < stages)
    (hn : m'.result? (m.tasks.size + k) = none) :
    ∃ j < stages, m'.result? (m.tasks.size + j) = none ∧ m'.CanStep (m.tasks.size + j) := by
  have hd : ¬ (m.line p stages capacity input output).IsDone m' k :=
    Line.not_isDone_iff.2 hn
  cases h.course (Nat.lt_of_le_of_lt (Nat.zero_le k) hk) hr with
  | before heq =>
    subst heq
    have hlt := lt_size_of_result?_eq_none hn
    omega
  | flows hf =>
    -- One stage is not held up, and since it is attended to it has a turn to come.
    obtain ⟨j, hj, hdj, hdry, hclogged⟩ := hf.pipes.exists_free hcap hk hd
    have hres : m'.result? (m.tasks.size + j) = none := Line.not_isDone_iff.1 hdj
    have hseat := hf.seats j hj
    have hst := hf.stands j hj
    generalize hp : (m'.task ((m.line p stages capacity input output).task + j)).phase = phase
      at hst
    refine ⟨j, hj, hres, ?_⟩
    cases hst with
    | ended => exact absurd ((result?_eq_of_ended hp).symm.trans hres) (by simp)
    | active _ hh =>
      refine ⟨hh.resume hdry hclogged, ?_, ?_⟩
      · rw [← hseat.input] at hdry
        exact hdry
      · rw [← hseat.output] at hclogged
        exact hclogged
  | after _ hall => exact absurd (hall k hk) hd

/-- A code that writes two letters, and one that copies them. -/
def letterCodes : List (Exec Outcome) :=
  [do Exec.writeOutput "ab"; return .status 0, do Exec.copyInput; return .status 0]

theorem keepsToStreams_letterCodes : ∀ x ∈ letterCodes, x.KeepsToStreams := by
  intro x hx
  rcases List.mem_cons.1 hx with rfl | hx
  · exact (Exec.keepsToStreams_writeOutput "ab").bind fun _ => Exec.keepsToStreams_pure _
  · rw [List.mem_singleton.1 hx]
    exact Exec.keepsToStreams_copyInput.bind fun _ => Exec.keepsToStreams_pure _

/-- The context of a pipeline with room for one byte in each pipe. -/
def narrowContext : Context where
  limits := { pipeCapacity := 1 }
  spawner := []
  name := defaultName
  files := {}
  input := 0
  output := .sink 0
  errors := .sink 1

/-- A machine that is about to run the two codes. -/
def lettersToCopy : Machine Ending where
  tasks := #[{ phase := .active (Execution.stages letterCodes narrowContext { env := {} }
    fun r s => .finish ⟨r, s.env⟩) }]
  world := { inputs := #[.ofText ""], sinks := #[[], []], queue := ⟨[.resume 0], []⟩ }

theorem lettersToCopy_atPipeline : lettersToCopy.AtPipeline 0 2 1 0 (.sink 0) where
  job := by
    obtain ⟨stage, rest, hstage, heq⟩ := Execution.stages_eq_pipeline (c := narrowContext)
      (s := { env := {} }) keepsToStreams_letterCodes (Int.le_refl 1)
      fun r s => .finish ⟨r, s.env⟩
    exact ⟨stage, rest, congrArg Phase.active heq, hstage⟩
  live := rfl
  others := by
    intro i hi
    have hsize : lettersToCopy.tasks.size ≤ i := Nat.one_le_iff_ne_zero.2 hi
    exact ⟨.error .cancelled, by rw [result?, task_of_size_le hsize]; rfl⟩
  queue := rfl
  asked := rfl
  known := Nat.one_pos
  supply := fun he => by cases he
  inner := fun q hq => by cases hq
  outer := fun c hc => by cases hc

/-- The first stage has filled the pipe, and the second one goes on. -/
theorem lettersToCopy_canStep : ∃ j < 2, (lettersToCopy.run 2).result? (1 + j) = none ∧
    (lettersToCopy.run 2).CanStep (1 + j) := by
  have hr : Relation.ReflTransGen (Moves 1 2) lettersToCopy (lettersToCopy.run 2) :=
    Relation.ReflTransGen.mono (fun _ _ ht => Moves.turn ht) _ _ (turns_run 2 lettersToCopy)
  exact exists_canStep lettersToCopy_atPipeline (Nat.le_refl 1) hr Nat.two_pos rfl

end Machine

end Shell
