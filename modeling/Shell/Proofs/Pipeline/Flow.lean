/-
A pipeline in the course of running.

`Underway` is what every turn keeps from the start of the stages until all of them have ended or
one has failed, whatever the stages do: where they stand, that the ends which are closed are those
of the stages that have ended, and that their starter waits. The starter counts the ends that it
has been told of, and those that it has still to be told of are in the queue (`joins`). This is why
it does not go on too early: it goes on when the count is full, and then all stages have ended.

`Flows` adds that each stage has a job that keeps to its own streams and is attended to. Then a
turn of a stage goes in one of the ways of `StageTurn`, and a turn of anybody else does nothing
(`Flows.resume`). An end that is noticed is counted, or was the last one (`Flows.report`).
-/
import Shell.Proofs.Machine.Later
import Shell.Proofs.Pipeline.Attention
import Shell.Proofs.Pipeline.Line

set_option autoImplicit false

namespace Shell

variable {ρ : Type}

/-! ## 1. The turns of a stage -/

namespace Machine

variable {m : Machine ρ} {i s : Nat} {job : Job ρ} {w : World}

/-- A stage ends: it closes its ends, and its end is to be reported. -/
theorem resume_of_stage_ended {result : Except Abort ρ} (hp : (m.task i).phase = .active job)
    (hc : (m.task i).cancelled = false) (hs : (m.task i).starter = some s) (hne : s ≠ i)
    (hd : ∀ left abort next, (m.task s).phase ≠ .draining left abort next)
    (ha : job.advance i m.world = (w, .ended result)) :
    m.resume i = m.became i (.ended result)
      ((w.closeEnds (m.task i).input (m.task i).output).push (.report i false)) := by
  have hself := m.task_begun_self w (lt_size_of_result?_eq_none (result?_eq_none_of_active hp))
  have hstarter : ((m.became i (.ended result) w).task s).phase = (m.task s).phase :=
    congrArg Task.phase (task_became_of_ne _ _ hne)
  rw [resume_of_end hp hc ha]
  simp only [endTask, hself, hs, if_true, closeEnds_eq, setPhase_begun]
  -- A starter that is draining would be told a second time.
  split
  · next left abort next hdr => exact absurd (hstarter.symm.trans hdr) (hd left abort next)
  · rfl

/-- A task that waits for its stages does nothing in a turn. -/
theorem resume_of_joining {first stages ended : Nat} {next : Except Abort ρ → Job ρ}
    (hp : (m.task i).phase = .joining first stages ended next) : m.resume i = m := by
  simp only [resume, hp]

/-- A task that is told that a stage has ended with a result, and not the last one, goes on
waiting. -/
theorem report_of_joining {first stages ended : Nat} {result : ρ} {next : Except Abort ρ → Job ρ}
    (hs : (m.task i).starter = some s) (hr : m.result? i = some (.ok result))
    (hp : (m.task s).phase = .joining first stages ended next) (hlt : ended + 1 < stages) :
    m.report i false = m.setPhase s (.joining first stages (ended + 1) next) := by
  simp only [report, hs, hr, hp, if_pos hlt]

/-- When it is told of the last end it goes on with the result of the last stage. -/
theorem report_of_joined {first stages ended : Nat} {result : ρ} {last : Except Abort ρ}
    {next : Except Abort ρ → Job ρ} (hs : (m.task i).starter = some s)
    (hr : m.result? i = some (.ok result))
    (hp : (m.task s).phase = .joining first stages ended next) (hge : ¬ ended + 1 < stages)
    (hl : m.result? (first + stages - 1) = some last) :
    m.report i false = (m.setPhase s (.active (next last))).push (.resume s) := by
  simp only [report, hs, hr, hp, if_neg hge, hl]

/-- The queue does not matter to the pipes. -/
theorem alike_withQueue (m : Machine ρ) (queue : Queue Event) :
    m.world.Alike (m.withQueue queue).world :=
  World.alike_aside rfl rfl

end Machine

/-! ## 2. Ends that are to be noticed -/

/-- The end of a stage that is to be noticed. -/
def Event.isReport : Event → Bool
  | .report _ _ => true
  | _ => false

/-- An event that leaves the queue is counted off. -/
theorem Machine.Picks.countP {m : Machine ρ} {event : Event} {queue : Queue Event}
    (hp : m.Picks event queue) :
    m.world.queue.toList.countP Event.isReport =
      queue.toList.countP Event.isReport + if event.isReport = true then 1 else 0 := by
  obtain ⟨before, after, hm, hq⟩ := hp
  rw [hm, hq, List.countP_append, List.countP_append, List.countP_cons]
  omega

/-- Turns that come to the queue are no ends. -/
theorem countP_resumes (tasks : List Nat) :
    (tasks.map Event.resume).countP Event.isReport = 0 := by
  refine List.countP_eq_zero.2 fun e he => ?_
  obtain ⟨j, -, rfl⟩ := List.mem_map.1 he
  exact Bool.false_ne_true

/-- A wake-up does not change how many ends are to be noticed. -/
theorem World.Wakes.countP {w w' : World} (hw : w.Wakes w') :
    w'.queue.toList.countP Event.isReport = w.queue.toList.countP Event.isReport := by
  obtain ⟨tasks, hq⟩ := hw.queue
  rw [hq, List.countP_append, countP_resumes, Nat.add_zero]

theorem World.Wakes.mem {w w' : World} (hw : w.Wakes w') {event : Event}
    (he : event ∈ w'.queue.toList) : event ∈ w.queue.toList ∨ ∃ j, event = .resume j := by
  obtain ⟨tasks, hq⟩ := hw.queue
  rw [hq] at he
  rcases List.mem_append.1 he with he | he
  · exact .inl he
  · obtain ⟨j, -, rfl⟩ := List.mem_map.1 he
    exact .inr ⟨j, rfl⟩

/-- One more number of a range satisfies a condition. -/
theorem countP_range_insert {n k : Nat} {p q : Nat → Bool} (hk : k < n) (hp : p k = false)
    (hq : q k = true) (h : ∀ i, i ≠ k → q i = p i) :
    (List.range n).countP q = (List.range n).countP p + 1 := by
  induction n with
  | zero => omega
  | succ n ih =>
    rw [List.range_succ, List.countP_append, List.countP_append, List.countP_singleton,
      List.countP_singleton]
    by_cases hkn : k = n
    · subst hkn
      -- The new number is the last of the range.
      have hsame : (List.range k).countP q = (List.range k).countP p := by
        refine List.countP_congr fun i hi => ?_
        rw [h i (Nat.ne_of_lt (List.mem_range.1 hi))]
      rw [hsame, hp, hq]
      rfl
    · rw [ih (by omega), h n fun he => hkn he.symm]
      omega

namespace Line

/-! ## 3. What every turn keeps -/

/-- A stage has ended. -/
def IsDone (line : Line) (m : Machine ρ) (k : Nat) : Prop :=
  (m.result? (line.task + k)).isSome = true

/-- How many stages have ended. -/
def count (line : Line) (m : Machine ρ) : Nat :=
  (List.range line.stages).countP fun k => (m.result? (line.task + k)).isSome

/-- What a stage can be at: it has ended with a result, or it has a job of a stage to do and is
attended to. -/
inductive Stands (line : Line) (w : World) (k : Nat) : Phase ρ → Prop where
  | ended {result : ρ} : Stands line w k (.ended (.ok result))
  | active {job : Job ρ} (hj : job.IsStage (line.inputOf k) (line.outputOf k))
      (hh : w.Heeds (line.task + k) (line.inputOf k) (line.outputOf k)) :
      Stands line w k (.active job)

/-- What the task of a stage was given. -/
structure Seat (line : Line) (k : Nat) (task : Task ρ) : Prop where
  starter : task.starter = some line.starter
  input : task.input = line.inputOf k
  output : task.output = line.outputOf k
  live : task.cancelled = false

/-- What every turn keeps until all stages have ended or one has failed. -/
structure Underway (line : Line) (m : Machine ρ) : Prop where
  size : m.tasks.size = line.task + line.stages
  starter : line.starter < line.task
  /-- There are no other tasks with anything to do. -/
  others : ∀ i < line.task, i ≠ line.starter → ∃ r, m.result? i = some r
  asked : m.world.asked = []
  pipes : line.Pipes m.world (line.IsDone m)
  seats : ∀ k < line.stages, line.Seat k (m.task (line.task + k))
  fine : ∀ k < line.stages, ∀ r, m.result? (line.task + k) = some r → ∃ result, r = .ok result
  joins : ∃ ended next,
    (m.task line.starter).phase = .joining line.task line.stages ended next ∧
      ended + m.world.queue.toList.countP Event.isReport = line.count m
  events : ∀ event ∈ m.world.queue.toList, (∃ j, event = .resume j) ∨
    ∃ k < line.stages, event = .report (line.task + k) false ∧ line.IsDone m k

/-- A pipeline is under way, and every stage is attended to. -/
structure Flows (line : Line) (m : Machine ρ) : Prop extends Underway line m where
  stands : ∀ k < line.stages, line.Stands m.world k (m.task (line.task + k)).phase

variable {line : Line} {m m' : Machine ρ} {k : Nat} {queue : Queue Event}

theorem Underway.starter_lt (h : line.Underway m) : line.starter < m.tasks.size := by
  rw [h.size]
  exact Nat.lt_of_lt_of_le h.starter (Nat.le_add_right _ _)

theorem not_isDone_iff : ¬ line.IsDone m k ↔ m.result? (line.task + k) = none :=
  Option.not_isSome_iff_eq_none

/-- A stage that is done stands with its result. -/
theorem IsDone.phase (h : line.IsDone m k) :
    ∃ r, (m.task (line.task + k)).phase = .ended r := by
  obtain ⟨r, hr⟩ := Option.isSome_iff_exists.1 h
  exact ⟨r, Machine.result?_eq_some_iff.1 hr⟩

/-- If as many stages have ended as there are then all have. -/
theorem isDone_of_le_count (h : line.stages ≤ line.count m) :
    ∀ k < line.stages, line.IsDone m k := by
  have hle : line.count m ≤ (List.range line.stages).length := List.countP_le_length
  have hall : line.count m = (List.range line.stages).length := by
    rw [List.length_range] at hle ⊢
    omega
  exact fun k hk => List.countP_eq_length.1 hall k (List.mem_range.2 hk)

theorem Stands.attends {w w' : World} {phase : Phase ρ} (h : line.Stands w k phase)
    (ha : w.Attends w') : line.Stands w' k phase := by
  cases h with
  | ended => exact .ended
  | active hj hh => exact .active hj (ha.heeds hh)

/-- A stage that is attended to in spite of an event that has left the queue. -/
theorem Stands.withQueue {phase : Phase ρ} {event : Event}
    (h : line.Stands m.world k phase) (hp : m.Picks event queue)
    (hne : event = .resume (line.task + k) → ∃ r, phase = .ended r) :
    line.Stands (m.withQueue queue).world k phase := by
  cases h with
  | ended => exact .ended
  | active hj hh =>
    refine .active hj ?_
    cases hh with
    | turn he =>
      rcases (hp.mem_iff _).1 he with heq | he
      · obtain ⟨r, hr⟩ := hne heq.symm
        cases hr
      · exact .turn he
    | bytes hs he hw => exact .bytes hs he hw
    | room ho hopen hf hw => exact .room ho hopen hf hw

/-! ## 4. The steps -/

/-- After a turn of one stage, a stage has ended if it had before, or if it is this one and has
ended now. -/
theorem isDone_became {phase : Phase ρ} {w : World} (hlt : line.task + k < m.tasks.size)
    (j : Nat) :
    line.IsDone (m.became (line.task + k) phase w) j ↔
      if j = k then ∃ r, phase = .ended r else line.IsDone m j := by
  unfold IsDone
  by_cases hj : j = k
  · subst hj
    rw [if_pos rfl, Option.isSome_iff_exists]
    simp only [Machine.result?_eq_some_iff, Machine.task_became_self _ _ hlt]
  · rw [if_neg hj, Machine.result?_became_of_ne _ _ (by omega)]

/-- A stage has had a turn, and has ended now or not. -/
theorem Underway.became (h : line.Underway m) (hk : k < line.stages)
    (hp : m.Picks (.resume (line.task + k)) queue)
    (hn : m.result? (line.task + k) = none) {phase : Phase ρ} {w : World} (hasked : w.asked = [])
    (hpipes : line.Pipes w
      (line.IsDone ((m.withQueue queue).became (line.task + k) phase w)))
    (hphase : ∀ r, phase = .ended r → ∃ result, r = .ok result)
    (hcount : w.queue.toList.countP Event.isReport + line.count m =
      queue.toList.countP Event.isReport +
        line.count ((m.withQueue queue).became (line.task + k) phase w))
    (hevents : ∀ event ∈ w.queue.toList, event ∈ queue.toList ∨ (∃ j, event = .resume j) ∨
      event = .report (line.task + k) false ∧ ∃ r, phase = .ended r) :
    line.Underway ((m.withQueue queue).became (line.task + k) phase w) := by
  have hlt : line.task + k < (m.withQueue queue).tasks.size := by
    show line.task + k < m.tasks.size
    rw [h.size]
    omega
  have hmono (j : Nat) (hj : line.IsDone m j) :
      line.IsDone ((m.withQueue queue).became (line.task + k) phase w) j := by
    have hjk : j ≠ k := by
      rintro rfl
      rw [IsDone, hn] at hj
      cases hj
    rw [isDone_became hlt, if_neg hjk]
    exact hj
  refine ⟨?_, h.starter, ?_, hasked, hpipes, ?_, ?_, ?_, ?_⟩
  · rw [Machine.size_became]
    exact h.size
  · intro i hi hne
    rw [Machine.result?_became_of_ne _ _ (by omega)]
    exact h.others i hi hne
  · intro j hj
    have hseat := h.seats j hj
    by_cases hjk : j = k
    · subst hjk
      rw [Machine.task_became_self _ _ hlt]
      exact ⟨hseat.starter, hseat.input, hseat.output, hseat.live⟩
    · rw [Machine.task_became_of_ne _ _ (by omega)]
      exact hseat
  · intro j hj r hr
    by_cases hjk : j = k
    · subst hjk
      rw [Machine.result?_eq_some_iff, Machine.task_became_self _ _ hlt] at hr
      exact hphase r hr
    · rw [Machine.result?_became_of_ne _ _ (by omega)] at hr
      exact h.fine j hj r hr
  · obtain ⟨ended, next, hj, hc⟩ := h.joins
    have hst := h.starter
    refine ⟨ended, next, ?_, ?_⟩
    · rw [Machine.task_became_of_ne _ _ (by omega)]
      exact hj
    -- What has left the queue was a turn, so the ends that are to be noticed are still there.
    · have hpick := hp.countP
      rw [if_neg (by simp [Event.isReport]), Nat.add_zero] at hpick
      rw [Machine.world_became]
      omega
  · intro event he
    rcases hevents event he with he | he | ⟨rfl, hend⟩
    -- A stage that had ended is not the one that has had the turn.
    · have hm := (hp.mem_iff event).2 (.inr he)
      rcases h.events event hm with hr | ⟨j, hj, rfl, hd⟩
      · exact .inl hr
      · exact .inr ⟨j, hj, rfl, hmono j hd⟩
    · exact .inl he
    · exact .inr ⟨k, hk, rfl, by rw [isDone_became hlt, if_pos rfl]; exact hend⟩

/-- A stage has had a turn: it stands where it may, and the world attends to the others. -/
theorem Flows.stands_became (h : line.Flows m) (hk : k < line.stages)
    (hp : m.Picks (.resume (line.task + k)) queue) {phase : Phase ρ} {w : World}
    (hatt : (m.withQueue queue).world.Attends w) (hphase : line.Stands w k phase) :
    ∀ j < line.stages, line.Stands w j
      (((m.withQueue queue).became (line.task + k) phase w).task (line.task + j)).phase := by
  have hlt : line.task + k < (m.withQueue queue).tasks.size := by
    show line.task + k < m.tasks.size
    rw [h.size]
    omega
  intro j hj
  by_cases hjk : j = k
  · subst hjk
    rw [Machine.task_became_self _ _ hlt]
    exact hphase
  · rw [Machine.task_became_of_ne _ _ (by omega)]
    refine ((h.stands j hj).withQueue hp fun he => ?_).attends hatt
    have := Event.resume.inj he
    omega

/-- After a turn in which a stage has not ended, the same stages have ended as before. -/
theorem isDone_became_active (hlt : line.task + k < m.tasks.size)
    (hn : m.result? (line.task + k) = none) {job : Job ρ} {w : World} (j : Nat) :
    line.IsDone (m.became (line.task + k) (.active job) w) j ↔ line.IsDone m j := by
  rw [isDone_became hlt]
  by_cases hj : j = k
  · subst hj
    rw [if_pos rfl, IsDone, hn]
    simp
  · rw [if_neg hj]

theorem isDone_became_ended (hlt : line.task + k < m.tasks.size) {r : Except Abort ρ} {w : World}
    (j : Nat) :
    line.IsDone (m.became (line.task + k) (.ended r) w) j ↔ line.IsDone m j ∨ j = k := by
  rw [isDone_became hlt]
  by_cases hj : j = k
  · rw [if_pos hj]
    exact ⟨fun _ => .inr hj, fun _ => ⟨r, rfl⟩⟩
  · rw [if_neg hj]
    exact ⟨.inl, fun he => he.resolve_right hj⟩

theorem count_congr (h : ∀ j, line.IsDone m' j ↔ line.IsDone m j) :
    line.count m' = line.count m :=
  List.countP_congr fun j _ => h j

/-- What is in the pipes does not matter to the line. -/
theorem Underway.pipes_alike (h : line.Underway m) {w : World}
    (hw : (m.withQueue queue).world.Alike w) : line.Pipes w (line.IsDone m) :=
  h.pipes.of_alike ((m.alike_withQueue queue).trans hw)

/-- A stage has done something and waits. -/
theorem Underway.waits (h : line.Underway m) (hk : k < line.stages)
    (hp : m.Picks (.resume (line.task + k)) queue) (hn : m.result? (line.task + k) = none)
    {w : World} (ha : (m.withQueue queue).world.Alike w)
    (hw : (m.withQueue queue).world.Wakes w) (job : Job ρ) :
    line.Underway ((m.withQueue queue).became (line.task + k) (.active job) w) := by
  have hlt : line.task + k < (m.withQueue queue).tasks.size :=
    Machine.lt_size_of_result?_eq_none hn
  have hdone (j : Nat) :
      line.IsDone ((m.withQueue queue).became (line.task + k) (.active job) w) j ↔
        line.IsDone m j :=
    isDone_became_active hlt hn j
  refine h.became hk hp hn (hw.asked.trans h.asked) ?_ (fun r he => by cases he) ?_ ?_
  · exact (h.pipes_alike ha).congr fun j _ => (hdone j).symm
  · rw [count_congr hdone]
    exact congrArg (· + line.count m) hw.countP
  · intro event he
    rcases hw.mem he with he | he
    · exact .inl he
    · exact .inr (.inl he)

/-- A stage has done something and ended. -/
theorem Underway.ends (h : line.Underway m) (hk : k < line.stages)
    (hp : m.Picks (.resume (line.task + k)) queue) (hn : m.result? (line.task + k) = none)
    {w : World} (ha : (m.withQueue queue).world.Alike w)
    (hw : (m.withQueue queue).world.Wakes w) (result : ρ) :
    line.Underway ((m.withQueue queue).became (line.task + k) (.ended (.ok result))
      ((w.closeEnds (line.inputOf k) (line.outputOf k)).push
        (.report (line.task + k) false))) := by
  have hlt : line.task + k < (m.withQueue queue).tasks.size :=
    Machine.lt_size_of_result?_eq_none hn
  have hclosed := (h.pipes_alike ha).closed hk
  have hwake := hw.trans (w.wakes_closeEnds (line.inputOf k) (line.outputOf k))
  generalize w.closeEnds (line.inputOf k) (line.outputOf k) = w₁ at hclosed hwake ⊢
  have hdone (j : Nat) : line.IsDone ((m.withQueue queue).became (line.task + k)
      (.ended (.ok result)) (w₁.push (.report (line.task + k) false))) j ↔
        line.IsDone m j ∨ j = k :=
    isDone_became_ended hlt j
  have hq : (w₁.push (.report (line.task + k) false)).queue.toList =
      w₁.queue.toList ++ [.report (line.task + k) false] := Queue.toList_push _ _
  refine h.became hk hp hn (hwake.asked.trans h.asked) ?_ (fun r he => ?_) ?_ ?_
  · have hpush : w₁.Alike (w₁.push (.report (line.task + k) false)) := World.alike_aside rfl rfl
    exact (hclosed.of_alike hpush).congr fun j _ => (hdone j).symm
  · exact ⟨result, (Phase.ended.inj he).symm⟩
  -- One more stage has ended, and one more end is to be noticed.
  · have hc : line.count ((m.withQueue queue).became (line.task + k) (.ended (.ok result))
        (w₁.push (.report (line.task + k) false))) = line.count m + 1 := by
      refine countP_range_insert hk (by rw [hn]; rfl) ((hdone k).2 (.inr rfl)) fun j hj => ?_
      refine Bool.eq_iff_iff.2 ?_
      exact (hdone j).trans ⟨fun he => he.resolve_right hj, .inl⟩
    have hcount := hwake.countP
    rw [hq, List.countP_append, hcount, hc]
    show queue.toList.countP Event.isReport + 1 + _ = _
    omega
  · intro event he
    rw [hq] at he
    rcases List.mem_append.1 he with he | he
    · rcases hwake.mem he with he | he
      · exact .inl he
      · exact .inr (.inl he)
    · exact .inr (.inr ⟨List.mem_singleton.1 he, _, rfl⟩)

/-- A stage has worked and waits for something. -/
theorem Flows.waits (h : line.Flows m) (hk : k < line.stages)
    (hp : m.Picks (.resume (line.task + k)) queue) (hn : m.result? (line.task + k) = none)
    {w : World} (hw : (m.withQueue queue).world.Works w) (c : Nat) {job : Job ρ}
    (hj : job.IsStage (line.inputOf k) (line.outputOf k))
    (hh : (w.wait c (line.task + k)).Heeds (line.task + k) (line.inputOf k) (line.outputOf k)) :
    line.Flows ((m.withQueue queue).became (line.task + k) (.active job)
      (w.wait c (line.task + k))) where
  toUnderway := h.toUnderway.waits hk hp hn (hw.toAlike.trans (w.alike_wait c _))
    (hw.wakes.trans (w.wakes_wait c _)) job
  stands := h.stands_became hk hp (hw.attends.trans (w.attends_wait c _)) (.active hj hh)

/-- A stage has worked and ended. -/
theorem Flows.ends (h : line.Flows m) (hk : k < line.stages)
    (hp : m.Picks (.resume (line.task + k)) queue) (hn : m.result? (line.task + k) = none)
    {w : World} (hw : (m.withQueue queue).world.Works w) (result : ρ) :
    line.Flows ((m.withQueue queue).became (line.task + k) (.ended (.ok result))
      ((w.closeEnds (line.inputOf k) (line.outputOf k)).push
        (.report (line.task + k) false))) where
  toUnderway := h.toUnderway.ends hk hp hn hw.toAlike hw.wakes result
  stands := by
    have hclose := w.attends_closeEnds (line.inputOf k) (line.outputOf k)
    exact h.stands_became hk hp ((hw.attends.trans hclose).trans (World.attends_push _ _)) .ended

/-- An event that does nothing leaves the queue. -/
theorem Underway.dropped (h : line.Underway m) {event : Event} (hp : m.Picks event queue)
    (hr : event.isReport = false) : line.Underway (m.withQueue queue) := by
  have hpipes := h.pipes.of_alike (m.alike_withQueue queue)
  refine ⟨h.size, h.starter, h.others, h.asked, hpipes, h.seats, h.fine, ?_,
    fun e he => h.events e ((hp.mem_iff e).2 (.inr he))⟩
  obtain ⟨ended, next, hj, hc⟩ := h.joins
  have hpick := hp.countP
  rw [hr, if_neg Bool.false_ne_true, Nat.add_zero] at hpick
  refine ⟨ended, next, hj, ?_⟩
  show ended + queue.toList.countP Event.isReport = line.count m
  omega

/-- A turn is that of a stage that has not ended, or it does nothing. -/
theorem Underway.resume_cases (h : line.Underway m) {i : Nat} (hp : m.Picks (.resume i) queue) :
    (∃ k < line.stages, i = line.task + k ∧ m.result? (line.task + k) = none) ∨
      (m.withQueue queue).resume i = m.withQueue queue ∧
        ∀ k < line.stages, i = line.task + k → line.IsDone m k := by
  -- A task that has ended does nothing, and neither does the starter, who waits for reports.
  cases hres : m.result? i with
  | some r =>
    refine .inr ⟨Machine.resume_of_result? (m := m.withQueue queue) hres, fun k hk he => ?_⟩
    rw [IsDone, ← he, hres]
    rfl
  | none =>
    have hlt := Machine.lt_size_of_result?_eq_none hres
    by_cases his : i = line.starter
    · obtain ⟨ended, next, hjoin, -⟩ := h.joins
      rw [← his] at hjoin
      refine .inr ⟨Machine.resume_of_joining (m := m.withQueue queue) hjoin, fun k hk he => ?_⟩
      have := h.starter
      omega
    · -- What is left is a stage that has not ended.
      have hge : line.task ≤ i := by
        refine Nat.le_of_not_lt fun hi => ?_
        obtain ⟨r, hr⟩ := h.others i hi his
        rw [hres] at hr
        cases hr
      obtain ⟨k, rfl⟩ := Nat.exists_eq_add_of_le hge
      rw [h.size] at hlt
      exact .inl ⟨k, by omega, rfl, hres⟩

/-- The end of a stage that comes to its end is written down, and its starter is to be told. -/
theorem Underway.resume_ended (h : line.Underway m) (hk : k < line.stages) {job : Job ρ}
    {w : World} {r : Except Abort ρ} (hph : (m.task (line.task + k)).phase = .active job)
    (hadv : job.advance (line.task + k) (m.withQueue queue).world = (w, .ended r)) :
    (m.withQueue queue).resume (line.task + k) =
      (m.withQueue queue).became (line.task + k) (.ended r)
        ((w.closeEnds (line.inputOf k) (line.outputOf k)).push (.report (line.task + k) false)) := by
  have hseat := h.seats k hk
  have hs := h.starter
  obtain ⟨ended, next, hjoin, -⟩ := h.joins
  have hne (left : Nat) (abort : Abort) (rest : Except Abort ρ → Job ρ) :
      (m.task line.starter).phase ≠ .draining left abort rest := by
    rw [hjoin]
    exact fun he => by cases he
  -- The starter waits for all stages and has not been told of a failure.
  rw [Machine.resume_of_stage_ended (m := m.withQueue queue) hph hseat.live hseat.starter
    (by omega) hne hadv]
  show (m.withQueue queue).became (line.task + k) _
    ((w.closeEnds (m.task (line.task + k)).input (m.task (line.task + k)).output).push _) = _
  rw [hseat.output, hseat.input]

/-- A turn of a stage that has not ended. -/
theorem Flows.resume_stage (h : line.Flows m) (hk : k < line.stages)
    (hp : m.Picks (.resume (line.task + k)) queue) (hn : m.result? (line.task + k) = none) :
    line.Flows ((m.withQueue queue).resume (line.task + k)) := by
  have hseat := h.seats k hk
  have hst := h.stands k hk
  generalize hph : (m.task (line.task + k)).phase = phase at hst
  cases hst with
  | ended =>
    rw [Machine.result?_eq_of_ended hph] at hn
    cases hn
  | @active job hj _ =>
    -- What the pipes are suits the stage, so its turn is one of the three.
    have hsuits := (h.pipes.of_alike (m.alike_withQueue queue)).suits hk (not_isDone_iff.2 hn)
    have hturn := hj.turn (line.task + k) hsuits
    rcases hadv : job.advance (line.task + k) (m.withQueue queue).world with ⟨w', phase'⟩
    rw [hadv] at hturn
    cases hturn with
    | ends hw =>
      rw [h.resume_ended hk hph hadv]
      exact h.ends hk hp hn hw _
    | @reads w₁ pipe _ hw hs he hj' =>
      rw [Machine.resume_of_waiting (m := m.withQueue queue) hph hseat.live hadv]
      have hlt := (h.pipes_alike hw.toAlike).lt_of_supply hk hs
      exact h.waits hk hp hn hw pipe hj'
        (.bytes hs (by rw [World.pipe_wait]; exact he) (World.mem_wait _ hlt))
    | @writes w₁ pipe _ hw ho hopen hf hj' =>
      rw [Machine.resume_of_waiting (m := m.withQueue queue) hph hseat.live hadv]
      have hlt := (h.pipes_alike hw.toAlike).lt_of_outputOf hk ho
      exact h.waits hk hp hn hw pipe hj'
        (.room ho (by rw [World.pipe_wait]; exact hopen) (by rw [World.pipe_wait]; exact hf)
          (World.mem_wait _ hlt))

/-- **A turn of a task.** It may be anybody's: a turn that is no longer needed stays in the
queue. -/
theorem Flows.resume (h : line.Flows m) {i : Nat} (hp : m.Picks (.resume i) queue) :
    line.Flows ((m.withQueue queue).resume i) := by
  rcases h.resume_cases hp with ⟨k, hk, rfl, hn⟩ | ⟨hidle, hd⟩
  · exact h.resume_stage hk hp hn
  · rw [hidle]
    refine ⟨h.dropped hp rfl, fun k hk => (h.stands k hk).withQueue hp fun he => ?_⟩
    exact (hd k hk (Event.resume.inj he)).phase

/-- The starter has been told of one more end. -/
theorem Underway.counted (h : line.Underway m) {event : Event} (hp : m.Picks event queue)
    (hr : event.isReport = true) {ended : Nat} {next : Except Abort ρ → Job ρ}
    (hj : (m.task line.starter).phase = .joining line.task line.stages ended next) :
    line.Underway ((m.withQueue queue).setPhase line.starter
      (.joining line.task line.stages (ended + 1) next)) := by
  have hst := h.starter
  have ht {i : Nat} (hi : i ≠ line.starter) : ((m.withQueue queue).setPhase line.starter
      (.joining line.task line.stages (ended + 1) next)).task i = m.task i :=
    Machine.task_modifyTask_of_ne (m := m.withQueue queue) _ hi
  have hdone (k : Nat) : line.IsDone ((m.withQueue queue).setPhase line.starter
      (.joining line.task line.stages (ended + 1) next)) k ↔ line.IsDone m k := by
    rw [IsDone, Machine.result?, ht (by omega)]
    rfl
  refine ⟨?_, hst, ?_, h.asked, ?_, ?_, ?_, ?_, ?_⟩
  · exact (Machine.size_modifyTask _ _ _).trans h.size
  · intro i hi hne
    rw [Machine.result?, ht hne]
    exact h.others i hi hne
  · exact (h.pipes.of_alike (m.alike_withQueue queue)).congr fun k _ => (hdone k).symm
  · intro k hk
    rw [ht (by omega)]
    exact h.seats k hk
  · intro k hk r hres
    rw [Machine.result?, ht (by omega)] at hres
    exact h.fine k hk r hres
  · obtain ⟨ended', next', hj', hc⟩ := h.joins
    -- One end has moved from the queue to the count of the starter.
    obtain ⟨-, -, rfl, rfl⟩ := Phase.joining.inj (hj.symm.trans hj')
    have hpick := hp.countP
    rw [hr, if_pos rfl] at hpick
    refine ⟨ended + 1, next, ?_, ?_⟩
    · exact congrArg Task.phase
        (Machine.task_modifyTask_self (m := m.withQueue queue) _ h.starter_lt)
    · rw [count_congr hdone]
      show ended + 1 + queue.toList.countP Event.isReport = line.count m
      omega
  · intro e he
    rcases h.events e ((hp.mem_iff e).2 (.inr he)) with hres | ⟨k, hk, heq, hd⟩
    · exact .inl hres
    · exact .inr ⟨k, hk, heq, (hdone k).2 hd⟩

/-- **The end of a stage is noticed.** It is counted, or all stages have ended and the starter goes
on with the result of the last one. -/
theorem Underway.report_cases (h : line.Underway m) {i : Nat} {late : Bool}
    (hp : m.Picks (.report i late) queue) :
    ∃ ended next, (m.task line.starter).phase = .joining line.task line.stages ended next ∧
      ((m.withQueue queue).report i late = (m.withQueue queue).setPhase line.starter
          (.joining line.task line.stages (ended + 1) next) ∧
        line.Underway ((m.withQueue queue).report i late) ∨
      (∀ k < line.stages, line.IsDone m k) ∧
        ∃ last, m.result? (line.task + line.stages - 1) = some last ∧
          (m.withQueue queue).report i late =
            ((m.withQueue queue).setPhase line.starter (.active (next last))).push
              (.resume line.starter)) := by
  have hmem := (hp.mem_iff _).2 (.inl rfl)
  rcases h.events _ hmem with ⟨j, hj⟩ | ⟨k, hk, he, hd⟩
  · cases hj
  obtain ⟨rfl, rfl⟩ := Event.report.inj he
  obtain ⟨ended, next, hjoin, hcount⟩ := h.joins
  -- The report that is taken was one of those that were counted.
  have hpick := hp.countP
  simp only [Event.isReport, if_true] at hpick
  obtain ⟨r, hres⟩ := Option.isSome_iff_exists.1 hd
  obtain ⟨result, rfl⟩ := h.fine k hk r hres
  refine ⟨ended, next, hjoin, ?_⟩
  by_cases hlt : ended + 1 < line.stages
  · have hreport :=
      Machine.report_of_joining (m := m.withQueue queue) (h.seats k hk).starter hres hjoin hlt
    refine .inl ⟨hreport, ?_⟩
    rw [hreport]
    exact h.counted hp rfl hjoin
  · -- The starter has been told of all ends but this one.
    have hall : ∀ k < line.stages, line.IsDone m k := isDone_of_le_count (by omega)
    obtain ⟨last, hlast⟩ := Option.isSome_iff_exists.1 (hall (line.stages - 1) (by omega))
    rw [← Nat.add_sub_assoc (by omega)] at hlast
    exact .inr ⟨hall, last, hlast, Machine.report_of_joined (m := m.withQueue queue)
      (h.seats k hk).starter hres hjoin hlt hlast⟩

theorem Flows.report (h : line.Flows m) {i : Nat} {late : Bool}
    (hp : m.Picks (.report i late) queue) :
    line.Flows ((m.withQueue queue).report i late) ∨ ∀ k < line.stages, line.IsDone m k := by
  obtain ⟨ended, next, hjoin, ⟨hreport, hway⟩ | ⟨hall, -⟩⟩ := h.report_cases hp
  · refine .inl ⟨hway, fun k hk => ?_⟩
    have hst := h.starter
    have ht : ((m.withQueue queue).report i late).task (line.task + k) =
        m.task (line.task + k) := by
      rw [hreport]
      exact Machine.task_modifyTask_of_ne (m := m.withQueue queue) _ (by omega)
    have hworld : ((m.withQueue queue).report i late).world = (m.withQueue queue).world := by
      rw [hreport]
      rfl
    rw [ht, hworld]
    exact (h.stands k hk).withQueue hp fun he => by cases he
  · exact .inr hall

end Line

end Shell
