/-
The roster of a machine.

Of a machine a `Roster` keeps all but the world, and of the world the reports that are to come. What is
done in a turn shows there: a task comes to another phase, ends, starts a pipeline, or has it cancelled.

Only cancelling goes further than one task. A task that waits for its stages is told to end together
with them, so that a stage which is to end always has a starter that is to end as well or has given
up waiting for results (`IsSteady`).
-/
import Shell.Proofs.Job.Ends
import Shell.Proofs.Machine.Batch
import Shell.Proofs.Machine.Start

set_option autoImplicit false

namespace Shell

variable {ρ : Type}

namespace Machine

variable {m m' : Machine ρ} {i : Nat}

/-! ## 1. The roster of a machine

The functions of the machine change its world and its tasks in many small steps. Of each of them there is one
equation here, which says what the roster is afterwards. What is proved of rosters in the other modules needs no
more than these. -/

/-- The machine without its world. -/
def roster (m : Machine ρ) : Roster ρ where
  size := m.tasks.size
  starter k := (m.task k).starter
  cancelled k := (m.task k).cancelled
  phase k := (m.task k).phase
  reports := m.world.reports

/-- Of the world only the reports count. -/
theorem roster_mapWorld {f : World → World} (h : m.world.SameReports (f m.world)) :
    (m.mapWorld f).roster = m.roster :=
  congrArg (fun reports => { m.roster with reports := reports }) h

/-- An event that is a report is one report more to come. -/
theorem roster_push (m : Machine ρ) (event : Event) :
    (m.push event).roster = m.roster.tellAll event.report?.toList :=
  congrArg (fun reports => { m.roster with reports := reports }) (m.world.reports_push event)

/-- A turn to come is no news. -/
theorem roster_push_resume (m : Machine ρ) (k : Nat) : (m.push (.resume k)).roster = m.roster :=
  (m.roster_push _).trans (by simp [Roster.tellAll, Event.report?])

/-- A change of a task that shows in its phase alone. -/
theorem roster_modifyTask (hi : i < m.tasks.size) {f : Task ρ → Task ρ}
    (hs : (f (m.task i)).starter = (m.task i).starter)
    (hc : (f (m.task i)).cancelled = (m.task i).cancelled) :
    (m.modifyTask i f).roster = m.roster.setPhase i (f (m.task i)).phase := by
  -- What a task keeps is the same of all tasks after the change.
  have field {α : Type} (g : Task ρ → α) (hg : g (f (m.task i)) = g (m.task i)) :
      (fun k => g ((m.modifyTask i f).task k)) = fun k => g (m.task k) := by
    funext k
    by_cases hk : k = i
    · subst hk
      rw [task_modifyTask_self f hi, hg]
    · rw [task_modifyTask_of_ne f hk]
  refine Roster.ext (size_modifyTask m i f) (field _ hs) (field _ hc) ?_ rfl
  funext k
  by_cases hk : k = i
  · subst hk
    exact (congrArg Task.phase (task_modifyTask_self f hi)).trans (m.roster.phase_setPhase_self k _).symm
  · exact (congrArg Task.phase (task_modifyTask_of_ne f hk)).trans (Roster.phase_setPhase_of_ne (r := m.roster) _ hk).symm

/-- A phase that is set shows as such. -/
theorem roster_setPhase (hi : i < m.tasks.size) (phase : Phase ρ) :
    (m.setPhase i phase).roster = m.roster.setPhase i phase :=
  roster_modifyTask hi rfl rfl

/-- A task that has had a turn and comes to another phase shows in its phase alone: that it has started is not kept,
and of its new world only the reports are. -/
theorem roster_became (hi : i < m.tasks.size) (phase : Phase ρ) {w : World}
    (hw : m.world.SameReports w) : (m.became i phase w).roster = m.roster.setPhase i phase :=
  (congrArg (fun reports =>
    { (m.modifyTask i fun t => { t with started := true, phase := phase }).roster with
      reports := reports }) hw).trans (roster_modifyTask hi rfl rfl)

/-- A task that has had a turn is at the same. -/
theorem roster_begun (hi : i < m.tasks.size) {w : World} (hw : m.world.SameReports w) :
    (m.begun i w).roster = m.roster := by
  have hsame : m.roster.setPhase i (m.task i).phase = m.roster :=
    Roster.ext rfl rfl rfl (Function.update_eq_self i m.roster.phase) rfl
  exact (congrArg (fun reports => { (m.modifyTask i fun t => { t with started := true }).roster with
    reports := reports }) hw).trans ((roster_modifyTask hi rfl rfl).trans hsame)

/-- The end of a task that has a job. -/
theorem roster_endTask {job : Job ρ} (hp : (m.task i).phase = .active job)
    (result : Except Abort ρ) : (m.endTask i result).roster = m.roster.finish i result := by
  have hi := lt_size_of_result?_eq_none (result?_eq_none_of_active hp)
  -- In the roster the task has ended. What is left is whether its starter is told, and how.
  have hset := roster_setPhase hi (.ended result)
  unfold endTask Roster.finish Roster.newsOf
  simp only
  have hstarter : m.roster.starter i = (m.task i).starter := rfl
  rw [hstarter]
  cases (m.task i).starter with
  | none => exact hset.trans (by simp [Roster.tellAll])
  | some q =>
    simp only
    -- The ends may be closed in between, which shows nowhere but in the world.
    have hclosed : (if (m.task i).started = true
        then (m.setPhase i (.ended result)).closeEnds (m.task i)
        else m.setPhase i (.ended result)).roster = m.roster.setPhase i (.ended result) := by
      split
      · rw [closeEnds_eq]
        exact (roster_mapWorld (World.sameReports_closeEnds _ _ _)).trans hset
      · exact hset
    generalize (if (m.task i).started = true
      then (m.setPhase i (.ended result)).closeEnds (m.task i)
      else m.setPhase i (.ended result)) = m₁ at hclosed ⊢
    have htold : (m₁.push (.report i false)).roster =
        (m.roster.setPhase i (.ended result)).tellAll [(i, false)] := by
      rw [roster_push, hclosed]
      rfl
    have hphase : ((m₁.push (.report i false)).task q).phase =
        (m.roster.setPhase i (.ended result)).phase q :=
      congrFun (congrArg Roster.phase htold) q
    rw [hphase]
    -- A starter that drains a pipeline gets a second report, which is late. It is another task, since this one had
    -- a job.
    by_cases hqi : q = i
    · subst hqi
      have hq : m.roster.phase q = .active job := hp
      rw [Roster.phase_setPhase_self, hq]
      exact htold
    · rw [Roster.phase_setPhase_of_ne _ hqi]
      cases m.roster.phase q with
      | draining left abort next =>
        simp only
        rw [roster_push, htold]
        simp [Roster.tellAll, Event.report?]
      | active | starting | joining | failing | ended => exact htold

/-! ## 2. Pipelines

The stages are started one at a time, each of them with the pipe to the next. For the roster it is one change: there
are so many tasks more, all of the same starter, and that starter waits for them. -/

section

variable {stages capacity input : Nat} {output : Output} {stage : Nat → Nat → Output → Job ρ}
  {next : Except Abort ρ → Job ρ}

/-- The turn of a task that comes to a pipeline at its end. -/
theorem resume_of_starting {job : Job ρ} {w : World} (hp : (m.task i).phase = .active job)
    (hc : (m.task i).cancelled = false)
    (ha : job.advance i m.world = (w, .starting stages capacity input output stage next)) :
    m.resume i = startStages i capacity output stage stages 0 input
      (m.became i (.joining m.tasks.size stages 0 next) w) := by
  have hw : (m.begun i m.world).world = m.world := rfl
  have hsize : (m.begun i m.world).tasks.size = m.tasks.size := size_modifyTask m i _
  rw [resume_of_active hp hc, go, hw, ha]
  exact congrArg (startStages i capacity output stage stages 0 input)
    ((congrArg (fun n => (m.begun i w).setPhase i (.joining n stages 0 next)) hsize).trans
      (m.setPhase_begun i _ w))

/-- What is new after the start of a pipeline: its stages, each with a job. -/
structure Joined (stage : Nat → Nat → Output → Job ρ) (m : Machine ρ) (i stages : Nat)
    (m' : Machine ρ) : Prop where
  size : m'.tasks.size = m.tasks.size + stages
  old : ∀ k < m.tasks.size, m'.task k = m.task k
  new : ∀ k < stages, ∃ index input output, m'.task (m.tasks.size + k) =
    { phase := .active (stage index input output), starter := i, input := input, output := output }
  reports : m.world.SameReports m'.world

/-- The loop that starts the stages leaves the machine so, also if it has none to start. -/
theorem joined_startStages (m : Machine ρ) (i : Nat) :
    Joined stage m i stages
      (startStages i capacity output stage stages 0 input m) := by
  cases stages with
  | zero => exact ⟨rfl, fun _ _ => rfl, fun k hk => absurd hk (Nat.not_lt_zero k), rfl⟩
  | succ stages =>
    have hst := started i capacity output stage (stages + 1) 0 input m (by omega)
    exact ⟨hst.size, hst.oldTask, fun k hk => ⟨_, _, _, hst.newTask k hk⟩,
      World.sameReports_of_resumes hst.queue⟩

/-- The stages that have been started are those that the task waits for. -/
theorem starts_of_joined {w : World} (hi : i < m.tasks.size) (hw : m.world.SameReports w)
    (h : Joined stage (m.became i (.joining m.tasks.size stages 0 next) w) i stages m') :
    m.roster.Starts i stages stage next m'.roster := by
  have hsize : (m.became i (.joining m.tasks.size stages 0 next) w).tasks.size = m.tasks.size :=
    size_became m i _ w
  -- The other tasks are those that were there, the starter waits, the stages are new, and there is nothing beyond
  -- them.
  have hold {k : Nat} (hk : k < m.tasks.size) (hki : k ≠ i) : m'.task k = m.task k :=
    (h.old k (by rw [hsize]; exact hk)).trans (task_became_of_ne _ w hki)
  have hself : m'.task i =
      { m.task i with started := true, phase := .joining m.tasks.size stages 0 next } :=
    (h.old i (by rw [hsize]; exact hi)).trans (task_became_self _ w hi)
  have hnew {k : Nat} (hk : m.tasks.size ≤ k) (hk' : k < m.tasks.size + stages) :
      ∃ index input output, m'.task k =
        { phase := .active (stage index input output), starter := i, input := input,
          output := output } := by
    obtain ⟨j, rfl⟩ := Nat.exists_eq_add_of_le hk
    have ht := h.new j (by omega)
    rwa [hsize] at ht
  have hbeyond {k : Nat} (hk : m.tasks.size + stages ≤ k) : m'.task k = m.task k := by
    rw [task_of_size_le (by rw [h.size, hsize]; exact hk), task_of_size_le (by omega)]
  refine ⟨h.size.trans (congrArg (· + stages) hsize), fun k hk hk' => ?_, fun k hk => ?_, ?_,
    congrArg Task.phase hself, fun k hk hk' => ?_, fun k hk hki => congrArg Task.phase (hold hk hki),
    Eq.trans h.reports hw⟩
  · obtain ⟨index, input, output, ht⟩ := hnew hk hk'
    exact congrArg Task.starter ht
  · have hk' : ¬ (m.tasks.size ≤ k ∧ k < m.tasks.size + stages) := hk
    by_cases hlt : k < m.tasks.size
    · by_cases hki : k = i
      · subst hki
        show (m'.task k).starter = (m.task k).starter
        rw [hself]
      · exact congrArg Task.starter (hold hlt hki)
    · exact congrArg Task.starter (hbeyond (by omega))
  · funext k
    by_cases hlt : k < m.tasks.size
    · by_cases hki : k = i
      · subst hki
        show (m'.task k).cancelled = (m.task k).cancelled
        rw [hself]
      · exact congrArg Task.cancelled (hold hlt hki)
    · have hdefault : (m.task k).cancelled = false := by
        rw [task_of_size_le (Nat.not_lt.mp hlt)]
        rfl
      by_cases hk : k < m.tasks.size + stages
      · obtain ⟨index, input, output, ht⟩ := hnew (Nat.not_lt.mp hlt) hk
        exact (congrArg Task.cancelled ht).trans hdefault.symm
      · exact congrArg Task.cancelled (hbeyond (Nat.not_lt.mp hk))
  · obtain ⟨index, input, output, ht⟩ := hnew hk hk'
    exact ⟨_, _, _, congrArg Task.phase ht⟩

end

/-! ## 3. Cancelling

A task that is told to end tells the stages that it waits for, and these tell theirs. All of this changes only who
is to end (`Spares`). What has to be kept is that a stage is told only together with its starter (`IsSteady`), as
long as the starter still waits for results. -/

/-- Cancelling changes who is to end and nothing else of the roster. -/
structure Spares (m m' : Machine ρ) : Prop where
  size : m'.tasks.size = m.tasks.size
  starter : ∀ k, (m'.task k).starter = (m.task k).starter
  phase : ∀ k, (m'.task k).phase = (m.task k).phase
  grows : ∀ k, (m.task k).cancelled = true → (m'.task k).cancelled = true
  reports : m.world.SameReports m'.world

theorem Spares.refl (m : Machine ρ) : m.Spares m :=
  ⟨rfl, fun _ => rfl, fun _ => rfl, fun _ h => h, rfl⟩

theorem Spares.trans {m₁ : Machine ρ} (h : m.Spares m₁) (h' : m₁.Spares m') : m.Spares m' where
  size := h'.size.trans h.size
  starter k := (h'.starter k).trans (h.starter k)
  phase k := (h'.phase k).trans (h.phase k)
  grows k hk := h'.grows k (h.grows k hk)
  reports := Eq.trans h'.reports h.reports

/-- A task that is told to end. -/
def flag (m : Machine ρ) (i : Nat) : Machine ρ :=
  m.modifyTask i fun t => { t with cancelled := true }

/-- The other tasks are not told. -/
theorem task_flag_of_ne {k : Nat} (h : k ≠ i) : (m.flag i).task k = m.task k :=
  task_modifyTask_of_ne _ h

theorem task_flag_self (hi : i < m.tasks.size) :
    (m.flag i).task i = { m.task i with cancelled := true } := task_modifyTask_self _ hi

/-- Telling a task to end is no more than that. A number beyond the tasks tells nobody. -/
theorem spares_flag (m : Machine ρ) (i : Nat) : m.Spares (m.flag i) := by
  have hcases (k : Nat) : (m.flag i).task k = m.task k ∨
      (m.flag i).task k = { m.task k with cancelled := true } := by
    by_cases hk : k = i
    · subst hk
      rcases Nat.lt_or_ge k m.tasks.size with hlt | hge
      · exact .inr (task_flag_self hlt)
      · have hge' : (m.flag k).tasks.size ≤ k := (size_modifyTask m k _).trans_le hge
        exact .inl (by rw [task_of_size_le hge', task_of_size_le hge])
    · exact .inl (task_flag_of_ne hk)
  refine ⟨size_modifyTask m i _, fun k => ?_, fun k => ?_, fun k hc => ?_, rfl⟩
  · rcases hcases k with h | h <;> rw [h]
  · rcases hcases k with h | h <;> rw [h]
  · rcases hcases k with h | h <;> rw [h]
    exact hc

/-- A task that waits for a pipe and is woken has not come any further yet. -/
theorem spares_wake (m : Machine ρ) (i : Nat) :
    m.Spares ((m.mapWorld fun w => w.unwait i).push (.resume i)) where
  size := rfl
  starter _ := rfl
  phase _ := rfl
  grows _ h := h
  reports := by
    show ((m.world.unwait i).push (.resume i)).reports = m.world.reports
    rw [World.reports_push]
    exact (List.append_nil _).trans (m.world.sameReports_unwait i)

/-- However deep it goes, cancelling only tells tasks to end, so the facts above hold of all of it. -/
theorem spares_cancel (depth i : Nat) (m : Machine ρ) : m.Spares (cancel depth i m) :=
  cancel_induction Spares.refl Spares.trans spares_flag spares_wake depth i m

/-- Who is to end, as the stages of a task that waits go with it. -/
def IsSteady (m : Machine ρ) : Prop := m.roster.Steady fun k => (m.task k).cancelled

/-- A stage is told to end only when its starter has been or does not wait for it any more. -/
def Lets (m : Machine ρ) (k : Nat) : Prop :=
  ∃ q, (m.task k).starter = some q ∧ ∀ first stages ended next,
    (m.task q).phase = .joining first stages ended next → (m.task q).cancelled = true

/-- Who may be told to end still may after others have been: the starter of a stage stays who it is, and stays told.
-/
theorem Spares.lets (h : m.Spares m') {k : Nat} (hk : m.Lets k) : m'.Lets k := by
  obtain ⟨q, hs, hj⟩ := hk
  refine ⟨q, (h.starter k).trans hs, fun first stages ended next hp => h.grows q ?_⟩
  exact hj first stages ended next ((h.phase q).symm.trans hp)

/-- Whoever waits for stages has started them. -/
def HasStarted (m : Machine ρ) : Prop :=
  ∀ q first stages ended next, (m.task q).phase = .joining first stages ended next →
    ∀ k, first ≤ k → k < first + stages → (m.task k).starter = some q

/-- Cancelling changes no starter and no phase, so whoever waits for stages has started them. -/
theorem Spares.hasStarted (h : m.Spares m') (hs : m.HasStarted) : m'.HasStarted := by
  intro q first stages ended next hp k hk hk'
  rw [h.starter]
  exact hs q first stages ended next ((h.phase q).symm.trans hp) k hk hk'

/-- Whom a task waits for is not changed by whom is told to end. -/
theorem Spares.steady (h : m.Spares m') (hm : m'.IsSteady) :
    m.roster.Steady fun k => (m'.task k).cancelled where
  root k hk := hm.root k ((h.starter k).trans hk)
  stages q first stages ended next hp hc :=
    hm.stages q first stages ended next ((h.phase q).trans hp) hc

/-- **One more task that is told to end.** If it is a stage, its starter has been told or does not wait for it, so
no stage is told before its starter. The task at the root is nobody's stage, so it is not the one. -/
theorem IsSteady.flag (h : m.IsSteady) (hs : m.HasStarted) (hl : m.Lets i) :
    (m.flag i).IsSteady := by
  have hspares := m.spares_flag i
  have hkept {k : Nat} (hk : k ≠ i) (hc : (m.task k).cancelled = false) :
      ((m.flag i).task k).cancelled = false := by rwa [task_flag_of_ne hk]
  have hback {k : Nat} (hc : ((m.flag i).task k).cancelled = false) :
      (m.task k).cancelled = false :=
    Bool.eq_false_iff.mpr fun ht => Bool.eq_false_iff.mp hc (hspares.grows k ht)
  obtain ⟨q, hq, hwait⟩ := hl
  refine ⟨fun k hk => ?_, fun p first stages ended next hp hc k hk hk' => ?_⟩
  · have hroot : (m.task k).starter = none := (hspares.starter k).symm.trans hk
    refine hkept (fun hki => ?_) (h.root k hroot)
    rw [hki, hq] at hroot
    cases hroot
  · have hphase : (m.task p).phase = .joining first stages ended next :=
      (hspares.phase p).symm.trans hp
    refine hkept (fun hki => ?_) (h.stages p first stages ended next hphase (hback hc) k hk hk')
    -- The task that waits for this one has been told to end, or does not wait.
    subst hki
    have hqp : q = p := Option.some.inj (hq.symm.trans (hs p first stages ended next hphase k hk hk'))
    subst hqp
    have hset := hwait first stages ended next hphase
    rw [hback hc] at hset
    cases hset

/-- What keeps it for one task keeps it for several. -/
theorem IsSteady.foldl {f : Machine ρ → Nat → Machine ρ}
    (hspares : ∀ (m : Machine ρ) i, m.Spares (f m i))
    (hf : ∀ (m : Machine ρ) i, m.IsSteady → m.HasStarted → m.Lets i → (f m i).IsSteady)
    (tasks : List Nat)
    (h : m.IsSteady) (hs : m.HasStarted) (hl : ∀ k ∈ tasks, m.Lets k) :
    (tasks.foldl f m).IsSteady := by
  induction tasks generalizing m with
  | nil => exact h
  | cons k tasks ih =>
    have hk := hspares m k
    exact ih (hf m k h hs (hl k List.mem_cons_self)) (hk.hasStarted hs) fun j hj =>
      hk.lets (hl j (List.mem_cons_of_mem k hj))

/-- **A task that is cancelled takes its stages with it.** By induction on the depth to which stages have stages of
their own. -/
theorem IsSteady.cancel (depth : Nat) (h : m.IsSteady) (hs : m.HasStarted) (hl : m.Lets i) :
    (cancel depth i m).IsSteady := by
  have hwoken {m₁ : Machine ρ} (h₁ : m₁.IsSteady) :
      ((m₁.mapWorld fun w => w.unwait i).push (.resume i)).IsSteady := ⟨h₁.root, h₁.stages⟩
  induction depth generalizing i m with
  | zero =>
    unfold Machine.cancel
    simp only
    -- A task that has ended is not told, one that waits for a pipe is woken as well.
    split
    · exact h
    · exact h.flag hs hl
    · split
      · exact hwoken (h.flag hs hl)
      · exact h.flag hs hl
    · exact h.flag hs hl
  | succ depth ih =>
    unfold Machine.cancel
    simp only
    split
    · exact h
    -- A task that waits for stages is told first, and then each of them may be.
    · next first stages ended next hp =>
      have hspares := m.spares_flag i
      have hi : i < m.tasks.size := lt_size_of_result?_eq_none (by rw [result?, hp])
      refine (h.flag hs hl).foldl (fun m k => spares_cancel depth k m)
        (fun m k h hs hl => ih h hs hl fun h₁ => ⟨h₁.root, h₁.stages⟩) _ (hspares.hasStarted hs)
        fun k hk => ?_
      obtain ⟨hle, hlt⟩ := List.mem_range'_1.mp hk
      refine ⟨i, (hspares.starter k).trans (hs i first stages ended next hp k hle hlt), ?_⟩
      intro _ _ _ _ _
      rw [task_flag_self hi]
    · split
      · exact hwoken (h.flag hs hl)
      · exact h.flag hs hl
    · exact h.flag hs hl

/-- The machine in which a pipeline that has failed is told to end. -/
def dismiss (m : Machine ρ) (first stages : Nat) : Machine ρ :=
  (List.range' first stages).foldl (fun m i => cancel m.tasks.size i m) m

/-- Cancelling all the stages of a pipeline only tells tasks to end. -/
theorem spares_dismiss (m : Machine ρ) (first stages : Nat) : m.Spares (m.dismiss first stages) :=
  foldl_induction Spares.refl Spares.trans (fun m i => spares_cancel _ i m) _ m

/-- As many late reports as there are tasks. -/
theorem roster_pushLate (m : Machine ρ) (tasks : List Nat) :
    (tasks.foldl (fun m k => m.push (.report k true)) m).roster =
      m.roster.tellAll (tasks.map fun k => (k, true)) := by
  induction tasks generalizing m with
  | nil => exact Roster.ext rfl rfl rfl rfl (List.append_nil _).symm
  | cons k tasks ih =>
    refine (ih _).trans ?_
    rw [roster_push]
    exact Roster.ext rfl rfl rfl rfl (List.append_assoc _ _ _)

/-- A task has a result exactly if it has ended. -/
theorem isSome_result? (m : Machine ρ) (k : Nat) :
    (m.result? k).isSome = (m.roster.phase k).isEnded := by
  show (m.result? k).isSome = (m.task k).phase.isEnded
  unfold result?
  cases (m.task k).phase <;> rfl

/-- What a task does with a pipeline that has failed, as the roster shows it: the stages are told to end, those that
have ended before are reported late, and the task waits for as many reports as there are stages. -/
theorem roster_drain (hi : i < m.tasks.size) (first stages : Nat) (abort : Abort)
    (next : Except Abort ρ → Job ρ) :
    (drain i first stages abort next m).roster =
      m.roster.drain i first stages abort next fun k => ((m.dismiss first stages).task k).cancelled := by
  have hspares := m.spares_dismiss first stages
  have hroster : (m.dismiss first stages).roster =
      { m.roster with cancelled := fun k => ((m.dismiss first stages).task k).cancelled } :=
    Roster.ext hspares.size (funext hspares.starter) rfl (funext hspares.phase) hspares.reports
  -- Cancelling ends nobody, so the stages that have ended are those that had before.
  have hgone : (((List.range' first stages).filter fun k =>
      ((m.dismiss first stages).result? k).isSome).map fun k => (k, true)) =
        m.roster.gone first stages :=
    congrArg (List.map fun k => (k, true)) (List.filter_congr fun k _ => by
      rw [isSome_result?, hroster])
  have hlt : i < (m.dismiss first stages).tasks.size := hspares.size.symm ▸ hi
  have hdrain : drain i first stages abort next m =
      ((List.range' first stages).filter fun k =>
        ((m.dismiss first stages).result? k).isSome).foldl (fun m k => m.push (.report k true))
          ((m.dismiss first stages).setPhase i (.draining stages abort next)) := rfl
  rw [hdrain, roster_pushLate, hgone, roster_setPhase hlt, hroster]
  rfl

/-- A machine in order is steady: a task in order that waits for its stages and is not to end has stages that are
not to end. -/
theorem isSteady_of_orderly (h : m.roster.Orderly) : m.IsSteady where
  root := h.root
  stages q first stages ended next hp hc := by
    have hq : q < m.tasks.size := lt_size_of_result?_eq_none (by
      unfold result?
      rw [show (m.task q).phase = _ from hp])
    cases h.awaits_of_phase hp hq with
    | joining hb he hcount hstages => exact hstages hc

/-- In a machine in order, whoever waits for stages has started them. -/
theorem hasStarted_of_orderly (h : m.roster.Orderly) : m.HasStarted := by
  intro q first stages ended next hp k hk hk'
  have hq : q < m.tasks.size := lt_size_of_result?_eq_none (by rw [result?, hp])
  cases h.awaits_of_phase hp hq with
  | joining hb he hcount hstages => exact hb.starter k hk hk'

/-- **A pipeline that has failed may be told to end.** Its starter does not wait for results any more, so the stages
go without it, and the machine stays steady. -/
theorem isSteady_dismiss (h : m.roster.Orderly) {first stages : Nat} {abort : Abort}
    {next : Except Abort ρ → Job ρ} (hp : (m.task i).phase = .failing first stages abort next) :
    m.roster.Steady fun k => ((m.dismiss first stages).task k).cancelled := by
  refine (m.spares_dismiss first stages).steady ?_
  have hi : i < m.tasks.size := lt_size_of_result?_eq_none (by rw [result?, hp])
  refine (isSteady_of_orderly h).foldl (fun m k => spares_cancel _ k m)
    (fun m k h hs hl => h.cancel _ hs hl) _ (hasStarted_of_orderly h) fun k hk => ?_
  obtain ⟨hle, hlt⟩ := List.mem_range'_1.mp hk
  cases h.awaits_of_phase hp hi with
  | failing hb he =>
    refine ⟨i, hb.starter k hle hlt, fun first' stages' ended next' hj => ?_⟩
    rw [hp] at hj
    cases hj

/-- Beyond the last task all have ended. -/
theorem lt_size_of_isEnded (h : (m.roster.phase i).isEnded = false) : i < m.roster.size := by
  refine lt_size_of_result?_eq_none ?_
  rw [← Option.not_isSome_iff_eq_none, isSome_result?, h]
  exact Bool.false_ne_true

end Machine

end Shell
