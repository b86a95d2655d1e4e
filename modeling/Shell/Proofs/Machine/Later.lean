/-
What no turn undoes.

A task that has ended keeps its result, a stage keeps the ends that it was given, and a stage
that ends with a result has closed them. `Machine.Later` says so of two machines one of which
comes from the other by turns, in whatever order and with whatever jobs (`later_turns`).

The last part holds because nobody but a task that has had a turn ends with a result. A stage that
is cancelled before its first turn ends too, and leaves its ends open; so `ends` speaks of
results and not of aborts.
-/
import Shell.Proofs.Turns
import Shell.Proofs.World.Later

set_option autoImplicit false

namespace Shell.Machine

variable {ρ : Type} {m m₁ m' : Machine ρ}

/-- The ends that a task was given are closed: its output for writing and its input for reading,
as far as they are pipes. -/
structure EndsClosed (m : Machine ρ) (i : Nat) (w : World) : Prop where
  write : ∀ p < m.world.channels.size, (m.task i).output = .pipe p →
    (w.channel p).pipe.writeClosed = true
  read : ∀ q < m.world.channels.size, (m.task i).input < m.world.inputs.size →
    (m.world.input (m.task i).input).supply = .pipe q → (w.channel q).pipe.readClosed = true

/-- The second machine is later than the first. -/
structure Later (m m' : Machine ρ) : Prop where
  size : m.tasks.size ≤ m'.tasks.size
  world : m.world.Later m'.world
  starter : ∀ i < m.tasks.size, (m'.task i).starter = (m.task i).starter
  input : ∀ i < m.tasks.size, (m'.task i).input = (m.task i).input
  output : ∀ i < m.tasks.size, (m'.task i).output = (m.task i).output
  result : ∀ i < m.tasks.size, ∀ r, m.result? i = some r → m'.result? i = some r
  ends : ∀ i < m.tasks.size, ∀ r, (m.task i).starter ≠ none → m.result? i = none →
    m'.result? i = some (.ok r) → m.EndsClosed i m'.world

namespace Later

/-- Nothing has happened, so nothing has been undone. -/
theorem refl (m : Machine ρ) : m.Later m where
  size := Nat.le_refl _
  world := .refl _
  starter := fun _ _ => rfl
  input := fun _ _ => rfl
  output := fun _ _ => rfl
  result := fun _ _ _ h => h
  ends := by
    intro i _ r _ hn hr
    rw [hn] at hr
    cases hr

/-- Ends that are closed stay closed. -/
theorem endsClosed {i : Nat} {w : World} (h : m.Later m₁) (hi : i < m.tasks.size)
    (hc : m₁.EndsClosed i w) : m.EndsClosed i w where
  write := by
    intro p hp ho
    refine hc.write p (Nat.lt_of_lt_of_le hp h.world.channels) ?_
    rw [h.output i hi, ho]
  read := by
    intro q hq hin hs
    refine hc.read q (Nat.lt_of_lt_of_le hq h.world.channels) ?_ ?_
    · rw [h.input i hi]
      exact Nat.lt_of_lt_of_le hin h.world.inputs
    · rw [h.input i hi, h.world.supply _ hin, hs]

/-- What neither of two stretches undoes is not undone by both. A stage that ended in the first one has its ends
closed, and they stay so in the second. -/
theorem trans (h : m.Later m₁) (h' : m₁.Later m') : m.Later m' where
  size := Nat.le_trans h.size h'.size
  world := h.world.trans h'.world
  starter := fun i hi => (h'.starter i (Nat.lt_of_lt_of_le hi h.size)).trans (h.starter i hi)
  input := fun i hi => (h'.input i (Nat.lt_of_lt_of_le hi h.size)).trans (h.input i hi)
  output := fun i hi => (h'.output i (Nat.lt_of_lt_of_le hi h.size)).trans (h.output i hi)
  result := fun i hi r hr =>
    h'.result i (Nat.lt_of_lt_of_le hi h.size) r (h.result i hi r hr)
  ends := by
    intro i hi r hs hn hr
    have hi₁ := Nat.lt_of_lt_of_le hi h.size
    -- The stage has ended in the second stretch, or in the first one already.
    cases hm : m₁.result? i with
    | none =>
      have hs₁ : (m₁.task i).starter ≠ none := by
        rw [h.starter i hi]
        exact hs
      exact h.endsClosed hi (h'.ends i hi₁ r hs₁ hm hr)
    | some r₁ =>
      have he : r₁ = .ok r := Option.some.inj ((h'.result i hi₁ r₁ hm).symm.trans hr)
      have hc := h.ends i hi r hs hn (by rw [hm, he])
      refine ⟨fun p hp ho => h'.world.writeClosed p (hc.write p hp ho), ?_⟩
      exact fun q hq hin hsup => h'.world.readClosed q (hc.read q hq hin hsup)

end Later

/-! ## 1. Changes of one task and of the world

The machine is changed by few functions, and each of them undoes nothing of what `Later` is about. -/

/-- Nothing but the world changes. -/
theorem later_mapWorld (m : Machine ρ) {f : World → World} (h : m.world.Later (f m.world)) :
    m.Later (m.mapWorld f) where
  size := Nat.le_refl _
  world := h
  starter := fun _ _ => rfl
  input := fun _ _ => rfl
  output := fun _ _ => rfl
  result := fun _ _ _ hr => hr
  ends := by
    intro i _ r _ hn hr
    exact absurd (hn.symm.trans hr) (by simp)

/-- An event more undoes nothing. -/
theorem later_push (m : Machine ρ) (event : Event) : m.Later (m.push event) :=
  m.later_mapWorld (World.later_push _ _)

/-- The results of the others are not touched. -/
theorem result?_modifyTask_of_ne {i j : Nat} (f : Task ρ → Task ρ) (h : j ≠ i) :
    (m.modifyTask i f).result? j = m.result? j := by
  rw [result?, task_modifyTask_of_ne f h]
  rfl

/-- A task changes, but neither its ends nor a result. -/
theorem later_modifyTask (m : Machine ρ) (i : Nat) {f : Task ρ → Task ρ}
    (hs : (f (m.task i)).starter = (m.task i).starter)
    (hi : (f (m.task i)).input = (m.task i).input)
    (ho : (f (m.task i)).output = (m.task i).output)
    (hr : ∀ r, (m.task i).phase = .ended r ↔ (f (m.task i)).phase = .ended r) :
    m.Later (m.modifyTask i f) := by
  have field {α : Type} (g : Task ρ → α) (hg : g (f (m.task i)) = g (m.task i)) (j : Nat)
      (hj : j < m.tasks.size) : g ((m.modifyTask i f).task j) = g (m.task j) := by
    by_cases hji : j = i
    · subst hji
      rw [task_modifyTask_self f hj, hg]
    · rw [task_modifyTask_of_ne f hji]
  -- A task has the result that it had, and no other.
  have hres (j : Nat) (hj : j < m.tasks.size) (r : Except Abort ρ) :
      (m.modifyTask i f).result? j = some r ↔ m.result? j = some r := by
    by_cases hji : j = i
    · subst hji
      rw [result?_eq_some_iff, result?_eq_some_iff, task_modifyTask_self f hj]
      exact (hr r).symm
    · rw [result?_modifyTask_of_ne f hji]
  refine ⟨Nat.le_of_eq (size_modifyTask m i f).symm, .refl _, field _ hs, field _ hi, field _ ho,
    fun j hj r hjr => (hres j hj r).2 hjr, fun j hj r _ hn hjr => ?_⟩
  rw [hres j hj, hn] at hjr
  cases hjr

/-- A task that has not ended comes to another phase in which it has not ended. -/
theorem later_setPhase (m : Machine ρ) (i : Nat) (phase : Phase ρ) (h : m.result? i = none)
    (hp : ∀ r, phase ≠ .ended r) : m.Later (m.setPhase i phase) := by
  refine m.later_modifyTask i rfl rfl rfl fun r => ⟨fun he => ?_, fun he => absurd he (hp r)⟩
  rw [result?_eq_of_ended he] at h
  cases h

/-- A new task comes behind the others. -/
theorem later_addTask (m : Machine ρ) (task : Task ρ) : m.Later (m.addTask task) := by
  have ht (i : Nat) (hi : i < m.tasks.size) : (m.addTask task).task i = m.task i :=
    task_addTask_of_ne task (Nat.ne_of_lt hi)
  refine ⟨by rw [size_addTask]; exact Nat.le_succ _, World.later_push _ _, ?_, ?_, ?_, ?_, ?_⟩
  · intro i hi
    rw [ht i hi]
  · intro i hi
    rw [ht i hi]
  · intro i hi
    rw [ht i hi]
  · intro i hi r hr
    rw [result?, ht i hi]
    exact hr
  · intro i hi r _ hn hr
    rw [result?, ht i hi] at hr
    exact absurd (hn.symm.trans hr) (by simp)

/-! ## 2. The end of a task

Here is the one place where results come from. A stage with a result has closed its ends before, so its result may
be given to it. -/

/-- Closing the ends of a task changes the world alone. -/
theorem closeEnds_eq (m : Machine ρ) (task : Task ρ) :
    m.closeEnds task = m.mapWorld fun w => w.closeEnds task.input task.output := by
  unfold closeEnds
  cases task.output <;> rfl

/-- What is closed stays closed. -/
theorem later_closeEnds (m : Machine ρ) (task : Task ρ) : m.Later (m.closeEnds task) := by
  rw [closeEnds_eq]
  exact m.later_mapWorld (m.world.later_closeEnds _ _)

/-- A stage that closes its ends has closed them. -/
theorem endsClosed_closeEnds (m : Machine ρ) (i : Nat) :
    m.EndsClosed i (m.closeEnds (m.task i)).world := by
  rw [closeEnds_eq]
  refine ⟨fun p hp ho => ?_, fun q hq _ hs => ?_⟩
  · show ((m.world.closeEnds (m.task i).input (m.task i).output).channel
      p).pipe.writeClosed = true
    rw [World.pipe_closeEnds _ _ hp, if_pos ho]
    split <;> rfl
  · show ((m.world.closeEnds (m.task i).input (m.task i).output).channel
      q).pipe.readClosed = true
    rw [World.pipe_closeEnds _ _ hq, if_pos hs]
    rfl

/-- A task ends while the world becomes later. Only a stage that ends with a result has to have
closed its ends. -/
theorem later_ended (m : Machine ρ) (i : Nat) {result : Except Abort ρ} {w : World}
    (hn : m.result? i = none) (hw : m.world.Later w)
    (hc : ∀ r, result = .ok r → (m.task i).starter ≠ none → m.EndsClosed i w) :
    m.Later ((m.setPhase i (.ended result)).mapWorld fun _ => w) := by
  have hlt := lt_size_of_result?_eq_none hn
  -- The task that ends, the others, and what neither of them changes.
  have hself : ((m.setPhase i (.ended result)).mapWorld fun _ => w).task i =
      { m.task i with phase := .ended result } := task_modifyTask_self _ hlt
  have hother (j : Nat) (hj : j ≠ i) :
      ((m.setPhase i (.ended result)).mapWorld fun _ => w).task j = m.task j :=
    task_modifyTask_of_ne (m := m) _ hj
  have field {α : Type} (g : Task ρ → α) (hg : ∀ t phase, g { t with phase := phase } = g t)
      (j : Nat) (_ : j < m.tasks.size) :
      g (((m.setPhase i (.ended result)).mapWorld fun _ => w).task j) = g (m.task j) := by
    by_cases hj : j = i
    · subst hj
      rw [hself, hg]
    · rw [hother j hj]
  refine ⟨Nat.le_of_eq (size_modifyTask m i _).symm, hw, field _ fun _ _ => rfl,
    field _ fun _ _ => rfl, field _ fun _ _ => rfl, fun j _ r hr => ?_, fun j _ r hs hnj hr => ?_⟩
  -- Task `i` had no result, so this is another one.
  · have hj : j ≠ i := by
      rintro rfl
      rw [hn] at hr
      cases hr
    rw [result?, hother j hj]
    exact hr
  · by_cases hj : j = i
    · subst hj
      rw [result?_eq_some_iff, hself] at hr
      exact hc r (Phase.ended.inj hr) hs
    · rw [result?, hother j hj] at hr
      exact absurd (hnj.symm.trans hr) (by simp)

/-- The end of a task that had not ended. A result is only for a task that has had a turn. -/
theorem later_endTask (m : Machine ρ) (i : Nat) {result : Except Abort ρ}
    (hn : m.result? i = none) (hs : ∀ r, result = .ok r → (m.task i).started = true) :
    m.Later (m.endTask i result) := by
  unfold endTask
  simp only
  cases hst : (m.task i).starter with
  | none =>
    exact m.later_ended i hn (.refl _) fun _ _ hne => absurd hst hne
  | some starter =>
    -- The ends are closed when the task has ended already, which makes no difference to them.
    have hend : m.Later (if (m.task i).started = true
        then (m.setPhase i (.ended result)).closeEnds (m.task i)
        else m.setPhase i (.ended result)) := by
      by_cases hstart : (m.task i).started = true
      · rw [if_pos hstart]
        exact m.later_ended i hn (m.later_closeEnds (m.task i)).world fun _ _ _ =>
          m.endsClosed_closeEnds i
      · rw [if_neg hstart]
        exact m.later_ended i hn (.refl _) fun r hr _ => absurd (hs r hr) hstart
    simp only
    generalize (if (m.task i).started = true
      then (m.setPhase i (.ended result)).closeEnds (m.task i)
      else m.setPhase i (.ended result)) = m₁ at hend ⊢
    -- Then its starter is told, once or twice.
    have hpush := hend.trans (m₁.later_push (.report i false))
    split
    · exact hpush.trans (later_push _ _)
    · exact hpush

/-! ## 3. Starting and cancelling stages

Cancelling is a recursion through the stages of stages, and what each of its steps keeps is kept by the whole
(`cancel_induction`). -/

/-- By induction on the stages that are left: each is a new pipe and a new task, or a new task for the last one. -/
theorem later_startStages (starter capacity : Nat) (output : Output)
    (stage : Nat → Nat → Output → Job ρ) (left index input : Nat) (m : Machine ρ) :
    m.Later (startStages starter capacity output stage left index input m) := by
  induction left using Nat.strongRecOn generalizing index input m with
  | _ left ih =>
    match left with
    | 0 => exact .refl m
    | 1 => exact m.later_addTask _
    -- A pipe, a stage, and the rest.
    | left + 2 =>
      unfold startStages
      have hw : m.Later (m.mapWorld fun w => w.addPipe capacity) :=
        m.later_mapWorld (World.later_addPipe _ _)
      exact (hw.trans (later_addTask _ _)).trans (ih (left + 1) (Nat.lt_succ_self _) _ _ _)

/-- A task is told to end. -/
theorem later_cancelled (m : Machine ρ) (i : Nat) :
    m.Later (m.modifyTask i fun t => { t with cancelled := true }) :=
  m.later_modifyTask i rfl rfl rfl fun _ => Iff.rfl

/-- Whoever is told to end is at what it was at. -/
theorem phase_cancelled (m : Machine ρ) (i j : Nat) :
    ((m.modifyTask i fun t => { t with cancelled := true }).task j).phase = (m.task j).phase := by
  by_cases hj : j = i
  · subst hj
    rcases Nat.lt_or_ge j m.tasks.size with hlt | hge
    · rw [task_modifyTask_self _ hlt]
    · rw [task_of_size_le hge, task_of_size_le (by rwa [size_modifyTask])]
  · rw [task_modifyTask_of_ne _ hj]

section

variable {r : Machine ρ → Machine ρ → Prop}

/-- What is kept when one task is dealt with is kept when several are. -/
theorem foldl_induction (refl : ∀ m, r m m) (trans : ∀ {m m₁ m'}, r m m₁ → r m₁ m' → r m m')
    {f : Machine ρ → Nat → Machine ρ} (h : ∀ m i, r m (f m i)) (tasks : List Nat)
    (m : Machine ρ) : r m (tasks.foldl f m) := by
  induction tasks generalizing m with
  | nil => exact refl m
  | cons i tasks ih => exact trans (h m i) (ih (f m i))

/-- What is kept when a task is told to end, and when one that waits is woken, is kept by
cancelling. -/
theorem cancel_induction (refl : ∀ m, r m m) (trans : ∀ {m m₁ m'}, r m m₁ → r m₁ m' → r m m')
    (cancelled : ∀ m i, r m (m.modifyTask i fun t => { t with cancelled := true }))
    (woken : ∀ m i, r m ((m.mapWorld fun w => w.unwait i).push (.resume i)))
    (depth index : Nat) (m : Machine ρ) : r m (cancel depth index m) := by
  -- What holds of telling one task to end and of waking one holds of all that is cancelled. The induction is on the
  -- depth, as the recursion is.
  induction depth generalizing index m with
  | zero =>
    unfold cancel
    simp only
    split
    · exact refl m
    · exact cancelled m index
    · split
      · exact trans (cancelled m index) (woken _ index)
      · exact cancelled m index
    · exact cancelled m index
  | succ depth ih =>
    unfold cancel
    simp only
    split
    · exact refl m
    · -- Its stages are cancelled too, one level further down.
      exact trans (cancelled m index) (foldl_induction refl trans (fun m i => ih i m) _ _)
    · split
      · exact trans (cancelled m index) (woken _ index)
      · exact cancelled m index
    · exact cancelled m index

end

/-- Telling tasks to end, and waking them, undoes nothing. -/
theorem later_cancel (depth index : Nat) (m : Machine ρ) : m.Later (cancel depth index m) :=
  cancel_induction Later.refl Later.trans later_cancelled
    (fun m i => (m.later_mapWorld (m.world.later_unwait i)).trans (later_push _ _)) depth index m

/-- Cancelling changes what a task will do at its next turn, and not what it is at. -/
theorem phase_cancel (depth index : Nat) (m : Machine ρ) (j : Nat) :
    ((cancel depth index m).task j).phase = (m.task j).phase :=
  cancel_induction (r := fun m m' => (m'.task j).phase = (m.task j).phase) (fun _ => rfl)
    (fun h h' => h'.trans h) (fun m i => m.phase_cancelled i j) (fun _ _ => rfl) depth index m

/-- A starter that gives up its stages has not ended, so its own phase may change. -/
theorem later_drain (m : Machine ρ) (index first stages : Nat) (abort : Abort)
    (next : Except Abort ρ → Job ρ) (h : m.result? index = none) :
    m.Later (drain index first stages abort next m) := by
  unfold drain
  simp only
  -- The stages are told to end, the starter waits for them, and the late reports are pushed: three changes, one
  -- after the other.
  have hcancel := foldl_induction (f := fun m i => cancel m.tasks.size i m) Later.refl Later.trans
    (fun m i => later_cancel _ i m) (List.range' first stages) m
  have hphase := foldl_induction (f := fun m i => cancel m.tasks.size i m)
    (r := fun m m' => (m'.task index).phase = (m.task index).phase) (fun _ => rfl)
    (fun h h' => h'.trans h) (fun m i => phase_cancel _ i m index) (List.range' first stages) m
  generalize (List.range' first stages).foldl (fun m i => cancel m.tasks.size i m) m = m₁
    at hcancel hphase ⊢
  -- The starter has been told of a failure and has not ended; to cancel its stages does not change
  -- that.
  have hnone : m₁.result? index = none := by
    rw [result?, hphase]
    exact h
  have hset := m₁.later_setPhase index (.draining stages abort next) hnone
    (fun _ he => by cases he)
  exact (hcancel.trans hset).trans (foldl_induction (f := fun m i => m.push (.report i true))
    Later.refl Later.trans (fun m i => m.later_push _) _ _)

/-! ## 4. Turns

The cases are those of the step function. A run is later by induction on its turns. -/

/-- A task with a job has a turn. -/
theorem later_go (m : Machine ρ) (i : Nat) (job : Job ρ) (hn : m.result? i = none)
    (hs : (m.task i).started = true) : m.Later (m.go i job) := by
  have hw := job.later_advance i m.world
  obtain ⟨tasks, world⟩ := m
  unfold go
  simp only at hw ⊢
  generalize job.advance i world = r at hw ⊢
  obtain ⟨w, phase⟩ := r
  have hm : Later ⟨tasks, world⟩ (⟨tasks, w⟩ : Machine ρ) :=
    later_mapWorld ⟨tasks, world⟩ (f := fun _ => w) hw
  -- By what the task comes to. Only if it has ended is there a result more, and it has had a turn.
  cases phase with
  | ended result => exact hm.trans (later_endTask _ i hn fun _ _ => hs)
  | starting stages capacity input output stage next =>
    -- The stages come behind all other tasks.
    have hset := later_setPhase ⟨tasks, w⟩ i
      (.joining (Array.size tasks) stages 0 next) hn fun _ he => by cases he
    exact (hm.trans hset).trans (later_startStages _ _ _ _ _ _ _ _)
  | active job => exact hm.trans (later_setPhase _ i _ hn fun _ he => by cases he)
  | joining first stages ended next =>
    exact hm.trans (later_setPhase _ i _ hn fun _ he => by cases he)
  | failing first stages abort next =>
    exact hm.trans (later_setPhase _ i _ hn fun _ he => by cases he)
  | draining left abort next => exact hm.trans (later_setPhase _ i _ hn fun _ he => by cases he)

/-- A turn: a task goes on with its job, ends because it was told to, or gives up its stages. -/
theorem later_resume (m : Machine ρ) (i : Nat) : m.Later (m.resume i) := by
  unfold resume
  simp only
  split
  · next job hp =>
    have hn := result?_eq_none_of_active hp
    have hlt := lt_size_of_result?_eq_none hn
    split
    · exact m.later_endTask i hn fun r he => by cases he
    · have hself := task_modifyTask_self (fun t : Task ρ => { t with started := true }) hlt
      have hm := m.later_modifyTask i (f := fun t => { t with started := true }) rfl rfl rfl
        fun _ => Iff.rfl
      refine hm.trans (later_go _ i job ?_ (by rw [hself]))
      rw [result?, hself]
      exact hn
  · next first stages abort next hp =>
    exact m.later_drain i first stages abort next (by rw [result?, hp])
  · exact .refl m

/-- A report changes the phase of a starter that waits, and such a task has no result yet. -/
theorem later_report (m : Machine ρ) (i : Nat) (late : Bool) : m.Later (m.report i late) := by
  unfold report
  split
  · next starter result hst hr =>
    split
    · next first stages ended next hp =>
      have hn : m.result? starter = none := by rw [result?, hp]
      split
      · exact (m.later_setPhase starter _ hn fun _ he => by cases he).trans (later_push _ _)
      · split
        · exact m.later_setPhase starter _ hn fun _ he => by cases he
        · split
          · exact (m.later_setPhase starter _ hn fun _ he => by cases he).trans (later_push _ _)
          · exact .refl m
    · next left abort next hp =>
      have hn : m.result? starter = none := by rw [result?, hp]
      split
      · exact m.later_setPhase starter _ hn fun _ he => by cases he
      · exact (m.later_setPhase starter _ hn fun _ he => by cases he).trans (later_push _ _)
    · exact .refl m
  · exact .refl m

/-- One event, whichever it is. -/
theorem later_handle (m : Machine ρ) (event : Event) : m.Later (m.handle event) := by
  cases event with
  | resume i => exact m.later_resume i
  | arrival i => exact m.later_push _
  | report i late => exact m.later_report i late

/-- **A turn undoes nothing.** -/
theorem later_turn (h : m.Turn m') : m.Later m' := by
  cases h with
  | @event event queue _ =>
    have hq : m.Later (m.withQueue queue) := m.later_mapWorld (World.later_aside rfl rfl)
    exact hq.trans (later_handle _ event)
  | host => exact m.later_mapWorld m.world.later_hostTurn

/-- **No turn undoes what was done**, by induction on the turns. -/
theorem later_turns (h : m.Turns m') : m.Later m' := by
  induction h with
  | refl => exact .refl m
  | tail _ ht ih => exact ih.trans (later_turn ht)

end Shell.Machine
