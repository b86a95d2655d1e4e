/-
Machines that cannot be told apart.

Two machines are alike if they have the same world and their tasks are alike one by one. Each step
keeps them so (`Machine.Like.step`), and so after any number of steps they have the same world and the
same results (`Machine.like_run`): jobs that are alike are carried out alike.

In a lenient comparison a job of the first machine may come to where it can only fail. Then the second
machine is left alone, as the first one has lost: its first task cannot end well any more.

Tasks that have been told to end are alike if they are at the same. That is enough, as they will only end,
and the ends of tasks that have not been told are known: of the first machine it is assumed that all is
sound (`Roster.Sound`), so a starter that goes on with the result of its stages has one of `S`.
-/
import Shell.Proofs.Job.Like
import Shell.Proofs.Machine.Lost

set_option autoImplicit false

namespace Shell

variable {ρ : Type} {lenient : Prop} {S R : Except Abort ρ → Prop} {k : Nat}

/-- Tasks that go alike. -/
structure Task.Like (lenient : Prop) (S : Except Abort ρ → Prop) (k : Nat) (t t' : Task ρ) : Prop
    where
  starter : t'.starter = t.starter
  input : t'.input = t.input
  output : t'.output = t.output
  started : t'.started = t.started
  cancelled : t'.cancelled = t.cancelled
  phase : t.phase.Like lenient S k t.cancelled t'.phase

namespace Machine

variable {m m' : Machine ρ}

/-- Machines with the same world, of which the tasks go alike when `k` lists have been counted. -/
structure Like (lenient : Prop) (S : Except Abort ρ → Prop) (k : Nat) (m m' : Machine ρ) : Prop where
  world : m'.world = m.world
  size : m'.tasks.size = m.tasks.size
  counted : k ≤ m.world.count
  task : ∀ i, (m.task i).Like lenient S k (m'.task i)

namespace Like

/-! ## 1. Changes of worlds and tasks

Both machines go through the same functions, and each of these leaves them alike if it is given tasks that are. -/

/-- Machines that are alike have the same results. -/
theorem result? (h : m.Like lenient S k m') (i : Nat) : m'.result? i = m.result? i := by
  have hp := (h.task i).phase
  unfold Machine.result?
  generalize (m.task i).phase = phase, (m'.task i).phase = phase' at hp
  cases hp <;> rfl

/-- Both worlds change in the same way, and no command is counted off. -/
theorem mapWorld (h : m.Like lenient S k m') {f : World → World}
    (hf : m.world.count ≤ (f m.world).count) :
    (m.mapWorld f).Like lenient S k (m'.mapWorld f) :=
  ⟨congrArg f h.world, h.size, Nat.le_trans h.counted hf, h.task⟩

/-- The same event is to come for both. -/
theorem push (h : m.Like lenient S k m') (event : Event) :
    (m.push event).Like lenient S k (m'.push event) :=
  h.mapWorld (Nat.le_refl _)

/-- One task changes in both, and the changed tasks are alike. -/
theorem modifyTask (h : m.Like lenient S k m') {i : Nat} {f f' : Task ρ → Task ρ}
    (hf : (f (m.task i)).Like lenient S k (f' (m'.task i))) :
    (m.modifyTask i f).Like lenient S k (m'.modifyTask i f') := by
  refine ⟨h.world, by rw [size_modifyTask, size_modifyTask, h.size], h.counted, fun j => ?_⟩
  by_cases hj : j = i
  · subst hj
    rcases Nat.lt_or_ge j m.tasks.size with hlt | hge
    · rw [task_modifyTask_self _ hlt, task_modifyTask_self _ (by rw [h.size]; exact hlt)]
      exact hf
    · rw [task_of_size_le (by rw [size_modifyTask]; exact hge),
        task_of_size_le (by rw [size_modifyTask, h.size]; exact hge)]
      exact ⟨rfl, rfl, rfl, rfl, rfl, .ended⟩
  · rw [task_modifyTask_of_ne _ hj, task_modifyTask_of_ne _ hj]
    exact h.task j

/-- One task comes to phases that are alike. -/
theorem setPhase (h : m.Like lenient S k m') {i : Nat} {phase phase' : Phase ρ}
    (hp : phase.Like lenient S k (m.task i).cancelled phase') :
    (m.setPhase i phase).Like lenient S k (m'.setPhase i phase') := by
  have ht := h.task i
  exact h.modifyTask ⟨ht.starter, ht.input, ht.output, ht.started, ht.cancelled, hp⟩

/-- A task is told to end. -/
theorem flag (h : m.Like lenient S k m') (i : Nat) : (m.flag i).Like lenient S k (m'.flag i) := by
  have ht := h.task i
  exact h.modifyTask ⟨ht.starter, ht.input, ht.output, ht.started, rfl, ht.phase.cancel⟩

/-- Both get one task more, and these two are alike. -/
theorem addTask (h : m.Like lenient S k m') {t t' : Task ρ} (ht : t.Like lenient S k t') :
    (m.addTask t).Like lenient S k (m'.addTask t') := by
  refine ⟨?_, by rw [size_addTask, size_addTask, h.size], h.counted, fun j => ?_⟩
  · show m'.world.push (.resume m'.tasks.size) = m.world.push (.resume m.tasks.size)
    rw [h.world, h.size]
  · by_cases hj : j = m.tasks.size
    · subst hj
      have hself := task_addTask_self m' t'
      rw [h.size] at hself
      rw [task_addTask_self, hself]
      exact ht
    · rw [task_addTask_of_ne t hj, task_addTask_of_ne t' (by rw [h.size]; exact hj)]
      exact h.task j

/-- What keeps machines alike for one task does for several. -/
theorem foldl (h : m.Like lenient S k m') {f : Machine ρ → Nat → Machine ρ}
    (hf : ∀ {m m' : Machine ρ}, m.Like lenient S k m' → ∀ i, (f m i).Like lenient S k (f m' i)) (tasks : List Nat) :
    (tasks.foldl f m).Like lenient S k (tasks.foldl f m') := by
  induction tasks generalizing m m' with
  | nil => exact h
  | cons i tasks ih => exact ih (hf h i)

/-! ## 2. Ends and cancellations -/

/-- A task and its like have the same ends, so the same pipes are closed. -/
theorem closeEnds (h : m.Like lenient S k m') {t t' : Task ρ} (ht : t.Like lenient S k t') :
    (m.closeEnds t).Like lenient S k (m'.closeEnds t') := by
  rw [closeEnds_eq, closeEnds_eq, ht.input, ht.output]
  refine h.mapWorld (World.closeEnds_induction (r := fun w w' => w.count ≤ w'.count)
    (fun _ => Nat.le_refl _) Nat.le_trans (fun w index => ?_) (fun w index => ?_) _ _ _)
  · exact Nat.le_of_eq (World.count_change _).symm
  · exact Nat.le_of_eq (World.count_change _).symm

/-- A task ends in both with the same result. Whether its ends are closed, and how often its starter is told, is the
same for both. -/
theorem endTask (h : m.Like lenient S k m') (i : Nat) (result : Except Abort ρ) :
    (m.endTask i result).Like lenient S k (m'.endTask i result) := by
  have ht := h.task i
  have hset : (m.setPhase i (.ended result)).Like lenient S k (m'.setPhase i (.ended result)) :=
    h.setPhase .ended
  unfold Machine.endTask
  simp only [ht.starter, ht.started]
  cases (m.task i).starter with
  | none => exact hset
  | some q =>
    have hclosed : (if (m.task i).started = true
        then (m.setPhase i (.ended result)).closeEnds (m.task i)
        else m.setPhase i (.ended result)).Like lenient S k
        (if (m.task i).started = true
        then (m'.setPhase i (.ended result)).closeEnds (m'.task i)
        else m'.setPhase i (.ended result)) := by
      split
      · exact hset.closeEnds ht
      · exact hset
    -- Its starter is at the same in both, so it is told twice in both or in neither.
    have htold := hclosed.push (.report i false)
    simp only
    have hq := (htold.task q).phase
    generalize ((Machine.push _ (.report i false)).task q).phase = phase,
      ((Machine.push (if (m.task i).started = true
        then (m'.setPhase i (.ended result)).closeEnds (m'.task i)
        else m'.setPhase i (.ended result)) (.report i false)).task q).phase = phase' at hq ⊢
    cases hq with
    | draining => exact htold.push _
    | active | starting | joining | failing | ended => exact htold

/-- The same tasks are told to end, and the same are woken. By induction on the depth, as the recursion is. -/
theorem cancel (h : m.Like lenient S k m') (depth i : Nat) :
    (cancel depth i m).Like lenient S k (cancel depth i m') := by
  induction depth generalizing i m m' with
  | zero =>
    have hp := (h.task i).phase
    have hflag := h.flag i
    unfold Machine.cancel
    simp only
    generalize (m.task i).phase = phase, (m'.task i).phase = phase' at hp
    cases hp with
    | ended => exact h
    | joining => exact hflag
    | active _ =>
      simp only
      -- Who is told to end waits in both or in neither, as the worlds are the same.
      show (if (m.flag i).world.isWaiting i = true then _ else _ : Machine ρ).Like lenient S k
        (if (m'.flag i).world.isWaiting i = true then _ else _)
      rw [hflag.world]
      split
      · exact (hflag.mapWorld (Nat.le_refl _)).push _
      · exact hflag
    | starting | failing | draining => exact hflag
  | succ depth ih =>
    have hp := (h.task i).phase
    have hflag := h.flag i
    unfold Machine.cancel
    simp only
    generalize (m.task i).phase = phase, (m'.task i).phase = phase' at hp
    cases hp with
    | ended => exact h
    | joining => exact hflag.foldl (fun h i => ih h i) _
    | active _ =>
      simp only
      show (if (m.flag i).world.isWaiting i = true then _ else _ : Machine ρ).Like lenient S k
        (if (m'.flag i).world.isWaiting i = true then _ else _)
      rw [hflag.world]
      split
      · exact (hflag.mapWorld (Nat.le_refl _)).push _
      · exact hflag
    | starting | failing | draining => exact hflag

/-- A task whose stages are dismissed goes on alike if it has not been told to end. -/
theorem drain (h : m.Like lenient S k m') (i first stages : Nat) (abort : Abort)
    {next next' : Except Abort ρ → Job ρ}
    (hn : (m.task i).cancelled = false → (next (.error abort)).Like lenient S k (next' (.error abort)))
    (hf : (m.task i).cancelled = false → lenient → (next (.error abort)).Fails S) :
    (drain i first stages abort next m).Like lenient S k (drain i first stages abort next' m') := by
  have hdismiss : (m.dismiss first stages).Like lenient S k (m'.dismiss first stages) := by
    refine h.foldl (fun h j => ?_) _
    rw [h.size]
    exact h.cancel _ j
  have hgrows := (m.spares_dismiss first stages).grows i
  -- A starter that has not been told to end after that had not been told before.
  have hback (hc : ((m.dismiss first stages).task i).cancelled = false) :
      (m.task i).cancelled = false :=
    Bool.eq_false_iff.mpr fun hm => Bool.eq_false_iff.mp hc (hgrows hm)
  have hset : ((m.dismiss first stages).setPhase i (.draining stages abort next)).Like lenient S k
      ((m'.dismiss first stages).setPhase i (.draining stages abort next')) :=
    hdismiss.setPhase (.draining (fun hc => hn (hback hc)) fun hc => hf (hback hc))
  -- The same stages have ended in both.
  have hgone : (fun j => ((m'.dismiss first stages).result? j).isSome) =
      fun j => ((m.dismiss first stages).result? j).isSome :=
    funext fun j => by rw [hdismiss.result?]
  unfold Machine.drain
  simp only
  show (List.foldl _ ((m.dismiss first stages).setPhase i _)
      ((List.range' first stages).filter fun j => ((m.dismiss first stages).result? j).isSome)).Like lenient S k
    (List.foldl _ ((m'.dismiss first stages).setPhase i _)
      ((List.range' first stages).filter fun j => ((m'.dismiss first stages).result? j).isSome))
  rw [hgone]
  exact hset.foldl (fun h j => h.push (.report j true)) _

/-! ## 3. Pipelines -/

/-- The same stages are started, with jobs that are alike. By induction on those that are left. -/
theorem startStages (h : m.Like lenient S k m') (starter capacity : Nat) (output : Output)
    {stage stage' : Nat → Nat → Output → Job ρ}
    (hs : ∀ index input output, (stage index input output).Like lenient S k (stage' index input output))
    (left index input : Nat) :
    (startStages starter capacity output stage left index input m).Like lenient S k
      (startStages starter capacity output stage' left index input m') := by
  induction left using Nat.strongRecOn generalizing index input m m' with
  | _ left ih =>
    match left with
    | 0 => exact h
    | 1 => exact h.addTask ⟨rfl, rfl, rfl, rfl, rfl, .active fun _ => hs _ _ _⟩
    | left + 2 =>
      unfold Machine.startStages
      simp only [h.world]
      refine ih (left + 1) (by omega) ?_ _ _
      exact (h.mapWorld (Nat.le_refl _)).addTask ⟨rfl, rfl, rfl, rfl, rfl, .active fun _ => hs _ _ _⟩

/-- A starter hears of a stage: the results of its stages are among `S`, if it has not been told to
end, and an early report that it still waits for is that of one of them. -/
theorem report (h : m.Like lenient S k m') (index : Nat) (late : Bool)
    (hin : ∀ q first stages ended next, (m.task index).starter = some q → late = false →
      (m.task q).phase = .joining first stages ended next → first ≤ index ∧ index < first + stages)
    (hS : ∀ q first stages ended next, (m.task q).phase = .joining first stages ended next →
      (m.task q).cancelled = false → ∀ j result, first ≤ j → j < first + stages →
        m.result? j = some result → S result) :
    (m.report index late).Like lenient S k (m'.report index late) := by
  unfold Machine.report
  rw [(h.task index).starter, h.result?]
  cases hst : (m.task index).starter with
  | none => exact h
  | some q =>
    cases hr : m.result? index with
    | none => exact h
    | some result =>
      have hq := (h.task q).phase
      have hin := hin q
      have hS := hS q
      simp only
      generalize (m.task q).phase = phase, (m'.task q).phase = phase' at hq hin hS
      -- Both starters are at the same, and are told the same result. What they go on with is alike for the results
      -- that can come.
      cases hq with
      | active | starting | failing | ended => exact h
      | @joining first stages ended next next' hnext hfails =>
        cases late with
        | true => exact h
        | false =>
          have hrange := hin first stages ended next hst rfl rfl
          cases result with
          | error abort =>
            have hresult (hc : (m.task q).cancelled = false) :=
              hS first stages ended next rfl hc _ _ hrange.1 hrange.2 hr
            exact (h.setPhase (.failing (fun hc => hnext hc _ (hresult hc))
              fun hc hl => hfails hc hl _ (hresult hc))).push _
          | ok value =>
            simp only
            split
            · exact h.setPhase (.joining hnext hfails)
            · rw [h.result?]
              cases hlast : m.result? (first + stages - 1) with
              | none => exact h
              | some last =>
                refine (h.setPhase (.active fun hc => ?_)).push _
                exact hnext hc _ (hS first stages ended next rfl hc _ _ (by omega) (by omega) hlast)
      | @draining left abort next next' hnext hfails =>
        cases late with
        | false => exact h
        | true =>
          simp only
          split
          · exact h.setPhase (.draining hnext hfails)
          · exact (h.setPhase (.active hnext)).push _

/-! ## 4. Turns

The two jobs do the same until the first one comes to a place where the second need not follow. From there on the
first machine can only fail. -/

/-- Machines that are alike for some count are so for any later one that has been reached. -/
theorem later {n : Nat} (h : m.Like lenient S k m') (hk : k ≤ n) (hn : n ≤ m.world.count) :
    m.Like lenient S n m' := by
  refine ⟨h.world, h.size, hn, fun i => ?_⟩
  have ht := h.task i
  exact ⟨ht.starter, ht.input, ht.output, ht.started, ht.cancelled, ht.phase.later hk⟩

/-- A task goes on with its job. What is left of it is alike for as many lists as have been counted
then. -/
theorem go (h : m.Like lenient S k m') (i : Nat) {job job' : Job ρ}
    (hj : job.Like lenient S k job') :
    (∃ n, (m.go i job).Like lenient S n (m'.go i job')) ∨
      (job.advance i m.world).2.Pardoned lenient S := by
  refine (hj.advance i h.counted).imp_left fun ⟨hw, hp⟩ => ?_
  -- Turns never count commands down, so what is alike up to the old count is so up to the new one.
  have hcount : m.world.count ≤ (job.advance i m.world).1.count :=
    job.spans_advance World.spans_count i m.world
  refine ⟨(job.advance i m.world).1.count, ?_⟩
  have hk := Nat.le_trans h.counted hcount
  have hlater : (m.mapWorld fun _ => (job.advance i m.world).1).Like lenient S
      (job.advance i m.world).1.count (m'.mapWorld fun _ => (job.advance i m.world).1) :=
    (h.mapWorld hcount).later hk (Nat.le_refl _)
  unfold Machine.go
  simp only
  rw [h.world]
  rcases ha : job.advance i m.world with ⟨w, phase⟩
  rcases ha' : job'.advance i m.world with ⟨w', phase'⟩
  rw [ha, ha'] at hw hp
  rw [ha] at hlater
  obtain rfl : w' = w := hw
  -- A cancelled task may end in any way, so its phases are alike all the more.
  have hcurrent {phase phase' : Phase ρ} (hp : phase.Like lenient S w'.count false phase') :
      phase.Like lenient S w'.count (m.task i).cancelled phase' := by
    cases hc : (m.task i).cancelled with
    | false => exact hp
    | true => exact hp.cancel
  simp only at hp hlater ⊢
  have hset := hlater.setPhase (i := i) (hcurrent hp)
  cases hp with
  | active | joining | failing | draining => exact hset
  | ended => exact hlater.endTask i _
  | starting hs hnext hfails =>
    simp only
    rw [show (Machine.mk m'.tasks w').tasks.size = m.tasks.size from h.size]
    refine startStages ?_ i _ _ (hs rfl) _ 0 _
    exact hlater.setPhase (i := i) (hcurrent (.joining hnext hfails))

/-- **A turn.** The machines stay alike, or the first one comes to where it can only fail, which a lenient
comparison pardons. -/
theorem resume (h : m.Like lenient S k m') (i : Nat) :
    (∃ n, (m.resume i).Like lenient S n (m'.resume i)) ∨
      ∃ job, (m.task i).phase = .active job ∧ (m.task i).cancelled = false ∧
        (job.advance i m.world).2.Pardoned lenient S := by
  have ht := h.task i
  have hp := ht.phase
  unfold Machine.resume
  simp only
  generalize hm : (m.task i).phase = phase, (m'.task i).phase = phase' at hp
  cases hp with
  | starting | joining | draining | ended => exact .inl ⟨k, h⟩
  | failing hnext hfails => exact .inl ⟨k, h.drain i _ _ _ hnext hfails⟩
  | @active job job' hj =>
    simp only
    rw [ht.cancelled]
    split
    · exact .inl ⟨k, h.endTask i _⟩
    · next hc =>
      have hc := Bool.eq_false_iff.mpr hc
      have hbegun : (m.modifyTask i fun t => { t with started := true }).Like lenient S k
          (m'.modifyTask i fun t => { t with started := true }) :=
        h.modifyTask ⟨ht.starter, ht.input, ht.output, rfl, ht.cancelled, ht.phase⟩
      exact (hbegun.go i (hj hc)).imp_right fun hpardoned => ⟨job, rfl, hc, hpardoned⟩

/-- Whoever has not been told to end fails with its stages, if the comparison is lenient. -/
theorem isFrail (h : m.Like lenient S k m') (hl : lenient) {i : Nat}
    (hc : (m.task i).cancelled = false) : (m.task i).phase.IsFrail S := by
  have hp := (h.task i).phase
  rw [hc] at hp
  generalize (m.task i).phase = phase, (m'.task i).phase = phase' at hp
  cases hp with
  | active | starting | ended => trivial
  | joining _ hf | failing _ hf | draining _ hf => exact hf rfl hl

/-- **Each step of the one machine is a step of the other**, or the first one has lost. -/
theorem step (h : m.Like lenient S k m') (hs : m.roster.Sound S R) (hroot : m.roster.Rooted) :
    (∃ n, m.step.Like lenient S n m'.step) ∨ (lenient ∧ m.step.roster.Lost S 0) := by
  cases hn : m.world.queue.next? with
  | none =>
    unfold Machine.step
    rw [h.world, hn]
    exact .inl ⟨k, h.mapWorld (Nat.le_of_eq (World.count_hostTurn _).symm)⟩
  | some next =>
    -- Both machines take the same event, since their worlds are equal.
    obtain ⟨event, queue⟩ := next
    have hqueue : (m.withQueue queue).Like lenient S k (m'.withQueue queue) :=
      h.mapWorld (Nat.le_refl _)
    have hhandled := handled_step hs.orderly hn
    unfold Machine.step at hhandled ⊢
    rw [h.world]
    rw [hn] at hhandled ⊢
    cases event with
    | resume i =>
      refine (hqueue.resume i).imp_right fun ⟨job, hp, hc, hl, hf⟩ => ⟨hl, ?_⟩
      have hsame := roster_withQueue hn rfl
      exact (hhandled.lost (hsame ▸ hs.orderly) (hsame ▸ hroot) hp (fun p => hqueue.isFrail hl)
        hf).resolve_left (Bool.eq_false_iff.mp hc)
    | arrival i => exact .inl ⟨k, hqueue.push _⟩
    | report i late =>
      have hmem : (i, late) ∈ m.roster.reports := by
        rw [reports_of_next hn]
        exact List.mem_cons_self
      -- The stage that reports has ended, which its starter has not counted yet.
      have hlt {q first stages ended : Nat} {next : Except Abort ρ → Job ρ}
          (hp : (m.task q).phase = .joining first stages ended next) : q < m.roster.size :=
        lt_size_of_result?_eq_none (by rw [Machine.result?, hp])
      refine .inl ⟨k, hqueue.report i late (fun q first stages ended next hst _ hp => ?_)
        fun q first stages ended next hp hc j result hj hj' hr => ?_⟩
      · cases hs.orderly.awaits_of_phase hp (hlt hp) with
        | joining hb he hcount hstages =>
          exact hb.reported _ (Roster.mem_reportsTo.mpr ⟨hmem, hst⟩)
      · exact hs.of_stage hp (hlt hp) hc hj hj' (result?_eq_some_iff.mp hr)

end Like

/-! ## 5. Runs -/

/-- After any number of steps the machines are alike, or the first one has lost. -/
theorem Like.run (h : m.Like lenient S k m') (hs : m.roster.Sound S R) (hroot : m.roster.Rooted)
    (turns : Nat) :
    (∃ n, (m.run turns).Like lenient S n (m'.run turns)) ∨
      (lenient ∧ (m.run turns).roster.Lost S 0) := by
  induction turns generalizing m m' k with
  | zero => exact .inl ⟨k, h⟩
  | succ turns ih =>
    have hquiet : m'.isQuiet = m.isQuiet := by rw [isQuiet, isQuiet, h.world]
    have hs' := sound_step hs
    have hroot' := rooted_step hs.orderly hroot
    unfold Machine.run
    rw [hquiet]
    split
    · exact .inl ⟨k, h⟩
    · rcases h.step hs hroot with ⟨n, hstep⟩ | ⟨hl, hlost⟩
      · exact ih hstep hs' hroot'
      · exact .inr ⟨hl, lost_run hlost hs' hroot' turns⟩

/-- **Jobs that are alike have the same runs**: after however many turns the world is the same, and so
is the result. In a lenient comparison this is so if the first one ends well. -/
theorem like_run {job job' : Job ρ} (hj : job.Ends S R) (hl : job.Like lenient S 0 job') {w : World}
    (hw : w.reports = []) (turns : Nat) :
    let m := (({ world := w } : Machine ρ).addTask { phase := .active job }).run turns
    let m' := (({ world := w } : Machine ρ).addTask { phase := .active job' }).run turns
    (lenient → ∃ value, m.result? 0 = some (.ok value)) →
      m'.world = m.world ∧ ∀ i, m'.result? i = m.result? i := by
  have hempty : ({ world := w } : Machine ρ).Like lenient S 0 { world := w } :=
    ⟨rfl, rfl, Nat.zero_le _, fun i => ⟨rfl, rfl, rfl, rfl, rfl, .ended⟩⟩
  have htask : Task.Like lenient S 0 { phase := .active job } { phase := .active job' } :=
    ⟨rfl, rfl, rfl, rfl, rfl, .active fun _ => hl⟩
  intro m m' hended
  rcases (hempty.addTask htask).run (sound_addTask hj hw) (rooted_addTask _ _) turns with
    ⟨n, h⟩ | ⟨hlenient, hlost⟩
  · exact ⟨h.world, h.result?⟩
  · obtain ⟨value, hvalue⟩ := hended hlenient
    obtain ⟨abort, habort⟩ := hlost.result (result?_eq_some_iff.mp hvalue)
    cases habort

end Machine

end Shell
