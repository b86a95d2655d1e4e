/-
What tasks end with.

If all ends of the job of a task are of some kind, whatever its operations give it, then the task ends with
a result of that kind. This is so for one turn (`Job.Ends.advance`), and here it is shown of whole runs:
the starter of a pipeline is told the result of the last stage, or the abort of one that failed, and not
of another one (`Roster.Orderly`). A task that is cancelled ends with nothing but that. Then its
starter has been cancelled as well or is draining, and does not look at it.
-/
import Shell.Proofs.Machine.Steps

set_option autoImplicit false

namespace Shell

variable {ρ : Type} {S R G : Except Abort ρ → Prop}

/-- What a task is at, if all its ends are among `R` and those of its stages among `S`. -/
inductive Phase.Meets (S R : Except Abort ρ → Prop) : Phase ρ → Prop where
  | active {job : Job ρ} (h : job.Ends S R) : Meets S R (.active job)
  | joining {first stages ended : Nat} {next : Except Abort ρ → Job ρ}
      (h : ∀ r, S r → (next r).Ends S R) : Meets S R (.joining first stages ended next)
  | failing {first stages : Nat} {abort : Abort} {next : Except Abort ρ → Job ρ}
      (h : (next (.error abort)).Ends S R) : Meets S R (.failing first stages abort next)
  | draining {left : Nat} {abort : Abort} {next : Except Abort ρ → Job ρ}
      (h : (next (.error abort)).Ends S R) : Meets S R (.draining left abort next)
  | ended {result : Except Abort ρ} (h : R result) : Meets S R (.ended result)

namespace Roster

variable {r r' : Roster ρ} {i : Nat}

/-- What a task is to end with: a stage with one of `S`, and the first task with one of `R`. -/
def goal (S R : Except Abort ρ → Prop) (r : Roster ρ) (i : Nat) : Except Abort ρ → Prop :=
  if r.starter i = none then R else S

/-- A stage is to end with what its starter expects. -/
theorem goal_of_stage {q : Nat} (h : r.starter i = some q) : r.goal S R i = S :=
  if_neg (by rw [h]; exact Option.some_ne_none q)

/-- Everybody ends as is right, but for those who have been told to end. -/
structure Sound (S R : Except Abort ρ → Prop) (r : Roster ρ) : Prop where
  orderly : r.Orderly
  meets : ∀ i < r.size, r.cancelled i = false → (r.phase i).Meets S (r.goal S R i)

/-- A stage of a task that has not been told to end ends with one of `S`. -/
theorem Sound.of_stage (h : r.Sound S R) {q j first stages ended : Nat} {next : Except Abort ρ → Job ρ}
    {result : Except Abort ρ} (hp : r.phase q = .joining first stages ended next) (hq : q < r.size)
    (hc : r.cancelled q = false) (hj : first ≤ j) (hj' : j < first + stages)
    (hended : r.phase j = .ended result) : S result := by
  cases h.orderly.awaits_of_phase hp hq with
  | joining hb he hcount hstages =>
    have hs := hb.starter j hj hj'
    have hm := h.meets j (h.orderly.starter j q hs).1 (hstages hc j hj hj')
    rw [goal_of_stage hs, hended] at hm
    cases hm with
    | ended hS => exact hS

/-- What a starter that has not been told to end comes to when it hears of a stage is right: the stage
has not been told to end either. -/
theorem Heard.meets {k q : Nat} {late : Bool} {phase : Phase ρ} (hh : r.Heard q k late phase)
    (h : r.Sound S R) (hmem : (k, late) ∈ r.reports) (hs : r.starter k = some q)
    (hc : r.cancelled q = false) (hm : (r.phase q).Meets S G) : phase.Meets S G := by
  have hq := (h.orderly.starter k q hs).2
  have hto : (k, late) ∈ r.reportsTo q := mem_reportsTo.mpr ⟨hmem, hs⟩
  -- By what the starter makes of the report. It goes on with the result of the last stage or with an abort of one
  -- that failed, and both are results of its stages.
  cases hh with
  | failed hp hk =>
    rw [hp] at hm
    cases hm with
    | joining hnext =>
      cases h.orderly.awaits_of_phase hp hq with
      | joining hb he hcount hstages =>
        have hrange := hb.reported _ hto
        exact .failing (hnext _ (h.of_stage hp hq hc hrange.1 hrange.2 hk))
  | counted hp _ hlt =>
    rw [hp] at hm
    cases hm with
    | joining hnext => exact .joining hnext
  | complete hp _ hge hlast =>
    rw [hp] at hm
    cases hm with
    | joining hnext =>
      cases h.orderly.awaits_of_phase hp hq with
      | joining hb he hcount hstages =>
        have hlength := List.length_pos_of_mem hto
        exact .active (hnext _ (h.of_stage hp hq hc (by omega) (by omega) hlast))
  | drained hp hlt =>
    rw [hp] at hm
    cases hm with
    | draining hnext => exact .draining hnext
  | emptied hp hle =>
    rw [hp] at hm
    cases hm with
    | draining hnext => exact .active hnext
  | failing hp => exact hp ▸ hm
  | draining hp => exact hp ▸ hm

/-- Nobody is told to end and then told not to. -/
theorem Move.cancelled (hm : r.Move r') (hc : r'.cancelled i = false) : r.cancelled i = false := by
  cases hm with
  | still | waits | ends | told | missed => exact hc
  | starts _ _ _ hst => exact hst.cancelled ▸ hc
  | drains _ hgrows _ => exact Bool.eq_false_iff.mpr fun ht => Bool.eq_false_iff.mp hc (hgrows i ht)

/-- There are never fewer tasks. -/
theorem Move.size (hm : r.Move r') : r.size ≤ r'.size := by
  cases hm with
  | still | waits | ends | drains | told | missed => exact Nat.le_refl _
  | starts _ _ _ hst => exact hst.size ▸ Nat.le_add_right _ _

/-- Nobody changes its starter. -/
theorem Move.starter (hm : r.Move r') (hi : i < r.size) : r'.starter i = r.starter i := by
  cases hm with
  | still | waits | ends | drains | told | missed => rfl
  | starts _ _ _ hst => exact hst.oldStarter i fun hnew => Nat.not_lt_of_le hnew.1 hi

/-- A move keeps what a task can end with, as long as the task has not been told to end. -/
theorem Move.meets (hm : r.Move r') (h : r.Sound S R) (hi : i < r.size)
    (hc : r'.cancelled i = false) (hp : (r.phase i).Meets S G) : (r'.phase i).Meets S G := by
  have hc := hm.cancelled hc
  have hjob {k : Nat} {job : Job ρ} (hk : r.phase k = .active job) (hki : i = k) : job.Ends S G := by
    subst hki
    rw [hk] at hp
    cases hp with
    | active hj => exact hj
  -- Whoever changes comes to one other phase.
  have hset {r : Roster ρ} {k : Nat} {phase : Phase ρ} (hp : (r.phase i).Meets S G)
      (hself : i = k → phase.Meets S G) : ((r.setPhase k phase).phase i).Meets S G := by
    by_cases hki : i = k
    · subst hki
      rw [phase_setPhase_self]
      exact hself rfl
    · rw [phase_setPhase_of_ne _ hki]
      exact hp
  -- By what happened: a job went on, ended or started stages, a pipeline was given up, or a report was heard.
  cases hm with
  | still => exact hp
  | @waits k job rest w hk hc' ha =>
    refine hset hp fun hki => ?_
    have hf := (hjob hk hki).advance k w
    rw [ha] at hf
    cases hf with
    | active hj => exact .active hj
  | @ends k job result hk ha =>
    refine hset hp fun hki => ?_
    subst hki
    obtain ⟨w, ha⟩ := ha hc
    have hf := (hjob hk rfl).advance i w
    rw [ha] at hf
    cases hf with
    | ended hG => exact .ended hG
  | @starts k job w stages capacity input output stage next _ hk hc' ha hst =>
    by_cases hki : i = k
    · have hf := (hjob hk hki).advance k w
      rw [ha] at hf
      cases hf with
      | starting hstages hnext =>
        rw [hki, hst.phase]
        exact .joining hnext
    · rw [hst.oldPhase i hi hki]
      exact hp
  | @drains k first stages abort next cancelled hk hgrows hsteady =>
    refine hset (r := { r with cancelled := cancelled }) hp fun hki => ?_
    rw [hki, hk] at hp
    cases hp with
    | failing hnext => exact .draining hnext
  | @told k q late rest phase hr hs hh =>
    refine hset (r := r.dropReport) hp fun hki => ?_
    subst hki
    exact hh.meets h (hr ▸ List.mem_cons_self) hs hc hp
  | missed hr hs => exact hp

/-- **A move keeps all ends right.** -/
theorem Sound.move (h : r.Sound S R) (hm : r.Move r')
    (hbeyond : ∀ i, (r.phase i).isEnded = false → i < r.size) : r'.Sound S R := by
  refine ⟨h.orderly.move hm hbeyond, fun k hk hc => ?_⟩
  by_cases hold : k < r.size
  · have hgoal : r'.goal S R k = r.goal S R k := by rw [goal, goal, hm.starter hold]
    rw [hgoal]
    exact hm.meets h hold hc (h.meets k hold (hm.cancelled hc))
  -- A stage that is new has the job that it was started with.
  · cases hm with
    | still | waits | ends | drains | told | missed => exact absurd hk hold
    | @starts i job w stages capacity input output stage next _ hp hc' ha hst =>
      have hmeets := h.meets i (hbeyond i (by rw [hp]; rfl)) hc'
      rw [hp] at hmeets
      cases hmeets with
      | active hj =>
        have hf := hj.advance i w
        rw [ha] at hf
        cases hf with
        | starting hstages hnext =>
          rw [hst.size] at hk
          have hnew := Nat.not_lt.mp hold
          obtain ⟨index, input, output, hphase⟩ := hst.newPhase k hnew hk
          rw [hphase, goal_of_stage (hst.newStarter k hnew hk)]
          exact .active (hstages index input output)

end Roster

namespace Machine

variable {m : Machine ρ}

/-- **Each turn keeps all ends right.** -/
theorem sound_step (h : m.roster.Sound S R) : m.step.roster.Sound S R :=
  h.move (move_step h.orderly) fun _ => lt_size_of_isEnded

/-- A run keeps everybody sound, however many turns it takes. -/
theorem sound_run (h : m.roster.Sound S R) (turns : Nat) : (m.run turns).roster.Sound S R := by
  induction turns generalizing m with
  | zero => exact h
  | succ turns ih =>
    unfold run
    split
    · exact h
    · exact ih (sound_step h)

/-- A machine with nothing but one job is in order. -/
theorem sound_addTask {job : Job ρ} (hj : job.Ends S R) {world : World}
    (hw : world.reports = []) :
    (({ world := world } : Machine ρ).addTask { phase := .active job }).roster.Sound S R := by
  generalize hm : ({ world := world } : Machine ρ).addTask { phase := .active job } = m
  have hsize : m.roster.size = 1 := by
    rw [← hm]
    rfl
  -- There is one task, and nobody has started it.
  have htask (k : Nat) : m.task k = if k = 0 then { phase := .active job } else default := by
    rw [← hm]
    split
    · next hk =>
      subst hk
      exact task_addTask_self { world := world } _
    · next hk => exact task_of_size_le (by rw [size_addTask]; exact Nat.one_le_iff_ne_zero.mpr hk)
  have hstarter (k : Nat) : m.roster.starter k = none := by
    show (m.task k).starter = none
    rw [htask]
    split <;> rfl
  have hcancelled (k : Nat) : m.roster.cancelled k = false := by
    show (m.task k).cancelled = false
    rw [htask]
    split <;> rfl
  have hphase : m.roster.phase 0 = .active job := congrArg Task.phase (htask 0)
  have hreports : m.roster.reports = [] := by
    rw [← hm]
    exact (world.reports_push (.resume 0)).trans (by rw [hw]; rfl)
  -- It has no starter and no stages, so all that is asked of these is empty, and its job ends as it should.
  refine ⟨⟨fun k p hs => ?_, fun k _ => hcancelled k, fun e he => ?_, fun p hp => ?_⟩,
    fun i hi _ => ?_⟩
  · rw [hstarter] at hs
    cases hs
  · rw [hreports] at he
    cases he
  · obtain rfl : p = 0 := by omega
    rw [hphase]
    refine .active (Finset.eq_empty_of_forall_notMem fun k hk => ?_) ?_
    · have hs := (Roster.mem_running.mp hk).2.1
      rw [hstarter] at hs
      cases hs
    · rw [Roster.reportsTo, hreports]
      rfl
  · obtain rfl : i = 0 := by omega
    rw [hphase, Roster.goal, if_pos (hstarter 0)]
    exact .active hj

/-- **Whatever a run of a job ends with is one of the job's ends**, after however many turns. -/
theorem result_run {job : Job ρ} (hj : job.Ends S R) {world : World} (hw : world.reports = [])
    {turns : Nat} {result : Except Abort ρ}
    (h : ((({ world := world } : Machine ρ).addTask { phase := .active job }).run turns).result? 0 =
      some result) : R result := by
  have hs := sound_run (sound_addTask hj hw) turns
  have hlater := later_turns
    (turns_run turns (({ world := world } : Machine ρ).addTask { phase := .active job }))
  generalize (({ world := world } : Machine ρ).addTask { phase := .active job }).run turns = m
    at h hs hlater
  have hi : 0 < (({ world := world } : Machine ρ).addTask { phase := .active job }).tasks.size := by
    rw [size_addTask]
    exact Nat.succ_pos _
  have hstarter : m.roster.starter 0 = none :=
    (hlater.starter 0 hi).trans (congrArg Task.starter (task_addTask_self { world := world } _))
  have hmeets := hs.meets 0 (Nat.lt_of_lt_of_le hi hlater.size) (hs.orderly.root 0 hstarter)
  have hphase : m.roster.phase 0 = .ended result := result?_eq_some_iff.mp h
  rw [hphase, Roster.goal, if_pos hstarter] at hmeets
  cases hmeets with
  | ended hR => exact hR

end Machine

end Shell
