/-
All that a machine can do with an event.

`Handled` has one rule for each way an event can be dealt with, once it has left the queue: a task waits
again, ends, or starts a pipeline; a pipeline that has failed is drained; a starter is told of a stage. Each
rule says what the machine is then. So whatever is proved of a turn takes the cases of this relation and
does not open the turn again (`handled_step`).

The first use of it is that each turn is one of the moves of the roster (`move_step`). So whatever a move
keeps, a run keeps.
-/
import Shell.Proofs.Machine.Order

set_option autoImplicit false

namespace Shell

variable {ρ : Type}

namespace Machine

variable {m m₀ m' : Machine ρ} {i k : Nat} {event : Event} {queue : Queue Event}

/-! ## 1. Events

A step takes the first event off the queue and deals with it. `Handled` lists what the machine may come to, with
what is known of the task concerned if everything is in order. -/

/-- What a machine comes to when it deals with an event that has left its queue. -/
inductive Handled (m : Machine ρ) : Event → Machine ρ → Prop where
  | waits {i : Nat} {job rest : Job ρ} {w : World} (hp : (m.task i).phase = .active job)
      (hc : (m.task i).cancelled = false) (ha : job.advance i m.world = (w, .active rest)) :
      Handled m (.resume i) (m.became i (.active rest) w)
  | ends {i : Nat} {job : Job ρ} {result : Except Abort ρ} {w : World}
      (hp : (m.task i).phase = .active job) (hc : (m.task i).cancelled = false)
      (ha : job.advance i m.world = (w, .ended result)) :
      Handled m (.resume i) ((m.begun i w).endTask i result)
  | cancelled {i : Nat} {job : Job ρ} (hp : (m.task i).phase = .active job)
      (hc : (m.task i).cancelled = true) : Handled m (.resume i) (m.endTask i (.error .cancelled))
  | starts {i stages capacity input : Nat} {job : Job ρ} {output : Output}
      {stage : Nat → Nat → Output → Job ρ} {next : Except Abort ρ → Job ρ} {w : World}
      (hp : (m.task i).phase = .active job) (hc : (m.task i).cancelled = false)
      (ha : job.advance i m.world = (w, .starting stages capacity input output stage next)) :
      Handled m (.resume i) (startStages i capacity output stage stages 0 input
        (m.became i (.joining m.tasks.size stages 0 next) w))
  | drains {i first stages : Nat} {abort : Abort} {next : Except Abort ρ → Job ρ}
      (hp : (m.task i).phase = .failing first stages abort next) :
      Handled m (.resume i) (drain i first stages abort next m)
  /-- The task has nothing to go on with. -/
  | idle {i : Nat} (ha : ∀ job, (m.task i).phase ≠ .active job)
      (hf : ∀ first stages abort next, (m.task i).phase ≠ .failing first stages abort next) :
      Handled m (.resume i) m
  | arrival {i : Nat} : Handled m (.arrival i) (m.push (.resume i))
  | failed {k q first stages ended : Nat} {next : Except Abort ρ → Job ρ} {abort : Abort}
      (hs : (m.task k).starter = some q) (hq : (m.task q).phase = .joining first stages ended next)
      (hk : (m.task k).phase = .ended (.error abort)) :
      Handled m (.report k false)
        ((m.setPhase q (.failing first stages abort next)).push (.resume q))
  | counted {k q first stages ended : Nat} {next : Except Abort ρ → Job ρ} {value : ρ}
      (hs : (m.task k).starter = some q) (hq : (m.task q).phase = .joining first stages ended next)
      (hk : (m.task k).phase = .ended (.ok value)) (hlt : ended + 1 < stages) :
      Handled m (.report k false) (m.setPhase q (.joining first stages (ended + 1) next))
  | complete {k q first stages ended : Nat} {next : Except Abort ρ → Job ρ} {value : ρ}
      {last : Except Abort ρ} (hs : (m.task k).starter = some q)
      (hq : (m.task q).phase = .joining first stages ended next)
      (hk : (m.task k).phase = .ended (.ok value)) (hge : stages ≤ ended + 1)
      (hlast : (m.task (first + stages - 1)).phase = .ended last) :
      Handled m (.report k false) ((m.setPhase q (.active (next last))).push (.resume q))
  | drained {k q left : Nat} {abort : Abort} {next : Except Abort ρ → Job ρ}
      (hs : (m.task k).starter = some q) (hq : (m.task q).phase = .draining left abort next)
      (hlt : 1 < left) : Handled m (.report k true) (m.setPhase q (.draining (left - 1) abort next))
  | emptied {k q left : Nat} {abort : Abort} {next : Except Abort ρ → Job ρ}
      (hs : (m.task k).starter = some q) (hq : (m.task q).phase = .draining left abort next)
      (hle : left ≤ 1) :
      Handled m (.report k true) ((m.setPhase q (.active (next (.error abort)))).push (.resume q))
  /-- The starter knows already that a stage has failed, and does not yet wait for all of them or has
  been told too early. -/
  | early {k q : Nat} (hs : (m.task k).starter = some q)
      (hq : (∃ first stages abort next, (m.task q).phase = .failing first stages abort next) ∨
        ∃ left abort next, (m.task q).phase = .draining left abort next) :
      Handled m (.report k false) m
  | missed {k : Nat} {late : Bool} (hs : (m.task k).starter = none) : Handled m (.report k late) m

theorem handled_resume (m : Machine ρ) (i : Nat) : m.Handled (.resume i) (m.resume i) := by
  -- By what the task is at. With a job it goes on, unless it was told to end.
  cases hp : (m.task i).phase with
  | active job =>
    cases hc : (m.task i).cancelled with
    | true =>
      have hend : m.resume i = m.endTask i (.error .cancelled) := by
        simp only [resume, hp, hc, if_true]
      rw [hend]
      exact .cancelled hp hc
    | false =>
      have hfollows := job.ends_anyhow.advance i m.world
      rcases ha : job.advance i m.world with ⟨w, phase⟩
      rw [ha] at hfollows
      cases hfollows with
      | active _ =>
        rw [resume_of_waiting hp hc ha]
        exact .waits hp hc ha
      | starting _ _ =>
        rw [resume_of_starting hp hc ha]
        exact .starts hp hc ha
      | ended _ =>
        rw [resume_of_end hp hc ha]
        exact .ends hp hc ha
  | failing first stages abort next =>
    have hdrain : m.resume i = drain i first stages abort next m := by simp only [resume, hp]
    rw [hdrain]
    exact .drains hp
  | starting | joining | draining | ended =>
    have hstill : m.resume i = m := by simp only [resume, hp]
    rw [hstill]
    exact .idle (by simp [hp]) (by simp [hp])

/-- Only a stage that has ended is reported, and when all have been, the last one has a result. -/
theorem handled_report {late : Bool} (h : m.roster.Orderly) (hr : (k, late) ∈ m.roster.reports)
    (htasks : m₀.tasks = m.tasks) : m₀.Handled (.report k late) (m₀.report k late) := by
  have htask (j : Nat) : m₀.task j = m.task j := by rw [task, task, htasks]
  -- Whoever is reported has ended. What its starter makes of it depends on what the starter is at, and only a
  -- starter with stages is told anything.
  cases hs : (m.task k).starter with
  | none =>
    have hs₀ : (m₀.task k).starter = none := by rw [htask, hs]
    have hstill : m₀.report k late = m₀ := by simp only [report, hs₀]
    rw [hstill]
    exact .missed hs₀
  | some q =>
    have hq : q < m.tasks.size := (h.starter k q hs).2
    have hmem : (k, late) ∈ m.roster.reportsTo q := Roster.mem_reportsTo.mpr ⟨hr, hs⟩
    obtain ⟨result, hk⟩ : ∃ result, (m.task k).phase = .ended result :=
      Phase.isEnded_iff.mp (h.reported _ hr).2
    have hs₀ : (m₀.task k).starter = some q := by rw [htask, hs]
    have hk₀ : (m₀.task k).phase = .ended result := by rw [htask, hk]
    have hresult : m₀.result? k = some result := result?_eq_of_ended hk₀
    unfold report
    simp only [hs₀, hresult]
    cases hp : (m.task q).phase with
    | joining first stages ended next =>
      have hq₀ : (m₀.task q).phase = .joining first stages ended next := by rw [htask, hp]
      cases h.awaits_of_phase hp hq with
      | joining hb he hcount hc =>
        obtain rfl : late = false := he _ hmem
        simp only [hq₀]
        cases result with
        | error abort => exact .failed hs₀ hq₀ hk₀
        | ok value =>
          simp only
          split
          · next hlt => exact .counted hs₀ hq₀ hk₀ hlt
          · next hge =>
            -- No stage runs any more, so the last one has ended.
            have hlength := List.length_pos_of_mem hmem
            have hnone : m.roster.running q = ∅ := Finset.card_eq_zero.mp (by omega)
            have hs' := hb.starter (first + stages - 1) (by omega) (by omega)
            obtain ⟨last, hlast⟩ : ∃ last, (m.task (first + stages - 1)).phase = .ended last := by
              by_contra hlive
              have hopen := Bool.eq_false_iff.mpr (mt Phase.isEnded_iff.mp hlive)
              have hruns := Roster.mem_running.mpr ⟨(h.starter _ q hs').1, hs', hopen⟩
              exact Finset.notMem_empty _ (hnone ▸ hruns)
            have hlast₀ : (m₀.task (first + stages - 1)).phase = .ended last := by rw [htask, hlast]
            rw [result?_eq_of_ended hlast₀]
            exact .complete hs₀ hq₀ hk₀ (by omega) hlast₀
    | draining left abort next =>
      have hq₀ : (m₀.task q).phase = .draining left abort next := by rw [htask, hp]
      simp only [hq₀]
      cases late with
      | false => exact .early hs₀ (.inr ⟨_, _, _, hq₀⟩)
      | true =>
        simp only
        split
        · next hlt => exact .drained hs₀ hq₀ hlt
        · next hle => exact .emptied hs₀ hq₀ (by omega)
    | failing first stages abort next =>
      have hq₀ : (m₀.task q).phase = .failing first stages abort next := by rw [htask, hp]
      cases h.awaits_of_phase hp hq with
      | failing hb he =>
        obtain rfl : late = false := he _ hmem
        simp only [hq₀]
        exact .early hs₀ (.inl ⟨_, _, _, _, hq₀⟩)
    | active job =>
      cases h.awaits_of_phase hp hq with
      | active _ ht =>
        rw [ht] at hmem
        cases hmem
    | ended result =>
      cases h.awaits_of_phase hp hq with
      | ended _ ht =>
        rw [ht] at hmem
        cases hmem
    | starting => nomatch h.awaits_of_phase hp hq

/-- The next report is the first that is to be heard. -/
theorem reports_of_next {late : Bool}
    (h : m.world.queue.next? = some (.report k late, queue)) :
    m.roster.reports = (k, late) :: (m.withQueue queue).roster.reports := by
  show m.world.queue.toList.filterMap Event.report? = _
  rw [Queue.next?_eq_some h]
  rfl

/-- **Each step deals with the first event** in one of these ways, as long as everything is in order. -/
theorem handled_step (h : m.roster.Orderly) (hn : m.world.queue.next? = some (event, queue)) :
    (m.withQueue queue).Handled event m.step := by
  unfold step
  simp only [hn]
  cases event with
  | resume index => exact handled_resume _ index
  | arrival index => exact .arrival
  | report index late => exact handled_report h (reports_of_next hn ▸ List.mem_cons_self) rfl

/-! ## 2. Moves

Each case of `Handled` is a `Move` of the roster. So what moves keep is kept by steps, and by induction on the steps
also by runs. -/

/-- The reports of a queue from which another event has gone. -/
theorem roster_withQueue (h : m.world.queue.next? = some (event, queue)) (he : event.report? = none) :
    (m.withQueue queue).roster = m.roster := by
  refine Roster.ext rfl rfl rfl rfl ?_
  show queue.toList.filterMap Event.report? = m.world.queue.toList.filterMap Event.report?
  rw [Queue.next?_eq_some h, List.filterMap_cons_none he]

/-- The turn of a task is a move. -/
theorem Handled.move_of_resume (hm : m.Handled (.resume i) m') (h : m.roster.Orderly) :
    m.roster.Move m'.roster := by
  -- Each way to deal with a turn shows in the roster as one move: the world it leads to has no other reports.
  cases hm with
  | @waits _ job rest w hp hc ha =>
    have hi := lt_size_of_result?_eq_none (result?_eq_none_of_active hp)
    have hsame := job.sameReports_advance i m.world
    rw [ha] at hsame
    rw [roster_became hi _ hsame]
    exact .waits hp hc (congrArg Prod.snd ha)
  | @ends _ job result w hp hc ha =>
    have hi := lt_size_of_result?_eq_none (result?_eq_none_of_active hp)
    have hsame := job.sameReports_advance i m.world
    rw [ha] at hsame
    have hp' : ((m.begun i w).task i).phase = .active job := by
      rw [m.task_begun_self w hi]
      exact hp
    rw [roster_endTask hp', roster_begun hi hsame]
    exact .ends hp fun _ => ⟨m.world, congrArg Prod.snd ha⟩
  | @cancelled _ job hp hc =>
    rw [roster_endTask hp]
    refine .ends hp fun hn => ?_
    rw [show m.roster.cancelled i = true from hc] at hn
    cases hn
  | @starts _ stages capacity input job output stage next w hp hc ha =>
    have hi := lt_size_of_result?_eq_none (result?_eq_none_of_active hp)
    have hsame := job.sameReports_advance i m.world
    rw [ha] at hsame
    exact .starts hp hc (congrArg Prod.snd ha) (starts_of_joined hi hsame (joined_startStages _ _))
  | @drains _ first stages abort next hp =>
    have hi : i < m.tasks.size := lt_size_of_result?_eq_none (by rw [result?, hp])
    rw [roster_drain hi]
    exact .drains hp (m.spares_dismiss first stages).grows (isSteady_dismiss h hp)
  | idle _ _ => exact .still

/-- What a starter makes of a report is a move. -/
theorem Handled.move_of_report {late : Bool} (hm : (m.withQueue queue).Handled (.report k late) m')
    (h : m.roster.Orderly) (hn : m.world.queue.next? = some (.report k late, queue)) :
    m.roster.Move m'.roster := by
  have hr := reports_of_next hn
  have hdrop : (m.withQueue queue).roster = m.roster.dropReport :=
    Roster.ext rfl rfl rfl rfl (congrArg List.tail hr).symm
  have htold {q : Nat} {phase : Phase ρ} (hs : (m.task k).starter = some q)
      (hh : m.roster.Heard q k late phase)
      (heq : m'.roster = ((m.withQueue queue).setPhase q phase).roster) : m.roster.Move m'.roster := by
    rw [heq, roster_setPhase (show q < (m.withQueue queue).tasks.size from (h.starter k q hs).2), hdrop]
    exact .told hr hs hh
  -- A starter that makes nothing of it stays at its phase.
  have hstill {q : Nat} {phase : Phase ρ} (hs : (m.task k).starter = some q)
      (hp : (m.task q).phase = phase) :
      (m.withQueue queue).roster = ((m.withQueue queue).setPhase q phase).roster := by
    have hsame : (m.withQueue queue).roster.setPhase q phase = (m.withQueue queue).roster :=
      Roster.ext rfl rfl rfl (Function.update_eq_self_iff.mpr hp.symm) rfl
    rw [roster_setPhase (show q < (m.withQueue queue).tasks.size from (h.starter k q hs).2), hsame]
  -- Each way to hear of a stage shows as one change of the phase of its starter, after the report has gone.
  cases hm with
  | failed hs hq hk => exact htold hs (.failed hq hk) (roster_push_resume _ _)
  | counted hs hq hk hlt => exact htold hs (.counted hq hk hlt) rfl
  | complete hs hq hk hge hlast =>
    exact htold hs (.complete hq hk hge hlast) (roster_push_resume _ _)
  | drained hs hq hlt => exact htold hs (.drained hq hlt) rfl
  | emptied hs hq hle => exact htold hs (.emptied hq hle) (roster_push_resume _ _)
  | early hs hq =>
    rcases hq with ⟨_, _, _, _, hq⟩ | ⟨_, _, _, hq⟩
    · exact htold hs (.failing hq) (hstill hs hq)
    · exact htold hs (.draining hq) (hstill hs hq)
  | missed hs =>
    rw [hdrop]
    exact .missed hr hs

/-- **Each turn is a move**, as long as everything is in order. -/
theorem move_step (h : m.roster.Orderly) : m.roster.Move m.step.roster := by
  cases hn : m.world.queue.next? with
  | none =>
    have hstill : m.step.roster = m.roster := by
      unfold step
      simp only [hn]
      exact roster_mapWorld m.world.sameReports_hostTurn
    rw [hstill]
    exact .still
  | some next =>
    obtain ⟨event, queue⟩ := next
    have hm := handled_step h hn
    cases event with
    | resume index =>
      have hsame := roster_withQueue hn rfl
      have hmove := hm.move_of_resume (hsame.symm ▸ h)
      rwa [hsame] at hmove
    | arrival index =>
      generalize m.step = m' at hm
      cases hm with
      | arrival =>
        rw [roster_push_resume, roster_withQueue hn rfl]
        exact .still
    | report index late => exact hm.move_of_report h hn

end Machine

end Shell
