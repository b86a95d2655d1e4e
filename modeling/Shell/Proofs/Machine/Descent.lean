/-
Every step brings a run nearer to its end.

As long as there are events to come, a step keeps everybody in place and leaves less to do (`Stands.step`). Only when
a task starts stages do the heights change, and then the rest need not be compared. So a run comes to a point
at which no events are left (`Stands.exists_quiet`).
-/
import Shell.Proofs.Machine.Standing
import Shell.Proofs.Machine.Branching
import Shell.Proofs.Machine.Cancelling
import Shell.Proofs.Machine.Measure

set_option autoImplicit false

namespace Shell

variable {ρ : Type} {S R : Except Abort ρ → Prop}

namespace Machine

variable {m m₀ m' : Machine ρ} {h : Heights} {i k : Nat} {event : Event} {queue : Queue Event}

/-! ## 1. Everybody stays in place

One lemma for each way in which a machine can go on. Each of them puts `Stands.turned` or one of its companions to
use. -/

/-- A task is changed at its phase, and the world with it. -/
theorem turned_modifyTask (hi : i < m.tasks.size) {f : Task ρ → Task ρ} {w : World}
    (hs : (f (m.task i)).starter = (m.task i).starter) (hin : (f (m.task i)).input = (m.task i).input)
    (hout : (f (m.task i)).output = (m.task i).output) (hc : (f (m.task i)).cancelled = (m.task i).cancelled)
    (hp : (m.task i).phase.Leads (m.task i).cancelled (f (m.task i)).phase)
    (hchannels : w.channels.size = m.world.channels.size) (hinputs : w.inputs.size = m.world.inputs.size)
    (hr : ∀ k ≠ i, m.world.Regards k w) : Turned i m { m.modifyTask i f with world := w } := by
  have hself : ({ m.modifyTask i f with world := w } : Machine ρ).task i = f (m.task i) :=
    task_modifyTask_self f hi
  refine ⟨size_modifyTask m i f, fun k hk => task_modifyTask_of_ne f hk, ?_, ?_, ?_, ?_, ?_, hchannels, hinputs, hr⟩
  · rw [hself, hs]
  · rw [hself, hin]
  · rw [hself, hout]
  · rw [hself, hc]
  · rwa [hself]

/-- The end of a task: its ends are closed if it has had a turn, and its starter is told. -/
theorem endTask_eq (m : Machine ρ) (i : Nat) (result : Except Abort ρ) :
    ∃ w : World, m.endTask i result = { m.setPhase i (.ended result) with world := w } ∧
      w.channels.size = m.world.channels.size ∧ w.inputs.size = m.world.inputs.size ∧
      (∀ k, m.world.Regards k w) ∧
      ((m.task i).starter ≠ none → (m.task i).started = true → m.EndsClosed i w) := by
  unfold endTask
  simp only
  cases hs : (m.task i).starter with
  | none => exact ⟨m.world, rfl, rfl, rfl, fun k => .refl _ k, fun hne => absurd rfl hne⟩
  | some p =>
    -- The world in which the ends are closed.
    obtain ⟨w, hw, hch, hin, hr, hc⟩ : ∃ w : World, (if (m.task i).started = true
        then (m.setPhase i (.ended result)).closeEnds (m.task i) else m.setPhase i (.ended result)) =
          { m.setPhase i (.ended result) with world := w } ∧
        w.channels.size = m.world.channels.size ∧ w.inputs.size = m.world.inputs.size ∧
        (∀ k, m.world.Regards k w) ∧ ((m.task i).started = true → m.EndsClosed i w) := by
      by_cases hstarted : (m.task i).started = true
      · rw [if_pos hstarted, closeEnds_eq]
        refine ⟨_, rfl, World.size_closeEnds _ _ _, congrArg Array.size (World.inputs_closeEnds _ _ _),
          fun k => World.regards_closeEnds _ _ _ k, fun _ => ?_⟩
        have hclosed := m.endsClosed_closeEnds i
        rw [closeEnds_eq] at hclosed
        exact hclosed
      · rw [if_neg hstarted]
        exact ⟨m.world, rfl, rfl, rfl, fun k => .refl _ k, fun ht => absurd ht hstarted⟩
    simp only
    rw [hw]
    -- A starter that drains its pipeline is told a second time. Nobody takes reports for more than that.
    split
    · exact ⟨(w.push (.report i false)).push (.report i true), rfl, hch, hin,
        fun k => ((hr k).trans (w.regards_push _ k)).trans (World.regards_push _ _ k),
        fun _ hstarted => ⟨(hc hstarted).write, (hc hstarted).read⟩⟩
    · exact ⟨w.push (.report i false), rfl, hch, hin, fun k => (hr k).trans (w.regards_push _ k),
        fun _ hstarted => ⟨(hc hstarted).write, (hc hstarted).read⟩⟩

/-- What a task is known to have closed does not depend on its phase. -/
theorem EndsClosed.congr {w : World} (hc : m.EndsClosed i w) (hin : (m'.task i).input = (m.task i).input)
    (hout : (m'.task i).output = (m.task i).output) (hw : m.world.Regards k m'.world)
    (hchannels : m'.world.channels.size = m.world.channels.size)
    (hlt : (m.task i).input < m.world.inputs.size) : m'.EndsClosed i w where
  write c hc' ho := hc.write c (hchannels ▸ hc') (hout ▸ ho)
  read c hc' _ hs := by
    rw [hin, hw.supply _ hlt] at hs
    exact hc.read c (hchannels ▸ hc') hlt hs

/-- An event leaves the queue. -/
theorem turned_withQueue (hq : m.world.queue.toList = event :: queue.toList)
    (hne : ∀ k ≠ i, event ≠ .resume k) : Turned i m (m.withQueue queue) :=
  ⟨rfl, fun _ _ => rfl, rfl, rfl, rfl, rfl, .refl _ _, rfl, rfl, fun k hk => World.regards_withQueue hq (hne k hk)⟩

/-- An event to come concerns nobody's phase. -/
theorem Turned.push (ht : Turned i m m') (event : Event) : Turned i m (m'.push event) :=
  ht.trans ⟨rfl, fun _ _ => rfl, rfl, rfl, rfl, rfl, .refl _ _, rfl, rfl, fun k _ => m'.world.regards_push event k⟩

/-- Two changes of one task are one, if the second phase is one that it may come to. -/
theorem Turned.setPhase (ht : Turned i m m') (hi : i < m.tasks.size) {phase : Phase ρ}
    (hp : (m'.task i).phase.Leads (m'.task i).cancelled phase) : Turned i m (m'.setPhase i phase) :=
  ht.trans (turned_modifyTask (f := fun t => { t with phase := phase }) (w := m'.world)
    (hi.trans_eq ht.size.symm) rfl rfl rfl rfl hp rfl rfl fun k _ => .refl _ k)

/-- A task that is set to a phase is at it. -/
theorem task_setPhase_self (hi : i < m.tasks.size) (phase : Phase ρ) :
    (m.setPhase i phase).task i = { m.task i with phase := phase } :=
  task_modifyTask_self _ hi

variable (hm : m.Stands S R h)
include hm

/-- A task waits again. -/
theorem Stands.waits (hq : m.world.queue.toList = .resume i :: queue.toList) {job rest : Job ρ} {w : World}
    (hp : (m.task i).phase = .active job) (hc : (m.task i).cancelled = false)
    (ha : job.advance i (m.withQueue queue).world = (w, .active rest))
    (hsound : ((m.withQueue queue).became i (.active rest) w).roster.Sound S R) :
    ((m.withQueue queue).became i (.active rest) w).Stands S R h := by
  have hi : i < m.tasks.size := lt_size_of_result?_eq_none (result?_eq_none_of_active hp)
  have hadmits : (m.withQueue queue).world.Admits (m.task i).input (m.task i).output :=
    ⟨(hm.admits hi).supply, (hm.admits hi).clear⟩
  have hbusy : job.Busy S (m.task i).input (m.task i).output := by
    have hf := hm.fares i hi
    unfold Fares at hf
    rw [hp] at hf
    cases hf with
    | active hj _ => exact (hj hc).1
  have hself : ((m.withQueue queue).became i (.active rest) w).task i =
      { m.task i with started := true, phase := .active rest } := task_became_self (m := m.withQueue queue) _ w hi
  -- Either way there is work first, and then a wait for which there is a reason.
  obtain ⟨w', pipe, hworks, rfl, hrest, hheeds⟩ : ∃ w' pipe, (m.withQueue queue).world.Works w' ∧
      w = w'.wait pipe i ∧ rest.Busy S (m.task i).input (m.task i).output ∧
      (w'.wait pipe i).Heeds i (m.task i).input (m.task i).output := by
    have hturn := hbusy.turn i hadmits
    rw [ha] at hturn
    have hwaits {w' : World} {pipe : Nat} (hworks : (m.withQueue queue).world.Works w')
        (hlt : pipe < m.world.channels.size) : i ∈ ((w'.wait pipe i).channel pipe).waiting := by
      rw [World.channel_wait_self i (by rw [hworks.channels]; exact hlt)]
      exact List.mem_append_right _ List.mem_cons_self
    cases hturn with
    | @reads w' pipe job hworks hs he hj =>
      have hlt := hm.plumbed.channel _ (hm.placed i hi).input pipe ((hworks.supply _).symm.trans hs)
      exact ⟨w', pipe, hworks, rfl, hj, .bytes hs (by rwa [World.pipe_wait]) (hwaits hworks hlt)⟩
    | @writes w' pipe job hworks ho hopen hf hj =>
      have hlt := ((hm.placed i hi).output pipe ho).1
      exact ⟨w', pipe, hworks, rfl, hj, .room ho (by rwa [World.pipe_wait]) (by rwa [World.pipe_wait])
        (hwaits hworks hlt)⟩
  have halike := hworks.toAlike.trans (w'.alike_wait pipe i)
  have hturned : Turned i m ((m.withQueue queue).became i (.active rest) (w'.wait pipe i)) := by
    refine turned_modifyTask hi rfl rfl rfl rfl ?_ halike.channels halike.inputs fun k hk => ?_
    · exact Phase.leads_active (by rw [hp]; rfl) rest
    · exact (World.regards_withQueue hq fun he => hk (Event.resume.inj he).symm).trans
        ((hworks.regards k).trans (World.regards_wait w' pipe i k))
  -- It fares as it waits, since it has not been told to end, and it has not ended.
  refine hm.turned hturned hsound (fun _ => ?_) fun p hs hc' he he' => ?_
  · unfold Fares
    rw [hself]
    exact .active (fun _ => ⟨hrest, hheeds⟩) fun ht => absurd ht (by simp [hc])
  · rw [hself] at he'
    cases he'

/-- A task ends that has come so far alone. -/
theorem Stands.ended (hi : i < m.tasks.size) {m₁ : Machine ρ} (ht : Turned i m m₁)
    (hstarted : (m.task i).cancelled = false → (m₁.task i).started = true) {result : Except Abort ρ}
    (hsound : (m₁.endTask i result).roster.Sound S R) : (m₁.endTask i result).Stands S R h := by
  obtain ⟨w, heq, hchannels, hinputs, hr, hclosed⟩ := m₁.endTask_eq i result
  rw [heq] at hsound ⊢
  have hi₁ : i < m₁.tasks.size := hi.trans_eq ht.size.symm
  have hturned : Turned i m₁ { m₁.setPhase i (.ended result) with world := w } :=
    turned_modifyTask hi₁ rfl rfl rfl rfl (Phase.leads_ended _ result) hchannels hinputs fun k _ => hr k
  have hself : ({ m₁.setPhase i (.ended result) with world := w } : Machine ρ).task i =
      { m₁.task i with phase := .ended result } := task_setPhase_self hi₁ _
  refine hm.turned (ht.trans hturned) hsound (fun _ => ?_) fun p hs hc he he' => ?_
  · unfold Fares
    rw [hself]
    exact .ended
  · refine (hclosed ?_ (hstarted hc)).congr hturned.input hturned.output (hr i) hchannels ?_
    · rw [ht.starter, hs]
      exact Option.some_ne_none p
    · rw [ht.input, ht.inputs]
      exact (hm.placed i hi).input

/-- A stage that its starter is told of has come to one of the results of stages. -/
theorem Stands.result_of_report {q first stages ended : Nat} {late : Bool} {next : Except Abort ρ → Job ρ}
    {result : Except Abort ρ} (hr : (k, late) ∈ m.roster.reports) (hs : (m.task k).starter = some q)
    (hp : (m.task q).phase = .joining first stages ended next) (hc : (m.task q).cancelled = false)
    (hk : (m.task k).phase = .ended result) : S result := by
  have hq : q < m.tasks.size := (hm.sound.orderly.starter k q hs).2
  cases hm.sound.orderly.awaits_of_phase hp hq with
  | joining hb he hcount hstages =>
    have hrange := hb.reported _ (Roster.mem_reportsTo.mpr ⟨hr, hs⟩)
    exact hm.sound.of_stage hp hq hc hrange.1 hrange.2 hk

/-- A starter comes to another phase when it hears of a stage. -/
theorem Stands.told {q : Nat} {phase : Phase ρ} (ht : Turned q m m')
    (htask : m'.task q = { m.task q with phase := phase }) (hended : phase.isEnded = false)
    (hsound : m'.roster.Sound S R)
    (hfares : phase.Fares S m'.world q (m.task q).input (m.task q).output (m.task q).cancelled) :
    m'.Stands S R h := by
  refine hm.turned ht hsound (fun _ => ?_) fun p hs hc he he' => ?_
  · unfold Fares
    rwa [htask]
  · rw [htask, hended] at he'
    cases he'

/-- An event is dealt with that is not the turn of a task. -/
theorem Stands.still (ht : ∀ i, Turned i m m') (hsame : m'.tasks = m.tasks) (hsound : m'.roster.Sound S R) :
    m'.Stands S R h := by
  have htask : m'.task 0 = m.task 0 := congrArg (fun tasks => tasks.getD 0 default) hsame
  refine hm.turned (ht 0) hsound (fun hi => ?_) fun p hs hc he he' => ?_
  · exact hm.fares_of_regards hi htask ((ht 1).regards 0 Nat.zero_ne_one)
  · rw [htask, he] at he'
    cases he'

/-- A stage is reported. -/
theorem Stands.report {late : Bool} (hn : m.world.queue.next? = some (.report k late, queue))
    (hh : (m.withQueue queue).Handled (.report k late) m') (hsound : m'.roster.Sound S R) :
    m'.Stands S R h := by
  have hqueue := Queue.next?_eq_some hn
  have hr : (k, late) ∈ m.roster.reports := reports_of_next hn ▸ List.mem_cons_self
  have hwith (q : Nat) : Turned q m (m.withQueue queue) := turned_withQueue hqueue fun _ _ => nofun
  have hfares {q : Nat} {phase : Phase ρ} (hs : (m.task k).starter = some q) (hp : (m.task q).phase = phase) :
      phase.Fares S m.world q (m.task q).input (m.task q).output (m.task q).cancelled :=
    hp ▸ hm.fares q (hm.sound.orderly.starter k q hs).2
  -- Whoever comes to another phase, with a turn to come or without one.
  have hturn {q : Nat} (hs : (m.task k).starter = some q) (phase : Phase ρ)
      (hl : (m.task q).phase.Leads (m.task q).cancelled phase) :
      Turned q m ((m.withQueue queue).setPhase q phase) ∧
        ((m.withQueue queue).setPhase q phase).task q = { m.task q with phase := phase } := by
    have hq := (hm.sound.orderly.starter k q hs).2
    exact ⟨(hwith q).setPhase hq hl, task_setPhase_self (m := m.withQueue queue) hq phase⟩
  -- By what the starter makes of the report. In each case it comes to a phase that it may come to, and fares there.
  cases hh with
  | @failed _ q first stages ended next abort hs hp hk =>
    cases hfares hs hp with
    | joining hlt hnext =>
      obtain ⟨ht, htask⟩ := hturn hs (.failing first stages abort next)
        (Phase.leads_failing (congrArg Phase.isEnded hp) _ _ _ _)
      exact hm.told (ht.push _) htask rfl hsound (.failing (World.mem_queue_push _ _) (Nat.zero_lt_of_lt hlt)
        fun hc => hnext _ (hm.result_of_report hr hs hp hc hk))
  | @counted _ q first stages ended next value hs hp hk hlt =>
    cases hfares hs hp with
    | joining _ hnext =>
      obtain ⟨ht, htask⟩ := hturn hs (.joining first stages (ended + 1) next) (by
        rw [show (m.task q).phase = _ from hp]
        exact ⟨nofun, id, fun _ _ _ _ he => by cases he; exact ⟨_, _, rfl⟩⟩)
      exact hm.told ht htask rfl hsound (.joining hlt hnext)
  | @complete _ q first stages ended next value last hs hp hk hge hlast =>
    cases hfares hs hp with
    | joining hlt hnext =>
      obtain ⟨ht, htask⟩ := hturn hs (.active (next last))
        (Phase.leads_active (congrArg Phase.isEnded hp) _)
      have hq := (hm.sound.orderly.starter k q hs).2
      exact hm.told (ht.push _) htask rfl hsound (.active
        (fun hc => ⟨.rests (hnext _ (hm.sound.of_stage hp hq hc (by omega) (by omega) hlast)),
          .turn (World.mem_queue_push _ _)⟩) fun _ => World.mem_queue_push _ _)
  | @drained _ q left abort next hs hp hlt =>
    cases hfares hs hp with
    | draining _ hnext =>
      obtain ⟨ht, htask⟩ := hturn hs (.draining (left - 1) abort next) (by
        rw [show (m.task q).phase = _ from hp]
        exact ⟨nofun, id, nofun⟩)
      exact hm.told ht htask rfl hsound (.draining (by omega) hnext)
  | @emptied _ q left abort next hs hp hle =>
    cases hfares hs hp with
    | draining _ hnext =>
      obtain ⟨ht, htask⟩ := hturn hs (.active (next (.error abort)))
        (Phase.leads_active (congrArg Phase.isEnded hp) _)
      exact hm.told (ht.push _) htask rfl hsound (.active
        (fun hc => ⟨.rests (hnext hc), .turn (World.mem_queue_push _ _)⟩) fun _ => World.mem_queue_push _ _)
  | early | missed => exact hm.still hwith rfl hsound

end Machine

end Shell

namespace Shell.Machine

variable {ρ : Type} {S R : Except Abort ρ → Prop} {m m' : Machine ρ} {h : Heights} {i k : Nat} {event : Event}
  {queue : Queue Event}

/-! ## 2. Turns

A turn ends a task, starts stages, or leaves the task with a job to go on with. In the first two cases there is less
to do, and in the third the data have come further, or only an event is gone. -/

/-- Less is left when one task comes down. -/
theorem lessEffort_of_setPhase (h h' : Heights) (phase : Phase ρ) (hi : i < m.tasks.size)
    (hsize : m'.tasks.size = m.tasks.size) (hphase : m'.roster.phase = (m.roster.setPhase i phase).phase)
    (hlt : phase.toDo < (m.task i).phase.toDo) : LessEffort (m'.effort h') (m.effort h) := by
  refine lessEffort_of_toDo h h' ?_
  rw [Roster.toDo_congr (r := m.roster.setPhase i phase) hsize hphase]
  exact Roster.toDo_setPhase_lt hi hlt

/-- Less is left when a task ends. -/
theorem lessEffort_of_endTask (h h' : Heights) {m₁ : Machine ρ} {job : Job ρ} (hi : i < m.tasks.size)
    (hp : (m.task i).phase = .active job) (hsame : m₁.roster = (m.withQueue queue).roster)
    (result : Except Abort ρ) : LessEffort ((m₁.endTask i result).effort h') (m.effort h) := by
  have hp₁ : (m₁.task i).phase = .active job := (congrArg (fun r : Roster ρ => r.phase i) hsame).trans hp
  have hroster := roster_endTask hp₁ result
  refine lessEffort_of_setPhase h h' (.ended result) hi ?_ ?_ ?_
  · exact (congrArg Roster.size hroster).trans (congrArg Roster.size hsame)
  · rw [hroster, hsame]
    rfl
  · rw [hp]
    exact Phase.toDo_ended_lt rfl result

section

variable (hm : m.Stands S R h)
include hm

/-- A task with a job that has not been told to end. -/
theorem Stands.busy {job : Job ρ} (hp : (m.task i).phase = .active job) (hc : (m.task i).cancelled = false) :
    i < m.tasks.size ∧ job.Busy S (m.task i).input (m.task i).output := by
  have hi : i < m.tasks.size := lt_size_of_result?_eq_none (result?_eq_none_of_active hp)
  have hf := hm.fares i hi
  unfold Fares at hf
  rw [hp] at hf
  cases hf with
  | active hj _ => exact ⟨hi, (hj hc).1⟩

/-- What a task reads from and writes to is there whatever the events to come are. -/
theorem Stands.admits_withQueue (queue : Queue Event) (hi : i < m.tasks.size) :
    (m.withQueue queue).world.Admits (m.task i).input (m.task i).output :=
  ⟨(hm.admits hi).supply, (hm.admits hi).clear⟩

variable (hq : m.world.queue.toList = .resume i :: queue.toList) {job : Job ρ} {w : World}
  (hp : (m.task i).phase = .active job) (hc : (m.task i).cancelled = false)
include hq hp hc

/-- A task that waits again has carried data on, or its turn is over and that is all. -/
theorem Stands.less_of_waits {rest : Job ρ} (ha : job.advance i (m.withQueue queue).world = (w, .active rest)) :
    LessEffort (((m.withQueue queue).became i (.active rest) w).effort h) (m.effort h) := by
  obtain ⟨hi, hbusy⟩ := hm.busy hp hc
  have hsame := job.sameReports_advance i (m.withQueue queue).world
  rw [ha] at hsame
  have hroster := roster_became (m := m.withQueue queue) hi (.active rest) hsame
  -- Either less of the job is left, or the same node is tried again with less data ahead of it, or it is just the
  -- turn that is over.
  rcases lt_or_eq_of_le (Job.rank_of_advance ha) with hlt | heq
  · refine lessEffort_of_setPhase h h (.active rest) hi (size_became _ _ _ _)
      (congrArg Roster.phase hroster :) ?_
    rw [hp]
    exact Phase.toDo_lt rfl hlt
  · have htodo : ((m.withQueue queue).became i (.active rest) w).roster.toDo = m.roster.toDo := by
      rw [hroster]
      refine Roster.toDo_setPhase_eq (r := m.roster) ?_
      show rest.rank + 1 = (m.task i).phase.toDo
      rw [hp, heq]
      rfl
    have hplaced := hm.placed i hi
    have hheld : (m.task i).phase.held = job.held := by
      rw [hp]
      rfl
    rcases data_became_lt (m := m.withQueue queue) ⟨hplaced.input, hplaced.output, hplaced.flows⟩
        ⟨hm.plumbed.asked, hm.plumbed.capacity, hm.plumbed.supply, hm.plumbed.channel⟩ hi hheld rfl
        (hbusy.carries (hm.admits_withQueue queue hi) ha heq) with hlt | ⟨hdata, hqueue⟩
    · exact lessEffort_of_data htodo hlt
    · refine lessEffort_of_queue htodo hdata ?_
      rw [world_became, hqueue, hq]
      exact Nat.lt_add_of_pos_left Nat.one_pos

/-- A task ends. -/
theorem Stands.of_ends {result : Except Abort ρ}
    (ha : job.advance i (m.withQueue queue).world = (w, .ended result))
    (hsound : (((m.withQueue queue).begun i w).endTask i result).roster.Sound S R) :
    (((m.withQueue queue).begun i w).endTask i result).Stands S R h ∧
      LessEffort ((((m.withQueue queue).begun i w).endTask i result).effort h) (m.effort h) := by
  obtain ⟨hi, hbusy⟩ := hm.busy hp hc
  have hsame := job.sameReports_advance i (m.withQueue queue).world
  rw [ha] at hsame
  have hworks : (m.withQueue queue).world.Works w := by
    have hturn := hbusy.turn i (hm.admits_withQueue queue hi)
    rw [ha] at hturn
    cases hturn with
    | ends hw => exact hw
  have hturned : Turned i m ((m.withQueue queue).begun i w) := by
    refine turned_modifyTask hi rfl rfl rfl rfl (.refl _ _) hworks.channels hworks.inputs fun k hk => ?_
    exact (World.regards_withQueue hq fun he => hk (Event.resume.inj he).symm).trans (hworks.regards k)
  refine ⟨hm.ended hi hturned (fun _ => ?_) hsound,
    lessEffort_of_endTask h h hi hp (roster_begun (m := m.withQueue queue) hi hsame) result⟩
  rw [task_begun_self (m := m.withQueue queue) w hi]

/-- A task starts the stages of a pipeline. -/
theorem Stands.of_starts {stages capacity input : Nat} {output : Output} {stage : Nat → Nat → Output → Job ρ}
    {next : Except Abort ρ → Job ρ}
    (ha : job.advance i (m.withQueue queue).world = (w, .starting stages capacity input output stage next))
    (hsound : (startStages i capacity output stage stages 0 input
      ((m.withQueue queue).became i (.joining m.tasks.size stages 0 next) w)).roster.Sound S R) :
    ∃ h', (startStages i capacity output stage stages 0 input
        ((m.withQueue queue).became i (.joining m.tasks.size stages 0 next) w)).Stands S R h' ∧
      LessEffort ((startStages i capacity output stage stages 0 input
        ((m.withQueue queue).became i (.joining m.tasks.size stages 0 next) w)).effort h') (m.effort h) := by
  obtain ⟨hi, hbusy⟩ := hm.busy hp hc
  have hsame := job.sameReports_advance i (m.withQueue queue).world
  have hturn := hbusy.turn i (hm.admits_withQueue queue hi)
  have hrank := job.within_advance i (m.withQueue queue).world
  rw [ha] at hsame hturn hrank
  have hlive : (m.task i).phase.isEnded = false := by
    rw [hp]
    rfl
  have hbound : (Job.pipeline stages capacity input output stage next).rank ≤ (m.task i).phase.rank := by
    rw [hp]
    cases hrank with
    | starting hrank => exact hrank
  -- The heights are spread to make room for the stages, so the measure is compared by what is left to do alone.
  cases hturn with
  | starts hw ho hs hcapacity hstage hnext =>
    refine ⟨_, hm.branched (branched_startStages hq hi hw hs) hsound hi hlive hc ho hs hcapacity hstage hnext,
      lessEffort_of_toDo _ _ ?_⟩
    exact Roster.Starts.toDo_lt (r := (m.withQueue queue).roster)
      (starts_of_joined hi hsame (joined_startStages _ _)) hi hlive hbound

end

/-! ## 3. Steps

What is left gets less in each step, and the order on it is well-founded, so there are only so many steps before the
queue is empty. -/

section

variable (hm : m.Stands S R h) (hsound : m'.roster.Sound S R)
include hm hsound

/-- A task has its turn. -/
theorem Stands.of_resume (hq : m.world.queue.toList = .resume i :: queue.toList)
    (hh : (m.withQueue queue).Handled (.resume i) m') :
    ∃ h', m'.Stands S R h' ∧ LessEffort (m'.effort h') (m.effort h) := by
  have hwith : Turned i m (m.withQueue queue) := turned_withQueue hq fun k hk he => hk (Event.resume.inj he).symm
  -- By what a task makes of its turn: it waits, ends, starts stages, gives up its stages, or has nothing to do.
  cases hh with
  | waits hp hc ha => exact ⟨h, hm.waits hq hp hc ha hsound, hm.less_of_waits hq hp hc ha⟩
  | ends hp hc ha => exact ⟨h, hm.of_ends hq hp hc ha hsound⟩
  | @cancelled _ job hp hc =>
    have hi : i < m.tasks.size := lt_size_of_result?_eq_none (result?_eq_none_of_active hp)
    refine ⟨h, hm.ended hi hwith (fun hn => ?_) hsound, lessEffort_of_endTask h h hi hp rfl _⟩
    exact absurd (hn.symm.trans hc) Bool.false_ne_true
  | starts hp hc ha => exact hm.of_starts hq hp hc ha hsound
  | @drains _ first stages abort next hp =>
    have hi : i < m.tasks.size := lt_size_of_isEnded (congrArg Phase.isEnded hp)
    have hroster := roster_drain (m := m.withQueue queue) hi first stages abort next
    refine ⟨h, hm.drains hq hp hsound, lessEffort_of_setPhase h h (.draining stages abort next) hi
      (congrArg Roster.size hroster :) (congrArg Roster.phase hroster :) ?_⟩
    rw [show (m.task i).phase = _ from hp]
    exact Phase.toDo_lt rfl Phase.rank_draining_lt
  | idle ha hf =>
    refine ⟨h, hm.turned hwith hsound (fun hi => (hm.fares i hi).of_waiting ha hf) fun p _ _ he he' => ?_,
      lessEffort_of_queue rfl rfl ?_⟩
    · exact absurd (he.symm.trans he') Bool.false_ne_true
    · rw [hq]
      exact Nat.lt_add_of_pos_left Nat.one_pos

/-- The end of a stage is noticed. -/
theorem Stands.of_report {late : Bool} (hn : m.world.queue.next? = some (.report k late, queue))
    (hh : (m.withQueue queue).Handled (.report k late) m') :
    ∃ h', m'.Stands S R h' ∧ LessEffort (m'.effort h') (m.effort h) := by
  refine ⟨h, hm.report hn hh hsound, ?_⟩
  have hqueue := Queue.next?_eq_some hn
  have hless : (queue.toList.map Event.weight).sum < (m.world.queue.toList.map Event.weight).sum := by
    rw [hqueue]
    exact Nat.lt_add_of_pos_left Nat.one_pos
  have hlt {q : Nat} (hs : (m.task k).starter = some q) : q < m.tasks.size := (hm.sound.orderly.starter k q hs).2
  have hphase {q : Nat} (hs : (m.task k).starter = some q) (phase : Phase ρ) :
      ((m.withQueue queue).setPhase q phase).roster.phase = (m.roster.setPhase q phase).phase :=
    (congrArg Roster.phase (roster_setPhase (m := m.withQueue queue) (hlt hs) phase) :)
  -- A starter that comes down, and has a turn to come.
  have hdown {q : Nat} (hs : (m.task k).starter = some q) (phase : Phase ρ)
      (hd : phase.toDo < (m.task q).phase.toDo) :
      LessEffort ((((m.withQueue queue).setPhase q phase).push (.resume q)).effort h) (m.effort h) :=
    lessEffort_of_setPhase h h phase (hlt hs) (size_modifyTask _ _ _)
      ((congrArg Roster.phase (roster_push_resume _ q)).trans (hphase hs phase)) hd
  -- A starter that goes on waiting.
  have hsame {q : Nat} (hs : (m.task k).starter = some q) (phase : Phase ρ)
      (hd : phase.toDo = (m.task q).phase.toDo) (hheld : phase.held = (m.task q).phase.held) :
      LessEffort (((m.withQueue queue).setPhase q phase).effort h) (m.effort h) := by
    refine lessEffort_of_queue ?_ (data_setPhase (m := m.withQueue queue) (hlt hs) hheld) hless
    rw [Roster.toDo_congr (r := m.roster.setPhase q phase) (size_modifyTask _ _ _) (hphase hs phase)]
    exact Roster.toDo_setPhase_eq hd
  -- A report that is missed is still one event less. Otherwise the starter comes down, or it counts and there is
  -- one event less.
  cases hh with
  | @failed _ q first stages ended next abort hs hp hk =>
    refine hdown hs _ ?_
    rw [show (m.task q).phase = _ from hp]
    exact Phase.toDo_lt rfl Phase.rank_failing_lt
  | @counted _ q first stages ended next value hs hp hk hlt =>
    refine hsame hs _ ?_ ?_ <;> rw [show (m.task q).phase = _ from hp] <;> rfl
  | @complete _ q first stages ended next value last hs hp hk hge hlast =>
    refine hdown hs _ ?_
    rw [show (m.task q).phase = _ from hp]
    exact Phase.toDo_lt rfl (Phase.rank_active_lt_joining last)
  | @drained _ q left abort next hs hp hlt =>
    refine hsame hs _ ?_ ?_ <;> rw [show (m.task q).phase = _ from hp] <;> rfl
  | @emptied _ q left abort next hs hp hle =>
    refine hdown hs _ ?_
    rw [show (m.task q).phase = _ from hp]
    exact Phase.toDo_lt rfl Phase.rank_active_lt_draining
  | early | missed => exact lessEffort_of_queue rfl rfl hless

end

/-- **Each step keeps everybody in place and leaves less to do.** -/
theorem Stands.step (hm : m.Stands S R h) (hn : m.world.queue.next? = some (event, queue)) :
    ∃ h', m.step.Stands S R h' ∧ LessEffort (m.step.effort h') (m.effort h) := by
  have hqueue := Queue.next?_eq_some hn
  have hsound := sound_step hm.sound
  have hh := handled_step hm.sound.orderly hn
  generalize m.step = m' at hsound hh ⊢
  cases event with
  | resume i => exact hm.of_resume hsound hqueue hh
  | arrival i =>
    cases hh with
    | arrival =>
      refine ⟨h, hm.still (fun k => (turned_withQueue hqueue fun _ _ => nofun).push _) rfl hsound,
        lessEffort_of_queue rfl rfl ?_⟩
      show ((queue.push (.resume i)).toList.map Event.weight).sum < _
      rw [Queue.toList_push, hqueue, List.map_append, List.sum_append, List.map_cons, List.sum_cons, Nat.add_comm]
      exact Nat.add_lt_add_right Nat.one_lt_two _
  | report k late => exact hm.of_report hsound hn hh

/-- A run of at least one turn takes the next event first, if there is one. -/
theorem run_succ (hn : m.world.queue.next? = some (event, queue)) (turns : Nat) :
    m.run (turns + 1) = m.step.run turns := by
  have hq := Queue.next?_eq_some hn
  have hne : m.world.queue.isEmpty ≠ true := fun he => by
    rw [(Queue.isEmpty_iff _).mp he] at hq
    cases hq
  rw [run, isQuiet, Bool.eq_false_iff.mpr hne]
  rfl

/-- **A run comes to a point at which no events are left**, with everybody in place. -/
theorem Stands.exists_quiet (hm : m.Stands S R h) :
    ∃ turns h', (m.run turns).Stands S R h' ∧ (m.run turns).isQuiet = true := by
  generalize he : m.effort h = effort
  induction effort using wellFounded_lessEffort.induction generalizing m h with
  | _ effort ih =>
    subst he
    cases hn : m.world.queue.next? with
    | none => exact ⟨0, h, hm, isQuiet_of_next?_eq_none hn hm.plumbed.asked⟩
    | some next =>
      obtain ⟨event, queue⟩ := next
      obtain ⟨h', hstands, hless⟩ := hm.step hn
      obtain ⟨turns, h'', hquiet⟩ := ih _ hless hstands rfl
      refine ⟨turns + 1, h'', ?_⟩
      rwa [run_succ hn]

end Shell.Machine
