/-
Who is told to end.

When a pipeline has failed, its stages are told to end, and with them the stages that they wait for, down to
tasks that wait for pipes. Those are woken. So whoever has been told to end either has a turn to come, or waits
for stages that have all been told to end (`Machine.Cancels`). The task that started the pipeline then waits
for nothing else either (`Stands.drains`).

The induction is on the depth of the cancelling. It is enough because a stage has a greater number than its
starter, so that no task has stages where the depth is used up.
-/
import Shell.Proofs.Machine.Standing

set_option autoImplicit false

namespace Shell.Machine

variable {ρ : Type} {S R : Except Abort ρ → Prop} {m m₀ m₁ m' : Machine ρ} {h : Heights} {i k p q : Nat}
  {E : Nat → Prop}

/-! ## 1. Tasks that are told to end

While cancelling goes on, some tasks have been told to end whose stages have not been told yet. `Cancels` names them
as exceptions, and at the end of the recursion there are none. -/

/-- Telling tasks to end ends none of them, so the same stages run. -/
theorem Spares.running (h : m.Spares m') (p : Nat) : m'.roster.running p = m.roster.running p := by
  ext k
  rw [Roster.mem_running, Roster.mem_running]
  show k < m'.tasks.size ∧ (m'.task k).starter = some p ∧ (m'.task k).phase.isEnded = false ↔
    k < m.tasks.size ∧ (m.task k).starter = some p ∧ (m.task k).phase.isEnded = false
  rw [h.size, h.starter, h.phase]

/-- Some tasks have been told to end, and each of those has a turn to come or waits for stages that have been
told so too. Of the tasks `E` the latter is not known yet. The task `q` has a turn meanwhile. -/
structure Cancels (S : Except Abort ρ → Prop) (q : Nat) (E : Nat → Prop) (m₀ m : Machine ρ) : Prop
    extends Spares m₀ m, Keeps m₀ m where
  fares : ∀ k < m₀.tasks.size, k ≠ q → m.Fares S k
  doomed : ∀ p, ¬ E p → (m.task p).phase.dooms (m.task p).cancelled = true → ∀ k ∈ m₀.roster.running p,
    (m.task k).cancelled = true

namespace Cancels

variable (hc : Cancels S q E m₀ m)
include hc

/-- With more exceptions less is asked. -/
theorem weaken {E' : Nat → Prop} (hE : ∀ p, E p → E' p) : Cancels S q E' m₀ m :=
  { hc with doomed := fun p hp => hc.doomed p fun he => hp (hE p he) }

/-- What a task counts on does not depend on the turns of others. -/
theorem fares_of_regards (hm : m₀.Stands S R h) (hk : k < m₀.tasks.size) (hkq : k ≠ q) (ht : m'.task k = m.task k)
    (hr : m.world.Regards k m'.world) : m'.Fares S k := by
  have hplaced := hc.toKeeps.placed (hm.placed k hk)
  have hfares := hc.fares k hk hkq
  unfold Fares at hfares ⊢
  rw [ht]
  exact hfares.regards hr hplaced.input (hplaced.channel (hc.toKeeps.plumbed hm.plumbed)) fun c ho =>
    (hplaced.output c ho).1

/-- One more task is told to end, and the world may change for it. -/
theorem told (hm : m₀.Stands S R h) (hi : i < m₀.tasks.size) {w : World}
    (hchannels : w.channels.size = m.world.channels.size) (hinputs : w.inputs.size = m.world.inputs.size)
    (hreports : m.world.SameReports w) (hr : ∀ k ≠ i, m.world.Regards k w)
    (hf : i ≠ q → ({ m.flag i with world := w } : Machine ρ).Fares S i)
    (hd : ¬ E i → (m.task i).phase.dooms true = true → ∀ k ∈ m₀.roster.running i, (m.task k).cancelled = true) :
    Cancels S q E m₀ { m.flag i with world := w } := by
  have hself := task_flag_self (m := m) (hi.trans_eq hc.size.symm)
  have hspares : m.Spares { m.flag i with world := w } := { m.spares_flag i with reports := hreports }
  -- What a task has besides the mark that it is to end is the same of all tasks.
  have field {α : Type} (g : Task ρ → α) (hg : ∀ t, g { t with cancelled := true } = g t) (k : Nat) :
      g ((m.flag i).task k) = g (m.task k) := by
    by_cases hk : k = i
    · rw [hk, hself, hg]
    · rw [task_flag_of_ne hk]
  have hkeeps : m.Keeps { m.flag i with world := w } := ⟨hspares.size, hspares.starter,
    field Task.input fun _ => rfl, field Task.output fun _ => rfl, hchannels, hinputs,
    (hr (i + 1) (Nat.succ_ne_self i)).toLasts⟩
  -- All that is kept is kept twice. What is new is how the told task fares, and that its stages are told, if that
  -- matters already.
  refine ⟨hc.toSpares.trans hspares, (hc.toKeeps.trans hkeeps).input, (hc.toKeeps.trans hkeeps).output,
    (hc.toKeeps.trans hkeeps).channels, (hc.toKeeps.trans hkeeps).inputs, (hc.toKeeps.trans hkeeps).world,
    fun k hk hkq => ?_, fun p hp hdooms k hk => ?_⟩
  · by_cases hki : k = i
    · subst hki
      exact hf hkq
    · exact hc.fares_of_regards hm hk hkq (task_flag_of_ne hki) (hr k hki)
  · refine hspares.grows k ?_
    by_cases hpi : p = i
    · subst hpi
      change ((m.flag p).task p).phase.dooms ((m.flag p).task p).cancelled = true at hdooms
      rw [hself] at hdooms
      exact hd hp hdooms k hk
    · change ((m.flag i).task p).phase.dooms ((m.flag i).task p).cancelled = true at hdooms
      rw [task_flag_of_ne hpi] at hdooms
      exact hc.doomed p hp hdooms k hk

/-- A task that has no job is told to end. -/
theorem flag (hm : m₀.Stands S R h) (hi : i < m₀.tasks.size) (ha : ∀ job, (m.task i).phase ≠ .active job)
    (hd : ¬ E i → (m.task i).phase.dooms true = true → ∀ k ∈ m₀.roster.running i, (m.task k).cancelled = true) :
    Cancels S q E m₀ (m.flag i) := by
  refine hc.told (w := m.world) hm hi rfl rfl rfl (fun k _ => .refl _ k) (fun hiq => ?_) hd
  have hfares := hc.fares i hi hiq
  unfold Fares at hfares ⊢
  show ((m.flag i).task i).phase.Fares S m.world i ((m.flag i).task i).input ((m.flag i).task i).output
    ((m.flag i).task i).cancelled
  rw [task_flag_self (hi.trans_eq hc.size.symm)]
  exact hfares.cancelled ha

/-- A task that has a job is told to end, and it is woken if it waits. -/
theorem signal (hm : m₀.Stands S R h) (hi : i < m₀.tasks.size) (hiq : i ≠ q) {job : Job ρ}
    (hp : (m.task i).phase = .active job) :
    Cancels S q E m₀ (if (m.flag i).world.isWaiting i = true
      then ((m.flag i).mapWorld fun w => w.unwait i).push (.resume i) else m.flag i) := by
  have hdooms : ¬ E i → (m.task i).phase.dooms true = true → ∀ k ∈ m₀.roster.running i,
      (m.task k).cancelled = true := by
    rw [hp]
    exact nofun
  have hactive (w : World) (hq : .resume i ∈ w.queue.toList) :
      ({ m.flag i with world := w } : Machine ρ).Fares S i := by
    unfold Fares
    show ((m.flag i).task i).phase.Fares S w i ((m.flag i).task i).input ((m.flag i).task i).output
      ((m.flag i).task i).cancelled
    rw [task_flag_self (hi.trans_eq hc.size.symm)]
    simp only
    rw [hp]
    exact .active nofun fun _ => hq
  -- A task that waits is woken, so it has a turn to come. Otherwise it has one anyway.
  by_cases hw : (m.flag i).world.isWaiting i = true
  · rw [if_pos hw]
    have hunwait := m.world.alike_unwait i
    refine hc.told (w := (m.world.unwait i).push (.resume i)) hm hi hunwait.channels hunwait.inputs
      (spares_wake m i).reports (fun k hk => (m.world.regards_unwait hk).trans (World.regards_push _ _ k))
      (fun _ => hactive _ (World.mem_queue_push _ _)) hdooms
  · rw [if_neg hw]
    refine hc.told (w := m.world) hm hi rfl rfl rfl (fun k _ => .refl _ k) (fun _ => hactive m.world ?_) hdooms
    -- A task that does not wait has a turn to come, whether or not it has been told to end before.
    have hfares := hc.fares i hi hiq
    unfold Fares at hfares
    rw [hp] at hfares
    cases hfares with
    | active hj ht =>
      cases hcancelled : (m.task i).cancelled with
      | true => exact ht hcancelled
      | false =>
        cases (hj hcancelled).2 with
        | turn hq => exact hq
        | bytes _ _ hmem => exact absurd (World.isWaiting_of_mem hmem) hw
        | room _ _ _ hmem => exact absurd (World.isWaiting_of_mem hmem) hw

end Cancels

/-! ## 2. Tasks and their stages

By induction on the depth of the recursion: a task is told to end, becomes an exception, its stages are cancelled,
and it is no exception any more. -/

/-- A task has been told to end or has ended. -/
def Quits (m : Machine ρ) (i : Nat) : Prop :=
  (m.task i).cancelled = true ∨ (m.task i).phase.isEnded = true

/-- Who has been told to end still has when others are told. -/
theorem Spares.quits (h : m.Spares m') (hq : m.Quits i) : m'.Quits i := by
  rcases hq with hc | he
  · exact .inl (h.grows i hc)
  · exact .inr (by rwa [h.phase])

/-- Who is told to end has been told. -/
theorem quits_flag (hi : i < m.tasks.size) : (m.flag i).Quits i := .inl (by rw [task_flag_self hi])

/-- What holds of the cancelling of one task holds of several. -/
theorem Cancels.foldl {f : Machine ρ → Nat → Machine ρ} (hspares : ∀ (m : Machine ρ) i, m.Spares (f m i))
    (tasks : List Nat) (hone : ∀ i ∈ tasks, ∀ m, Cancels S q E m₀ m → Cancels S q E m₀ (f m i) ∧ (f m i).Quits i)
    (hc : Cancels S q E m₀ m) : Cancels S q E m₀ (tasks.foldl f m) ∧ ∀ i ∈ tasks, (tasks.foldl f m).Quits i := by
  induction tasks generalizing m with
  | nil => exact ⟨hc, nofun⟩
  | cons i tasks ih =>
    obtain ⟨hfirst, hquits⟩ := hone i List.mem_cons_self m hc
    obtain ⟨hrest, hall⟩ := ih (fun j hj => hone j (List.mem_cons_of_mem i hj)) hfirst
    refine ⟨hrest, fun j hj => ?_⟩
    rcases List.mem_cons.mp hj with rfl | hj
    · exact (foldl_induction Spares.refl Spares.trans hspares tasks _).quits hquits
    · exact hall j hj

/-- Whoever quits and runs has been told to end. -/
theorem Cancels.cancelled_of_quits (hc : Cancels S q E m₀ m) (hk : k ∈ m₀.roster.running p) (hq : m.Quits k) :
    (m.task k).cancelled = true := by
  have hlive : (m₀.task k).phase.isEnded = false := (Roster.mem_running.mp hk).2.2
  refine hq.resolve_right fun he => ?_
  rw [hc.phase, hlive] at he
  cases he

/-- When all its stages have been told to end, nothing more is to be known of a task. -/
theorem Cancels.settle (hc : Cancels S q (fun p => E p ∨ p = i) m₀ m)
    (hall : ∀ k ∈ m₀.roster.running i, m.Quits k) : Cancels S q E m₀ m :=
  { hc with
    doomed := fun p hp hdooms k hk => by
      by_cases hpi : p = i
      · subst hpi
        exact hc.cancelled_of_quits hk (hall k hk)
      · exact hc.doomed p (fun h => h.elim hp hpi) hdooms k hk }

/-- The stages that run of a task that waits for them are among those that it has started. -/
theorem Stands.mem_range_of_running (hm : m₀.Stands S R h) {first stages ended : Nat}
    {next : Except Abort ρ → Job ρ} (hp : (m₀.task p).phase = .joining first stages ended next)
    (hk : k ∈ m₀.roster.running p) : k ∈ List.range' first stages := by
  have hlt : p < m₀.tasks.size := lt_size_of_isEnded (congrArg Phase.isEnded hp)
  cases hm.sound.orderly.awaits_of_phase hp hlt with
  | joining hb _ _ _ => exact List.mem_range'_1.mpr (hb.running k hk)

/-- A task that does not wait for stages to end well is told to end. -/
theorem Cancels.alone (hm : m₀.Stands S R h) (hc : Cancels S q E m₀ m) (hi : i < m₀.tasks.size)
    (ha : ∀ job, (m.task i).phase ≠ .active job)
    (hj : ∀ first stages ended next, (m.task i).phase ≠ .joining first stages ended next) :
    Cancels S q E m₀ (m.flag i) ∧ (m.flag i).Quits i := by
  refine ⟨hc.flag hm hi ha fun hE hdooms => hc.doomed i hE ?_, quits_flag (hi.trans_eq hc.size.symm)⟩
  -- Such a task is doomed already, or never.
  cases hp : (m.task i).phase with
  | joining => exact absurd hp (hj _ _ _ _)
  | draining => rfl
  | active | starting | failing | ended =>
    rw [hp] at hdooms
    cases hdooms

/-- A task that waits for stages is told to end before they are. -/
theorem Cancels.waiting (hm : m₀.Stands S R h) (hc : Cancels S q E m₀ m) (hi : i < m₀.tasks.size)
    {first stages ended : Nat} {next : Except Abort ρ → Job ρ}
    (hp : (m.task i).phase = .joining first stages ended next) :
    Cancels S q (fun p => E p ∨ p = i) m₀ (m.flag i) :=
  (hc.weaken fun _ => .inl).flag hm hi (by rw [hp]; exact nofun) fun hE => absurd (.inr rfl) hE

/-- A task with a job is woken, which does not take back what it has been told. -/
theorem Cancels.woken (hm : m₀.Stands S R h) (hc : Cancels S q E m₀ m) (hi : i < m₀.tasks.size) (hiq : i ≠ q)
    {job : Job ρ} (hp : (m.task i).phase = .active job) :
    Cancels S q E m₀ (if (m.flag i).world.isWaiting i = true
      then ((m.flag i).mapWorld fun w => w.unwait i).push (.resume i) else m.flag i) ∧
    (if (m.flag i).world.isWaiting i = true
      then ((m.flag i).mapWorld fun w => w.unwait i).push (.resume i) else m.flag i : Machine ρ).Quits i := by
  refine ⟨hc.signal hm hi hiq hp, ?_⟩
  have hquits := quits_flag (hi.trans_eq hc.size.symm)
  split
  · exact ((m.flag i).spares_wake i).quits hquits
  · exact hquits

/-- **Cancelling a task** tells it to end, and all those that it waits for. -/
theorem Cancels.cancel (hm : m₀.Stands S R h) (depth : Nat) (hc : Cancels S q E m₀ m) (hi : i < m₀.tasks.size)
    (hqi : q < i) (hdepth : m₀.tasks.size ≤ i + depth + 1) :
    Cancels S q E m₀ (cancel depth i m) ∧ (cancel depth i m).Quits i := by
  -- On the depth. Below a task there are only tasks with greater numbers, so it is used up at the last task at the
  -- latest.
  induction depth generalizing E i m with
  | zero =>
    unfold Machine.cancel
    simp only
    split
    · next result hp => exact ⟨hc, .inr (by rw [hp]; rfl)⟩
    · next first stages ended next hp =>
      -- The last task has no stages.
      refine ⟨(hc.waiting hm hi hp).settle fun k hk => ?_,
        quits_flag (hi.trans_eq hc.size.symm)⟩
      obtain ⟨hk, hs, -⟩ := Roster.mem_running.mp hk
      have hlt := (hm.starter k i hs).1
      have hk : k < m₀.tasks.size := hk
      omega
    · next job hp => exact hc.woken hm hi (Nat.ne_of_gt hqi) hp
    · next _ hj ha => exact hc.alone hm hi ha hj
  | succ depth ih =>
    unfold Machine.cancel
    simp only
    split
    · next result hp => exact ⟨hc, .inr (by rw [hp]; rfl)⟩
    · next first stages ended next hp =>
      have hp₀ : (m₀.task i).phase = .joining first stages ended next := (hc.phase i).symm.trans hp
      -- The task has been told, and its stages are now exceptions. They are told one after the other, and then
      -- there are no exceptions left.
      obtain ⟨hrest, hquits⟩ := (hc.waiting hm hi hp).foldl
        (fun m k => spares_cancel depth k m) (List.range' first stages) fun k hk m hc => by
          obtain ⟨hle, hlt⟩ := List.mem_range'_1.mp hk
          obtain ⟨j, rfl⟩ := Nat.exists_eq_add_of_le hle
          obtain ⟨hsize, hs⟩ := hm.stage_lt hp₀ (show j < stages by omega)
          have hlt := (hm.starter _ i hs).1
          exact ih hc hsize (by omega) (by omega)
      refine ⟨hrest.settle fun k hk => hquits k (hm.mem_range_of_running hp₀ hk), ?_⟩
      exact (foldl_induction Spares.refl Spares.trans (fun m k => spares_cancel depth k m) _ _).quits
        (quits_flag (hi.trans_eq hc.size.symm))
    · next job hp => exact hc.woken hm hi (Nat.ne_of_gt hqi) hp
    · next _ hj ha => exact hc.alone hm hi ha hj

/-! ## 3. Starters that give up

The stages are cancelled first, the late reports of those that have ended are put in the queue, and then the starter
waits for nothing but the ends of all. -/

/-- A task has come to another phase. -/
structure Moved (q : Nat) (phase : Phase ρ) (m m' : Machine ρ) : Prop extends Keeps m m' where
  self : m'.task q = { m.task q with phase := phase }
  other : ∀ k ≠ q, m'.task k = m.task k
  regards : ∀ k, m.world.Regards k m'.world

/-- A change of the phase of one task, and of the world, moves that task alone. -/
theorem moved_setPhase (hq : q < m.tasks.size) (phase : Phase ρ) {w : World}
    (hchannels : w.channels.size = m.world.channels.size) (hinputs : w.inputs.size = m.world.inputs.size)
    (hr : ∀ k, m.world.Regards k w) : Moved q phase m { m.setPhase q phase with world := w } := by
  have field {α : Type} (g : Task ρ → α) (hg : ∀ t, g { t with phase := phase } = g t) (k : Nat) :
      g ((m.setPhase q phase).task k) = g (m.task k) := by
    by_cases hk : k = q
    · rw [hk, setPhase, task_modifyTask_self _ hq, hg]
    · rw [setPhase, task_modifyTask_of_ne _ hk]
  exact ⟨⟨size_modifyTask m q _, field Task.starter fun _ => rfl, field Task.input fun _ => rfl,
    field Task.output fun _ => rfl, hchannels, hinputs, (hr q).toLasts⟩, task_modifyTask_self _ hq,
    fun k hk => task_modifyTask_of_ne _ hk, hr⟩

/-- Late reports change nothing but the queue. -/
theorem exists_pushLate (tasks : List Nat) (m : Machine ρ) :
    ∃ w : World, tasks.foldl (fun m k => m.push (.report k true)) m = { m with world := w } ∧
      w.channels.size = m.world.channels.size ∧ w.inputs.size = m.world.inputs.size ∧
      ∀ k, m.world.Regards k w := by
  induction tasks generalizing m with
  | nil => exact ⟨m.world, rfl, rfl, rfl, fun k => .refl _ k⟩
  | cons k tasks ih =>
    obtain ⟨w, heq, hchannels, hinputs, hr⟩ := ih (m.push (.report k true))
    exact ⟨w, heq, hchannels, hinputs, fun j => (m.world.regards_push _ j).trans (hr j)⟩

section

variable {queue : Queue Event} {first stages : Nat} {abort : Abort} {next : Except Abort ρ → Job ρ}

/-- The stages of a task that is to give up come after it. -/
theorem Stands.stage_of_failing (hm : m.Stands S R h) (hp : (m.task q).phase = .failing first stages abort next)
    (hk : k ∈ List.range' first stages) : k < m.tasks.size ∧ q < k := by
  have hq : q < m.tasks.size := lt_size_of_isEnded (congrArg Phase.isEnded hp)
  obtain ⟨hle, hlt⟩ := List.mem_range'_1.mp hk
  cases hm.sound.orderly.awaits_of_phase hp hq with
  | failing hb _ =>
    have hs := hb.starter k hle hlt
    exact ⟨(hm.sound.orderly.starter k q hs).1, (hm.starter k q hs).1⟩

/-- All stages of a task that gives up have been told to end. -/
theorem Stands.cancels_dismiss (hm : m.Stands S R h) (hq : m.world.queue.toList = .resume q :: queue.toList)
    (hp : (m.task q).phase = .failing first stages abort next) :
    Cancels S q (fun _ => False) m ((m.withQueue queue).dismiss first stages) ∧
      ∀ k ∈ List.range' first stages, ((m.withQueue queue).dismiss first stages).Quits k := by
  have hregards (k : Nat) (hk : k ≠ q) : m.world.Regards k (m.withQueue queue).world :=
    World.regards_withQueue hq fun he => hk (Event.resume.inj he).symm
  have hreports : m.world.SameReports (m.withQueue queue).world := by
    show queue.toList.filterMap Event.report? = m.world.queue.toList.filterMap Event.report?
    rw [hq]
    rfl
  have hcancels : Cancels S q (fun _ => False) m (m.withQueue queue) :=
    ⟨⟨rfl, fun _ => rfl, fun _ => rfl, fun _ => id, hreports⟩, fun _ => rfl, fun _ => rfl, rfl, rfl,
      (hregards (q + 1) (Nat.succ_ne_self q)).toLasts,
      fun k hk hkq => hm.fares_of_regards hk rfl (hregards k hkq), fun p _ hd k hk => hm.doomed p hd k hk⟩
  refine hcancels.foldl (f := fun m k => Machine.cancel m.tasks.size k m) (fun m k => spares_cancel _ k m) _
    fun k hk m₁ hc => ?_
  obtain ⟨hlt, hqk⟩ := hm.stage_of_failing hp hk
  exact hc.cancel hm _ hlt hqk (by rw [hc.size]; omega)

/-- After its stages have been told to end, the task waits for them. -/
theorem exists_moved_drain (hm : m.Stands S R h) (hq : m.world.queue.toList = .resume q :: queue.toList)
    (hp : (m.task q).phase = .failing first stages abort next) :
    ∃ m₁, Cancels S q (fun _ => False) m m₁ ∧ (∀ k ∈ List.range' first stages, m₁.Quits k) ∧
      Moved q (.draining stages abort next) m₁ (drain q first stages abort next (m.withQueue queue)) := by
  obtain ⟨hc, hquits⟩ := hm.cancels_dismiss hq hp
  refine ⟨_, hc, hquits, ?_⟩
  generalize hm₁ : (m.withQueue queue).dismiss first stages = m₁ at hc
  obtain ⟨w, heq, hchannels, hinputs, hr⟩ := exists_pushLate
    ((List.range' first stages).filter fun k => (m₁.result? k).isSome) (m₁.setPhase q (.draining stages abort next))
  have hdrain : drain q first stages abort next (m.withQueue queue) =
      { m₁.setPhase q (.draining stages abort next) with world := w } := by
    rw [← heq, ← hm₁]
    rfl
  have hlt : q < m.tasks.size := lt_size_of_isEnded (congrArg Phase.isEnded hp)
  rw [hdrain]
  exact moved_setPhase (hlt.trans_eq hc.size.symm) _ hchannels hinputs hr

section

variable {m₁ : Machine ρ} (hm : m.Stands S R h) (hp : (m.task q).phase = .failing first stages abort next)
  (hc : Cancels S q (fun _ => False) m m₁) (hv : Moved q (.draining stages abort next) m₁ m')
include hm hp hc hv

/-- The task counts on what it may when it waits, and the others on what they did. -/
theorem Moved.fares (hk : k < m.tasks.size) : m'.Fares S k := by
  by_cases hkq : k = q
  · subst hkq
    have hfares := hm.fares k hk
    unfold Fares at hfares ⊢
    rw [hp] at hfares
    rw [hv.self]
    cases hfares with
    | failing _ hpos hnext =>
      refine .draining hpos fun hn => ?_
      simp only
      rw [hc.input, hc.output]
      exact hnext (Bool.eq_false_iff.mpr fun ht => Bool.eq_false_iff.mp hn (hc.grows k ht))
  · exact hc.fares_of_regards hm hk hkq (hv.other k hkq) (hv.regards k)

omit hm in
/-- Whoever runs has run before. -/
theorem Moved.running {p : Nat} (hk : k ∈ m'.roster.running p) : k ∈ m.roster.running p := by
  have hkeeps := hc.toKeeps.trans hv.toKeeps
  obtain ⟨hk, hs, he⟩ := Roster.mem_running.mp hk
  refine Roster.mem_running.mpr ⟨hk.trans_eq hkeeps.size, (hkeeps.starter k).symm.trans hs, ?_⟩
  by_cases hkq : k = q
  · rw [hkq]
    exact congrArg Phase.isEnded hp
  · exact (congrArg Phase.isEnded ((hc.phase k).symm.trans (congrArg Task.phase (hv.other k hkq).symm))).trans he

/-- All that the task waits for has been told to end. -/
theorem Moved.doomed (hquits : ∀ k ∈ List.range' first stages, m₁.Quits k) {p : Nat}
    (hd : (m'.task p).phase.dooms (m'.task p).cancelled = true) (hk : k ∈ m'.roster.running p) :
    (m'.task k).cancelled = true := by
  have hrun := hv.running hp hc hk
  have hcancelled : (m'.task k).cancelled = (m₁.task k).cancelled := by
    by_cases hkq : k = q
    · rw [hkq, hv.self]
    · rw [hv.other k hkq]
  rw [hcancelled]
  by_cases hpq : p = q
  · subst hpq
    cases hm.sound.orderly.awaits_of_phase hp (lt_size_of_isEnded (congrArg Phase.isEnded hp)) with
    | failing hb _ => exact hc.cancelled_of_quits hrun (hquits k (List.mem_range'_1.mpr (hb.running k hrun)))
  · rw [hv.other p hpq] at hd
    exact hc.doomed p id hd k hrun

omit hp in
/-- Who has ended had done so before. -/
theorem Moved.closed {p : Nat} (hs : (m.task k).starter = some p) (hcancel : (m'.task k).cancelled = false)
    (he : (m'.task k).phase.isEnded = true) : m'.EndsClosed k m'.world := by
  have hkq : k ≠ q := by
    rintro rfl
    rw [hv.self] at he
    cases he
  rw [hv.other k hkq] at hcancel he
  rw [hc.phase] at he
  have hkept : (m.task k).cancelled = false :=
    Bool.eq_false_iff.mpr fun ht => Bool.eq_false_iff.mp hcancel (hc.grows k ht)
  exact (hc.toKeeps.trans hv.toKeeps).endsClosed (hm.placed k (hm.sound.orderly.starter k p hs).1)
    (hm.closed k p hs hkept he)

end

/-- **Giving up keeps everybody in place.** -/
theorem Stands.drains (hm : m.Stands S R h) (hq : m.world.queue.toList = .resume q :: queue.toList)
    (hp : (m.task q).phase = .failing first stages abort next)
    (hsound : (drain q first stages abort next (m.withQueue queue)).roster.Sound S R) :
    (drain q first stages abort next (m.withQueue queue)).Stands S R h := by
  obtain ⟨m₁, hc, hquits, hv⟩ := exists_moved_drain hm hq hp
  refine hm.kept (hc.toKeeps.trans hv.toKeeps) hsound (fun p first stages ended next hj => ?_)
    (fun k hk => hv.fares hm hp hc hk) (fun p hd k hk => hv.doomed hm hp hc hquits hd hk)
    fun k p hs hcancel he => hv.closed hm hc hs hcancel he
  have hpq : p ≠ q := by
    rintro rfl
    rw [hv.self] at hj
    cases hj
  rw [hv.other p hpq, hc.phase] at hj
  exact ⟨ended, next, hj⟩

end

end Shell.Machine
