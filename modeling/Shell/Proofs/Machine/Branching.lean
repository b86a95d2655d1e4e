/-
The start of a pipeline among other tasks.

When a task starts stages, the new pipes come between the pipe that it reads from and the one that it writes
to. Between any two heights there is room for them when all heights have been multiplied by the number of
stages (`Heights.spread`). Nothing else changes for the tasks that were there, so everybody is in place again
(`Stands.branched`).
-/
import Shell.Proofs.Machine.Standing

set_option autoImplicit false

namespace Shell

variable {ρ : Type} {S R : Except Abort ρ → Prop}

/-! ## 1. Heights for new pipes

Between two tasks one above the other there may be no height free for new pipes. So all heights are first multiplied
by the number of stages, which leaves room for these between the task that starts them and what it reads from. -/

/-- The heights when task `i` of so many tasks has started `stages` stages: stage `k` is as many steps above
the task as there are stages after it. -/
def Heights.spread (h : Heights) (i stages tasks channels : Nat) : Heights where
  pipe c := if c < channels then stages * h.pipe c else stages * h.task i + (stages - 1 - (c - channels))
  task k := if k < tasks then stages * h.task k else stages * h.task i + (stages - 1 - (k - tasks))
  text := stages * h.text

namespace Heights

variable (h : Heights) (i stages tasks channels : Nat)

/-- An old pipe is as many times as high as there are stages. -/
theorem pipe_spread_of_lt {c : Nat} (hc : c < channels) :
    (h.spread i stages tasks channels).pipe c = stages * h.pipe c := if_pos hc

/-- An old task is as many times as high as there are stages. -/
theorem task_spread_of_lt {k : Nat} (hk : k < tasks) :
    (h.spread i stages tasks channels).task k = stages * h.task k := if_pos hk

/-- The pipe behind a new stage is as high as the stage. -/
theorem pipe_spread_add (k : Nat) : (h.spread i stages tasks channels).pipe (channels + k) =
    stages * h.task i + (stages - 1 - k) := by
  simp only [spread, if_neg (show ¬ channels + k < channels by omega), Nat.add_sub_cancel_left]

/-- A new stage is above the task that has started it by as many steps as there are stages after it. -/
theorem task_spread_add (k : Nat) : (h.spread i stages tasks channels).task (tasks + k) =
    stages * h.task i + (stages - 1 - k) := by
  simp only [spread, if_neg (show ¬ tasks + k < tasks by omega), Nat.add_sub_cancel_left]

/-- Where an old task reads from is as many times as high, the bottom included. -/
theorem source_spread {supply : Supply} (hs : ∀ c, supply = .pipe c → c < channels) :
    (h.spread i stages tasks channels).source supply = stages * h.source supply := by
  cases supply with
  | text | host => rfl
  | pipe c => exact h.pipe_spread_of_lt i stages tasks channels (hs c rfl)

/-- The first of the stages is below what the task reads from. -/
theorem spread_lt {height source : Nat} (hlt : height < source) {k : Nat} (hk : k < stages) :
    stages * height + (stages - 1 - k) < stages * source :=
  calc stages * height + (stages - 1 - k)
      < stages * height + stages := by omega
    _ = stages * (height + 1) := by rw [Nat.mul_succ]
    _ ≤ stages * source := Nat.mul_le_mul_left stages hlt

end Heights

/-! ## 2. New stages

The last stage writes where the task does and the first one reads what the task reads. With the heights spread out,
old tasks stay in place, and the new ones are next to each other. -/

namespace Machine

variable {m m' : Machine ρ} {h : Heights} {i stages capacity : Nat} {output : Output}
  {stage : Nat → Nat → Output → Job ρ} {next : Except Abort ρ → Job ρ}

/-- Task `i` has started stages, and before that it may have done something else in its turn. -/
structure Branched (i stages capacity : Nat) (output : Output) (stage : Nat → Nat → Output → Job ρ)
    (next : Except Abort ρ → Job ρ) (m m' : Machine ρ) : Prop where
  size : m'.tasks.size = m.tasks.size + stages
  other : ∀ k < m.tasks.size, k ≠ i → m'.task k = m.task k
  self : m'.task i = { m.task i with started := true, phase := .joining m.tasks.size stages 0 next }
  new : ∀ k < stages, m'.task (m.tasks.size + k) =
    { phase := .active (stage k (inputAt (m.task i).input m.world.inputs.size k)
        (outputAt output stages m.world.channels.size k))
      starter := i
      input := inputAt (m.task i).input m.world.inputs.size k
      output := outputAt output stages m.world.channels.size k }
  channels : m'.world.channels.size = m.world.channels.size + (stages - 1)
  inputs : m'.world.inputs.size = m.world.inputs.size + (stages - 1)
  capacity : ∀ k, k + 1 < stages → (m'.world.channel (m.world.channels.size + k)).pipe.capacity = capacity
  supply : ∀ k, k + 1 < stages →
    (m'.world.input (m.world.inputs.size + k)).supply = .pipe (m.world.channels.size + k)
  turns : ∀ k < stages, .resume (m.tasks.size + k) ∈ m'.world.queue.toList
  regards : ∀ k ≠ i, m.world.Regards k m'.world

namespace Branched

variable (hb : Branched i stages capacity output stage next m m')
include hb

/-- Of the world there is more: nothing that was there is lost. -/
theorem world : m.world.Regards (i + 1) m'.world := hb.regards (i + 1) (Nat.succ_ne_self i)

/-- A task that was there is as it was, but for the phase of one. -/
theorem field {α : Type} (g : Task ρ → α) (hg : g (m'.task i) = g (m.task i)) {k : Nat}
    (hk : k < m.tasks.size) : g (m'.task k) = g (m.task k) := by
  by_cases hki : k = i
  · rw [hki, hg]
  · rw [hb.other k hk hki]

theorem input_eq {k : Nat} (hk : k < m.tasks.size) : (m'.task k).input = (m.task k).input :=
  hb.field Task.input (by rw [hb.self]) hk

theorem output_eq {k : Nat} (hk : k < m.tasks.size) : (m'.task k).output = (m.task k).output :=
  hb.field Task.output (by rw [hb.self]) hk

theorem starter_eq {k : Nat} (hk : k < m.tasks.size) : (m'.task k).starter = (m.task k).starter :=
  hb.field Task.starter (by rw [hb.self]) hk

theorem cancelled_eq {k : Nat} (hk : k < m.tasks.size) : (m'.task k).cancelled = (m.task k).cancelled :=
  hb.field Task.cancelled (by rw [hb.self]) hk

/-- An old task reads from where it has read from. -/
theorem supply_eq {k : Nat} (hk : k < m.tasks.size) (hin : (m.task k).input < m.world.inputs.size) :
    m'.supply k = m.supply k := by
  rw [Machine.supply, hb.input_eq hk, hb.world.supply _ hin, Machine.supply]

/-- The input of a new stage: that of the task, or the one on the pipe before the stage. -/
theorem supply_new (hin : (m.task i).input < m.world.inputs.size) {k : Nat} (hk : k < stages) :
    (m'.world.input (inputAt (m.task i).input m.world.inputs.size k)).supply =
      match k with
      | 0 => m.supply i
      | k + 1 => .pipe (m.world.channels.size + k) := by
  cases k with
  | zero => exact hb.world.supply _ hin
  | succ k => exact hb.supply k hk

/-- A number is that of a task that was there or of a new one. -/
theorem old_or_new {k : Nat} (hk : k < m'.tasks.size) :
    k < m.tasks.size ∨ ∃ j < stages, k = m.tasks.size + j := by
  rw [hb.size] at hk
  rcases Nat.lt_or_ge k m.tasks.size with hlt | hge
  · exact .inl hlt
  · exact .inr ⟨k - m.tasks.size, by omega, by omega⟩

/-- The new pipes have room, and the new inputs read from the new pipes. -/
theorem plumbed (hw : m.world.Plumbed) (hcapacity : 1 ≤ capacity) : m'.world.Plumbed where
  asked := hb.world.asked hw.asked
  capacity c hc := by
    -- What was there is as it was, and what is new is as the start of the stages has made it.
    rcases Nat.lt_or_ge c m.world.channels.size with hlt | hge
    · rw [hb.world.capacity c hlt]
      exact hw.capacity c hlt
    · obtain ⟨k, rfl⟩ := Nat.exists_eq_add_of_le hge
      rw [hb.channels] at hc
      rwa [hb.capacity k (by omega)]
  supply j hj := by
    rcases Nat.lt_or_ge j m.world.inputs.size with hlt | hge
    · rw [hb.world.supply j hlt]
      exact hw.supply j hlt
    · obtain ⟨k, rfl⟩ := Nat.exists_eq_add_of_le hge
      rw [hb.inputs] at hj
      rw [hb.supply k (by omega)]
      exact nofun
  channel j hj c hs := by
    rcases Nat.lt_or_ge j m.world.inputs.size with hlt | hge
    · rw [hb.world.supply j hlt] at hs
      exact Nat.lt_of_lt_of_le (hw.channel j hlt c hs) hb.world.channels
    · obtain ⟨k, rfl⟩ := Nat.exists_eq_add_of_le hge
      rw [hb.inputs] at hj
      rw [hb.supply k (by omega)] at hs
      obtain rfl := Supply.pipe.inj hs
      rw [hb.channels]
      omega

/-- The tasks that were there are in place at the new heights. -/
theorem placed_old {k : Nat} (hk : k < m.tasks.size) (hp : m.Placed h k) (hw : m.world.Plumbed) (hs : 1 ≤ stages) :
    m'.Placed (h.spread i stages m.tasks.size m.world.channels.size) k where
  input := by
    rw [hb.input_eq hk]
    exact Nat.lt_of_lt_of_le hp.input hb.world.inputs
  output c ho := by
    rw [hb.output_eq hk] at ho
    obtain ⟨hlt, heq⟩ := hp.output c ho
    refine ⟨Nat.lt_of_lt_of_le hlt hb.world.channels, ?_⟩
    rw [Heights.pipe_spread_of_lt _ _ _ _ _ hlt, Heights.task_spread_of_lt _ _ _ _ _ hk, heq]
  flows := by
    rw [hb.supply_eq hk hp.input, Heights.task_spread_of_lt _ _ _ _ _ hk,
      Heights.source_spread _ _ _ _ _ (hp.channel hw)]
    exact Nat.mul_lt_mul_of_pos_left hp.flows hs

/-- And so are the new ones. -/
theorem placed_new {k : Nat} (hk : k < stages) (hp : m.Placed h i) (hw : m.world.Plumbed)
    (ho : (m.task i).output.Covers output) :
    m'.Placed (h.spread i stages m.tasks.size m.world.channels.size) (m.tasks.size + k) where
  input := by
    rw [hb.new k hk, hb.inputs]
    have hin := hp.input
    -- The first stage reads from where the task does, and the others from the pipe before them.
    cases k with
    | zero => exact Nat.lt_of_lt_of_le hin (Nat.le_add_right _ _)
    | succ k =>
      show m.world.inputs.size + k < _
      omega
  output c hout := by
    rw [hb.new k hk] at hout
    change outputAt output stages m.world.channels.size k = .pipe c at hout
    rw [Heights.task_spread_add]
    by_cases hlast : k + 1 < stages
    · rw [outputAt, if_pos hlast] at hout
      obtain rfl := Output.pipe.inj hout
      rw [Heights.pipe_spread_add, hb.channels]
      exact ⟨by omega, rfl⟩
    -- The last stage writes where the task may.
    · rw [outputAt, if_neg hlast] at hout
      obtain ⟨hlt, heq⟩ := hp.output c (ho c hout)
      refine ⟨Nat.lt_of_lt_of_le hlt hb.world.channels, ?_⟩
      rw [Heights.pipe_spread_of_lt _ _ _ _ _ hlt, heq, show stages - 1 - k = 0 by omega, Nat.add_zero]
  flows := by
    rw [Machine.supply, hb.new k hk, Heights.task_spread_add]
    simp only
    rw [hb.supply_new hp.input hk]
    -- The first stage is below what the task reads from, since multiplying has made room for all stages. The others
    -- are one step below the pipe before them.
    cases k with
    | zero =>
      show _ < (h.spread i stages m.tasks.size m.world.channels.size).source (m.supply i)
      rw [Heights.source_spread _ _ _ _ _ (hp.channel hw)]
      exact Heights.spread_lt _ hp.flows hk
    | succ k =>
      show _ < (h.spread i stages m.tasks.size m.world.channels.size).pipe (m.world.channels.size + k)
      rw [Heights.pipe_spread_add]
      omega

/-- The new stages are next to each other. -/
theorem chained_new (hi : i < m.tasks.size) (hin : (m.task i).input < m.world.inputs.size) (hs : 1 ≤ stages)
    (ho : (m.task i).output.Covers output) : m'.Chained i m.tasks.size stages where
  head := by
    have hfirst := hb.new 0 hs
    rw [Nat.add_zero] at hfirst
    rw [hfirst, hb.input_eq hi]
    rfl
  link k hk := by
    refine ⟨m.world.channels.size + k, ?_, ?_⟩
    · rw [hb.new k (by omega)]
      exact if_pos hk
    · rw [Machine.supply, hb.new (k + 1) hk]
      exact hb.supply_new hin hk
  last := by
    rw [Nat.add_sub_assoc hs, hb.new (stages - 1) (by omega), hb.output_eq hi]
    show (m.task i).output.Covers (outputAt output stages m.world.channels.size (stages - 1))
    rwa [outputAt, if_neg (by omega)]

/-- The stages of an old task are chained as they were. -/
theorem chained_old {p first stages' : Nat} (hc : m.Chained p first stages') (hp : p < m.tasks.size)
    (hs : 1 ≤ stages') (hstage : ∀ k < stages', first + k < m.tasks.size ∧
      (m.task (first + k)).input < m.world.inputs.size) : m'.Chained p first stages' where
  head := by
    rw [hb.input_eq (show first < m.tasks.size from (hstage 0 hs).1), hb.input_eq hp]
    exact hc.head
  link k hk := by
    rw [hb.output_eq (hstage k (by omega)).1, hb.supply_eq (hstage (k + 1) hk).1 (hstage (k + 1) hk).2]
    exact hc.link k hk
  last := by
    rw [Nat.add_sub_assoc hs, hb.output_eq hp, hb.output_eq (hstage (stages' - 1) (by omega)).1, ← Nat.add_sub_assoc hs]
    exact hc.last

end Branched

/-- Nothing that was there changes when stages are started. -/
theorem Started.regards {m₁ : Machine ρ} {starter input : Nat}
    (h : m₁.Started starter stages capacity input output stage m') (k : Nat) :
    m₁.world.Regards k m'.world where
  channels := h.channels ▸ Nat.le_add_right _ _
  inputs := h.inputs ▸ Nat.le_add_right _ _
  supply j hj := by rw [h.oldInput j hj]
  writeClosed c hc := by
    rw [h.oldChannel c (World.lt_size_of_closed (.inl hc))]
    exact hc
  readClosed c hc := by
    rw [h.oldChannel c (World.lt_size_of_closed (.inr hc))]
    exact hc
  capacity c hc := by rw [h.oldChannel c hc]
  asked ha := h.asked.trans ha
  turn ht := by
    rw [h.queue]
    exact List.mem_append_left _ ht
  waiting c hc hw := by
    rw [h.oldChannel c hc]
    exact .inr ⟨hw, rfl⟩

/-- A task has done its work and then started the stages of a pipeline. -/
theorem branched_startStages {queue : Queue Event} {w : World}
    (hq : m.world.queue.toList = .resume i :: queue.toList) (hi : i < m.tasks.size)
    (hw : (m.withQueue queue).world.Works w) (hs : 1 ≤ stages) :
    Branched i stages capacity output stage next m (startStages i capacity output stage stages 0 (m.task i).input
      ((m.withQueue queue).became i (.joining m.tasks.size stages 0 next) w)) := by
  have hst := started i capacity output stage stages 0 (m.task i).input
    ((m.withQueue queue).became i (.joining m.tasks.size stages 0 next) w) hs
  -- The machine in which the task waits already, before any of its stages is there.
  generalize hm₁ : (m.withQueue queue).became i (.joining m.tasks.size stages 0 next) w = m₁ at hst ⊢
  have hsize : m₁.tasks.size = m.tasks.size := by rw [← hm₁]; exact size_became (m.withQueue queue) i _ w
  have hworld : m₁.world = w := by rw [← hm₁]; rfl
  have hchannels : m₁.world.channels.size = m.world.channels.size := by rw [hworld]; exact hw.channels
  have hinputs : m₁.world.inputs.size = m.world.inputs.size := by rw [hworld]; exact hw.inputs
  -- The tasks, the new stages, the new pipes and inputs, their turns, and the world as the others see it.
  refine ⟨?_, fun k hk hki => ?_, ?_, fun k hk => ?_, ?_, ?_, fun k hk => ?_, fun k hk => ?_, fun k hk => ?_,
    fun k hki => ?_⟩
  · rw [hst.size, hsize]
  · rw [hst.oldTask k (hk.trans_eq hsize.symm), ← hm₁]
    exact task_became_of_ne (m := m.withQueue queue) _ w hki
  · rw [hst.oldTask i (hi.trans_eq hsize.symm), ← hm₁]
    exact task_became_self (m := m.withQueue queue) _ w hi
  · have hnew := hst.newTask k hk
    rw [hsize, hchannels, hinputs, Nat.zero_add] at hnew
    exact hnew
  · rw [hst.channels, hchannels]
  · rw [hst.inputs, hinputs]
  · rw [← hchannels, hst.newChannel k hk]
  · rw [← hinputs, hst.newInput k hk, ← hchannels]
    rfl
  · rw [hst.queue, hsize]
    exact List.mem_append_right _ (List.mem_map_of_mem (List.mem_range'_1.mpr (by omega)))
  · have hwith : m.world.Regards k (m.withQueue queue).world :=
      World.regards_withQueue hq fun he => hki (Event.resume.inj he).symm
    exact (hwith.trans (hw.regards k)).trans (hworld ▸ hst.regards k)

section

variable (hm : m.Stands S R h) (hb : Branched i stages capacity output stage next m m')
  (hsound : m'.roster.Sound S R)
include hm hb hsound

/-- A new stage comes after the task, and is not below it. -/
theorem Stands.branched_starter (hi : i < m.tasks.size) {k p : Nat} (hsp : (m'.task k).starter = some p) :
    p < k ∧ (h.spread i stages m.tasks.size m.world.channels.size).task p ≤
      (h.spread i stages m.tasks.size m.world.channels.size).task k := by
  rcases hb.old_or_new (hsound.orderly.starter k p hsp).1 with hlt | ⟨j, hj, rfl⟩
  · rw [hb.starter_eq hlt] at hsp
    obtain ⟨hpk, hle⟩ := hm.starter k p hsp
    refine ⟨hpk, ?_⟩
    rw [Heights.task_spread_of_lt _ _ _ _ _ hlt, Heights.task_spread_of_lt _ _ _ _ _ (hpk.trans hlt)]
    exact Nat.mul_le_mul_left stages hle
  · rw [hb.new j hj] at hsp
    obtain rfl := Option.some.inj hsp
    refine ⟨by omega, ?_⟩
    rw [Heights.task_spread_add, Heights.task_spread_of_lt _ _ _ _ _ hi]
    omega

omit hsound in
/-- The stages of each task are next to each other, also those that are new. -/
theorem Stands.branched_chained (hi : i < m.tasks.size) (ho : (m.task i).output.Covers output) (hs : 1 ≤ stages)
    {p first stages' ended' : Nat} {next' : Except Abort ρ → Job ρ}
    (hp : (m'.task p).phase = .joining first stages' ended' next') : m'.Chained p first stages' := by
  rcases hb.old_or_new (lt_size_of_isEnded (congrArg Phase.isEnded hp)) with hlt | ⟨j, hj, rfl⟩
  · by_cases hpi : p = i
    · subst hpi
      rw [hb.self] at hp
      cases hp
      exact hb.chained_new hi (hm.placed p hi).input hs ho
    · rw [hb.other p hlt hpi] at hp
      have hpos : ended' < stages' := by
        have hf := hm.fares p hlt
        unfold Fares at hf
        rw [hp] at hf
        cases hf with
        | joining hlt _ => exact hlt
      exact hb.chained_old (hm.chained p _ _ _ _ hp) hlt (Nat.zero_lt_of_lt hpos) fun k hk =>
        have hk := (hm.stage_lt hp hk).1
        ⟨hk, (hm.placed _ hk).input⟩
  · rw [hb.new j hj] at hp
    cases hp

/-- Neither the task nor a new stage waits for stages that have been told to end. -/
theorem Stands.branched_doomed (hlive : (m.task i).phase.isEnded = false) (hc : (m.task i).cancelled = false)
    {k p : Nat} (hd : (m'.task p).phase.dooms (m'.task p).cancelled = true) (hk : k ∈ m'.roster.running p) :
    (m'.task k).cancelled = true := by
  obtain ⟨hk, hs, hended⟩ := Roster.mem_running.mp hk
  -- Who is doomed is an old task, since a new one has a job and has not been told to end. It is not the one that
  -- starts the stages either, so its stages are old as well.
  rcases hb.old_or_new (hsound.orderly.starter k p hs).2 with hp | ⟨j, hj, rfl⟩
  · have hpi : p ≠ i := by
      rintro rfl
      rw [hb.self] at hd
      exact absurd (hc.symm.trans hd) Bool.false_ne_true
    rcases hb.old_or_new hk with hlt | ⟨j, hj, rfl⟩
    · rw [hb.other p hp hpi] at hd
      rw [hb.cancelled_eq hlt]
      refine hm.doomed p hd k (Roster.mem_running.mpr ⟨hlt, (hb.starter_eq hlt).symm.trans hs, ?_⟩)
      by_cases hki : k = i
      · rw [hki]
        exact hlive
      · exact (congrArg (fun t : Task ρ => t.phase.isEnded) (hb.other k hlt hki)).symm.trans hended
    · have hs' : (m'.task (m.tasks.size + j)).starter = some p := hs
      rw [hb.new j hj] at hs'
      exact absurd (Option.some.inj hs').symm hpi
  · rw [hb.new j hj] at hd
    cases hd

/-- Ends that have been closed stay closed, and no new stage has ended. -/
theorem Stands.branched_closed {k p : Nat} (hs : (m'.task k).starter = some p)
    (hc : (m'.task k).cancelled = false) (he : (m'.task k).phase.isEnded = true) : m'.EndsClosed k m'.world := by
  rcases hb.old_or_new (hsound.orderly.starter k p hs).1 with hlt | ⟨j, hj, rfl⟩
  · have hki : k ≠ i := by
      rintro rfl
      rw [hb.self] at he
      cases he
    rw [hb.other k hlt hki] at hs hc he
    have hclosed := hm.closed k p hs hc he
    have hplaced := hm.placed k hlt
    refine ⟨fun c _ hout => ?_, fun c _ _ hsup => ?_⟩
    · rw [hb.output_eq hlt] at hout
      exact hb.world.writeClosed c (hclosed.write c (hplaced.output c hout).1 hout)
    · have hsup' : m.supply k = .pipe c := (hb.supply_eq hlt hplaced.input).symm.trans hsup
      exact hb.world.readClosed c (hclosed.read c (hplaced.channel hm.plumbed c hsup') hplaced.input hsup')
  · rw [hb.new j hj] at he
    cases he

/-- **The start of a pipeline keeps everybody in place.** -/
theorem Stands.branched (hi : i < m.tasks.size) (hlive : (m.task i).phase.isEnded = false)
    (hc : (m.task i).cancelled = false) (ho : (m.task i).output.Covers output) (hs : 1 ≤ stages)
    (hcapacity : 1 ≤ capacity) (hstage : ∀ index input output, (stage index input output).Uses S input output)
    (hnext : ∀ r, S r → (next r).Uses S (m.task i).input (m.task i).output) :
    m'.Stands S R (h.spread i stages m.tasks.size m.world.channels.size) where
  -- Every condition is shown of the tasks that were there before, and of the new stages. The starter is the only
  -- old task whose phase is another one.
  sound := hsound
  plumbed := hb.plumbed hm.plumbed hcapacity
  placed k hk := by
    rcases hb.old_or_new hk with hlt | ⟨j, hj, rfl⟩
    · exact hb.placed_old hlt (hm.placed k hlt) hm.plumbed hs
    · exact hb.placed_new hj (hm.placed i hi) hm.plumbed ho
  starter _ _ hsp := hm.branched_starter hb hsound hi hsp
  root k hk hs := by
    rcases hb.old_or_new hk with hlt | ⟨j, hj, rfl⟩
    · rw [hb.starter_eq hlt] at hs
      rw [hb.supply_eq hlt (hm.placed k hlt).input, hb.output_eq hlt]
      exact hm.root k hlt hs
    · rw [hb.new j hj] at hs
      cases hs
  chained _ _ _ _ _ hp := hm.branched_chained hb hi ho hs hp
  fares k hk := by
    rcases hb.old_or_new hk with hlt | ⟨j, hj, rfl⟩
    · by_cases hki : k = i
      · subst hki
        unfold Fares
        rw [hb.self]
        exact .joining hs hnext
      · exact hm.fares_of_regards hlt (hb.other k hlt hki) (hb.regards k hki)
    · unfold Fares
      rw [hb.new j hj]
      exact .active (fun _ => ⟨.rests (hstage _ _ _), .turn (hb.turns j hj)⟩) fun _ => hb.turns j hj
  doomed _ hd _ hk := hm.branched_doomed hb hsound hlive hc hd hk
  closed _ _ hs hc he := hm.branched_closed hb hsound hs hc he

end

end Machine

end Shell
