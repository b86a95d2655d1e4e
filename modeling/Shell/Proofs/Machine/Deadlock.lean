/-
When no events are left, all tasks have ended.

If no events are left, a task that runs waits for bytes, for room or for stages that run
(`Machine.Stands`). Whoever cannot wait for bytes can be followed down to somebody who waits for room: a task with
a job does so itself, and of a task with stages the first one that runs cannot wait for bytes either, since the stage
before it has closed the pipe between them (`exists_waits_room`). But a pipe that is full has a reader, who does not
wait for bytes, and all that read from it are below the writer. So nobody waits for room, as there would
always be somebody lower who does; and then nobody waits at all, since the first task reads from no pipe.
-/
import Shell.Proofs.Machine.Descent

set_option autoImplicit false

namespace Shell.Machine

variable {ρ : Type} {S R : Except Abort ρ → Prop} {m : Machine ρ} {h : Heights} {i j k p : Nat}

/-! ## 1. Those that run

Suppose that no events are left and that somebody still runs. Whoever has been told to end would have a turn to
come, or wait for stages that have been told, and so on to one that has no stages. So nobody who runs has been told,
and everybody waits for bytes, for room, or for stages. -/

/-- A task that has not been told to end. -/
structure Lives (m : Machine ρ) (i : Nat) : Prop where
  live : (m.task i).phase.isEnded = false
  kept : (m.task i).cancelled = false

/-- A task waits for room in the pipe that it writes. -/
structure WaitsRoom (m : Machine ρ) (i c : Nat) : Prop extends Lives m i where
  output : (m.task i).output = .pipe c
  isOpen : (m.world.channel c).pipe.IsOpen
  full : (m.world.channel c).pipe.room = 0

/-- What a task waits for, if no events are left. -/
inductive Held (m : Machine ρ) (i : Nat) : Prop where
  | bytes {job : Job ρ} {c : Nat} (hp : (m.task i).phase = .active job) (hs : m.supply i = .pipe c)
      (he : (m.world.channel c).pipe.isWaiting = true)
  | room {job : Job ρ} {c : Nat} (hp : (m.task i).phase = .active job) (hw : m.WaitsRoom i c)
  | stages {first stages ended : Nat} {next : Except Abort ρ → Job ρ}
      (hp : (m.task i).phase = .joining first stages ended next)

/-- The pipe that a task reads, if there is one, has bytes or has come to its end. -/
def Ready (m : Machine ρ) (i : Nat) : Prop :=
  ∀ c, m.supply i = .pipe c → (m.world.channel c).pipe.isWaiting = false

section

variable (hm : m.Stands S R h) (hq : m.world.queue.toList = [])
include hm hq

/-- Whoever waits for stages waits for one that runs. -/
theorem Stands.running_nonempty (hi : i < m.tasks.size)
    (hp : (∃ first stages ended next, (m.task i).phase = .joining first stages ended next) ∨
      ∃ left abort next, (m.task i).phase = .draining left abort next) : (m.roster.running i).Nonempty := by
  have hreports : m.roster.reportsTo i = [] := by
    have hnone : m.roster.reports = [] := by
      show m.world.queue.toList.filterMap Event.report? = []
      rw [hq]
      rfl
    rw [Roster.reportsTo, hnone]
    rfl
  have hfares := hm.fares i hi
  unfold Fares at hfares
  rw [← Finset.card_pos]
  -- Nothing is to be reported, so the stages that have not been counted off run, and there are some.
  rcases hp with ⟨first, stages, ended, next, hp⟩ | ⟨left, abort, next, hp⟩
  · rw [hp] at hfares
    cases hfares with
    | joining hlt _ =>
      cases hm.sound.orderly.awaits_of_phase hp hi with
      | joining _ _ hcount _ =>
        rw [hreports] at hcount
        exact Nat.pos_of_ne_zero fun he => by simp [he] at hcount; omega
  · rw [hp] at hfares
    cases hfares with
    | draining hpos _ =>
      cases hm.sound.orderly.awaits_of_phase hp hi with
      | draining hcount _ =>
        rw [hreports] at hcount
        exact Nat.pos_of_ne_zero fun he => by simp [he] at hcount; omega

/-- A task waits for something, if its stages have not been told to end. -/
theorem Stands.held_of_running (hi : (m.task i).phase.isEnded = false)
    (hr : ∀ k ∈ m.roster.running i, (m.task k).cancelled = false) :
    (m.task i).cancelled = false ∧ m.Held i := by
  have hlt : i < m.tasks.size := lt_size_of_isEnded hi
  have hturn : .resume i ∉ m.world.queue.toList := by
    rw [hq]
    exact List.not_mem_nil
  -- Whoever waits for stages that are told to end waits for one that runs, and this one is not.
  have hdooms (hp : (∃ first stages ended next, (m.task i).phase = .joining first stages ended next) ∨
      ∃ left abort next, (m.task i).phase = .draining left abort next) :
      (m.task i).phase.dooms (m.task i).cancelled = false := by
    obtain ⟨k, hk⟩ := hm.running_nonempty hq hlt hp
    exact Bool.eq_false_iff.mpr fun hd => Bool.eq_false_iff.mp (hr k hk) (hm.doomed i hd k hk)
  have hfares := hm.fares i hlt
  unfold Fares at hfares
  generalize hp : (m.task i).phase = phase at hfares
  -- A turn to come is out of the question, which leaves what a task waits for.
  cases hfares with
  | active hj hc =>
    have hkept : (m.task i).cancelled = false := Bool.eq_false_iff.mpr fun ht => hturn (hc ht)
    refine ⟨hkept, ?_⟩
    cases (hj hkept).2 with
    | turn ht => exact absurd ht hturn
    | bytes hs he _ => exact .bytes hp hs he
    | room ho hopen hf _ => exact .room hp ⟨⟨hi, hkept⟩, ho, hopen, hf⟩
  | joining =>
    have hd := hdooms (.inl ⟨_, _, _, _, hp⟩)
    rw [hp] at hd
    exact ⟨hd, .stages hp⟩
  | failing ht => exact absurd ht hturn
  | draining =>
    have hd := hdooms (.inr ⟨_, _, _, hp⟩)
    rw [hp] at hd
    cases hd
  | ended =>
    rw [hp] at hi
    cases hi

/-- **Nobody who runs has been told to end**, and everybody waits for something. -/
theorem Stands.held (hi : (m.task i).phase.isEnded = false) : m.Lives i ∧ m.Held i := by
  induction hn : m.tasks.size - i using Nat.strong_induction_on generalizing i with
  | _ n ih =>
    obtain ⟨hkept, hheld⟩ := hm.held_of_running hq hi fun k hk => by
      obtain ⟨hlt, hs, hlive⟩ := Roster.mem_running.mp hk
      have hik := (hm.starter k i hs).1
      have hlt' : k < m.tasks.size := hlt
      exact (ih (m.tasks.size - k) (by omega) hlive rfl).1.kept
    exact ⟨⟨hi, hkept⟩, hheld⟩

/-- The starter of a stage that runs waits for it. -/
theorem Stands.starter_joins (hi : (m.task i).phase.isEnded = false) (hs : (m.task i).starter = some p) :
    m.Lives p ∧ ∃ first stages ended next d, (m.task p).phase = .joining first stages ended next ∧
      d < stages ∧ i = first + d := by
  have hlt : p < m.tasks.size := (hm.sound.orderly.starter i p hs).2
  have hmem : i ∈ m.roster.running p := Roster.mem_running.mpr ⟨lt_size_of_isEnded hi, hs, hi⟩
  have hnone : m.roster.running p ≠ ∅ := Finset.ne_empty_of_mem hmem
  have hlive : (m.task p).phase.isEnded = false := by
    cases hp : (m.task p).phase with
    | ended =>
      cases hm.sound.orderly.awaits_of_phase hp hlt with
      | ended hr _ => exact absurd hr hnone
    | _ => rfl
  obtain ⟨hlives, hheld⟩ := hm.held hq hlive
  refine ⟨hlives, ?_⟩
  -- Who waits for bytes or for room has a job, and a task with a job has no stages that run.
  cases hheld with
  | bytes hp =>
    cases hm.sound.orderly.awaits_of_phase hp hlt with
    | active hr _ => exact absurd hr hnone
  | room hp =>
    cases hm.sound.orderly.awaits_of_phase hp hlt with
    | active hr _ => exact absurd hr hnone
  | @stages first stages ended next hp =>
    cases hm.sound.orderly.awaits_of_phase hp hlt with
    | joining hb _ _ _ =>
      obtain ⟨hge, hle⟩ := hb.running i hmem
      exact ⟨first, stages, ended, next, i - first, hp, by omega, by omega⟩

/-! ## 2. The stages of one task

If the stages of a task wait, the first one that runs reads either what its starter reads or a pipe that nobody
writes any more, which is at its end. -/

section

variable {first stages ended d : Nat} {next : Except Abort ρ → Job ρ}
  (hp : (m.task p).phase = .joining first stages ended next)
include hp

/-- A stage that has ended has closed its ends. -/
theorem Stands.stage_closed (hd : d < stages) (he : (m.task (first + d)).phase.isEnded = true) :
    m.EndsClosed (first + d) m.world := by
  have hlive : (m.task p).phase.isEnded = false := congrArg Phase.isEnded hp
  have hs := (hm.stage_lt hp hd).2
  cases hm.sound.orderly.awaits_of_phase hp (lt_size_of_isEnded hlive) with
  | joining _ _ _ hc =>
    have hkept : (m.task (first + d)).cancelled = false :=
      hc (hm.held hq hlive).1.kept (first + d) (Nat.le_add_right _ _) (Nat.add_lt_add_left hd first)
    exact hm.closed _ p hs hkept he

/-- The first of the stages that run. -/
theorem Stands.exists_first : ∃ d < stages, (m.task (first + d)).phase.isEnded = false ∧
    ∀ e < d, (m.task (first + e)).phase.isEnded = true := by
  have hlt : p < m.tasks.size := lt_size_of_isEnded (congrArg Phase.isEnded hp)
  obtain ⟨k, hk⟩ := hm.running_nonempty hq hlt (.inl ⟨_, _, _, _, hp⟩)
  have hlive : (m.task k).phase.isEnded = false := (Roster.mem_running.mp hk).2.2
  cases hm.sound.orderly.awaits_of_phase hp hlt with
  | joining hb _ _ _ =>
    obtain ⟨hge, hle⟩ := hb.running k hk
    have hex : ∃ d, d < stages ∧ (m.task (first + d)).phase.isEnded = false := by
      refine ⟨k - first, by omega, ?_⟩
      rwa [Nat.add_sub_cancel' hge]
    refine ⟨Nat.find hex, (Nat.find_spec hex).1, (Nat.find_spec hex).2, fun e he => ?_⟩
    have hnot := Nat.find_min hex he
    exact Bool.eq_true_of_not_eq_false fun hf => hnot ⟨he.trans (Nat.find_spec hex).1, hf⟩

omit hq in
/-- All stages are below what their starter reads. -/
theorem Stands.stage_below (hd : d < stages) : h.task (first + d) < h.source (m.supply p) := by
  have hchain := hm.chained p first stages ended next hp
  induction d with
  | zero =>
    have hflows := (hm.placed first (hm.stage_lt hp hd).1).flows
    rwa [supply, hchain.head] at hflows
  | succ d ih =>
    obtain ⟨c, ho, hs⟩ := hchain.link d hd
    have hflows := (hm.placed _ (hm.stage_lt hp hd).1).flows
    rw [hs] at hflows
    have hheight := ((hm.placed _ (hm.stage_lt hp (Nat.lt_of_succ_lt hd)).1).output c ho).2
    calc h.task (first + (d + 1)) < h.pipe c := hflows
      _ = h.task (first + d) := hheight
      _ < h.source (m.supply p) := ih (Nat.lt_of_succ_lt hd)

/-- The first stage that runs does not wait for bytes, if its starter need not. -/
theorem Stands.ready_first (hr : m.Ready p) (hd : d < stages)
    (he : ∀ e < d, (m.task (first + e)).phase.isEnded = true) :
    m.Ready (first + d) ∧ h.source (m.supply (first + d)) ≤ h.source (m.supply p) := by
  have hchain := hm.chained p first stages ended next hp
  -- The first stage reads from where the starter does. Any other reads from the pipe of the stage before it, which
  -- has ended and closed it.
  cases d with
  | zero =>
    have hsupply : m.supply first = m.supply p := by rw [supply, hchain.head, supply]
    constructor
    · intro c hs
      exact hr c (hsupply.symm.trans hs)
    · exact le_of_eq (congrArg h.source hsupply)
  | succ d =>
    obtain ⟨c, ho, hs⟩ := hchain.link d hd
    have hplaced := hm.placed _ (hm.stage_lt hp (Nat.lt_of_succ_lt hd)).1
    have hclosed := (hm.stage_closed hq hp (Nat.lt_of_succ_lt hd) (he d d.lt_succ_self)).write c
      (hplaced.output c ho).1 ho
    constructor
    · intro c' hs'
      obtain rfl : c = c' := Supply.pipe.inj (hs.symm.trans hs')
      simp [Pipe.isWaiting, hclosed]
    · rw [hs]
      exact le_of_eq_of_le (hplaced.output c ho).2 (hm.stage_below hp (Nat.lt_of_succ_lt hd)).le

end

/-! ## 3. Those that wait for room

A task that waits for room has a reader below it in its pipe, since the pipe would be closed otherwise. This reader
does not wait for bytes, as the pipe is full, so it or somebody below it waits for room again. Heights do not go
down without end. -/

/-- **Who cannot wait for bytes waits for somebody who waits for room**, and who is below. -/
theorem Stands.exists_waits_room (hi : (m.task i).phase.isEnded = false) (hr : m.Ready i) :
    ∃ k c, m.WaitsRoom k c ∧ h.task k < h.source (m.supply i) := by
  induction hn : m.tasks.size - i using Nat.strong_induction_on generalizing i with
  | _ n ih =>
    have hlt : i < m.tasks.size := lt_size_of_isEnded hi
    cases (hm.held hq hi).2 with
    | bytes _ hs he => exact absurd he (Bool.eq_false_iff.mp (hr _ hs))
    | @room _ c _ hw => exact ⟨i, c, hw, (hm.placed i hlt).flows⟩
    | stages hp =>
      obtain ⟨d, hd, hlive, hended⟩ := hm.exists_first hq hp
      obtain ⟨hready, hle⟩ := hm.ready_first hq hp hr hd hended
      obtain ⟨hsize, hs⟩ := hm.stage_lt hp hd
      have hik := (hm.starter _ i hs).1
      obtain ⟨k, c, hw, hlow⟩ := ih _ (by omega) hlive hready rfl
      exact ⟨k, c, hw, hlow.trans_le hle⟩

/-- A pipe that somebody who runs writes and that is not closed for reading is read by somebody who runs. -/
theorem Stands.exists_reader {c : Nat} (hi : (m.task i).phase.isEnded = false) (ho : (m.task i).output = .pipe c)
    (hc : (m.world.channel c).pipe.readClosed = false) :
    ∃ k, (m.task k).phase.isEnded = false ∧ m.supply k = .pipe c := by
  -- Up the starters, whose numbers are smaller: the last stage of each writes where its starter may.
  induction i using Nat.strong_induction_on with
  | _ i ih =>
    cases hs : (m.task i).starter with
    | none => exact absurd ho (hm.root i (lt_size_of_isEnded hi) hs c).2
    | some p =>
      obtain ⟨hlives, first, stages, ended, next, d, hp, hd, rfl⟩ := hm.starter_joins hq hi hs
      have hchain := hm.chained p first stages ended next hp
      rcases Nat.lt_or_ge (d + 1) stages with hnext | hlast
      -- The stage after it reads the pipe, and has not closed it.
      · obtain ⟨c', ho', hs'⟩ := hchain.link d hnext
        obtain rfl : c = c' := Output.pipe.inj (ho.symm.trans ho')
        refine ⟨first + (d + 1), Bool.eq_false_iff.mpr fun he => ?_, hs'⟩
        have hplaced := hm.placed _ (hm.stage_lt hp hnext).1
        have hread := (hm.stage_closed hq hp hnext he).read c (hplaced.channel hm.plumbed c hs') hplaced.input hs'
        exact absurd (hc.symm.trans hread) Bool.false_ne_true
      -- The last stage writes where the starter may, and so its pipe is that of the starter.
      · have hend : first + stages - 1 = first + d := by omega
        have hcovers := hchain.last
        rw [hend] at hcovers
        exact ih p (hm.starter _ p hs).1 hlives.live (hcovers c ho)

/-- **Nobody waits for room.** -/
theorem Stands.not_waits_room {c : Nat} : ¬ m.WaitsRoom i c := by
  induction hn : h.task i using Nat.strong_induction_on generalizing i c with
  | _ n ih =>
    intro hw
    have hplaced := hm.placed i (lt_size_of_isEnded hw.live)
    obtain ⟨hlt, hheight⟩ := hplaced.output c hw.output
    obtain ⟨k, hlive, hs⟩ := hm.exists_reader hq hw.live hw.output hw.isOpen.read
    have hready : m.Ready k := by
      intro c' hs'
      obtain rfl : c = c' := Supply.pipe.inj (hs.symm.trans hs')
      have hcapacity := hm.plumbed.capacity c hlt
      have hfull := hw.full
      refine Bool.eq_false_iff.mpr fun he => ?_
      have hempty : (m.world.channel c).pipe.buffer.size = 0 := ((Pipe.isWaiting_iff _).mp he).1
      rw [Pipe.room] at hfull
      omega
    obtain ⟨k', c', hw', hlow⟩ := hm.exists_waits_room hq hlive hready
    rw [hs] at hlow
    exact ih (h.task k') (hn ▸ hheight ▸ hlow) rfl hw'

/-! ## 4. The end

If anybody runs, the starter does, and so on up to the first task. That one reads from no pipe, so somebody would
wait for room, and nobody does. -/

/-- **When no events are left, all tasks have ended.** -/
theorem Stands.isEnded (i : Nat) : (m.task i).phase.isEnded = true := by
  induction i using Nat.strong_induction_on with
  | _ i ih =>
    refine Bool.eq_true_of_not_eq_false fun hi => ?_
    cases hs : (m.task i).starter with
    | none =>
      have hready : m.Ready i := fun c hc => absurd hc (hm.root i (lt_size_of_isEnded hi) hs c).1
      obtain ⟨k, c, hw, -⟩ := hm.exists_waits_room hq hi hready
      exact hm.not_waits_room hq hw
    | some p =>
      have hlives := (hm.starter_joins hq hi hs).1
      exact Bool.eq_false_iff.mp hlives.live (ih p (hm.starter i p hs).1)

end

/-- More turns than are needed make no difference. -/
theorem run_of_isQuiet {turns turns' : Nat} (hq : (m.run turns).isQuiet = true) (hle : turns ≤ turns') :
    m.run turns' = m.run turns := by
  induction turns generalizing m turns' with
  | zero =>
    cases turns' with
    | zero => rfl
    | succ turns' => exact if_pos hq
  | succ turns ih =>
    obtain ⟨more, rfl⟩ := Nat.exists_eq_add_of_le' (Nat.lt_of_lt_of_le turns.succ_pos hle)
    rw [run] at hq ⊢
    rw [run]
    split at hq
    · next hm => rw [if_pos hm, if_pos hm]
    · next hm =>
      rw [if_neg hm, if_neg hm]
      exact ih hq (Nat.le_of_succ_le_succ hle)

/-- **A run comes to a point at which nothing is left to do**, and then all tasks have ended. -/
theorem Stands.exists_ended (hm : m.Stands S R h) :
    ∃ turns, (m.run turns).isQuiet = true ∧ ∀ i, ((m.run turns).result? i).isSome := by
  obtain ⟨turns, h', hstands, hquiet⟩ := hm.exists_quiet
  refine ⟨turns, hquiet, fun i => ?_⟩
  rw [isQuiet, Bool.and_eq_true] at hquiet
  have hended := hstands.isEnded ((Queue.isEmpty_iff _).mp hquiet.1) i
  unfold result?
  cases hp : ((m.run turns).task i).phase with
  | ended result => rfl
  | _ =>
    rw [hp] at hended
    cases hended

end Shell.Machine
