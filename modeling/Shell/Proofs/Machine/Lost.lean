/-
Failures that nobody makes good.

A job that is told of the failure of a stage may still end well. Here is what follows if no job does
(`Phase.IsFrail`). A task that can only fail is a stage of one that waits for it, which is a stage in
turn, and so on to the first task. When the stage ends, the one that waits hears of a failure, and
from then on can only fail itself. So from the start of the failure the first task is lost (`Roster.Lost`),
it stays so (`Roster.Lost.move`), and it never ends well (`Roster.Lost.result`).

The tasks on the way have not been told to end. Whoever is told to end while its stages run has a
starter that was told too or that has failed; going up from there one comes to a task that has failed
and has not been told, and this one is lost by itself (`Roster.lost_first`).
-/
import Shell.Proofs.Machine.Results

set_option autoImplicit false

namespace Shell

variable {ρ : Type} {S R : Except Abort ρ → Prop}

/-- What a task is at that can only fail. -/
def Phase.Fails (S : Except Abort ρ → Prop) (phase : Phase ρ) : Prop :=
  phase.Meets S fun r => ∃ abort, r = .error abort

/-- What a task is at that fails when one of its stages does. -/
def Phase.IsFrail (S : Except Abort ρ → Prop) : Phase ρ → Prop
  | .joining _ _ _ next => ∀ abort, S (.error abort) → (next (.error abort)).Fails S
  | .failing _ _ abort next => (next (.error abort)).Fails S
  | .draining _ abort next => (next (.error abort)).Fails S
  | _ => True

namespace Roster

variable {r r' : Roster ρ} {i k p : Nat}

/-! ## 1. Who is heard of

A task that has ended may be forgotten as soon as its starter has been told. Until then it is `Live`, and somebody
waits for it. -/

/-- A task that has not ended, or whose end has not been noticed. -/
def Live (r : Roster ρ) (k : Nat) : Prop := (r.phase k).isEnded = false ∨ (k, false) ∈ r.reports

/-- Somebody waits for a stage of which one is still to hear. -/
theorem Orderly.awaited (h : r.Orderly) (hl : r.Live k) (hs : r.starter k = some p) :
    (∃ first stages ended next, r.phase p = .joining first stages ended next ∧
      first ≤ k ∧ k < first + stages) ∨
    (∃ first stages abort next, r.phase p = .failing first stages abort next) ∨
    ∃ left abort next, r.phase p = .draining left abort next := by
  have hsize := h.starter k p hs
  have hmem : k ∈ r.running p ∨ (k, false) ∈ r.reportsTo p :=
    hl.imp (fun he => mem_running.mpr ⟨hsize.1, hs, he⟩) fun hr => mem_reportsTo.mpr ⟨hr, hs⟩
  have ha := h.awaits p hsize.2
  generalize r.phase p = phase at ha
  cases ha with
  | active hr ht | ended hr ht =>
    rw [hr, ht] at hmem
    simp at hmem
  | joining hb =>
    exact .inl ⟨_, _, _, _, rfl, hmem.elim (fun hk => hb.running k hk) fun hk => hb.reported _ hk⟩
  | failing => exact .inr (.inl ⟨_, _, _, _, rfl⟩)
  | draining => exact .inr (.inr ⟨_, _, _, rfl⟩)

/-- The end of a stage is reported. -/
theorem mem_newsOf_self (hs : r.starter k = some p) : (k, false) ∈ r.newsOf k := by
  unfold newsOf
  rw [hs]
  simp only
  split <;> exact List.mem_cons_self

/-- The first report is dealt with, and a starter comes to what it makes of it. -/
def Tells (r : Roster ρ) (q k : Nat) (late : Bool) (r' : Roster ρ) : Prop :=
  ∃ rest phase, r.reports = (k, late) :: rest ∧ r.starter k = some q ∧ r.Heard q k late phase ∧
    r' = r.dropReport.setPhase q phase

/-- Whoever waits for stages does so until it is told of one. -/
theorem Move.phase_of_joining (hm : r.Move r') (hi : i < r.size) {first stages ended : Nat}
    {next : Except Abort ρ → Job ρ} (hp : r.phase i = .joining first stages ended next) :
    r'.phase i = r.phase i ∨ ∃ k late, r.Tells i k late r' := by
  have hne {j : Nat} {phase : Phase ρ} (hj : r.phase j = phase)
      (hphase : ∀ first stages ended next, phase ≠ .joining first stages ended next) : i ≠ j := by
    rintro rfl
    exact hphase _ _ _ _ (hj.symm.trans hp)
  cases hm with
  | still | missed => exact .inl rfl
  | waits hj | ends hj | drains hj => exact .inl (phase_setPhase_of_ne _ (hne hj nofun))
  | starts hj _ _ hst => exact .inl (hst.oldPhase i hi (hne hj nofun))
  | @told k q late rest phase hr hs hh =>
    by_cases hiq : i = q
    · subst hiq
      exact .inr ⟨k, late, rest, phase, hr, hs, hh, rfl⟩
    · exact .inl (phase_setPhase_of_ne (r := r.dropReport) _ hiq)

/-- One is still to hear of a task until its starter is told of it. -/
theorem Live.move (hl : r.Live k) (hm : r.Move r') (hs : r.starter k = some p) (hk : k < r.size) :
    r'.Live k ∨ r.Tells p k false r' := by
  -- Where phases change, those who have not ended do not end.
  have hset {r : Roster ρ} {j : Nat} {phase : Phase ρ} (hl : r.Live k)
      (he : phase.isEnded = (r.phase j).isEnded) : (r.setPhase j phase).Live k := by
    refine hl.imp_left fun hk => ?_
    by_cases hkj : k = j
    · subst hkj
      rw [phase_setPhase_self, he, hk]
    · rw [phase_setPhase_of_ne _ hkj, hk]
  have hdrop {j : Nat} {late : Bool} {rest : List (Nat × Bool)} (hr : r.reports = (j, late) :: rest)
      (hne : (k, false) ≠ (j, late)) : r.dropReport.Live k := by
    refine hl.imp_right fun hmem => ?_
    rw [hr] at hmem
    rw [show r.dropReport.reports = rest by rw [dropReport, hr]; rfl]
    exact (List.mem_cons.mp hmem).resolve_left hne
  -- By what happened. A stage that ends is to be reported then, and a report about it that is heard is the news of
  -- it.
  cases hm with
  | still => exact .inl hl
  | waits hp hc ha => exact .inl (hset hl (by rw [hp]; rfl))
  | @ends j job result hp ha =>
    left
    by_cases hkj : k = j
    · subst hkj
      exact .inr (List.mem_append_right _ (mem_newsOf_self hs))
    · exact Or.imp (fun he => (congrArg Phase.isEnded (phase_setPhase_of_ne _ hkj)).trans he)
        (fun hmem => List.mem_append_left _ hmem) hl
  | @starts j job w stages capacity input output stage next _ hp hc ha hst =>
    refine .inl (hl.imp (fun he => ?_) fun hmem => hst.reports ▸ hmem)
    by_cases hkj : k = j
    · rw [hkj, hst.phase]
      rfl
    · rw [hst.oldPhase k hk hkj, he]
  | @drains j first stages abort next cancelled hp hgrows hsteady =>
    have hopen : (Phase.draining stages abort next).isEnded = (r.phase j).isEnded := by
      rw [hp]
      rfl
    have hset := hset (r := { r with cancelled := cancelled }) hl (j := j) hopen
    exact .inl (hset.imp_right fun hmem => List.mem_append_left _ hmem)
  | @told j q late rest phase hr hs' hh =>
    by_cases hj : (k, false) = (j, late)
    · obtain ⟨rfl, rfl⟩ := Prod.mk.inj hj
      obtain rfl := Option.some.inj (hs.symm.trans hs')
      exact .inr ⟨rest, phase, hr, hs, hh, rfl⟩
    · exact .inl (hset (hdrop hr hj) hh.isEnded)
  | @missed j late rest hr hs' =>
    refine .inl (hdrop hr fun hj => ?_)
    rw [(Prod.mk.inj hj).1, hs'] at hs
    cases hs

/-! ## 2. Lost tasks

A task is lost if it can only fail. A starter that waits for it is lost too if it fails with its stages, so being
lost is passed on to the starter before the stage itself is gone. -/

/-- A task that can only fail, or that waits for such a stage and fails with it. -/
inductive Lost (S : Except Abort ρ → Prop) (r : Roster ρ) : Nat → Prop where
  | itself {i : Nat} (h : (r.phase i).Fails S) : Lost S r i
  | through {i k first stages ended : Nat} {next : Except Abort ρ → Job ρ}
      (hp : r.phase i = .joining first stages ended next) (hf : (r.phase i).IsFrail S)
      (hk : first ≤ k) (hk' : k < first + stages) (hl : r.Live k) (h : Lost S r k) : Lost S r i

/-- A lost task that has ended has failed. -/
theorem Lost.result {result : Except Abort ρ} (h : r.Lost S i) (hp : r.phase i = .ended result) :
    ∃ abort, result = .error abort := by
  cases h with
  | itself h =>
    rw [hp] at h
    cases h with
    | ended h => exact h
  | through hp' =>
    rw [hp] at hp'
    cases hp'

/-- A task that waits for a lost stage, and fails with it, may be told of one of its stages. If this one
has failed, the task can only fail from now on; if not, it is not the lost one, for which the task
still waits. -/
theorem Tells.lost {j first stages ended : Nat} {late : Bool} {next : Except Abort ρ → Job ρ}
    (ht : r.Tells i j late r') (h : r.Sound S R) (hc : r.cancelled i = false)
    (hp : r.phase i = .joining first stages ended next)
    (hf : (r.phase i).IsFrail S) (hk : first ≤ k) (hk' : k < first + stages) (hl : r.Live k)
    (hlost : r.Lost S k) (hl' : k ≠ j → r'.Live k) (hlost' : r'.Lost S k) : r'.Lost S i := by
  obtain ⟨rest, phase, hr, hs, hh, rfl⟩ := ht
  have hi := (h.orderly.starter j i hs).2
  have hmem : (j, late) ∈ r.reportsTo i := mem_reportsTo.mpr ⟨hr ▸ List.mem_cons_self, hs⟩
  have hself : (r.dropReport.setPhase i phase).phase i = phase := phase_setPhase_self _ _ _
  rw [hp] at hf
  have hother {value : ρ} (hj : r.phase j = .ended (.ok value)) : k ≠ j := by
    rintro rfl
    obtain ⟨abort, habort⟩ := hlost.result hj
    cases habort
  cases h.orderly.awaits_of_phase hp hi with
  | joining hb he hcount hstages =>
    have hsk := hb.starter k hk hk'
    -- Its starter hears of a failure and can only fail, or it goes on waiting, with the lost stage still among
    -- those it waits for.
    cases hh with
    | failed hp' hj =>
      obtain ⟨rfl, rfl, rfl, rfl⟩ := Phase.joining.inj (hp.symm.trans hp')
      have hrange := hb.reported _ hmem
      refine .itself ?_
      rw [hself]
      exact .failing (hf _ (h.of_stage hp hi hc hrange.1 hrange.2 hj))
    | counted hp' hj hlt =>
      obtain ⟨rfl, rfl, rfl, rfl⟩ := Phase.joining.inj (hp.symm.trans hp')
      exact .through hself (by rw [hself]; exact hf) hk hk' (hl' (hother hj)) hlost'
    | @complete _ _ _ _ value last hp' hj hge hlast =>
      obtain ⟨rfl, rfl, rfl, rfl⟩ := Phase.joining.inj (hp.symm.trans hp')
      -- Of two stages the task has not been told yet, but only one is left to count.
      rcases hl with hlive | hlive
      · have hksize := (h.orderly.starter k i hsk).1
        have hrun := Finset.card_pos.mpr ⟨k, mem_running.mpr ⟨hksize, hsk, hlive⟩⟩
        have hpos := List.length_pos_of_mem hmem
        omega
      · have hne : (k, false) ≠ (j, false) := fun heq => hother hj (Prod.mk.inj heq).1
        have hto : (k, false) ∈ (r.reportsTo i).erase (j, false) :=
          (List.mem_erase_of_ne hne).mpr (mem_reportsTo.mpr ⟨hlive, hsk⟩)
        have hpos := List.length_pos_of_mem hto
        rw [List.length_erase_of_mem hmem] at hpos
        omega
    | drained hp' | emptied hp' | failing hp' | draining hp' =>
      rw [hp] at hp'
      cases hp'

/-- As long as a task that waits for stages is not told to end, no stage of it is. -/
theorem Move.cancelled_stage (hm : r.Move r') (h : r.Orderly) (hi : i < r.size)
    {first stages ended : Nat} {next : Except Abort ρ → Job ρ}
    (hp : r.phase i = .joining first stages ended next) (hc : r'.cancelled i = false)
    (hk : first ≤ k) (hk' : k < first + stages) : r'.cancelled k = false := by
  have hold := hm.cancelled hc
  cases hm with
  | drains _ _ hsteady => exact hsteady.stages i first stages ended next hp hc k hk hk'
  | still | waits | ends | told | missed =>
    cases h.awaits_of_phase hp hi with
    | joining _ _ _ hstages => exact hstages hold k hk hk'
  | starts _ _ _ hst =>
    rw [hst.cancelled]
    cases h.awaits_of_phase hp hi with
    | joining _ _ _ hstages => exact hstages hold k hk hk'

/-- **Who is lost stays lost**, as long as nobody tells it to end. -/
theorem Lost.move (hlost : r.Lost S i) (hm : r.Move r') (h : r.Sound S R) (hi : i < r.size)
    (hc : r'.cancelled i = false) : r'.Lost S i := by
  induction hlost with
  | itself hf => exact .itself (hm.meets h hi hc hf)
  | @through i k first stages ended next hp hf hk hk' hl hlost ih =>
    cases h.orderly.awaits_of_phase hp hi with
    | joining hb he hcount hstages =>
      have hs := hb.starter k hk hk'
      have hsize := (h.orderly.starter k i hs).1
      have hlost' := ih hsize (hm.cancelled_stage h.orderly hi hp hc hk hk')
      have htells {j : Nat} {late : Bool} (ht : r.Tells i j late r') (hl' : k ≠ j → r'.Live k) :=
        ht.lost h (hm.cancelled hc) hp hf hk hk' hl hlost hl' hlost'
      rcases hl.move hm hs hsize with hl' | ht
      · rcases hm.phase_of_joining hi hp with hsame | ⟨j, late, ht⟩
        · exact .through (hsame.trans hp) (hsame ▸ hf) hk hk' hl' hlost'
        · exact htells ht fun _ => hl'
      · exact htells ht fun hne => absurd rfl hne

/-! ## 3. From a stage to the first task

Each task comes after its starter, so from starter to starter one comes to the first one. -/

/-- Of all tasks the first one has no starter, and the others come after theirs. -/
structure Rooted (r : Roster ρ) : Prop where
  nonempty : 0 < r.size
  first : r.starter 0 = none
  stage : ∀ k < r.size, k ≠ 0 → ∃ p < k, r.starter k = some p

/-- Whoever is new has been started by an old task, so it goes back to the first one as well. -/
theorem Rooted.move (h : r.Rooted) (hm : r.Move r')
    (hbeyond : ∀ i, (r.phase i).isEnded = false → i < r.size) : r'.Rooted := by
  cases hm with
  | still | waits | ends | drains | told | missed => exact ⟨h.nonempty, h.first, h.stage⟩
  | @starts i job w stages capacity input output stage next _ hp hc ha hst =>
    have hi := hbeyond i (by rw [hp]; rfl)
    refine ⟨hst.size ▸ Nat.lt_add_right _ h.nonempty,
      (hst.oldStarter 0 (by omega)).trans h.first, fun k hk hk₀ => ?_⟩
    by_cases hnew : r.size ≤ k ∧ k < r.size + stages
    · exact ⟨i, by omega, hst.newStarter k hnew.1 hnew.2⟩
    · rw [hst.oldStarter k hnew]
      rw [hst.size] at hk
      exact h.stage k (by omega) hk₀

/-- **If one on the way down is lost, the first one is.** It is enough to know that of those who have
not been told to end: up from one who has been told is one that has failed. -/
theorem lost_first (h : r.Orderly) (hroot : r.Rooted)
    (hfrail : ∀ p < k, r.cancelled p = false → (r.phase p).IsFrail S) (hk : k < r.size)
    (hl : k ≠ 0 → r.Live k) (hlost : r.cancelled k = false → r.Lost S k) : r.Lost S 0 := by
  -- Up the starters, whose numbers are smaller, to the first task, which has no starter and is not told to end.
  induction k using Nat.strongRecOn with
  | _ k ih =>
    by_cases hk₀ : k = 0
    · subst hk₀
      exact hlost (h.root 0 hroot.first)
    · obtain ⟨p, hpk, hs⟩ := hroot.stage k hk hk₀
      have hl := hl hk₀
      have hawaited := h.awaited hl hs
      have hlive : r.Live p := by
        rcases hawaited with ⟨_, _, _, _, hp, _⟩ | ⟨_, _, _, _, hp⟩ | ⟨_, _, _, hp⟩ <;>
          exact .inl (by rw [hp]; rfl)
      refine ih p hpk (fun q hq => hfrail q (hq.trans hpk)) (h.starter k p hs).2
        (fun _ => hlive) fun hc => ?_
      have hf := hfrail p hpk hc
      -- A starter that waits is lost through its stage, and one that has heard of a failure is lost by itself.
      rcases hawaited with ⟨first, stages, ended, next, hp, hge, hlt⟩ | ⟨_, _, _, _, hp⟩ | ⟨_, _, _, hp⟩
      · cases h.awaits_of_phase hp (h.starter k p hs).2 with
        | joining hb he hcount hstages =>
          exact .through hp hf hge hlt hl (hlost (hstages hc k hge hlt))
      · rw [hp] at hf
        exact .itself (by rw [hp]; exact .failing hf)
      · rw [hp] at hf
        exact .itself (by rw [hp]; exact .draining hf)

end Roster

/-! ## 4. Turns -/

namespace Machine

variable {m m' : Machine ρ} {i : Nat}

/-- **The first task is lost once a task has nothing left but to fail**, after the turn in which this
came to be. -/
theorem Handled.lost {job : Job ρ} (hm : m.Handled (.resume i) m') (h : m.roster.Orderly)
    (hroot : m.roster.Rooted) (hp : (m.task i).phase = .active job)
    (hfrail : ∀ p, (m.task p).cancelled = false → (m.task p).phase.IsFrail S)
    (hf : (job.advance i m.world).2.Follows S fun r => ∃ abort, r = .error abort) :
    (m.task i).cancelled = true ∨ m'.roster.Lost S 0 := by
  have hmove := hm.move_of_resume h
  have hbeyond {k : Nat} := @lt_size_of_isEnded _ m k
  have hi : i < m.roster.size := hbeyond (by rw [show m.roster.phase i = _ from hp]; rfl)
  -- Whatever the task comes to, it can only fail there, and the failure goes up to the first task.
  have hfirst {r' : Roster ρ} (hmove : m.roster.Move r')
      (hphase : ∀ p < i, r'.phase p = m.roster.phase p) (hcancelled : r'.cancelled = m.roster.cancelled)
      (hl : i ≠ 0 → r'.Live i) (hfails : (r'.phase i).Fails S) : r'.Lost S 0 := by
    refine Roster.lost_first (h.move hmove fun _ => hbeyond) (hroot.move hmove fun _ => hbeyond)
      (fun p hp hc => ?_) (hi.trans_le hmove.size) hl fun _ => .itself hfails
    rw [hphase p hp]
    rw [hcancelled] at hc
    exact hfrail p hc
  have hset {phase : Phase ρ} {k : Nat} (hk : k < i) :
      (m.roster.setPhase i phase).phase k = m.roster.phase k :=
    Roster.phase_setPhase_of_ne _ (Nat.ne_of_lt hk)
  have hself {phase : Phase ρ} : (m.roster.setPhase i phase).phase i = phase :=
    Roster.phase_setPhase_self _ _ _
  have hsame := job.sameReports_advance i m.world
  -- By what the turn came to. A job that follows a failure waits, ends, or starts stages whose results it does not
  -- use.
  cases hm with
  | @waits _ _ rest w hp' hc ha =>
    obtain rfl := Phase.active.inj (hp'.symm.trans hp)
    rw [ha] at hf hsame
    rw [roster_became hi _ hsame] at hmove ⊢
    cases hf with
    | active hj =>
      refine .inr (hfirst hmove (fun p hp => hset hp) rfl (fun _ => .inl ?_) ?_)
      · rw [hself]
        rfl
      · rw [hself]
        exact .active hj
  | @ends _ job' result w hp' hc ha =>
    obtain rfl := Phase.active.inj (hp.symm.trans hp')
    rw [ha] at hf hsame
    have hp₁ : ((m.begun i w).task i).phase = .active job := by
      rw [m.task_begun_self w hi]
      exact hp
    rw [roster_endTask hp₁, roster_begun hi hsame] at hmove ⊢
    cases hf with
    | ended hfailed =>
      refine .inr (hfirst hmove (fun p hp => hset hp) rfl (fun hi₀ => .inr ?_) ?_)
      · obtain ⟨p, -, hs⟩ := hroot.stage i hi hi₀
        exact List.mem_append_right _ (Roster.mem_newsOf_self hs)
      · show ((m.roster.setPhase i (.ended result)).phase i).Fails S
        rw [hself]
        exact .ended hfailed
  | cancelled hp' hc => exact .inl hc
  | @starts _ stages capacity input _ output stage next w hp' hc ha =>
    obtain rfl := Phase.active.inj (hp'.symm.trans hp)
    rw [ha] at hf hsame
    have hst : m.roster.Starts i stages stage next (startStages i capacity output stage stages 0 input
        (m.became i (.joining m.tasks.size stages 0 next) w)).roster :=
      starts_of_joined hi hsame (joined_startStages _ _)
    cases hf with
    | starting hstages hnext =>
      refine .inr (hfirst hmove (fun p hp => hst.oldPhase p (hp.trans hi) (Nat.ne_of_lt hp))
        hst.cancelled (fun _ => .inl ?_) ?_)
      · rw [hst.phase]
        rfl
      · rw [hst.phase]
        exact .joining hnext
  | drains hp' =>
    rw [hp] at hp'
    cases hp'
  | idle ha hf => exact absurd hp (ha job)

/-- A step keeps it so that all tasks go back to the first one. -/
theorem rooted_step (h : m.roster.Orderly) (hroot : m.roster.Rooted) : m.step.roster.Rooted :=
  hroot.move (move_step h) fun _ => lt_size_of_isEnded

/-- If the first task is lost, it is after any number of turns. -/
theorem lost_run (hlost : m.roster.Lost S 0) (h : m.roster.Sound S R) (hroot : m.roster.Rooted)
    (turns : Nat) : (m.run turns).roster.Lost S 0 := by
  induction turns generalizing m with
  | zero => exact hlost
  | succ turns ih =>
    unfold run
    split
    · exact hlost
    · have h' := sound_step h
      have hroot' := rooted_step h.orderly hroot
      exact ih (hlost.move (move_step h.orderly) h hroot.nonempty (h'.orderly.root 0 hroot'.first)) h' hroot'

/-- A machine with nothing but one task has no other first task. -/
theorem rooted_addTask (world : World) (job : Job ρ) :
    (({ world := world } : Machine ρ).addTask { phase := .active job }).roster.Rooted where
  nonempty := Nat.one_pos
  first := congrArg Task.starter (task_addTask_self { world := world } _)
  stage k hk hk₀ := by
    have hsize : k < 1 := hk
    omega

end Machine

end Shell
