/-
What goes down in a run.

Three things are left at any point of a run, and they are compared in this order (`Machine.effort`). What the
tasks have still to do is a multiset of ordinals: a task comes down to a lower one, and if it starts stages
those are lower too. Data is a multiset of levels: bytes in pipes, text that inputs keep, and bytes that tasks hold
back, each at the height of what it comes from. A task that does no more than carry data makes less of it at
one level, and more at lower levels at most (`dataLess_of_carries`). And if a task does not even do that, an
event has gone from the queue.
-/
import Mathlib.Algebra.Order.BigOperators.Group.Finset
import Mathlib.Data.Multiset.DershowitzManna
import Shell.Proofs.Machine.Standing

set_option autoImplicit false

namespace Shell

variable {ρ : Type} {S R : Except Abort ρ → Prop}

/-! ## 1. Multisets

In the order of Dershowitz and Manna one thing may be replaced by any number of smaller ones. So a multiset is below
another one if there is a level at which it has less and above which it has no more. -/

/-- From a level on there is no more of anything. -/
def Stays (level : ℕ) (M N : Multiset ℕ) : Prop := ∀ k, level ≤ k → M.count k ≤ N.count k

/-- And of the level itself there is less. -/
def Drops (level : ℕ) (M N : Multiset ℕ) : Prop := Stays level M N ∧ M.count level < N.count level

section

variable {level : ℕ} {M M' N N' : Multiset ℕ}

/-- Two parts that stay make a whole that does. -/
theorem Stays.add (h : Stays level M N) (h' : Stays level M' N') : Stays level (M + M') (N + N') := by
  intro k hk
  rw [Multiset.count_add, Multiset.count_add]
  exact Nat.add_le_add (h k hk) (h' k hk)

/-- If one part drops and the other stays, the whole drops. -/
theorem Drops.add_stays (h : Drops level M N) (h' : Stays level M' N') : Drops level (M + M') (N + N') := by
  refine ⟨h.1.add h', ?_⟩
  rw [Multiset.count_add, Multiset.count_add]
  exact Nat.add_lt_add_of_lt_of_le h.2 (h' level (Nat.le_refl _))

/-- If both parts drop, the whole does. -/
theorem Drops.add_drops (h : Stays level M N) (h' : Drops level M' N') : Drops level (M + M') (N + N') := by
  rw [Multiset.add_comm M, Multiset.add_comm N]
  exact h'.add_stays h

/-- What comes instead of the things of a level that are gone is below it. -/
theorem Drops.isDershowitzMannaLT (level : ℕ) (h : Drops level M N) : M.IsDershowitzMannaLT N := by
  obtain ⟨hle, hlt⟩ := h
  refine ⟨M ∩ N, M - N, N - M, fun he => ?_, ?_, ?_, fun y hy => ⟨level, ?_, ?_⟩⟩
  · have hcount := congrArg (Multiset.count level) he
    rw [Multiset.count_sub, Multiset.empty_eq_zero, Multiset.count_zero] at hcount
    omega
  · ext k
    rw [Multiset.count_add, Multiset.count_inter, Multiset.count_sub]
    omega
  · ext k
    rw [Multiset.count_add, Multiset.count_inter, Multiset.count_sub]
    omega
  · rw [← Multiset.count_pos, Multiset.count_sub]
    omega
  · rw [← Multiset.count_pos, Multiset.count_sub] at hy
    refine Nat.lt_of_not_le fun hn => ?_
    have := hle y hn
    omega

end

/-- So many things at levels. -/
def heap (n : ℕ) (amount level : ℕ → ℕ) : Multiset ℕ :=
  ∑ i ∈ Finset.range n, Multiset.replicate (amount i) (level i)

section

variable {n : ℕ} {amount amount' level : ℕ → ℕ} {k : ℕ}

/-- At each level there are the amounts of those that stand there. -/
theorem count_heap (k : ℕ) : (heap n amount level).count k =
    ∑ i ∈ Finset.range n, if level i = k then amount i else 0 := by
  rw [heap, Multiset.count_sum']
  exact Finset.sum_congr rfl fun i _ => Multiset.count_replicate k (level i) (amount i)

/-- A heap stays at the levels at which no amount grows. -/
theorem heap_stays (h : ∀ i < n, k ≤ level i → amount' i ≤ amount i) :
    Stays k (heap n amount' level) (heap n amount level) := by
  intro j hj
  rw [count_heap, count_heap]
  refine Finset.sum_le_sum fun i hi => ?_
  split
  · next hi' => exact h i (Finset.mem_range.mp hi) (hi' ▸ hj)
  · exact Nat.le_refl _

/-- A heap drops at a level at which one amount shrinks, if none grows there or above. -/
theorem heap_drops (h : ∀ i < n, k ≤ level i → amount' i ≤ amount i) {i : ℕ} (hi : i < n) (hk : level i = k)
    (hlt : amount' i < amount i) : Drops k (heap n amount' level) (heap n amount level) := by
  refine ⟨heap_stays h, ?_⟩
  rw [count_heap, count_heap]
  refine Finset.sum_lt_sum (fun j hj => ?_) ⟨i, Finset.mem_range.mpr hi, by rwa [if_pos hk, if_pos hk]⟩
  split
  · next hj' => exact h j (Finset.mem_range.mp hj) (Nat.le_of_eq hj'.symm)
  · exact Nat.le_refl _

end

/-! ## 2. What there is to do

A task that starts a pipeline gives way to several tasks, which are all of smaller rank than it was. So the ranks of
the tasks are a multiset that gets smaller. -/

/-- The rank of what a task has still to do, and one more as long as it has not ended. -/
noncomputable def Phase.toDo : Phase ρ → Ordinal.{0}
  | .ended _ => 0
  | phase => phase.rank + 1

/-- A task that has not ended has a rank, and one more to go. -/
theorem Phase.toDo_of_live {phase : Phase ρ} (h : phase.isEnded = false) : phase.toDo = phase.rank + 1 := by
  cases phase with
  | ended => cases h
  | active | starting | joining | failing | draining => rfl

/-- To come down in rank is to have less to do. -/
theorem Phase.toDo_lt {phase phase' : Phase ρ} (h : phase.isEnded = false) (hlt : phase'.rank < phase.rank) :
    phase'.toDo < phase.toDo := by
  rw [toDo_of_live h]
  cases phase' with
  | ended => exact Order.lt_add_one_iff.mpr zero_le
  | active | starting | joining | failing | draining => exact Order.lt_add_one_iff.mpr (Order.add_one_le_iff.mpr hlt)

/-- A task that ends has less to do. -/
theorem Phase.toDo_ended_lt {phase : Phase ρ} (h : phase.isEnded = false) (result : Except Abort ρ) :
    (ended result).toDo < phase.toDo := by
  rw [toDo_of_live h]
  exact Order.lt_add_one_iff.mpr zero_le

/-- The bytes that a task holds back. -/
def Phase.held : Phase ρ → Nat
  | .active job => job.held
  | _ => 0

/-- What an event counts: the arrival of a piece becomes another event. -/
def Event.weight : Event → Nat
  | .arrival _ => 2
  | .resume _ | .report _ _ => 1

namespace Roster

variable {r r' : Roster ρ} {i n : Nat}

/-- What the tasks have still to do. -/
noncomputable def toDo (r : Roster ρ) : Multiset Ordinal.{0} :=
  (Multiset.range r.size).map fun i => (r.phase i).toDo

/-- Less is to be done when one task has come down, and new ones are below where it was. -/
theorem toDo_lt (hi : i < r.size) (hsize : r'.size = r.size + n)
    (hother : ∀ k < r.size, k ≠ i → r'.phase k = r.phase k) (hlt : (r'.phase i).toDo < (r.phase i).toDo)
    (hnew : ∀ k < n, (r'.phase (r.size + k)).toDo < (r.phase i).toDo) : r'.toDo.IsDershowitzMannaLT r.toDo := by
  have hrange : Multiset.range r.size = i ::ₘ (Multiset.range r.size).erase i :=
    (Multiset.cons_erase (Multiset.mem_range.mpr hi)).symm
  -- What the others have to do stays. In the place of what the task had to do there are smaller things: its own and
  -- those of the new tasks.
  refine ⟨((Multiset.range r.size).erase i).map fun k => (r.phase k).toDo,
    (r'.phase i).toDo ::ₘ (Multiset.range n).map fun k => (r'.phase (r.size + k)).toDo,
    {(r.phase i).toDo}, Multiset.singleton_ne_zero _, ?_, ?_, fun y hy => ⟨_, Multiset.mem_singleton_self _, ?_⟩⟩
  · have hrest : ((Multiset.range r.size).erase i).map (fun k => (r'.phase k).toDo) =
        ((Multiset.range r.size).erase i).map fun k => (r.phase k).toDo := by
      refine Multiset.map_congr rfl fun k hk => congrArg Phase.toDo (hother k ?_ ?_)
      · exact Multiset.mem_range.mp (Multiset.mem_of_mem_erase hk)
      · rintro rfl
        exact ((Multiset.nodup_range _).mem_erase_iff.mp hk).1 rfl
    rw [toDo, hsize, Multiset.range_add, Multiset.map_add, Multiset.map_map, hrange, Multiset.map_cons, hrest,
      ← hrange, Multiset.cons_add, Multiset.add_cons]
    rfl
  · rw [toDo, hrange, Multiset.map_cons, ← hrange, Multiset.add_comm, Multiset.singleton_add]
  · rcases Multiset.mem_cons.mp hy with rfl | hy
    · exact hlt
    · obtain ⟨k, hk, rfl⟩ := Multiset.mem_map.mp hy
      exact hnew k (Multiset.mem_range.mp hk)

/-- If one task has less to do, all of them together have. -/
theorem toDo_setPhase_lt (hi : i < r.size) {phase : Phase ρ} (hlt : phase.toDo < (r.phase i).toDo) :
    (r.setPhase i phase).toDo.IsDershowitzMannaLT r.toDo :=
  toDo_lt (n := 0) hi rfl (fun _ _ hk => phase_setPhase_of_ne _ hk) (by rwa [phase_setPhase_self])
    fun _ hk => absurd hk (Nat.not_lt_zero _)

/-- If one task has as much to do, nothing changes. -/
theorem toDo_setPhase_eq {phase : Phase ρ} (h : phase.toDo = (r.phase i).toDo) :
    (r.setPhase i phase).toDo = r.toDo := by
  refine Multiset.map_congr rfl fun k _ => ?_
  by_cases hk : k = i
  · subst hk
    rw [phase_setPhase_self, h]
  · rw [phase_setPhase_of_ne _ hk]

/-- Reports, and who is to end, make no difference. -/
theorem toDo_congr (hsize : r'.size = r.size) (hphase : r'.phase = r.phase) : r'.toDo = r.toDo := by
  rw [toDo, toDo, hsize, hphase]

/-- Stages are below the pipeline that has been started. -/
theorem Starts.toDo_lt {stages capacity input : Nat} {output : Output} {stage : Nat → Nat → Output → Job ρ}
    {next : Except Abort ρ → Job ρ} (hs : r.Starts i stages stage next r') (hi : i < r.size)
    (hlive : (r.phase i).isEnded = false)
    (hrank : (Job.pipeline stages capacity input output stage next).rank ≤ (r.phase i).rank) :
    r'.toDo.IsDershowitzMannaLT r.toDo := by
  refine Roster.toDo_lt hi hs.size hs.oldPhase ?_ fun k hk => ?_
  · rw [hs.phase]
    exact Phase.toDo_lt hlive (Phase.rank_joining_lt.trans_le hrank)
  · obtain ⟨index, input, output, hphase⟩ := hs.newPhase (r.size + k) (Nat.le_add_right _ _) (by omega)
    rw [hphase]
    exact Phase.toDo_lt hlive ((Job.rank_stage_lt index input output).trans_le hrank)

end Roster

namespace Machine

variable {m m' : Machine ρ} {h : Heights} {i n : Nat}

/-! ## 3. Data

A job that goes on at the same rank moves data, and data only move down. What it has read is gone from above, and
what it has written is at its own height, however much that is. -/

/-- The data in a machine, at the heights of what it comes from: bytes in pipes, text that inputs keep, and bytes
that tasks hold back. -/
def data (h : Heights) (m : Machine ρ) : Multiset ℕ :=
  heap m.world.channels.size (fun c => (m.world.channel c).pipe.buffer.size) (fun c => 3 * h.pipe c + 2) +
    heap m.world.inputs.size (fun i => (m.world.input i).kept) (fun i => 3 * h.source (m.world.input i).supply + 1) +
    heap m.tasks.size (fun i => (m.task i).phase.held) (fun i => 3 * h.source (m.supply i))

section

variable {held held' : Nat} {w : World} {job rest : Job ρ}

/-- What is in a machine after a task has come to another job. -/
theorem data_became (hi : i < m.tasks.size) (hw : m.world.Alike w) (hheld : rest.held = held') :
    (m.became i (.active rest) w).data h =
      heap m.world.channels.size (fun c => (w.channel c).pipe.buffer.size) (fun c => 3 * h.pipe c + 2) +
      heap m.world.inputs.size (fun i => (w.input i).kept) (fun i => 3 * h.source (m.world.input i).supply + 1) +
      heap m.tasks.size (fun k => if k = i then held' else (m.task k).phase.held)
        (fun i => 3 * h.source (m.supply i)) := by
  have htask (k : Nat) : ((m.became i (.active rest) w).task k).phase.held =
      if k = i then held' else (m.task k).phase.held := by
    split
    · next hk =>
      rw [hk, task_became_self _ _ hi]
      exact hheld
    · next hk => rw [task_became_of_ne _ _ hk]
  -- A task reads from where it has read from, whatever it is at.
  have hsupply (k : Nat) : (m.became i (.active rest) w).supply k = m.supply k := by
    have hinput : ((m.became i (.active rest) w).task k).input = (m.task k).input := by
      by_cases hk : k = i
      · rw [hk, task_became_self _ _ hi]
      · rw [task_became_of_ne _ _ hk]
    rw [supply, supply, hinput]
    exact hw.supply _
  unfold data
  simp only [htask, hsupply, size_became, world_became, hw.channels, hw.inputs, hw.supply]

/-- A task that holds back as much as before makes no difference to the data. -/
theorem data_setPhase (hi : i < m.tasks.size) {phase : Phase ρ} (hp : phase.held = (m.task i).phase.held) :
    (m.setPhase i phase).data h = m.data h := by
  have htask (k : Nat) : ((m.setPhase i phase).task k).phase.held = (m.task k).phase.held ∧
      ((m.setPhase i phase).task k).input = (m.task k).input := by
    by_cases hk : k = i
    · rw [hk, setPhase, task_modifyTask_self _ hi]
      exact ⟨hp, rfl⟩
    · rw [setPhase, task_modifyTask_of_ne _ hk]
      exact ⟨rfl, rfl⟩
  have hsupply (k : Nat) : (m.setPhase i phase).supply k = m.supply k := by
    rw [supply, supply, (htask k).2]
    rfl
  have hsize : (m.setPhase i phase).tasks.size = m.tasks.size := size_modifyTask m i _
  unfold data
  simp only [(htask _).1, hsupply, hsize]
  rfl

section

variable (hplaced : m.Placed h i) (ht : m.world.Touches (m.task i).input (m.task i).output w)
include hplaced ht

/-- What is in the pipes at the height of the source or above is as it was, but for the source itself. -/
theorem pipe_of_touches {c : Nat} (hs : m.supply i ≠ .pipe c) (hle : h.source (m.supply i) ≤ h.pipe c) :
    (w.channel c).pipe = (m.world.channel c).pipe := by
  refine ht.pipe c hs fun ho => ?_
  have hflows := hplaced.flows
  rw [(hplaced.output c ho).2] at hle
  exact absurd hflows (Nat.not_lt.mpr hle)

/-- And if the source has as many bytes as before, there are as many in all of these pipes. -/
theorem size_of_touches (ha : w.ahead (m.task i).input = m.world.ahead (m.task i).input) {c : Nat}
    (hle : h.source (m.supply i) ≤ h.pipe c) :
    (w.channel c).pipe.buffer.size = (m.world.channel c).pipe.buffer.size := by
  by_cases hs : m.supply i = .pipe c
  · rwa [World.ahead_of_pipe hs, World.ahead_of_pipe ((ht.alike.supply _).trans hs)] at ha
  · rw [pipe_of_touches hplaced ht hs hle]

variable (hi : i < m.tasks.size) (hrest : rest.held = held')
include hi hrest

/-- There are less bytes ahead of the task. -/
theorem data_became_lt_of_ahead (hplumbed : m.world.Plumbed)
    (hlt : w.ahead (m.task i).input < m.world.ahead (m.task i).input) :
    ((m.became i (.active rest) w).data h).IsDershowitzMannaLT (m.data h) := by
  -- The task reads from a pipe, since nothing else has bytes ahead.
  obtain ⟨c, hs⟩ : ∃ c, m.supply i = .pipe c := by
    cases hs : m.supply i with
    | pipe c => exact ⟨c, rfl⟩
    | text | host =>
      rw [World.ahead, World.ahead, ht.alike.supply, show (m.world.input _).supply = _ from hs] at hlt
      exact absurd hlt (Nat.lt_irrefl 0)
  rw [World.ahead_of_pipe hs, World.ahead_of_pipe ((ht.alike.supply _).trans hs)] at hlt
  have hsource : h.source (m.supply i) = h.pipe c := congrArg h.source hs
  have hflows := hplaced.flows
  rw [data_became hi ht.alike hrest, data]
  -- At the level of this pipe there is less. What the task passes on is lower, as it flows down.
  refine Drops.isDershowitzMannaLT (3 * h.pipe c + 2) ?_
  refine .add_stays (.add_stays (heap_drops (fun j _ hle => ?_) (hplaced.channel hplumbed c hs) rfl hlt)
    (heap_stays fun j _ hle => ?_)) (heap_stays fun k _ hle => ?_)
  · by_cases hj : j = c
    · exact hj ▸ hlt.le
    · have hne : m.supply i ≠ .pipe j := by
        rw [hs]
        exact fun he => hj (Supply.pipe.inj he).symm
      rw [pipe_of_touches hplaced ht hne (by omega)]
  · rw [ht.input j]
    rintro rfl
    have hsame : 3 * h.pipe c + 2 ≤ 3 * h.source (m.supply i) + 1 := hle
    omega
  · rw [if_neg]
    rintro rfl
    omega

/-- The bytes ahead are as many, and the input of the task keeps less. -/
theorem data_became_lt_of_kept (hahead : w.ahead (m.task i).input = m.world.ahead (m.task i).input)
    (hlt : (w.input (m.task i).input).kept < (m.world.input (m.task i).input).kept) :
    ((m.became i (.active rest) w).data h).IsDershowitzMannaLT (m.data h) := by
  rw [data_became hi ht.alike hrest, data]
  refine Drops.isDershowitzMannaLT (3 * h.source (m.supply i) + 1) ?_
  refine .add_stays (.add_drops (heap_stays fun j _ hle => ?_)
    (heap_drops (fun j _ hle => ?_) hplaced.input rfl hlt)) (heap_stays fun k _ hle => ?_)
  · exact (size_of_touches hplaced ht hahead (by omega)).le
  · by_cases hj : j = (m.task i).input
    · exact hj ▸ hlt.le
    · rw [ht.input j hj]
  · rw [if_neg]
    rintro rfl
    omega

/-- What is ahead and kept is as much, and the task holds less back. -/
theorem data_became_lt_of_held (hahead : w.ahead (m.task i).input = m.world.ahead (m.task i).input)
    (hkept : (w.input (m.task i).input).kept = (m.world.input (m.task i).input).kept)
    (hlt : held' < (m.task i).phase.held) :
    ((m.became i (.active rest) w).data h).IsDershowitzMannaLT (m.data h) := by
  rw [data_became hi ht.alike hrest, data]
  refine Drops.isDershowitzMannaLT (3 * h.source (m.supply i)) ?_
  refine .add_drops (.add (heap_stays fun j _ hle => ?_) (heap_stays fun j _ _ => ?_))
    (heap_drops (fun k _ _ => ?_) hi rfl ?_)
  · exact (size_of_touches hplaced ht hahead (by omega)).le
  · by_cases hj : j = (m.task i).input
    · exact hj ▸ hkept.le
    · rw [ht.input j hj]
  · split
    · next hk => exact hk ▸ hlt.le
    · exact Nat.le_refl _
  · rwa [if_pos rfl]

omit hplaced in
/-- Nothing has happened. -/
theorem data_became_eq (hpipe : ∀ c, (w.channel c).pipe = (m.world.channel c).pipe)
    (hkept : (w.input (m.task i).input).kept = (m.world.input (m.task i).input).kept)
    (hheld : (m.task i).phase.held = held') : (m.became i (.active rest) w).data h = m.data h := by
  have hkepts (j : Nat) : (w.input j).kept = (m.world.input j).kept := by
    by_cases hj : j = (m.task i).input
    · exact hj ▸ hkept
    · rw [ht.input j hj]
  have hhelds (k : Nat) : (if k = i then held' else (m.task k).phase.held) = (m.task k).phase.held := by
    split
    · next hk => rw [hk, hheld]
    · rfl
  rw [data_became hi ht.alike hrest, data]
  simp only [hpipe, hkepts, hhelds]

end

/-- **A task that comes to a job of the same rank makes less of the data**, or nothing has happened. -/
theorem data_became_lt (hplaced : m.Placed h i) (hplumbed : m.world.Plumbed) (hi : i < m.tasks.size)
    (hjob : (m.task i).phase.held = held) (hrest : rest.held = held')
    (hc : m.world.Carries (m.task i).input (m.task i).output held held' w) :
    ((m.became i (.active rest) w).data h).IsDershowitzMannaLT (m.data h) ∨
      (m.became i (.active rest) w).data h = m.data h ∧ w.queue.toList = m.world.queue.toList := by
  have ht := hc.toTouches
  cases hc.goes with
  | reads hlt =>
    rcases World.burden_lt_iff.mp hlt with hahead | ⟨hahead, hkept⟩
    · exact .inl (data_became_lt_of_ahead hplaced ht hi hrest hplumbed hahead)
    · exact .inl (data_became_lt_of_kept hplaced ht hi hrest hahead hkept)
  | writes heq hlt =>
    obtain ⟨hahead, hkept⟩ := Prod.mk.inj (toLex.injective heq)
    exact .inl (data_became_lt_of_held hplaced ht hi hrest hahead hkept (hjob ▸ hlt))
  | still hsame heq hqueue =>
    obtain ⟨-, hkept⟩ := Prod.mk.inj (toLex.injective heq)
    exact .inr ⟨data_became_eq ht hi hrest hsame hkept hjob, hqueue⟩

end

/-! ## 4. All that is left

Ranks come first, since a task that has less to do may come to any amount of data. Events come last, since moving
data may wake others. -/

/-- What there is to do, then the data, and then the events to come. -/
noncomputable def effort (h : Heights) (m : Machine ρ) : Multiset Ordinal.{0} × Multiset ℕ × ℕ :=
  (m.roster.toDo, m.data h, (m.world.queue.toList.map Event.weight).sum)

end Machine

/-- Less is left, in the order in which it counts. -/
def LessEffort : Multiset Ordinal.{0} × Multiset ℕ × ℕ → Multiset Ordinal.{0} × Multiset ℕ × ℕ → Prop :=
  Prod.Lex Multiset.IsDershowitzMannaLT (Prod.Lex Multiset.IsDershowitzMannaLT (· < ·))

/-- **There is no endless descent**: the orders on the three parts are well-founded, and so is their lexicographic
product. -/
theorem wellFounded_lessEffort : WellFounded LessEffort :=
  Multiset.wellFounded_isDershowitzMannaLT.prod_lex
    (Multiset.wellFounded_isDershowitzMannaLT.prod_lex Nat.lt_wfRel.wf)

namespace Machine

variable {m m' : Machine ρ} {h h' : Heights} {queue : Queue Event} {event : Event}

/-- If there is less to do, nothing else is compared. -/
theorem lessEffort_of_toDo (h h' : Heights) (hlt : m'.roster.toDo.IsDershowitzMannaLT m.roster.toDo) :
    LessEffort (m'.effort h') (m.effort h) := .left _ _ hlt

/-- If there is as much to do, less data will do. -/
theorem lessEffort_of_data (htodo : m'.roster.toDo = m.roster.toDo) (hlt : (m'.data h).IsDershowitzMannaLT (m.data h)) :
    LessEffort (m'.effort h) (m.effort h) := by
  rw [effort, htodo]
  exact .right _ (.left _ _ hlt)

/-- An event has gone, and nothing else has happened. -/
theorem lessEffort_of_queue (htodo : m'.roster.toDo = m.roster.toDo) (hdata : m'.data h = m.data h)
    (hlt : (m'.world.queue.toList.map Event.weight).sum < (m.world.queue.toList.map Event.weight).sum) :
    LessEffort (m'.effort h) (m.effort h) := by
  rw [effort, htodo, hdata]
  exact .right _ (.right _ hlt)

end Machine

end Shell
