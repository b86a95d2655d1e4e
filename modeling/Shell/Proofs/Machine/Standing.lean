/-
Where tasks stand.

Pipelines inside of pipelines make a web of pipes, but data goes through it in one direction. So pipes can
be given heights such that each task reads from above and writes below (`Heights`, `Machine.Placed`). A task has
a height of its own, which is that of the pipe that it writes to, and no task is below the one that has started it.

`Machine.Stands` adds what a task counts on at each phase (`Phase.Fares`), and what is known of tasks that
have been told to end and of those that have ended. It is kept by everything that happens to one task alone
(`Stands.turned`), since no other task is forgotten meanwhile.
-/
import Shell.Proofs.Job.Uses
import Shell.Proofs.Machine.Results
import Shell.Proofs.Pipeline.Attention

set_option autoImplicit false

namespace Shell

variable {ρ : Type} {S R : Except Abort ρ → Prop}

/-! ## 1. Heights

Data flow from texts and files through pipes to the task at the end. If each pipe has a height, and a task reads
from above and writes at its own height, there is no circle in which everybody waits for somebody else. Texts and
files share one height, since whoever reads from them waits for nobody. -/

/-- The heights of pipes and tasks, and that of all texts and files. -/
structure Heights where
  pipe : Nat → Nat
  task : Nat → Nat
  text : Nat

/-- The height of what an input reads from. -/
def Heights.source (h : Heights) : Supply → Nat
  | .pipe index => h.pipe index
  | .text | .host => h.text

/-- A world without files of the host, in which pipes have room and inputs read from pipes that are there. -/
structure World.Plumbed (w : World) : Prop where
  asked : w.asked = []
  capacity : ∀ c < w.channels.size, 1 ≤ (w.channel c).pipe.capacity
  supply : ∀ i < w.inputs.size, (w.input i).supply ≠ .host
  channel : ∀ i < w.inputs.size, ∀ c, (w.input i).supply = .pipe c → c < w.channels.size

/-- A pipe that is closed is there. -/
theorem World.lt_size_of_closed {w : World} {c : Nat}
    (hc : (w.channel c).pipe.writeClosed = true ∨ (w.channel c).pipe.readClosed = true) :
    c < w.channels.size := by
  refine Nat.lt_of_not_le fun hn => ?_
  rw [channel_of_size_le hn] at hc
  rcases hc with hc | hc <;> cases hc

/-- What is pushed is to come. -/
theorem World.mem_queue_push (w : World) (event : Event) : event ∈ (w.push event).queue.toList := by
  show event ∈ (w.queue.push event).toList
  rw [Queue.toList_push]
  exact List.mem_append_right _ List.mem_cons_self

/-- A task that waits for a pipe waits. -/
theorem World.isWaiting_of_mem {w : World} {task c : Nat} (h : task ∈ (w.channel c).waiting) :
    w.isWaiting task = true := by
  have hlt : c < w.channels.size := by
    refine Nat.lt_of_not_le fun hn => ?_
    rw [channel_of_size_le hn] at h
    cases h
  have hany : w.channels.any (fun c => c.waiting.contains task) = true := by
    refine Array.any_eq_true.mpr ⟨c, hlt, List.contains_iff_mem.mpr ?_⟩
    rwa [channel, Array.getD_eq_getD_getElem?, Array.getElem?_eq_getElem hlt] at h
  rw [isWaiting, hany]
  rfl

/-- An event leaves the queue that is not the turn of a task. -/
theorem World.regards_withQueue {w : World} {event : Event} {queue : Queue Event} {task : Nat}
    (hq : w.queue.toList = event :: queue.toList) (hne : event ≠ .resume task) :
    w.Regards task { w with queue := queue } where
  toLater := later_aside rfl rfl
  capacity _ _ := rfl
  asked := id
  turn ht := by
    rw [hq] at ht
    exact (List.mem_cons.mp ht).resolve_left (Ne.symm hne)
  waiting _ _ hw := .inr ⟨hw, rfl⟩

/-! ## 2. What a task counts on

A phase tells what a task waits for, and with it what has to be there for it to go on some day: a turn in the queue,
a pipe that it is waiting for, or stages. `Stands` says this of all tasks, together with the heights. -/

/-- What is known of a task at its phase, whether or not it has been told to end. -/
inductive Phase.Fares (S : Except Abort ρ → Prop) (w : World) (task input : Nat) (output : Output)
    (cancelled : Bool) : Phase ρ → Prop where
  | active {job : Job ρ} (hj : cancelled = false → job.Busy S input output ∧ w.Heeds task input output)
      (hc : cancelled = true → .resume task ∈ w.queue.toList) :
      Fares S w task input output cancelled (.active job)
  | joining {first stages ended : Nat} {next : Except Abort ρ → Job ρ} (hlt : ended < stages)
      (hnext : ∀ r, S r → (next r).Uses S input output) :
      Fares S w task input output cancelled (.joining first stages ended next)
  | failing {first stages : Nat} {abort : Abort} {next : Except Abort ρ → Job ρ}
      (hq : .resume task ∈ w.queue.toList) (hpos : 0 < stages)
      (hnext : cancelled = false → (next (.error abort)).Uses S input output) :
      Fares S w task input output cancelled (.failing first stages abort next)
  | draining {left : Nat} {abort : Abort} {next : Except Abort ρ → Job ρ} (hpos : 0 < left)
      (hnext : cancelled = false → (next (.error abort)).Uses S input output) :
      Fares S w task input output cancelled (.draining left abort next)
  | ended {result : Except Abort ρ} : Fares S w task input output cancelled (.ended result)

/-- Whether a task waits for nothing but the ends of stages that have been told to end. -/
def Phase.dooms (cancelled : Bool) : Phase ρ → Bool
  | .draining _ _ _ => true
  | .joining _ _ _ _ => cancelled
  | _ => false

/-- What a task counts on while others have their turns. -/
theorem Phase.Fares.regards {w w' : World} {task input : Nat} {output : Output} {cancelled : Bool}
    {phase : Phase ρ} (h : phase.Fares S w task input output cancelled) (hr : w.Regards task w')
    (hi : input < w.inputs.size) (hs : ∀ c, (w.input input).supply = .pipe c → c < w.channels.size)
    (ho : ∀ c, output = .pipe c → c < w.channels.size) : phase.Fares S w' task input output cancelled := by
  cases h with
  | active hj hc =>
    exact .active (fun hn => ⟨(hj hn).1, hr.heeds hi hs ho (hj hn).2⟩) fun ht => hr.turn (hc ht)
  | joining hlt hnext => exact .joining hlt hnext
  | failing hq hpos hnext => exact .failing (hr.turn hq) hpos hnext
  | draining hpos hnext => exact .draining hpos hnext
  | ended => exact .ended

/-- A task that waits for others needs no turn. -/
theorem Phase.Fares.of_waiting {w w' : World} {task input : Nat} {output : Output} {cancelled : Bool}
    {phase : Phase ρ} (h : phase.Fares S w task input output cancelled) (ha : ∀ job, phase ≠ .active job)
    (hf : ∀ first stages abort next, phase ≠ .failing first stages abort next) :
    phase.Fares S w' task input output cancelled := by
  cases h with
  | active => exact absurd rfl (ha _)
  | joining hlt hnext => exact .joining hlt hnext
  | failing => exact absurd rfl (hf _ _ _ _)
  | draining hpos hnext => exact .draining hpos hnext
  | ended => exact .ended

/-- A task that has no job is told to end. -/
theorem Phase.Fares.cancelled {w : World} {task input : Nat} {output : Output} {cancelled : Bool} {phase : Phase ρ}
    (h : phase.Fares S w task input output cancelled) (ha : ∀ job, phase ≠ .active job) :
    phase.Fares S w task input output true := by
  cases h with
  | active => exact absurd rfl (ha _)
  | joining hlt hnext => exact .joining hlt hnext
  | failing hq hpos _ => exact .failing hq hpos nofun
  | draining hpos _ => exact .draining hpos nofun
  | ended => exact .ended

/-- A task that has come from the first phase to the second has not begun to wait for others. -/
structure Phase.Leads (cancelled : Bool) (phase phase' : Phase ρ) : Prop where
  ended : phase.isEnded = true → phase'.isEnded = true
  dooms : phase'.dooms cancelled = true → phase.dooms cancelled = true
  joining : ∀ first stages ended next, phase' = .joining first stages ended next →
    ∃ ended next, phase = .joining first stages ended next

/-- A task may stay at what it is at. -/
theorem Phase.Leads.refl (cancelled : Bool) (phase : Phase ρ) : phase.Leads cancelled phase :=
  ⟨id, id, fun _ _ ended next h => ⟨ended, next, h⟩⟩

/-- Where a task may come to in two changes, it may come to in one. -/
theorem Phase.Leads.trans {cancelled : Bool} {phase phase₁ phase' : Phase ρ} (h : phase.Leads cancelled phase₁)
    (h' : phase₁.Leads cancelled phase') : phase.Leads cancelled phase' where
  ended he := h'.ended (h.ended he)
  dooms hd := h.dooms (h'.dooms hd)
  joining first stages ended next hp := by
    obtain ⟨ended₁, next₁, hp₁⟩ := h'.joining first stages ended next hp
    exact h.joining first stages ended₁ next₁ hp₁

/-- What comes after a phase that is not the last one, if it is no wait for others. -/
theorem Phase.leads_active {cancelled : Bool} {phase : Phase ρ} (h : phase.isEnded = false) (job : Job ρ) :
    phase.Leads cancelled (.active job) := ⟨fun he => absurd he (by simp [h]), nofun, nofun⟩

/-- A task that has not ended may be told of a failure. -/
theorem Phase.leads_failing {cancelled : Bool} {phase : Phase ρ} (h : phase.isEnded = false)
    (first stages : Nat) (abort : Abort) (next : Except Abort ρ → Job ρ) :
    phase.Leads cancelled (.failing first stages abort next) :=
  ⟨fun he => absurd he (by simp [h]), nofun, nofun⟩

/-- Any task may end. -/
theorem Phase.leads_ended {cancelled : Bool} (phase : Phase ρ) (result : Except Abort ρ) :
    phase.Leads cancelled (.ended result) := ⟨fun _ => rfl, nofun, nofun⟩

namespace Machine

variable {m m' : Machine ρ} {h : Heights} {i p : Nat}

/-- What is known of a task at its phase. -/
def Fares (S : Except Abort ρ → Prop) (m : Machine ρ) (i : Nat) : Prop :=
  (m.task i).phase.Fares S m.world i (m.task i).input (m.task i).output (m.task i).cancelled

/-- The supply of the input of a task. -/
def supply (m : Machine ρ) (i : Nat) : Supply := (m.world.input (m.task i).input).supply

/-- A task reads from above and writes at its own height. -/
structure Placed (m : Machine ρ) (h : Heights) (i : Nat) : Prop where
  input : (m.task i).input < m.world.inputs.size
  output : ∀ c, (m.task i).output = .pipe c → c < m.world.channels.size ∧ h.pipe c = h.task i
  flows : h.task i < h.source (m.supply i)

/-- The stages of a task are next to each other: the first reads what the task reads, each of the others the
pipe that the one before it writes to, and the last writes where the task may write. -/
structure Chained (m : Machine ρ) (p first stages : Nat) : Prop where
  head : (m.task first).input = (m.task p).input
  link : ∀ k, k + 1 < stages → ∃ c, (m.task (first + k)).output = .pipe c ∧
    m.supply (first + (k + 1)) = .pipe c
  last : (m.task p).output.Covers (m.task (first + stages - 1)).output

/-- Everybody is in their place and counts on what they may count on. -/
structure Stands (S R : Except Abort ρ → Prop) (h : Heights) (m : Machine ρ) : Prop where
  sound : m.roster.Sound S R
  plumbed : m.world.Plumbed
  placed : ∀ i < m.tasks.size, m.Placed h i
  /-- A stage comes after its starter and is not below it. -/
  starter : ∀ i p, (m.task i).starter = some p → p < i ∧ h.task p ≤ h.task i
  /-- A task without a starter has no pipes. -/
  root : ∀ i < m.tasks.size, (m.task i).starter = none → ∀ c, m.supply i ≠ .pipe c ∧ (m.task i).output ≠ .pipe c
  chained : ∀ p first stages ended next, (m.task p).phase = .joining first stages ended next →
    m.Chained p first stages
  fares : ∀ i < m.tasks.size, m.Fares S i
  doomed : ∀ p, (m.task p).phase.dooms (m.task p).cancelled = true → ∀ k ∈ m.roster.running p,
    (m.task k).cancelled = true
  /-- A stage that has not been told to end has closed its ends when it has ended. -/
  closed : ∀ i p, (m.task i).starter = some p → (m.task i).cancelled = false →
    (m.task i).phase.isEnded = true → m.EndsClosed i m.world

/-- The pipe that a task reads is there. -/
theorem Placed.channel (hp : m.Placed h i) (hw : m.world.Plumbed) :
    ∀ c, m.supply i = .pipe c → c < m.world.channels.size := hw.channel _ hp.input

/-- A task does not write the pipe that it reads. -/
theorem Placed.clear (hp : m.Placed h i) : m.world.Clear (m.task i).input (m.task i).output := by
  intro c ho hs
  have hflows := hp.flows
  rw [supply, hs] at hflows
  exact absurd (hp.output c ho).2 (Nat.ne_of_gt hflows)

/-- A task reads from an input that is there, and writes where it may. -/
theorem Stands.admits (hm : m.Stands S R h) (hi : i < m.tasks.size) :
    m.world.Admits (m.task i).input (m.task i).output :=
  ⟨hm.plumbed.supply _ (hm.placed i hi).input, (hm.placed i hi).clear⟩

/-- What a task counts on does not depend on the turns of others. -/
theorem Stands.fares_of_regards (hm : m.Stands S R h) (hi : i < m.tasks.size) (ht : m'.task i = m.task i)
    (hr : m.world.Regards i m'.world) : m'.Fares S i := by
  have hplaced := hm.placed i hi
  unfold Fares
  rw [ht]
  exact (hm.fares i hi).regards hr hplaced.input (hm.plumbed.channel _ hplaced.input)
    fun c ho => (hplaced.output c ho).1

/-! ## 3. What does not change

Most steps of a machine give nobody other streams. Then the parts of `Stands` that speak of pipes and heights are
kept for this reason alone, and only what a task counts on is left to be shown. -/

/-- Everybody has the streams that they had, and nobody has come. -/
structure Keeps (m m' : Machine ρ) : Prop where
  size : m'.tasks.size = m.tasks.size
  starter : ∀ k, (m'.task k).starter = (m.task k).starter
  input : ∀ k, (m'.task k).input = (m.task k).input
  output : ∀ k, (m'.task k).output = (m.task k).output
  channels : m'.world.channels.size = m.world.channels.size
  inputs : m'.world.inputs.size = m.world.inputs.size
  world : m.world.Lasts m'.world

namespace Keeps

variable (hk : m.Keeps m')
include hk

/-- What neither of two changes loses is kept by both. -/
theorem trans {m₁ : Machine ρ} (hk' : m'.Keeps m₁) : m.Keeps m₁ where
  size := hk'.size.trans hk.size
  starter k := (hk'.starter k).trans (hk.starter k)
  input k := (hk'.input k).trans (hk.input k)
  output k := (hk'.output k).trans (hk.output k)
  channels := hk'.channels.trans hk.channels
  inputs := hk'.inputs.trans hk.inputs
  world := hk.world.trans hk'.world

/-- A task reads from where it has read from. -/
theorem supply_eq (hi : (m.task i).input < m.world.inputs.size) : m'.supply i = m.supply i := by
  rw [supply, hk.input, hk.world.supply _ hi, supply]

/-- The pipes and inputs are as they were. -/
theorem plumbed (hw : m.world.Plumbed) : m'.world.Plumbed where
  asked := hk.world.asked hw.asked
  capacity c hc := by
    rw [hk.channels] at hc
    rw [hk.world.capacity c hc]
    exact hw.capacity c hc
  supply k hi := by
    rw [hk.inputs] at hi
    rw [hk.world.supply k hi]
    exact hw.supply k hi
  channel k hi c hs := by
    rw [hk.inputs] at hi
    rw [hk.world.supply k hi] at hs
    rw [hk.channels]
    exact hw.channel k hi c hs

/-- A task keeps its place. -/
theorem placed (hp : m.Placed h i) : m'.Placed h i where
  input := by
    rw [hk.input, hk.inputs]
    exact hp.input
  output := by
    rw [hk.output, hk.channels]
    exact hp.output
  flows := by
    rw [hk.supply_eq hp.input]
    exact hp.flows

/-- The stages of a task are chained as they were, since nobody has other ends. -/
theorem chained {first stages : Nat} (hc : m.Chained p first stages)
    (hin : ∀ k, k < stages → (m.task (first + k)).input < m.world.inputs.size) :
    m'.Chained p first stages where
  head := by
    rw [hk.input, hk.input]
    exact hc.head
  link k hk' := by
    rw [hk.output, hk.supply_eq (hin (k + 1) hk')]
    exact hc.link k hk'
  last := by
    rw [hk.output, hk.output]
    exact hc.last

/-- Ends that are closed stay closed. -/
theorem endsClosed (hp : m.Placed h i) (hc : m.EndsClosed i m.world) : m'.EndsClosed i m'.world where
  write c hlt ho := by
    rw [hk.output] at ho
    exact hk.world.writeClosed c (hc.write c (hk.channels ▸ hlt) ho)
  read c hlt hin hs := by
    rw [hk.input] at hs
    rw [hk.world.supply _ hp.input] at hs
    exact hk.world.readClosed c (hc.read c (hk.channels ▸ hlt) hp.input hs)

end Keeps

/-- The stages of a task that waits for them are among the tasks. -/
theorem Stands.stage_lt (hm : m.Stands S R h) {first stages ended : Nat} {next : Except Abort ρ → Job ρ}
    (hp : (m.task p).phase = .joining first stages ended next) {k : Nat} (hk : k < stages) :
    first + k < m.tasks.size ∧ (m.task (first + k)).starter = some p := by
  have hs := hasStarted_of_orderly hm.sound.orderly p first stages ended next hp (first + k) (by omega) (by omega)
  exact ⟨(hm.sound.orderly.starter _ _ hs).1, hs⟩

/-- **Everybody is in place again** where streams are kept, if they count on what they may. -/
theorem Stands.kept (hm : m.Stands S R h) (hk : m.Keeps m') (hsound : m'.roster.Sound S R)
    (hjoining : ∀ p first stages ended next, (m'.task p).phase = .joining first stages ended next →
      ∃ ended next, (m.task p).phase = .joining first stages ended next)
    (hfares : ∀ i < m.tasks.size, m'.Fares S i)
    (hdoomed : ∀ p, (m'.task p).phase.dooms (m'.task p).cancelled = true → ∀ k ∈ m'.roster.running p,
      (m'.task k).cancelled = true)
    (hclosed : ∀ i p, (m.task i).starter = some p → (m'.task i).cancelled = false →
      (m'.task i).phase.isEnded = true → m'.EndsClosed i m'.world) : m'.Stands S R h where
  sound := hsound
  plumbed := hk.plumbed hm.plumbed
  placed i hi := hk.placed (hm.placed i (hk.size ▸ hi))
  starter i p hs := hm.starter i p ((hk.starter i).symm.trans hs)
  root i hi hs := by
    rw [hk.size] at hi
    rw [hk.output, hk.supply_eq (hm.placed i hi).input]
    exact hm.root i hi ((hk.starter i).symm.trans hs)
  chained p first stages ended next hp := by
    obtain ⟨ended, next, hp'⟩ := hjoining p first stages ended next hp
    exact hk.chained (hm.chained p first stages ended next hp') fun j hj =>
      (hm.placed _ (hm.stage_lt hp' hj).1).input
  fares i hi := hfares i (hk.size ▸ hi)
  doomed := hdoomed
  closed i p hs := hclosed i p ((hk.starter i).symm.trans hs)

/-! ## 4. A turn of one task

In most turns one task comes to another phase and the world goes on. For the others only that part of the world
matters that they wait for, and this is what `Regards` speaks of. -/

/-- Nothing has changed but one task and the world. -/
structure Turned (i : Nat) (m m' : Machine ρ) : Prop where
  size : m'.tasks.size = m.tasks.size
  other : ∀ k ≠ i, m'.task k = m.task k
  starter : (m'.task i).starter = (m.task i).starter
  input : (m'.task i).input = (m.task i).input
  output : (m'.task i).output = (m.task i).output
  cancelled : (m'.task i).cancelled = (m.task i).cancelled
  phase : (m.task i).phase.Leads (m.task i).cancelled (m'.task i).phase
  channels : m'.world.channels.size = m.world.channels.size
  inputs : m'.world.inputs.size = m.world.inputs.size
  regards : ∀ k ≠ i, m.world.Regards k m'.world

namespace Turned

/-- What a turn does not change is as it was. -/
theorem field (ht : Turned i m m') {α : Type} (g : Task ρ → α) (hg : g (m'.task i) = g (m.task i)) (k : Nat) :
    g (m'.task k) = g (m.task k) := by
  by_cases hk : k = i
  · rw [hk, hg]
  · rw [ht.other k hk]

/-- Two turns of one task, one after the other. -/
theorem trans {m₁ : Machine ρ} (ht : Turned i m m₁) (ht' : Turned i m₁ m') : Turned i m m' where
  size := ht'.size.trans ht.size
  other k hk := (ht'.other k hk).trans (ht.other k hk)
  starter := ht'.starter.trans ht.starter
  input := ht'.input.trans ht.input
  output := ht'.output.trans ht.output
  cancelled := ht'.cancelled.trans ht.cancelled
  phase := ht.phase.trans (ht.cancelled ▸ ht'.phase)
  channels := ht'.channels.trans ht.channels
  inputs := ht'.inputs.trans ht.inputs
  regards k hk := (ht.regards k hk).trans (ht'.regards k hk)

/-- A turn of one task leaves everybody the ends that they have. -/
theorem keeps (ht : Turned i m m') : m.Keeps m' where
  size := ht.size
  starter := ht.field Task.starter ht.starter
  input := ht.field Task.input ht.input
  output := ht.field Task.output ht.output
  channels := ht.channels
  inputs := ht.inputs
  world := (ht.regards (i + 1) (Nat.succ_ne_self i)).toLasts

/-- Whoever runs after a turn has run before it. -/
theorem running (ht : Turned i m m') {k : Nat} (hk : k ∈ m'.roster.running p) : k ∈ m.roster.running p := by
  obtain ⟨hlt, hs, hended⟩ := Roster.mem_running.mp hk
  refine Roster.mem_running.mpr ⟨?_, ?_, ?_⟩
  · exact hlt.trans_eq ht.size
  · exact (ht.field Task.starter ht.starter k).symm.trans hs
  · by_cases hki : k = i
    · subst hki
      exact Bool.eq_false_iff.mpr fun he => Bool.eq_false_iff.mp hended (ht.phase.ended he)
    · exact (congrArg (fun t : Task ρ => t.phase.isEnded) (ht.other k hki)).symm.trans hended

end Turned

/-- **A turn of one task keeps everybody in place**, if the task itself counts on what it may. -/
theorem Stands.turned (hm : m.Stands S R h) (ht : Turned i m m') (hsound : m'.roster.Sound S R)
    (hfares : i < m.tasks.size → m'.Fares S i)
    (hclosed : ∀ p, (m.task i).starter = some p → (m.task i).cancelled = false →
      (m.task i).phase.isEnded = false → (m'.task i).phase.isEnded = true → m'.EndsClosed i m'.world) :
    m'.Stands S R h := by
  have hkeeps := ht.keeps
  -- How the task itself fares and what it has closed is known. Of the others nothing has changed, and the world
  -- still regards them.
  refine hm.kept hkeeps hsound (fun p first stages ended next hp => ?_) (fun k hk => ?_) (fun p hd k hk => ?_)
    fun k p hs hc he => ?_
  · by_cases hpi : p = i
    · subst hpi
      exact ht.phase.joining first stages ended next hp
    · exact ⟨ended, next, by rw [← ht.other p hpi, hp]⟩
  · by_cases hki : k = i
    · subst hki
      exact hfares hk
    · exact hm.fares_of_regards hk (ht.other k hki) (ht.regards k hki)
  · have hd' : (m.task p).phase.dooms (m.task p).cancelled = true := by
      by_cases hpi : p = i
      · subst hpi
        exact ht.phase.dooms (ht.cancelled ▸ hd)
      · rwa [ht.other p hpi] at hd
    rw [ht.field Task.cancelled ht.cancelled]
    exact hm.doomed p hd' k (ht.running hk)
  · have hc' : (m.task k).cancelled = false := (ht.field Task.cancelled ht.cancelled k).symm.trans hc
    cases he' : (m.task k).phase.isEnded with
    | true =>
      exact hkeeps.endsClosed (hm.placed k (hm.sound.orderly.starter k p hs).1) (hm.closed k p hs hc' he')
    | false =>
      by_cases hki : k = i
      · subst hki
        exact hclosed p hs hc' he' he
      · rw [ht.other k hki, he'] at he
        cases he

/-! ## 5. The beginning

One task with a turn to come, without any pipe: it counts on its turn, and there is nothing else to be shown. -/

/-- A machine in which one task is to have its first turn, and that has texts to read and no pipes. -/
structure Begins (m : Machine ρ) (job : Job ρ) : Prop where
  size : m.tasks.size = 1
  task : m.task 0 = { phase := .active job }
  turn : .resume 0 ∈ m.world.queue.toList
  asked : m.world.asked = []
  channels : m.world.channels.size = 0
  inputs : 0 < m.world.inputs.size
  supply : ∀ i < m.world.inputs.size, (m.world.input i).supply = .text

namespace Begins

variable {job : Job ρ} (hb : m.Begins job)
include hb

/-- No task is a stage. -/
theorem starter (k : Nat) : (m.task k).starter = none := by
  rcases Nat.eq_zero_or_pos k with rfl | hk
  · rw [hb.task]
  · rw [task_of_size_le (hb.size ▸ hk)]
    rfl

/-- Nobody has started a pipeline, or ended one. -/
theorem active_or_ended (k : Nat) :
    (m.task k).phase = .active job ∨ (m.task k).phase = .ended (.error .cancelled) := by
  rcases Nat.eq_zero_or_pos k with rfl | hk
  · exact .inl (congrArg Task.phase hb.task)
  · exact .inr (congrArg Task.phase (task_of_size_le (hb.size ▸ hk)))

/-- Everybody is in place if the job uses its input and writes sinks. -/
theorem stands (hsound : m.roster.Sound S R) (hu : job.Uses S 0 (.sink 0)) :
    m.Stands S R ⟨fun _ => 0, fun _ => 0, 1⟩ where
  -- There is one task and no pipe, so most conditions are about nothing.
  sound := hsound
  plumbed :=
    { asked := hb.asked
      capacity := fun c hc => absurd (hb.channels ▸ hc) (Nat.not_lt_zero c)
      supply := fun i hi => by simp [hb.supply i hi]
      channel := fun i hi => by simp [hb.supply i hi] }
  placed i hi := by
    obtain rfl : i = 0 := Nat.lt_one_iff.mp (hb.size ▸ hi)
    refine ⟨?_, ?_, ?_⟩
    · rw [hb.task]
      exact hb.inputs
    · rw [hb.task]
      nofun
    · rw [Machine.supply, hb.task, hb.supply 0 hb.inputs]
      exact Nat.one_pos
  starter i p hs := absurd ((hb.starter i).symm.trans hs) nofun
  root i hi _ c := by
    obtain rfl : i = 0 := Nat.lt_one_iff.mp (hb.size ▸ hi)
    rw [Machine.supply, hb.task, hb.supply 0 hb.inputs]
    exact ⟨nofun, nofun⟩
  chained p first stages ended next hp := by
    rcases hb.active_or_ended p with h | h <;> cases h.symm.trans hp
  fares i hi := by
    obtain rfl : i = 0 := Nat.lt_one_iff.mp (hb.size ▸ hi)
    rw [Fares, hb.task]
    exact .active (fun _ => ⟨.rests hu, .turn hb.turn⟩) nofun
  doomed p hd := by
    rcases hb.active_or_ended p with h | h <;> rw [h] at hd <;> cases hd
  closed i p hs := absurd ((hb.starter i).symm.trans hs) nofun

end Begins

end Machine

end Shell
