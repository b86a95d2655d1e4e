/-
The numbers that jobs are told.

All tasks share one count of and-or lists, and whoever adds to it is told the new count. `Machine.told`
collects these numbers in the course of a run: they are all the numbers from the count at its beginning to the
count at its end, each of them once (`told_eq`). So of the lists that are counted in a run, whichever tasks
they are in, at most `limit` have a number up to `limit` (`card_told_le`).

Nothing that tasks do with pipes, inputs and sinks changes the count. It goes up only where a job adds to it, and what a
job is told in a turn are the numbers from the count before the turn to the count after it (`Job.told_eq`).
-/
import Shell.Proofs.Job.Like
import Shell.Proofs.Machine.Steps
import Shell.Proofs.World.Carrying

set_option autoImplicit false

namespace Shell

namespace World

/-! ## 1. What leaves the count alone

The count is that of the lists that have been run. No stream has to do with it. -/

/-- Neither room nor a refusal has to do with the count. -/
theorem count_send (w : World) (task index : Nat) (bytes : List UInt8) :
    (w.send task index bytes).1.count = w.count := by
  have hs := w.sends task index bytes
  generalize w.send task index bytes = r at hs
  cases hs with
  | nothing | refused | full => rfl
  | whole | part => exact count_change _

/-- A read changes its pipe alone. -/
theorem count_receive (w : World) (task index : Nat) (size : Option Nat) :
    (w.receive task index size).1.count = w.count := by
  have hr := w.receives task index size
  generalize w.receive task index size = r at hr
  cases hr with
  | empty | closed => rfl
  | taken => exact count_change _

/-- Text goes to a sink or to a pipe. -/
theorem count_write (w : World) (task : Nat) (output : Output) (text : String) :
    (w.write task output text).1.count = w.count := by
  cases output with
  | sink index => rfl
  | pipe index => exact w.count_send task index _

/-- By induction on the reads that are tried. -/
theorem count_pull (w : World) (task index pipe tries : Nat) (decoder : Text.Utf8.Decoder) :
    (w.pull task index pipe tries decoder).1.count = w.count := by
  induction tries generalizing w decoder with
  | zero => rfl
  | succ tries ih =>
    have hr := w.count_receive task pipe none
    unfold pull
    generalize w.receive task pipe none = r at hr ⊢
    rcases r with ⟨w₁, - | - | ⟨byte, bytes⟩⟩
    · exact hr
    · exact hr
    · simp only
      split
      · exact (ih _ _).trans hr
      · exact hr

/-- A piece comes from a text, from the host or from a pipe. -/
theorem count_nextPiece (w : World) (task index : Nat) (inside : Bool) :
    (w.nextPiece task index inside).1.count = w.count := by
  unfold nextPiece
  simp only
  split
  · rfl
  · split
    · rfl
    · exact w.count_askHost task index
  · split
    · rfl
    · exact w.count_pull task index _ _ _

/-- A piece is pending or is the next one of the source. -/
theorem count_readPiece (w : World) (task index : Nat) (inside : Bool) :
    (w.readPiece task index inside).1.count = w.count := by
  unfold readPiece
  simp only
  split
  · exact w.count_nextPiece task index inside
  · rfl

/-- By induction on the pieces that are tried. -/
theorem count_readLine (w : World) (task index tries : Nat) (inside : Bool) :
    (w.readLine task index tries inside).1.count = w.count := by
  induction tries generalizing w inside with
  | zero => rfl
  | succ tries ih =>
    unfold readLine
    split
    · rfl
    · have hr := w.count_nextPiece task index inside
      generalize w.nextPiece task index inside = r at hr ⊢
      rcases r with ⟨w₁, - | - | ⟨c, piece⟩⟩
      · exact hr
      · exact hr
      · exact (ih _ _).trans hr

/-- By induction on the pieces that are tried. -/
theorem count_readAll (w : World) (task index tries : Nat) (inside : Bool) (done : List (List Char)) :
    (w.readAll task index tries inside done).1.count = w.count := by
  induction tries generalizing w inside done with
  | zero => rfl
  | succ tries ih =>
    have hr := w.count_readPiece task index inside
    unfold readAll
    generalize w.readPiece task index inside = r at hr ⊢
    rcases r with ⟨w₁, - | - | ⟨c, piece⟩⟩
    · exact hr
    · exact hr
    · exact (ih _ _ _).trans hr

/-- By induction on the lines that are tried. -/
theorem count_readContinued (w : World) (task index lines : Nat) (inside : Bool) (done : List (List Char)) :
    (w.readContinued task index lines inside done).1.count = w.count := by
  induction lines generalizing w inside done with
  | zero => rfl
  | succ lines ih =>
    have hr := w.count_readLine task index maxPieces inside
    unfold readContinued
    generalize w.readLine task index maxPieces inside = r at hr ⊢
    rcases r with ⟨w₁, - | line⟩
    · exact hr
    · simp only
      split
      · exact (ih _ _ _).trans hr
      · exact hr

/-- Whatever is asked for is read by one of the readers above. -/
theorem count_read (w : World) (task index : Nat) (wanted : Wanted) :
    (w.read task index wanted).1.count = w.count := by
  unfold read
  cases wanted.request with
  | piece =>
    have hr := w.count_readPiece task index wanted.inside
    generalize w.readPiece task index wanted.inside = r at hr ⊢
    rcases r with ⟨w₁, - | text⟩ <;> exact hr
  | line =>
    have hr := w.count_readLine task index maxPieces wanted.inside
    generalize w.readLine task index maxPieces wanted.inside = r at hr ⊢
    rcases r with ⟨w₁, - | text⟩ <;> exact hr
  | continued =>
    have hr := w.count_readLine task index maxPieces wanted.inside
    generalize w.readLine task index maxPieces wanted.inside = r at hr ⊢
    rcases r with ⟨w₁, - | line⟩
    · exact hr
    · simp only
      split
      · exact (count_readContinued _ _ _ _ _ _).trans hr
      · exact hr
  | all => exact w.count_readAll task index _ _ _

/-- By induction on the turns of the copy: each is a read and a write. -/
theorem count_copy (w : World) (task index : Nat) (output : Output) (turns : Nat) (wanted : Wanted)
    (number : Option Nat) : (w.copy task index output turns wanted number).1.count = w.count := by
  induction turns generalizing w wanted number with
  | zero => rfl
  | succ turns ih =>
    have hr := w.count_read task index wanted
    rcases hread : w.read task index wanted with ⟨w₁, (- | ⟨c, text⟩) | left⟩ <;> rw [hread] at hr
    · rw [copy, hread]
      exact hr
    · obtain ⟨line, last, hcopy⟩ := copy_of_text output turns number hread (List.cons_ne_nil c text)
      have hw := w₁.count_write task output line
      rw [hcopy]
      generalize w₁.write task output line = r at hw ⊢
      rcases r with ⟨w₂, - | abort | rest⟩
      · exact (ih _ _ _).trans (hw.trans hr)
      · exact hw.trans hr
      · cases output <;> exact hw.trans hr
    · rw [copy, hread]
      exact hr

/-- Two ends are closed at most. -/
theorem count_closeEnds (w : World) (input : Nat) (output : Output) :
    (w.closeEnds input output).count = w.count :=
  closeEnds_induction (r := fun w w' => w'.count = w.count) (fun _ => rfl) (fun h h' => h'.trans h)
    (fun _ _ => count_change Pipe.closeWrite) (fun _ _ => count_change Pipe.closeRead) w input output

end World

variable {ρ : Type}

/-! ## 2. One turn

Within one turn nobody else counts, so a job is told consecutive numbers. -/

/-- The numbers that a job is told as far as it goes without waiting. -/
def Job.told (task : Nat) : Job ρ → World → List Nat
  | .finish _, _ | .fail _, _ | .pipeline _ _ _ _ _ _, _ => []
  | .read input wanted next, w =>
    match w.read task input wanted with
    | (w, .text text) => (next (String.ofList text)).told task w
    | (_, .waiting _) => []
  | .write output text next, w =>
    match w.write task output text with
    | (w, .all) => (next none).told task w
    | (w, .refused abort) => (next (some abort)).told task w
    | (w, .waiting _) =>
      match output with
      | .pipe _ => []
      | .sink _ => (next none).told task w
  | .send pipe bytes next, w =>
    match w.send task pipe bytes with
    | (w, .all) => (next none).told task w
    | (w, .refused abort) => (next (some abort)).told task w
    | (_, .waiting _) => []
  | .receive pipe size next, w =>
    match w.receive task pipe size with
    | (w, some bytes) => (next bytes).told task w
    | (_, none) => []
  | .closeWrite pipe next, w => next.told task (w.closeWrite pipe)
  | .closeRead pipe next, w => next.told task (w.closeRead pipe)
  | .copy input output wanted number next, w =>
    match w.copy task input output (w.stock input) wanted number with
    | (w, copied) =>
      match Job.copied input output next wanted.request copied with
      | .inl _ => []
      | .inr result => (next result).told task w
  | .count next, w =>
    let n := w.count + 1
    n :: (next n).told task { w with count := n }
  | .openSink next, w =>
    let (index, w) := w.addSink
    (next index).told task w
  | .sinkText index next, w => (next (w.sinkText index)).told task w

/-- The numbers after the first one up to the second one. -/
def numbers (before after : Nat) : List Nat := List.range' (before + 1) (after - before)

/-- There are no numbers to the same one. -/
theorem numbers_of_eq {before after : Nat} (h : after = before) : numbers before after = [] := by
  rw [h, numbers, Nat.sub_self, List.range'_zero]

/-- The first number after a count is the next one, if there are any. -/
theorem numbers_succ {before after : Nat} (h : before < after) :
    numbers before after = (before + 1) :: numbers (before + 1) after := by
  obtain ⟨d, rfl⟩ := Nat.exists_eq_add_of_lt h
  have hlong : before + d + 1 - before = d + 1 := by omega
  have hshort : before + d + 1 - (before + 1) = d := by omega
  rw [numbers, numbers, hlong, hshort, List.range'_succ]

/-- The numbers of two stretches are those of both together. -/
theorem numbers_append {a b c : Nat} (h : a ≤ b) (h' : b ≤ c) : numbers a b ++ numbers b c = numbers a c := by
  obtain ⟨d, rfl⟩ := Nat.exists_eq_add_of_le h
  obtain ⟨e, rfl⟩ := Nat.exists_eq_add_of_le h'
  have hfirst : a + d - a = d := by omega
  have hsecond : a + d + e - (a + d) = e := by omega
  have hboth : a + d + e - a = d + e := by omega
  have hstart : a + d + 1 = a + 1 + d := by omega
  rw [numbers, numbers, numbers, hfirst, hsecond, hboth, hstart, List.range'_append_1]

/-- Of the numbers up to any other at most `limit` are up to `limit`. -/
theorem countP_numbers_le (limit : Int) (after : Nat) :
    (numbers 0 after).countP (fun n : Nat => decide ((n : Int) ≤ limit)) ≤ limit.toNat := by
  rcases Nat.le_total after limit.toNat with hle | hge
  · refine Nat.le_trans List.countP_le_length ?_
    rwa [numbers, List.length_range']
  · rw [← numbers_append (Nat.zero_le _) hge, List.countP_append]
    have hbeyond : (numbers limit.toNat after).countP (fun n : Nat => decide ((n : Int) ≤ limit)) = 0 := by
      refine List.countP_eq_zero.mpr fun n hn => ?_
      have hlow := (List.mem_range'_1.mp hn).1
      simp only [decide_eq_true_eq]
      omega
    rw [hbeyond, Nat.add_zero]
    refine Nat.le_trans List.countP_le_length ?_
    rw [numbers, List.length_range']
    omega

/-- **A job is told all the numbers between the counts before and after its turn**, each of them once. -/
theorem Job.told_eq (job : Job ρ) (task : Nat) (w : World) :
    job.told task w = numbers w.count (job.advance task w).1.count := by
  -- On the job, of which a turn takes a path as far as it goes without waiting. Only at `count` is something told;
  -- every other operation leaves the count alone.
  induction job generalizing w with
  | finish | fail | pipeline => exact (numbers_of_eq rfl).symm
  | read input wanted next ih =>
    have h := w.count_read task input wanted
    unfold told advance
    generalize w.read task input wanted = r at h ⊢
    rcases r with ⟨w₁, text | left⟩
    · exact h ▸ ih _ w₁
    · exact (numbers_of_eq h).symm
  | write output text next ih =>
    have h := w.count_write task output text
    unfold told advance
    generalize w.write task output text = r at h ⊢
    rcases r with ⟨w₁, - | abort | rest⟩
    · exact h ▸ ih _ w₁
    · exact h ▸ ih _ w₁
    · cases output with
      | pipe pipe => exact (numbers_of_eq h).symm
      | sink index => exact h ▸ ih _ w₁
  | send pipe bytes next ih =>
    have h := w.count_send task pipe bytes
    unfold told advance
    generalize w.send task pipe bytes = r at h ⊢
    rcases r with ⟨w₁, - | abort | rest⟩
    · exact h ▸ ih _ w₁
    · exact h ▸ ih _ w₁
    · exact (numbers_of_eq h).symm
  | receive pipe size next ih =>
    have h := w.count_receive task pipe size
    unfold told advance
    generalize w.receive task pipe size = r at h ⊢
    rcases r with ⟨w₁, - | bytes⟩
    · exact (numbers_of_eq h).symm
    · exact h ▸ ih _ w₁
  | closeWrite pipe next ih => exact World.count_change (w := w) Pipe.closeWrite ▸ ih (w.closeWrite pipe)
  | closeRead pipe next ih => exact World.count_change (w := w) Pipe.closeRead ▸ ih (w.closeRead pipe)
  | copy input output wanted number next ih =>
    have h := w.count_copy task input output (w.stock input) wanted number
    unfold told advance
    generalize w.copy task input output (w.stock input) wanted number = r at h ⊢
    rcases r with ⟨w₁, copied⟩
    simp only
    cases Job.copied input output next wanted.request copied with
    | inl job => exact (numbers_of_eq h).symm
    | inr result => exact h ▸ ih _ w₁
  | count next ih =>
    have hlt : w.count < ((Job.count next).advance task w).1.count :=
      (next (w.count + 1)).spans_advance World.spans_count task { w with count := w.count + 1 }
    rw [numbers_succ hlt]
    exact congrArg (List.cons (w.count + 1)) (ih (w.count + 1) { w with count := w.count + 1 })
  | openSink next ih => exact ih _ _
  | sinkText index next ih => exact ih _ w

/-! ## 3. Turns of machines

Between the turns nothing is counted, so the numbers of all turns together are consecutive, whoever is told them. -/

namespace Machine

variable {m m' : Machine ρ} {event : Event} {queue : Queue Event}

theorem count_closeEnds (m : Machine ρ) (task : Task ρ) : (m.closeEnds task).world.count = m.world.count := by
  rw [closeEnds_eq]
  exact m.world.count_closeEnds _ _

/-- A task that ends closes its ends and is reported. -/
theorem count_endTask (m : Machine ρ) (i : Nat) (result : Except Abort ρ) :
    (m.endTask i result).world.count = m.world.count := by
  unfold endTask
  simp only
  cases (m.task i).starter with
  | none => rfl
  | some q =>
    have hclosed : (if (m.task i).started = true then (m.setPhase i (.ended result)).closeEnds (m.task i)
        else m.setPhase i (.ended result)).world.count = m.world.count := by
      split
      · exact count_closeEnds _ _
      · rfl
    simp only
    split <;> exact hclosed

/-- New tasks and pipes are no lists. -/
theorem count_startStages (starter capacity : Nat) (output : Output) (stage : Nat → Nat → Output → Job ρ)
    (left index input : Nat) (m : Machine ρ) :
    (startStages starter capacity output stage left index input m).world.count = m.world.count := by
  fun_induction startStages with
  | case1 | case2 => rfl
  | case3 left index input m pipe next m₁ ih => exact ih

/-- What leaves the count alone for each of several tasks does for all. -/
theorem count_foldl {f : Machine ρ → Nat → Machine ρ} (hf : ∀ m i, (f m i).world.count = m.world.count)
    (tasks : List Nat) (m : Machine ρ) : (tasks.foldl f m).world.count = m.world.count :=
  foldl_induction (r := fun m m' : Machine ρ => m'.world.count = m.world.count) (fun _ => rfl)
    (fun h h' => h'.trans h) hf tasks m

/-- Telling tasks to end counts nothing, at any depth. -/
theorem count_cancel (depth i : Nat) (m : Machine ρ) : (cancel depth i m).world.count = m.world.count := by
  induction depth generalizing i m with
  | zero =>
    unfold cancel
    simp only
    split
    · rfl
    · rfl
    · split <;> rfl
    · rfl
  | succ depth ih =>
    unfold cancel
    simp only
    split
    · rfl
    · exact count_foldl (fun m i => ih i m) _ _
    · split <;> rfl
    · rfl

/-- Giving up a pipeline counts nothing. -/
theorem count_drain (i first stages : Nat) (abort : Abort) (next : Except Abort ρ → Job ρ) (m : Machine ρ) :
    (drain i first stages abort next m).world.count = m.world.count := by
  have hdismiss : (m.dismiss first stages).world.count = m.world.count :=
    count_foldl (fun m i => count_cancel m.tasks.size i m) _ m
  exact (count_foldl (f := fun m i => m.push (.report i true)) (fun _ _ => rfl) _ _).trans hdismiss

/-- A report changes a phase, and adds a turn at most. -/
theorem count_report (m : Machine ρ) (i : Nat) (late : Bool) : (m.report i late).world.count = m.world.count := by
  unfold report
  split
  · split
    · split
      · rfl
      · split
        · rfl
        · split <;> rfl
    · split <;> rfl
    · rfl
  · rfl

/-- A task that goes on counts what its job counts. -/
theorem count_go (m : Machine ρ) (i : Nat) (job : Job ρ) :
    (m.go i job).world.count = (job.advance i m.world).1.count := by
  unfold go
  simp only
  split
  · exact count_endTask _ i _
  · exact count_startStages _ _ _ _ _ _ _ _
  · rfl

/-- The numbers that the task is told that has its turn. -/
def toldNext (m : Machine ρ) : List Nat :=
  match m.world.queue.next? with
  | some (.resume i, queue) =>
    match (m.task i).phase with
    | .active job => if (m.task i).cancelled then [] else job.told i (m.withQueue queue).world
    | _ => []
  | _ => []

/-- All the numbers that are told in a run. -/
def told : (turns : Nat) → Machine ρ → List Nat
  | 0, _ => []
  | turns + 1, m => if m.isQuiet then [] else m.toldNext ++ told turns m.step

/-- A turn tells the numbers between the counts before and after it. -/
theorem toldNext_eq (m : Machine ρ) :
    m.world.count ≤ m.step.world.count ∧ m.toldNext = numbers m.world.count m.step.world.count := by
  -- An event that tells nothing leaves the count alone.
  have hstill {m' : Machine ρ} (h : m'.world.count = m.world.count) :
      m.world.count ≤ m'.world.count ∧ [] = numbers m.world.count m'.world.count :=
    ⟨Nat.le_of_eq h.symm, (numbers_of_eq h).symm⟩
  unfold toldNext step
  cases m.world.queue.next? with
  | none => exact hstill m.world.count_hostTurn
  | some next =>
    obtain ⟨event, queue⟩ := next
    cases event with
    | arrival i => exact hstill rfl
    | report i late => exact hstill (count_report (m.withQueue queue) i late)
    | resume i =>
      show m.world.count ≤ ((m.withQueue queue).resume i).world.count ∧
        _ = numbers m.world.count ((m.withQueue queue).resume i).world.count
      have hp : ((m.withQueue queue).task i).phase = (m.task i).phase := rfl
      have hc : ((m.withQueue queue).task i).cancelled = (m.task i).cancelled := rfl
      unfold resume
      simp only [hp, hc]
      cases (m.task i).phase with
      | active job =>
        simp only
        split
        · exact hstill (count_endTask _ i _)
        · have hgo := count_go ((m.withQueue queue).modifyTask i fun t => { t with started := true }) i job
          rw [hgo]
          exact ⟨job.spans_advance World.spans_count i (m.withQueue queue).world,
            job.told_eq i (m.withQueue queue).world⟩
      | failing first stages abort next => exact hstill (count_drain i first stages abort next _)
      | starting | joining | draining | ended => exact hstill rfl

/-- **The numbers that are told in a run** are all those between the counts at its beginning and its end, each of
them once. -/
theorem told_eq (turns : Nat) (m : Machine ρ) :
    m.world.count ≤ (m.run turns).world.count ∧ m.told turns = numbers m.world.count (m.run turns).world.count := by
  induction turns generalizing m with
  | zero => exact ⟨Nat.le_refl _, (numbers_of_eq rfl).symm⟩
  | succ turns ih =>
    unfold told run
    split
    · exact ⟨Nat.le_refl _, (numbers_of_eq rfl).symm⟩
    · obtain ⟨hle, hnext⟩ := m.toldNext_eq
      obtain ⟨hle', htold⟩ := ih m.step
      refine ⟨Nat.le_trans hle hle', ?_⟩
      rw [hnext, htold, numbers_append hle hle']

end Machine

end Shell
