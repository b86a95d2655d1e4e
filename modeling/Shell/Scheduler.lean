/-
Running tasks one at a time.

A task runs until it ends or has to wait, and then the task at the front of the queue goes on.
The queue is first in, first out, so the order in which tasks take turns is determined. The host
reads its files when the queue is empty.

The task that starts a pipeline waits for its stages. The end of a stage is first reported
to it and then, when the last stage has been reported, wakes it up. A stage that fails wakes
it at once: it then cancels the stages that have not ended, waits for all of them, and goes
on with the failure. A stage that has started closes both its ends when it ends, however it
ends, which unblocks its neighbours; a stage that is cancelled before its first turn has not
opened anything and closes nothing.
-/
import Shell.Job
import Shell.World

set_option autoImplicit false

namespace Shell

variable {ρ : Type}

/-- What a task is at between its turns. -/
inductive Phase (ρ : Type) where
  /-- It goes on with a job at its next turn. -/
  | active (job : Job ρ)
  /-- It is about to start a pipeline. -/
  | starting (stages capacity input : Nat) (output : Output)
      (stage : Nat → Nat → Output → Job ρ) (next : Except Abort ρ → Job ρ)
  /-- It waits for the tasks from `first` on, `stages` of them, of which `ended` have been
  reported. -/
  | joining (first stages ended : Nat) (next : Except Abort ρ → Job ρ)
  /-- It has been told that one of its stages failed. -/
  | failing (first stages : Nat) (abort : Abort) (next : Except Abort ρ → Job ρ)
  /-- It waits for `left` more stages to end after one has failed. -/
  | draining (left : Nat) (abort : Abort) (next : Except Abort ρ → Job ρ)
  | ended (result : Except Abort ρ)

structure Task (ρ : Type) where
  phase : Phase ρ
  /-- The task that waits for this one, if it is a stage. -/
  starter : Option Nat := none
  /-- The ends a stage closes. -/
  input : Nat := 0
  output : Output := .sink 0
  /-- Whether the task has had a turn. -/
  started : Bool := false
  /-- Whether it ends at its next turn. -/
  cancelled : Bool := false

instance : Inhabited (Task ρ) := ⟨{ phase := .ended (.error .cancelled) }⟩

/-- All tasks and what they share. -/
structure Machine (ρ : Type) where
  tasks : Array (Task ρ) := #[]
  world : World := {}

namespace Machine

def task (m : Machine ρ) (index : Nat) : Task ρ := m.tasks.getD index default

def modifyTask (m : Machine ρ) (index : Nat) (f : Task ρ → Task ρ) : Machine ρ :=
  { m with tasks := m.tasks.modify index f }

def setPhase (m : Machine ρ) (index : Nat) (phase : Phase ρ) : Machine ρ :=
  m.modifyTask index fun t => { t with phase := phase }

def mapWorld (m : Machine ρ) (f : World → World) : Machine ρ := { m with world := f m.world }

def push (m : Machine ρ) (event : Event) : Machine ρ := m.mapWorld fun w => w.push event

/-- Adds a task that is to have its first turn. -/
def addTask (m : Machine ρ) (task : Task ρ) : Machine ρ :=
  let index := m.tasks.size
  { m with tasks := m.tasks.push task }.push (.resume index)

/-- The result of a task that has ended. -/
def result? (m : Machine ρ) (index : Nat) : Option (Except Abort ρ) :=
  match (m.task index).phase with
  | .ended result => some result
  | _ => none

end Machine

/-! ## One task -/

/-- What a task continues with after it has copied. -/
def Job.copied (input : Nat) (output : Output) (next : Except Abort (Option Nat) → Job ρ)
    (request : Request) : World.Copied → Job ρ ⊕ Except Abort (Option Nat)
  | .all number => .inr (.ok number)
  | .refused abort => .inr (.error abort)
  | .reading wanted number => .inl (.copy input output wanted number next)
  | .writing pipe rest number =>
    .inl (.send pipe rest fun
      | none => .copy input output ⟨request, false, []⟩ number next
      | some abort => next (.error abort))

/-- The job of a task as far as it goes without waiting: the world after it, and what the
task is at then. -/
def Job.advance (task : Nat) : Job ρ → World → World × Phase ρ
  | .finish result, w => (w, .ended (.ok result))
  | .fail abort, w => (w, .ended (.error abort))
  | .read input wanted next, w =>
    match w.read task input wanted with
    | (w, .text text) => (next (String.ofList text)).advance task w
    | (w, .waiting wanted) => (w, .active (.read input wanted next))
  | .write output text next, w =>
    match w.write task output text with
    | (w, .all) => (next none).advance task w
    | (w, .refused abort) => (next (some abort)).advance task w
    | (w, .waiting rest) =>
      match output with
      | .pipe pipe => (w, .active (.send pipe rest next))
      | .sink _ => (next none).advance task w
  | .send pipe bytes next, w =>
    match w.send task pipe bytes with
    | (w, .all) => (next none).advance task w
    | (w, .refused abort) => (next (some abort)).advance task w
    | (w, .waiting rest) => (w, .active (.send pipe rest next))
  | .receive pipe size next, w =>
    match w.receive task pipe size with
    | (w, some bytes) => (next bytes).advance task w
    | (w, none) => (w, .active (.receive pipe size next))
  | .closeWrite pipe next, w => next.advance task (w.closeWrite pipe)
  | .closeRead pipe next, w => next.advance task (w.closeRead pipe)
  | .copy input output wanted number next, w =>
    match w.copy task input output (w.stock input) wanted number with
    | (w, copied) =>
      match Job.copied input output next wanted.request copied with
      | .inl job => (w, .active job)
      | .inr result => (next result).advance task w
  | .count next, w =>
    let n := w.count + 1
    (next n).advance task { w with count := n }
  | .openSink next, w =>
    let (index, w) := w.addSink
    (next index).advance task w
  | .sinkText index next, w => (next (w.sinkText index)).advance task w
  | .pipeline stages capacity input output stage next, w =>
    (w, .starting stages capacity input output stage next)

namespace Machine

/-! ## The end of a task -/

/-- Closes the ends of a stage: the write end of its output and the read end of its input, if
they are pipes. -/
def closeEnds (m : Machine ρ) (task : Task ρ) : Machine ρ :=
  m.mapWorld fun w =>
    let w := match task.output with
      | .pipe pipe => w.closeWrite pipe
      | .sink _ => w
    match (w.input task.input).pipe? with
    | some pipe => w.closeRead pipe
    | none => w

/-- Ends a task with a result and reports it to its starter. -/
def endTask (m : Machine ρ) (index : Nat) (result : Except Abort ρ) : Machine ρ :=
  let task := m.task index
  let m := m.setPhase index (.ended result)
  match task.starter with
  | none => m
  | some starter =>
    let m := if task.started then m.closeEnds task else m
    let m := m.push (.report index false)
    match (m.task starter).phase with
    | .draining _ _ _ => m.push (.report index true)
    | _ => m

/-! ## Pipelines -/

/-- Starts the stages of a pipeline, from the left. `index` counts those started, `left` those
to come, and `input` is where the next one reads from. -/
def startStages (starter capacity : Nat) (output : Output)
    (stage : Nat → Nat → Output → Job ρ) : (left index input : Nat) → Machine ρ → Machine ρ
  | 0, _, _, m => m
  | 1, index, input, m =>
    m.addTask
      { phase := .active (stage index input output), starter := starter, input := input,
        output := output }
  | left + 2, index, input, m =>
    let pipe := m.world.channels.size
    let next := m.world.inputs.size
    let m := (m.mapWorld fun w => w.addPipe capacity).addTask
      { phase := .active (stage index input (.pipe pipe)), starter := starter, input := input,
        output := .pipe pipe }
    startStages starter capacity output stage (left + 1) (index + 1) next m

/-- Cancels a task: one that waits for a pipe or for the host is woken, and one that waits for its stages has
them cancelled. It ends at its next turn. Stages have greater numbers than the task that
started them; `depth` bounds how far below a task its stages can start others. -/
def cancel : (depth : Nat) → (index : Nat) → Machine ρ → Machine ρ
  | depth, index, m =>
    let below (first stages : Nat) (m : Machine ρ) : Machine ρ :=
      match depth with
      | 0 => m
      | depth + 1 => (List.range' first stages).foldl (fun m i => cancel depth i m) m
    match (m.task index).phase with
    | .ended _ => m
    | .joining first stages _ _ =>
      below first stages (m.modifyTask index fun t => { t with cancelled := true })
    | .active _ =>
      let m := m.modifyTask index fun t => { t with cancelled := true }
      if m.world.isWaiting index then (m.mapWorld fun w => w.unwait index).push (.resume index)
      else m
    | _ => m.modifyTask index fun t => { t with cancelled := true }

/-- Cancels the stages of a pipeline that have not ended and waits for all of them. -/
def drain (index first stages : Nat) (abort : Abort) (next : Except Abort ρ → Job ρ)
    (m : Machine ρ) : Machine ρ :=
  let all := List.range' first stages
  let m := all.foldl (fun m i => cancel m.tasks.size i m) m
  let gone := all.filter fun i => (m.result? i).isSome
  let m := m.setPhase index (.draining stages abort next)
  gone.foldl (fun m i => m.push (.report i true)) m

/-! ## Turns -/

/-- A task goes on with its job. -/
def go (m : Machine ρ) (index : Nat) (job : Job ρ) : Machine ρ :=
  let ⟨tasks, world⟩ := m
  let (world, phase) := job.advance index world
  let m : Machine ρ := ⟨tasks, world⟩
  match phase with
  | .ended result => m.endTask index result
  | .starting stages capacity input output stage next =>
    let m := m.setPhase index (.joining m.tasks.size stages 0 next)
    startStages index capacity output stage stages 0 input m
  | phase => m.setPhase index phase

/-- A task has a turn. -/
def resume (m : Machine ρ) (index : Nat) : Machine ρ :=
  let task := m.task index
  match task.phase with
  | .active job =>
    if task.cancelled then m.endTask index (.error .cancelled)
    else (m.modifyTask index fun t => { t with started := true }).go index job
  | .failing first stages abort next => m.drain index first stages abort next
  | _ => m

/-- The end of a stage is noticed by its starter. -/
def report (m : Machine ρ) (index : Nat) (late : Bool) : Machine ρ :=
  match (m.task index).starter, m.result? index with
  | some starter, some result =>
    match (m.task starter).phase, late with
    | .joining first stages ended next, false =>
      match result with
      | .error abort => (m.setPhase starter (.failing first stages abort next)).push (.resume starter)
      | .ok _ =>
        if ended + 1 < stages then m.setPhase starter (.joining first stages (ended + 1) next)
        else
          match m.result? (first + stages - 1) with
          | some last => (m.setPhase starter (.active (next last))).push (.resume starter)
          | none => m
    | .draining left abort next, true =>
      if 1 < left then m.setPhase starter (.draining (left - 1) abort next)
      else (m.setPhase starter (.active (next (.error abort)))).push (.resume starter)
    | _, _ => m
  | _, _ => m

/-- Whether nothing is left to do: every task has ended or waits. -/
def isQuiet (m : Machine ρ) : Bool := m.world.queue.isEmpty && m.world.asked.isEmpty

/-- The next event, or what the host does when there is none. Nothing changes if nothing is left
to do. -/
def step (m : Machine ρ) : Machine ρ :=
  match m.world.queue.next? with
  | none => m.mapWorld World.hostTurn
  | some (event, queue) =>
    let m := m.mapWorld fun w => { w with queue := queue }
    match event with
    | .resume index => m.resume index
    | .arrival index => m.push (.resume index)
    | .report index late => m.report index late

/-- Runs until nothing is left to do, or for `turns` events. -/
def run : (turns : Nat) → Machine ρ → Machine ρ
  | 0, m => m
  | turns + 1, m => if m.isQuiet then m else run turns m.step

/-- More turns than can be taken in a lifetime. -/
def maxTurns : Nat := Nat.pow 2 62

end Machine

end Shell
