/-
What no operation undoes.

A pipe that has been closed at an end stays closed there, an input goes on reading from the same
place, and no pipe or input disappears. `Later` is the order that these three make. Whatever the
job of a task is, the world after its turn is later than the world before it (`later_advance`).

Of the events of the queue the reports are those that the starters of pipelines live on: each
says of a stage that it has ended. Whatever tasks do in their turns brings no report to the queue and
takes none away, so `reports` changes only where the machine itself says so: when a task ends, when a
pipeline is drained, and when a report is dealt with.
-/
import Shell.Job
import Shell.Scheduler
import Shell.Proofs.World.Copying

set_option autoImplicit false

namespace Shell

namespace World

/-- The second world is later than the first. -/
structure Later (w w' : World) : Prop where
  channels : w.channels.size ≤ w'.channels.size
  inputs : w.inputs.size ≤ w'.inputs.size
  supply : ∀ i < w.inputs.size, (w'.input i).supply = (w.input i).supply
  writeClosed : ∀ c, (w.channel c).pipe.writeClosed = true →
    (w'.channel c).pipe.writeClosed = true
  readClosed : ∀ c, (w.channel c).pipe.readClosed = true → (w'.channel c).pipe.readClosed = true

variable {w w₁ w' : World}

namespace Later

/-- Every world comes after itself. -/
theorem refl (w : World) : w.Later w :=
  ⟨Nat.le_refl _, Nat.le_refl _, fun _ _ => rfl, fun _ h => h, fun _ h => h⟩

/-- What comes after a later world is later. -/
theorem trans (h : w.Later w₁) (h' : w₁.Later w') : w.Later w' where
  channels := Nat.le_trans h.channels h'.channels
  inputs := Nat.le_trans h.inputs h'.inputs
  supply := by
    intro i hi
    rw [h'.supply i (Nat.lt_of_lt_of_le hi h.inputs), h.supply i hi]
  writeClosed := fun c hc => h'.writeClosed c (h.writeClosed c hc)
  readClosed := fun c hc => h'.readClosed c (h.readClosed c hc)

end Later

/-- Worlds that are alike come after each other. -/
theorem Alike.later (h : w.Alike w') : w.Later w' where
  channels := Nat.le_of_eq h.channels.symm
  inputs := Nat.le_of_eq h.inputs.symm
  supply := fun i _ => h.supply i
  writeClosed := fun c hc => (h.writeClosed c).trans hc
  readClosed := fun c hc => (h.readClosed c).trans hc

/-- Work makes a world later. -/
theorem Works.later (h : w.Works w') : w.Later w' := h.toAlike.later

/-- A pipe that is open now was open before. -/
theorem Later.isOpen (h : w.Later w') {c : Nat} (ho : (w'.channel c).pipe.IsOpen) :
    (w.channel c).pipe.IsOpen := by
  refine ⟨Bool.eq_false_iff.2 fun hc => ?_, Bool.eq_false_iff.2 fun hc => ?_⟩
  · exact ho.not_writeClosed (h.writeClosed c hc)
  · exact ho.not_readClosed (h.readClosed c hc)

/-- What happens beside the pipes and the inputs makes no difference. -/
theorem later_aside (hc : w'.channels = w.channels) (hi : w'.inputs = w.inputs) : w.Later w' :=
  (alike_aside hc hi).later

/-! ## 1. The operations that are not work

Closing an end, a new pipe and a turn of the host are no work of a task, but they make a world later. -/

/-- An event more in the queue. -/
theorem later_push (w : World) (event : Event) : w.Later (w.push event) := later_aside rfl rfl

/-- A task more that waits. -/
theorem later_wait (w : World) (index task : Nat) : w.Later (w.wait index task) :=
  (w.alike_wait index task).later

/-- A change of a pipe that opens no end. -/
theorem later_change (w : World) (index : Nat) (f : Pipe → Pipe)
    (hw : ∀ p, p.writeClosed = true → (f p).writeClosed = true)
    (hr : ∀ p, p.readClosed = true → (f p).readClosed = true) : w.Later (w.change index f) := by
  rcases Nat.lt_or_ge index w.channels.size with hlt | hge
  case inr =>
    rw [change_of_size_le f hge]
    exact .refl w
  have hin : (w.change index f).inputs = w.inputs := inputs_change f
  have field (g : Pipe → Bool) (hg : ∀ p, g p = true → g (f p) = true) (c : Nat)
      (hc : g (w.channel c).pipe = true) : g ((w.change index f).channel c).pipe = true := by
    by_cases hi : c = index
    · subst hi
      rw [pipe_change_self f hlt]
      exact hg _ hc
    · rw [channel_change_of_ne f hi]
      exact hc
  refine ⟨Nat.le_of_eq (size_change f).symm, Nat.le_of_eq (congrArg Array.size hin.symm), ?_,
    field _ hw, field _ hr⟩
  intro i _
  rw [World.input, hin]
  rfl

/-- A write end that is closed. -/
theorem later_closeWrite (w : World) (index : Nat) : w.Later (w.closeWrite index) :=
  w.later_change index Pipe.closeWrite (fun _ _ => rfl) fun _ h => h

/-- A read end that is closed. -/
theorem later_closeRead (w : World) (index : Nat) : w.Later (w.closeRead index) :=
  w.later_change index Pipe.closeRead (fun _ h => h) fun _ _ => rfl

/-- A new pipe and a new input do not touch those that are there. -/
theorem later_addPipe (w : World) (capacity : Nat) : w.Later (w.addPipe capacity) := by
  have field {g : Pipe → Bool} (hg : g default = false) (c : Nat)
      (hc : g (w.channel c).pipe = true) : g ((w.addPipe capacity).channel c).pipe = true := by
    -- A pipe that is closed is one of those that were there.
    have hlt : c < w.channels.size := by
      refine Nat.lt_of_not_le fun hn => ?_
      rw [channel_of_size_le hn] at hc
      exact Bool.false_ne_true (hg.symm.trans hc)
    rw [channel_addPipe_of_lt capacity hlt]
    exact hc
  refine ⟨by rw [size_channels_addPipe]; exact Nat.le_succ _,
    by rw [size_inputs_addPipe]; exact Nat.le_succ _, fun i hi => ?_, field rfl, field rfl⟩
  rw [input_addPipe_of_lt capacity hi]

/-- A task that waits no longer leaves the pipes as they are. -/
theorem alike_unwait (w : World) (task : Nat) : w.Alike (w.unwait task) := by
  have hpipe (c : Nat) : ((w.unwait task).channel c).pipe = (w.channel c).pipe := by
    simp only [channel, unwait, Array.getD_eq_getD_getElem?, Array.getElem?_map]
    cases w.channels[c]? <;> rfl
  exact alike_of_pipes (by simp [unwait]) rfl hpipe fun _ => rfl

/-- So the world without its wait is later. -/
theorem later_unwait (w : World) (task : Nat) : w.Later (w.unwait task) := (w.alike_unwait task).later

/-- The host reads the next piece of a file, whose input it supplies as before. -/
theorem later_hostReads (w : World) (task index : Nat) : w.Later (w.hostReads task index) := by
  cases hs : (w.input index).source with
  | text rest =>
    simp only [hostReads, hs]
    exact .refl w
  | pipe pipe decoder ended =>
    simp only [hostReads, hs]
    exact .refl w
  | host rest ready =>
    simp only [hostReads, hs]
    -- The host puts a piece into the input, and the task is told with an arrival.
    have hw : w.Works (w.setInput index
        { w.input index with source := .host rest.tail (some (rest.headD [])) }) :=
      works_setInput w (by simp only [Input.supply, hs])
    exact hw.later.trans (later_push _ _)

/-- The host is asked for a piece. -/
theorem later_askHost (w : World) (task index : Nat) : w.Later (w.askHost task index) := by
  unfold askHost
  split
  · exact later_aside rfl rfl
  · exact (w.later_hostReads task index).trans (later_aside rfl rfl)

/-- The host has a turn. -/
theorem later_hostTurn (w : World) : w.Later w.hostTurn := by
  unfold hostTurn
  cases w.asked with
  | nil => exact .refl w
  | cons a asked =>
    have h : w.Later { w with asked := asked } := later_aside rfl rfl
    exact h.trans (later_hostReads _ a.1 a.2)

/-! ## 2. Closing the ends of a stage -/

/-- Closes the write end of an output, if it is a pipe. -/
def closeOutput (w : World) : Output → World
  | .pipe pipe => w.closeWrite pipe
  | .sink _ => w

/-- Closes the read end of an input, if it is a pipe. -/
def closeInput (w : World) (index : Nat) : World :=
  match (w.input index).pipe? with
  | some pipe => w.closeRead pipe
  | none => w

/-- Closes both ends of a stage. -/
def closeEnds (w : World) (input : Nat) (output : Output) : World :=
  (w.closeOutput output).closeInput input

/-- What holds between the worlds before and after a pipe is closed, holds between those before
and after both ends are closed. -/
theorem closeEnds_induction {r : World → World → Prop} (refl : ∀ w, r w w)
    (trans : ∀ {w w₁ w'}, r w w₁ → r w₁ w' → r w w')
    (write : ∀ w index, r w (w.change index Pipe.closeWrite))
    (read : ∀ w index, r w (w.change index Pipe.closeRead)) (w : World) (input : Nat)
    (output : Output) : r w (w.closeEnds input output) := by
  have ho : r w (w.closeOutput output) := by
    cases output with
    | pipe pipe => exact write w pipe
    | sink index => exact refl w
  have hi (w₁ : World) : r w₁ (w₁.closeInput input) := by
    unfold closeInput
    cases (w₁.input input).pipe? with
    | some pipe => exact read w₁ pipe
    | none => exact refl w₁
  exact trans ho (hi _)

/-- The ends of a stage are closed. -/
theorem later_closeEnds (w : World) (input : Nat) (output : Output) :
    w.Later (w.closeEnds input output) :=
  closeEnds_induction Later.refl Later.trans later_closeWrite later_closeRead w input output

/-- Closing ends leaves the inputs as they are. -/
theorem inputs_closeEnds (w : World) (input : Nat) (output : Output) :
    (w.closeEnds input output).inputs = w.inputs := by
  refine closeEnds_induction (r := fun w w' => w'.inputs = w.inputs) (fun _ => rfl) ?_ ?_ ?_ w
    input output
  · exact fun h h' => h'.trans h
  · exact fun _ _ => inputs_change _
  · exact fun _ _ => inputs_change _

/-- It leaves the sinks as they are. -/
theorem sinks_closeEnds (w : World) (input : Nat) (output : Output) :
    (w.closeEnds input output).sinks = w.sinks := by
  refine closeEnds_induction (r := fun w w' => w'.sinks = w.sinks) (fun _ => rfl) ?_ ?_ ?_ w
    input output
  · exact fun h h' => h'.trans h
  · exact fun _ _ => sinks_change _
  · exact fun _ _ => sinks_change _

/-- It makes no pipe and takes none away. -/
theorem size_closeEnds (w : World) (input : Nat) (output : Output) :
    (w.closeEnds input output).channels.size = w.channels.size := by
  refine closeEnds_induction (r := fun w w' => w'.channels.size = w.channels.size)
    (fun _ => rfl) ?_ ?_ ?_ w input output
  · exact fun h h' => h'.trans h
  · exact fun _ _ => size_change _
  · exact fun _ _ => size_change _

/-- Closing an output closes the write end of its pipe, and no other. -/
theorem pipe_closeOutput (output : Output) {c : Nat} (hc : c < w.channels.size) :
    ((w.closeOutput output).channel c).pipe =
      if output = .pipe c then (w.channel c).pipe.closeWrite else (w.channel c).pipe := by
  cases output with
  | sink index => rw [if_neg fun he => by cases he]; rfl
  | pipe pipe =>
    show ((w.change pipe Pipe.closeWrite).channel c).pipe = _
    by_cases he : c = pipe
    · subst he
      rw [if_pos rfl, pipe_change_self _ hc]
    · rw [channel_change_of_ne _ he, if_neg fun h => he (Output.pipe.inj h).symm]

/-- Closing an input closes the read end of the pipe that supplies it, and no other. -/
theorem pipe_closeInput (index : Nat) {c : Nat} (hc : c < w.channels.size) :
    ((w.closeInput index).channel c).pipe =
      if (w.input index).supply = .pipe c then (w.channel c).pipe.closeRead
      else (w.channel c).pipe := by
  unfold closeInput
  cases hp : (w.input index).pipe? with
  | none =>
    rw [if_neg fun he => ?_]
    rw [(Input.pipe?_eq_some_iff _ c).2 he] at hp
    cases hp
  | some pipe =>
    have hs := (Input.pipe?_eq_some_iff _ pipe).1 hp
    show ((w.change pipe Pipe.closeRead).channel c).pipe = _
    by_cases he : c = pipe
    · subst he
      rw [if_pos hs, pipe_change_self _ hc]
    · rw [channel_change_of_ne _ he, if_neg fun h => he (Supply.pipe.inj (h.symm.trans hs))]

/-- A pipe after the ends of a stage have been closed. The output is closed first, but that does
not change where the input reads from. -/
theorem pipe_closeEnds (input : Nat) (output : Output) {c : Nat} (hc : c < w.channels.size) :
    ((w.closeEnds input output).channel c).pipe =
      if (w.input input).supply = .pipe c then
        (if output = .pipe c then (w.channel c).pipe.closeWrite
          else (w.channel c).pipe).closeRead
      else if output = .pipe c then (w.channel c).pipe.closeWrite
      else (w.channel c).pipe := by
  have hsize : (w.closeOutput output).channels.size = w.channels.size := by
    cases output with
    | pipe pipe => exact size_change _
    | sink index => rfl
  -- Pipes are closed and inputs are left.
  have hinput : (w.closeOutput output).input input = w.input input := by
    cases output with
    | pipe pipe =>
      show (w.change pipe Pipe.closeWrite).input input = _
      rw [World.input, inputs_change]
      rfl
    | sink index => rfl
  rw [closeEnds, pipe_closeInput input (by rw [hsize]; exact hc), hinput,
    pipe_closeOutput output hc]

/-! ## 3. Reading, writing and copying

A relation between worlds that holds for each of the basic steps holds for all that is made of them (`Spans`). -/

variable {task index : Nat} {output : Output}

/-- What a task does in a turn is made of work, of waiting for a pipe, of asking the host and of
closing ends: these are all that a relation between the worlds before and after has to be
checked for. -/
structure Spans (r : World → World → Prop) : Prop where
  trans : ∀ {w w₁ w'}, r w w₁ → r w₁ w' → r w w'
  works : ∀ {w w'}, w.Works w' → r w w'
  wait : ∀ w index task, r w (w.wait index task)
  askHost : ∀ w task index, r w (w.askHost task index)
  closeWrite : ∀ w index, r w (w.closeWrite index)
  closeRead : ∀ w index, r w (w.closeRead index)

namespace Spans

variable {r : World → World → Prop} (hr : Spans r)
include hr

/-- A relation that spans all that a task may do spans a supply. -/
theorem supplies {t : World × Option (List Char)} (h : w.Supplies task index t) : r w t.1 := by
  cases h with
  | text hw _ => exact hr.works hw
  | waits hw _ _ => exact hr.trans (hr.works hw) (hr.wait _ _ _)
  | host hw _ ha =>
    rcases ha with rfl | rfl
    · exact hr.works hw
    · exact hr.trans (hr.works hw) (hr.askHost _ _ _)

/-- It spans what meets a request. -/
theorem meets {done : List (List Char)} {t : World × Got} (h : w.Meets task index done t) :
    r w t.1 := by
  cases h with
  | text hs => exact hr.supplies hs
  | waiting hs => exact hr.supplies hs

/-- It spans a write. -/
theorem writes {t : World × Sent} (h : w.Writes task output t) : r w t.1 := by
  cases h with
  | all hw _ _ => exact hr.works hw
  | refused _ => exact hr.works (.refl w)
  | waits hw _ _ => exact hr.trans (hr.works hw) (hr.wait _ _ _)

/-- It spans the copying of one stream to another. -/
theorem copies {turns : Nat} {wanted : Wanted} {t : World × Copied}
    (h : w.Copies task index output turns wanted t) : r w t.1 := by
  cases h with
  | all hw => exact hr.works hw
  | refused hw _ _ => exact hr.works hw
  | reading hs => exact hr.supplies hs
  | writing hw _ _ _ => exact hr.trans (hr.works hw) (hr.wait _ _ _)
  | short hw _ => exact hr.works hw

/-- It spans what a reader takes from a pipe. -/
theorem receives {size : Option Nat} {t : World × Option (List UInt8)}
    (h : w.Receives task index size t) : r w t.1 := by
  cases h with
  | empty _ => exact hr.wait w index task
  | closed _ => exact hr.works (.refl w)
  | taken _ _ => exact hr.works (works_take w index size)

end Spans

/-- Being later is such a relation. -/
theorem spans_later : Spans Later where
  trans := Later.trans
  works := Works.later
  wait := later_wait
  askHost := later_askHost
  closeWrite := later_closeWrite
  closeRead := later_closeRead

end World

/-! ## 4. Jobs -/

/-- **Whatever a task does in a turn** is made of what a relation of worlds has been checked for. -/
theorem Job.spans_advance {ρ : Type} {r : World → World → Prop} (hr : World.Spans r) (job : Job ρ)
    (task : Nat) (w : World) : r w (job.advance task w).1 := by
  -- By the actions of the job: each is one change of the world, and what follows it is the job behind it or
  -- nothing.
  induction job generalizing w with
  | finish result => exact hr.works (.refl w)
  | fail abort => exact hr.works (.refl w)
  | read input wanted next ih =>
    have h := hr.meets (w.meets_read task input wanted)
    unfold advance
    generalize w.read task input wanted = t at h ⊢
    rcases t with ⟨w₁, text | wanted⟩
    · exact hr.trans h (ih _ w₁)
    · exact h
  | write output text next ih =>
    have h := hr.writes (w.writes_write task output text)
    unfold advance
    generalize w.write task output text = t at h ⊢
    rcases t with ⟨w₁, - | abort | rest⟩
    · exact hr.trans h (ih _ w₁)
    · exact hr.trans h (ih _ w₁)
    · cases output with
      | pipe pipe => exact h
      | sink index => exact hr.trans h (ih _ w₁)
  | send pipe bytes next ih =>
    have h := hr.writes (w.writes_send task pipe bytes)
    unfold advance
    generalize w.send task pipe bytes = t at h ⊢
    rcases t with ⟨w₁, - | abort | rest⟩
    · exact hr.trans h (ih _ w₁)
    · exact hr.trans h (ih _ w₁)
    · exact h
  | receive pipe size next ih =>
    have h := hr.receives (w.receives task pipe size)
    unfold advance
    generalize w.receive task pipe size = t at h ⊢
    rcases t with ⟨w₁, - | bytes⟩
    · exact h
    · exact hr.trans h (ih _ w₁)
  | closeWrite pipe next ih => exact hr.trans (hr.closeWrite w pipe) (ih _)
  | closeRead pipe next ih => exact hr.trans (hr.closeRead w pipe) (ih _)
  | copy input output wanted number next ih =>
    have h := hr.copies (w.copies task input output (w.stock input) wanted number)
    unfold advance
    generalize w.copy task input output (w.stock input) wanted number = t at h ⊢
    rcases t with ⟨w₁, copied⟩
    simp only
    cases Job.copied input output next wanted.request copied with
    | inl job => exact h
    | inr result => exact hr.trans h (ih _ w₁)
  | count next ih => exact hr.trans (hr.works (w.works_aside (Nat.le_succ _) w.sinks)) (ih _ _)
  | openSink next ih => exact hr.trans (hr.works (w.works_aside (Nat.le_refl _) (w.sinks.push []))) (ih _ _)
  | sinkText index next ih => exact ih _ w
  | pipeline stages capacity input output stage next => exact hr.works (.refl w)

/-- The world after a turn is later. -/
theorem Job.later_advance {ρ : Type} (job : Job ρ) (task : Nat) (w : World) :
    w.Later (job.advance task w).1 :=
  job.spans_advance World.spans_later task w

/-! ## 5. Reports in the queue

Reports are pushed by the scheduler only. What tasks do adds other events to the queue, so the reports in it stay. -/

/-- The stage that an event reports, and whether the report is a late one. -/
def Event.report? : Event → Option (Nat × Bool)
  | .report stage late => some (stage, late)
  | .resume _ | .arrival _ => none

namespace World

/-- The reports in the queue, in their order. -/
def reports (w : World) : List (Nat × Bool) := w.queue.toList.filterMap Event.report?

variable {w w' : World}

/-- Two worlds with the same reports. -/
def SameReports (w w' : World) : Prop := w'.reports = w.reports

/-- An event that is pushed is the last of the reports, if it is a report. -/
theorem reports_push (w : World) (event : Event) :
    (w.push event).reports = w.reports ++ event.report?.toList := by
  unfold reports push
  rw [Queue.toList_push, List.filterMap_append]
  cases event <;> rfl

/-- Turns that come to the queue are no reports. -/
theorem sameReports_of_resumes {tasks : List Nat}
    (h : w'.queue.toList = w.queue.toList ++ tasks.map .resume) : w.SameReports w' := by
  have hnone : (tasks.map Event.resume).filterMap Event.report? = [] := by
    simp [List.filterMap_map, Function.comp_def, Event.report?]
  unfold SameReports reports
  rw [h, List.filterMap_append, hnone, List.append_nil]

/-- Work adds no reports. -/
theorem sameReports_works (h : w.Works w') : w.SameReports w' := by
  obtain ⟨tasks, hq⟩ := h.queue
  exact sameReports_of_resumes hq

/-- A change of a pipe makes tasks resume, and reports nothing. -/
theorem sameReports_change (w : World) (index : Nat) (f : Pipe → Pipe) :
    w.SameReports (w.change index f) :=
  sameReports_of_resumes (queue_change f)

/-- The host reports nothing. -/
theorem sameReports_hostReads (w : World) (task index : Nat) :
    w.SameReports (w.hostReads task index) := by
  unfold hostReads
  simp only
  split
  · exact (reports_push _ _).trans (List.append_nil _)
  · rfl

/-- Nor does asking it. -/
theorem sameReports_askHost (w : World) (task index : Nat) :
    w.SameReports (w.askHost task index) := by
  unfold askHost
  split
  · rfl
  · exact w.sameReports_hostReads task index

/-- Nor does its turn. -/
theorem sameReports_hostTurn (w : World) : w.SameReports w.hostTurn := by
  unfold hostTurn
  split
  · rfl
  · next task index rest _ => exact sameReports_hostReads { w with asked := rest } task index

/-- Nor does closing the ends of a stage. -/
theorem sameReports_closeEnds (w : World) (input : Nat) (output : Output) :
    w.SameReports (w.closeEnds input output) :=
  closeEnds_induction (r := SameReports) (fun _ => rfl) (fun h h' => Eq.trans h' h)
    (fun w index => w.sameReports_change index _) (fun w index => w.sameReports_change index _) w
    input output

/-- A task that waits no longer takes no report with it. -/
theorem sameReports_unwait (w : World) (task : Nat) : w.SameReports (w.unwait task) := by
  unfold SameReports reports unwait
  rw [Queue.toList_filter, List.filterMap_filter]
  congr 1
  funext event
  cases event <;> simp [Event.report?]

/-- So the reports are the same after any of the basic steps, and with that after anything that a job does. -/
theorem spans_sameReports : Spans SameReports where
  trans h h' := Eq.trans h' h
  works := sameReports_works
  wait _ _ _ := rfl
  askHost := sameReports_askHost
  closeWrite w index := w.sameReports_change index _
  closeRead w index := w.sameReports_change index _

end World

/-- **A turn of a task keeps the reports.** -/
theorem Job.sameReports_advance {ρ : Type} (job : Job ρ) (task : Nat) (w : World) :
    w.SameReports (job.advance task w).1 :=
  job.spans_advance World.spans_sameReports task w

end Shell
