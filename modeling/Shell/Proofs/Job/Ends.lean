/-
How a job can end.

`Job.Ends` says of a job that all its ends are of some kind, whatever its operations give it on the
way: whatever text it reads and however its writes go. The stages of its pipelines end in one of the ways
`S`, and so do the stages of theirs; only with such a result has a job to deal when it has waited for
stages.

The one thing to check is what a write can be refused for. That is up to the output: a sink
refuses nothing, and a pipe has two reasons (`Output.Refuses`). A turn of a task asks no more of
its job than `Ends` grants (`Job.Ends.advance`).
-/
import Shell.Scheduler
import Shell.Proofs.World.Copying

set_option autoImplicit false

namespace Shell

variable {ρ : Type}

/-! ## 1. Refused writes -/

/-- Why a write to an output can be refused. -/
def Output.Refuses : Output → Abort → Prop
  | .sink _, _ => False
  | .pipe _, abort => abort = .brokenPipe ∨ abort = .fault .writeEndClosed

theorem Pipe.refuses_of_refusal? {pipe : Pipe} {abort : Abort} (h : pipe.refusal? = some abort)
    (index : Nat) : (Output.pipe index).Refuses abort := by
  unfold refusal? at h
  split at h
  · exact .inl (Option.some.inj h).symm
  · split at h
    · exact .inr (Option.some.inj h).symm
    · cases h

namespace World

variable {w w' : World} {task : Nat} {output : Output} {abort : Abort}

theorem refuses_of_send {pipe : Nat} {bytes : List UInt8}
    (h : w.send task pipe bytes = (w', .refused abort)) : (Output.pipe pipe).Refuses abort := by
  have hs := w.writes_send task pipe bytes
  rw [h] at hs
  cases hs with
  | refused hr => exact Pipe.refuses_of_refusal? hr pipe

theorem refuses_of_write {text : String} (h : w.write task output text = (w', .refused abort)) :
    output.Refuses abort := by
  have hs := w.writes_write task output text
  rw [h] at hs
  cases hs with
  | refused hr => exact Pipe.refuses_of_refusal? hr _

theorem refuses_of_copy {index turns : Nat} {wanted : Wanted} {number : Option Nat}
    (h : w.copy task index output turns wanted number = (w', .refused abort)) :
    output.Refuses abort := by
  have hc := w.copies task index output turns wanted number
  rw [h] at hc
  cases hc with
  | refused _ ho hr =>
    rw [ho]
    exact Pipe.refuses_of_refusal? hr _

/-- A copy that waits for room waits to write to its own output. -/
theorem eq_pipe_of_copy {index turns pipe : Nat} {wanted : Wanted} {number last : Option Nat}
    {rest : List UInt8}
    (h : w.copy task index output turns wanted number = (w', .writing pipe rest last)) :
    output = .pipe pipe := by
  have hc := w.copies task index output turns wanted number
  rw [h] at hc
  cases hc with
  | writing _ ho _ _ => exact ho

end World

/-! ## 2. Ends

A job is a tree of what it does next for each answer. Its ends are the leaves that it can come to by answers that it
may be given. -/

/-- All ends of a job are among `R`, whatever its operations give it, and all ends of the stages that
it starts are among `S`. -/
inductive Job.Ends (S : Except Abort ρ → Prop) : Job ρ → (Except Abort ρ → Prop) → Prop where
  | finish {R : Except Abort ρ → Prop} {result : ρ} (h : R (.ok result)) : Ends S (.finish result) R
  | fail {R : Except Abort ρ → Prop} {abort : Abort} (h : R (.error abort)) :
      Ends S (.fail abort) R
  | read {R : Except Abort ρ → Prop} {input : Nat} {wanted : Wanted} {next : String → Job ρ}
      (h : ∀ text, Ends S (next text) R) : Ends S (.read input wanted next) R
  | write {R : Except Abort ρ → Prop} {output : Output} {text : String}
      {next : Option Abort → Job ρ} (h : Ends S (next none) R)
      (hr : ∀ abort, output.Refuses abort → Ends S (next (some abort)) R) :
      Ends S (.write output text next) R
  | send {R : Except Abort ρ → Prop} {pipe : Nat} {bytes : List UInt8}
      {next : Option Abort → Job ρ} (h : Ends S (next none) R)
      (hr : ∀ abort, (Output.pipe pipe).Refuses abort → Ends S (next (some abort)) R) :
      Ends S (.send pipe bytes next) R
  | receive {R : Except Abort ρ → Prop} {pipe : Nat} {size : Option Nat}
      {next : List UInt8 → Job ρ} (h : ∀ bytes, Ends S (next bytes) R) :
      Ends S (.receive pipe size next) R
  | closeWrite {R : Except Abort ρ → Prop} {pipe : Nat} {next : Job ρ} (h : Ends S next R) :
      Ends S (.closeWrite pipe next) R
  | closeRead {R : Except Abort ρ → Prop} {pipe : Nat} {next : Job ρ} (h : Ends S next R) :
      Ends S (.closeRead pipe next) R
  | copy {R : Except Abort ρ → Prop} {input : Nat} {output : Output} {wanted : Wanted}
      {number : Option Nat} {next : Except Abort (Option Nat) → Job ρ}
      (h : ∀ last, Ends S (next (.ok last)) R)
      (hr : ∀ abort, output.Refuses abort → Ends S (next (.error abort)) R) :
      Ends S (.copy input output wanted number next) R
  | count {R : Except Abort ρ → Prop} {next : Nat → Job ρ} (h : ∀ n, Ends S (next n) R) :
      Ends S (.count next) R
  | openSink {R : Except Abort ρ → Prop} {next : Nat → Job ρ}
      (h : ∀ index, Ends S (next index) R) : Ends S (.openSink next) R
  | sinkText {R : Except Abort ρ → Prop} {index : Nat} {next : String → Job ρ}
      (h : ∀ text, Ends S (next text) R) : Ends S (.sinkText index next) R
  | pipeline {R : Except Abort ρ → Prop} {stages capacity input : Nat} {output : Output}
      {stage : Nat → Nat → Output → Job ρ} {next : Except Abort ρ → Job ρ}
      (hs : ∀ index input output, Ends S (stage index input output) S)
      (h : ∀ r, S r → Ends S (next r) R) :
      Ends S (.pipeline stages capacity input output stage next) R

/-- A job with no other ends than failures. -/
def Job.Fails (S : Except Abort ρ → Prop) (job : Job ρ) : Prop :=
  job.Ends S fun r => ∃ abort, r = .error abort

variable {R R' S : Except Abort ρ → Prop} {job : Job ρ}

/-- What a task is at after a turn, if all ends of its job are among `R`. -/
inductive Phase.Follows (S R : Except Abort ρ → Prop) : Phase ρ → Prop where
  | active {job : Job ρ} (h : job.Ends S R) : Follows S R (.active job)
  | starting {stages capacity input : Nat} {output : Output}
      {stage : Nat → Nat → Output → Job ρ} {next : Except Abort ρ → Job ρ}
      (hs : ∀ index input output, (stage index input output).Ends S S)
      (h : ∀ r, S r → (next r).Ends S R) :
      Follows S R (.starting stages capacity input output stage next)
  | ended {result : Except Abort ρ} (h : R result) : Follows S R (.ended result)

/-- **A turn keeps the ends of a job.** -/
theorem Job.Ends.advance (hj : job.Ends S R) (task : Nat) (w : World) :
    Phase.Follows S R (job.advance task w).2 := by
  induction hj generalizing w with
  | finish h => exact .ended h
  | fail h => exact .ended h
  | @read _ input wanted next h ih =>
    unfold Job.advance
    rcases w.read task input wanted with ⟨w', text | wanted⟩
    · exact ih _ w'
    · exact .active (.read h)
  | @write _ output text next h hr ih ihr =>
    unfold Job.advance
    rcases hw : w.write task output text with ⟨w', _ | abort | rest⟩
    · exact ih w'
    · exact ihr abort (World.refuses_of_write hw) w'
    · cases output with
      | sink index => exact ih w'
      | pipe pipe => exact .active (.send h hr)
  | @send _ pipe bytes next h hr ih ihr =>
    unfold Job.advance
    rcases hw : w.send task pipe bytes with ⟨w', _ | abort | rest⟩
    · exact ih w'
    · exact ihr abort (World.refuses_of_send hw) w'
    · exact .active (.send h hr)
  | @receive _ pipe size next h ih =>
    unfold Job.advance
    rcases w.receive task pipe size with ⟨w', _ | bytes⟩
    · exact .active (.receive h)
    · exact ih bytes w'
  | closeWrite _ ih => exact ih _
  | closeRead _ ih => exact ih _
  | @copy _ input output wanted number next h hr ih ihr =>
    unfold Job.advance
    rcases hc : w.copy task input output (w.stock input) wanted number with
      ⟨w', last | abort | ⟨left, last⟩ | ⟨pipe, rest, last⟩⟩
    · exact ih last w'
    · exact ihr abort (World.refuses_of_copy hc) w'
    · exact .active (.copy h hr)
    -- The copy goes on after the bytes, or has been refused in the middle of them.
    · obtain rfl := World.eq_pipe_of_copy hc
      exact .active (.send (.copy h hr) hr)
  | count _ ih => exact ih _ _
  | openSink _ ih => exact ih _ _
  | sinkText _ ih => exact ih _ _
  | pipeline hs h => exact .starting hs h

/-- Every job has ends of some kind. -/
theorem Job.ends_anyhow (job : Job ρ) : job.Ends (fun _ => True) fun _ => True := by
  induction job with
  | finish result => exact .finish trivial
  | fail abort => exact .fail trivial
  | read input wanted next ih => exact .read ih
  | write output text next ih => exact .write (ih none) fun abort _ => ih (some abort)
  | send pipe bytes next ih => exact .send (ih none) fun abort _ => ih (some abort)
  | receive pipe size next ih => exact .receive ih
  | closeWrite pipe next ih => exact .closeWrite ih
  | closeRead pipe next ih => exact .closeRead ih
  | copy input output wanted number next ih =>
    exact .copy (fun last => ih (.ok last)) fun abort _ => ih (.error abort)
  | count next ih => exact .count ih
  | openSink next ih => exact .openSink ih
  | sinkText index next ih => exact .sinkText ih
  | pipeline stages capacity input output stage next ihs ih =>
    exact .pipeline ihs fun r _ => ih r

end Shell
