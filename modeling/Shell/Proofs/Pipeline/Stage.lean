/-
A turn of a stage.

A stage reads the input and writes the output that it was given, and ends with a result; it goes on
in this way when nobody reads what it writes any more. `IsStage` says so of a job, whatever is
read and however long the stage goes on.

A turn of such a job is work, and then either its end or a wait (`stage_turn`). A stage waits for
nothing but bytes in the pipe that it reads from or room in the pipe that it writes to, and there
are none at that moment. The one thing to check is the copy, which is a loop: it does not
stop in any other way, because its input is apart from its output.
-/
import Shell.Scheduler
import Shell.Proofs.World.Copying

set_option autoImplicit false

namespace Shell

variable {ρ : Type}

/-! ## 1. Jobs of stages -/

/-- A job that reads one input, writes one output and sinks, and ends with a result. -/
inductive Job.IsStage (input : Nat) (output : Output) : Job ρ → Prop where
  | finish (result : ρ) : IsStage input output (.finish result)
  | read {wanted : Wanted} {next : String → Job ρ} (h : ∀ text, IsStage input output (next text)) :
      IsStage input output (.read input wanted next)
  /-- The write may find that nobody reads any more. -/
  | write {text : String} {next : Option Abort → Job ρ} (h : IsStage input output (next none))
      (hb : IsStage input output (next (some .brokenPipe))) :
      IsStage input output (.write output text next)
  | send {pipe : Nat} {bytes : List UInt8} {next : Option Abort → Job ρ}
      (ho : output = .pipe pipe) (h : IsStage input output (next none))
      (hb : IsStage input output (next (some .brokenPipe))) :
      IsStage input output (.send pipe bytes next)
  | note {sink : Nat} {text : String} {next : Option Abort → Job ρ}
      (h : IsStage input output (next none)) : IsStage input output (.write (.sink sink) text next)
  | copy {wanted : Wanted} {number : Option Nat} {next : Except Abort (Option Nat) → Job ρ}
      (h : ∀ last, IsStage input output (next (.ok last)))
      (hb : IsStage input output (next (.error .brokenPipe))) :
      IsStage input output (.copy input output wanted number next)
  | count {next : Nat → Job ρ} (h : ∀ n, IsStage input output (next n)) :
      IsStage input output (.count next)
  | openSink {next : Nat → Job ρ} (h : ∀ sink, IsStage input output (next sink)) :
      IsStage input output (.openSink next)
  | sinkText {sink : Nat} {next : String → Job ρ} (h : ∀ text, IsStage input output (next text)) :
      IsStage input output (.sinkText sink next)

namespace World

/-- An input reads from a pipe that is empty and open at both ends. -/
def Dry (w : World) (input : Nat) : Prop :=
  ∃ pipe, (w.input input).supply = .pipe pipe ∧ (w.channel pipe).pipe.isWaiting = true

/-- An output writes to a pipe that has no room and is open at both ends. -/
def Clogged (w : World) (output : Output) : Prop :=
  ∃ pipe, output = .pipe pipe ∧ (w.channel pipe).pipe.IsOpen ∧ (w.channel pipe).pipe.room = 0

/-- What a stage needs of the world: it does not read from the host, nobody has closed its output
for writing while it is still read, and it does not write into the pipe that it reads. -/
structure Suits (w : World) (input : Nat) (output : Output) : Prop where
  supply : (w.input input).supply ≠ .host
  writable : ∀ pipe, output = .pipe pipe → (w.channel pipe).pipe.writeClosed = true →
    (w.channel pipe).pipe.readClosed = true
  apart : w.Apart input output

variable {w w₁ w' : World} {task input : Nat} {output : Output}

theorem Suits.of_works (h : w.Suits input output) (hw : w.Works w') : w'.Suits input output where
  supply := by
    rw [hw.supply]
    exact h.supply
  writable := by
    intro pipe ho hc
    rw [hw.writeClosed] at hc
    rw [hw.readClosed]
    exact h.writable pipe ho hc
  apart := h.apart.of_works hw

/-- So a write is refused for one reason alone. -/
theorem Suits.refusal (h : w.Suits input output) {pipe : Nat} {abort : Abort}
    (ho : output = .pipe pipe) (hr : (w.channel pipe).pipe.refusal? = some abort) :
    abort = .brokenPipe := by
  have hw := h.writable pipe ho
  unfold Pipe.refusal? at hr
  split at hr
  · exact (Option.some.inj hr).symm
  · next hc =>
    split at hr
    · next hwc => exact absurd (hw hwc) hc
    · cases hr

/-! ## 2. Turns -/

/-- The ways a turn of a stage can go: it ends, or it waits for bytes or for room. -/
inductive StageTurn (w : World) (task input : Nat) (output : Output) : World × Phase ρ → Prop where
  | ends {w' : World} {result : ρ} (hw : w.Works w') :
      StageTurn w task input output (w', .ended (.ok result))
  | reads {w' : World} {pipe : Nat} {job : Job ρ} (hw : w.Works w')
      (hs : (w'.input input).supply = .pipe pipe)
      (he : (w'.channel pipe).pipe.isWaiting = true) (hj : job.IsStage input output) :
      StageTurn w task input output (w'.wait pipe task, .active job)
  | writes {w' : World} {pipe : Nat} {job : Job ρ} (hw : w.Works w') (ho : output = .pipe pipe)
      (hopen : (w'.channel pipe).pipe.IsOpen) (hf : (w'.channel pipe).pipe.room = 0)
      (hj : job.IsStage input output) :
      StageTurn w task input output (w'.wait pipe task, .active job)

/-- A turn that begins with work. -/
theorem StageTurn.prepend {r : World × Phase ρ} (hw : w.Works w₁)
    (h : w₁.StageTurn task input output r) : w.StageTurn task input output r := by
  cases h with
  | ends hw' => exact .ends (hw.trans hw')
  | reads hw' hs he hj => exact .reads (hw.trans hw') hs he hj
  | writes hw' ho hopen hf hj => exact .writes (hw.trans hw') ho hopen hf hj

/-- A turn that ends with a wait for bytes. -/
theorem StageTurn.of_waits {job : Job ρ} (hn : (w.input input).supply ≠ .host)
    (hs : w.Supplies task input (w', none)) (hj : job.IsStage input output) :
    w.StageTurn task input output (w', .active job) := by
  cases hs with
  | waits hw hp he => exact .reads hw hp he hj
  | host _ hh _ => exact absurd hh hn

end World

open World in
/-- **Every turn of a stage** is work and then its end or a wait. -/
theorem Job.IsStage.turn {job : Job ρ} {input : Nat} {output : Output}
    (hj : job.IsStage input output) {w : World} (task : Nat) (hs : w.Suits input output) :
    w.StageTurn task input output (job.advance task w) := by
  induction hj generalizing w with
  | finish result => exact .ends (.refl w)
  | @read wanted next h ih =>
    have hm := w.meets_read task input wanted
    unfold advance
    generalize w.read task input wanted = r at hm ⊢
    cases hm with
    | text hsup => exact .prepend hsup.works (ih _ (hs.of_works hsup.works))
    | waiting hsup => exact .of_waits hs.supply hsup (.read h)
  | @write text next h hb ih ihb =>
    have hwr := w.writes_write task output text
    unfold advance
    generalize w.write task output text = r at hwr ⊢
    cases hwr with
    | all hw _ _ => exact .prepend hw (ih (hs.of_works hw))
    | refused hr =>
      obtain rfl := hs.refusal rfl hr
      exact ihb hs
    | waits hw ho hf => exact .writes hw rfl ho hf (.send rfl h hb)
  | @send pipe bytes next ho h hb ih ihb =>
    have hwr := w.writes_send task pipe bytes
    unfold advance
    generalize w.send task pipe bytes = r at hwr ⊢
    cases hwr with
    | all hw _ _ => exact .prepend hw (ih (hs.of_works hw))
    | refused hr =>
      obtain rfl := hs.refusal ho hr
      exact ihb hs
    | waits hw hopen hf => exact .writes hw ho hopen hf (.send ho h hb)
  -- A sink takes everything, so the write is done at once.
  | @note sink text next h ih =>
    have hw := works_aside w (Nat.le_refl _) (w.sinks.modify sink fun texts => text :: texts)
    exact .prepend hw (ih (hs.of_works hw))
  | @copy wanted number next h hb ih ihb =>
    have hc := w.copies task input output (w.stock input) wanted number
    unfold advance
    generalize w.copy task input output (w.stock input) wanted number = r at hc ⊢
    obtain ⟨w₁, copied⟩ := r
    cases copied with
    | all last =>
      cases hc with
      | all hw => exact .prepend hw (ih _ (hs.of_works hw))
    | refused abort =>
      cases hc with
      -- The copy may have worked for a while before it was refused.
      | refused hw ho hr =>
        have hs₁ := hs.of_works hw
        obtain rfl := hs₁.refusal ho hr
        exact .prepend hw (ihb hs₁)
    -- The copy has stopped, and as the streams are apart it is for want of bytes.
    | reading left number => exact .of_waits hs.supply (hc.of_stock hs.apart) (.copy h hb)
    | writing pipe rest number =>
      cases hc with
      | writing hw ho hopen hf =>
        exact .writes hw ho hopen hf (.send ho (.copy h hb) hb)
  | @count next h ih =>
    have hw := works_aside w (Nat.le_succ _) w.sinks
    exact .prepend hw (ih _ (hs.of_works hw))
  | @openSink next h ih =>
    have hw := works_aside w (Nat.le_refl _) (w.sinks.push [])
    exact .prepend hw (ih _ (hs.of_works hw))
  | sinkText h ih => exact ih _ hs

end Shell
