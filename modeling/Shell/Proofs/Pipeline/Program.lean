/-
Programs of stages, and what a turn does to their prospects.

A program reads lines or everything to the end, writes texts, and may end with a status; what it
does depends on nothing but what it has read. The programs here are the states of one automaton:
`step` says what the program does next and what program it is then. It need not come to an end, so
what it makes of a text is told only so many operations ahead (`Act.run`).

A job plays a program if it reads and writes as the program says (`Job.Plays`). It may do a little
more, such as count and-or lists or write to other sinks, and it may fail at any time. A job comes
to an end where the program goes on for ever, and it fails there.

A stage that plays a program sees pieces, waits, and writes as much as there is room for. The
point is what does not change in its turns: what stands in its output, then what it has not sent
yet, then what the rest of its program makes of what is still to come. This is the `prospect` of
the stage, and a turn keeps it, unless the stage fails or finds that nobody reads its output
(`Does.turn`). The operations that it has got through need not be looked ahead any more
(`Deeper`).
-/
import Shell.Exec
import Shell.Proofs.Pipeline.Attention
import Shell.Proofs.World.Fetching

set_option autoImplicit false

namespace Shell

open Shell.Text

/-! ## 1. Programs -/

/-- What a program does next with the streams of a stage, and the program that is left. -/
inductive Act (σ : Type) where
  | finish (status : Nat)
  | read (request : Request) (next : List Char → σ)
  | write (text : List Char) (next : σ)

variable {σ : Type} {step : σ → Act σ} {f : Nat → Nat}

/-- What a program writes in so many operations, and its status, if this text is all that it can
read. -/
def Act.run (step : σ → Act σ) : (depth : Nat) → Act σ → List Char → List Char × Nat
  | 0, _, _ => ([], 0)
  | _ + 1, finish status, _ => ([], status)
  | depth + 1, read request next, text =>
    run step depth (step (next (request.split text).1)) (request.split text).2
  | depth + 1, write more next, text =>
    (more ++ (run step depth (step next) text).1, (run step depth (step next) text).2)

/-- A program reads line by line and writes each line behind its number, and goes on with `after`
at the end. The last number was `n` at `loop n`. -/
def Numbers (step : σ → Act σ) (loop after : Nat → Act σ) : Prop :=
  ∀ n, ∃ next : List Char → σ, loop n = .read .line next ∧ step (next []) = after n ∧
    ∀ line ≠ [], ∃ more, step more = loop (n + 1) ∧
      step (next line) = .write (numberedLine (n + 1) (String.ofList line)).toList more

/-- What is told depends on the bytes that are still to come, and on how many operations one looks
ahead. Whatever comes, the second is told so many operations ahead as the first is told a few more
operations ahead. -/
def Deeper {α : Type} (comes : List UInt8 → Prop) (told told' : List UInt8 → Nat → α) : Prop :=
  ∃ spent, ∀ bytes, comes bytes → ∀ depth, told bytes (depth + spent) = told' bytes depth

namespace Deeper

variable {α : Type} {comes : List UInt8 → Prop} {told told₁ told' : List UInt8 → Nat → α}

theorem of_eq (h : ∀ bytes, comes bytes → ∀ depth, told bytes depth = told' bytes depth) :
    Deeper comes told told' := ⟨0, h⟩

/-- One operation more. -/
theorem of_succ (h : ∀ bytes, comes bytes → ∀ depth, told bytes (depth + 1) = told' bytes depth) :
    Deeper comes told told' := ⟨1, h⟩

theorem refl (comes : List UInt8 → Prop) (told : List UInt8 → Nat → α) : Deeper comes told told :=
  .of_eq fun _ _ _ => rfl

theorem trans (h : Deeper comes told told₁) (h' : Deeper comes told₁ told') :
    Deeper comes told told' := by
  obtain ⟨n, hn⟩ := h
  obtain ⟨n', hn'⟩ := h'
  refine ⟨n' + n, fun bytes hb depth => ?_⟩
  rw [← Nat.add_assoc, hn bytes hb, hn' bytes hb]

end Deeper

/-! ## 2. Jobs that play programs -/

/-- A job reads and writes as a program says, and makes its status of that of the program by `f`.
Its output is not the sink `final` unless it is meant to be, and when it is told that nobody reads
any more it ends. -/
inductive Job.Plays (step : σ → Act σ) (f : Nat → Nat) (final input : Nat) (output : Output) :
    Job Ending → Act σ → Prop where
  | finish (status : Nat) (env : Environment) :
      Plays step f final input output (.finish ⟨.ok (f status), env⟩) (.finish status)
  /-- A limit has been reached, or the job fails for another reason. -/
  | fail (abort : Abort) (act : Act σ) : Plays step f final input output (.fail abort) act
  | read {request : Request} {next : String → Job Ending} {rest : List Char → σ}
      (hr : request ≠ .piece)
      (h : ∀ text, Plays step f final input output (next (String.ofList text)) (step (rest text))) :
      Plays step f final input output (.read input ⟨request, false, []⟩ next) (.read request rest)
  | write {text : String} {next : Option Abort → Job Ending} {rest : σ}
      (h : Plays step f final input output (next none) (step rest))
      (hb : ∃ ending, next (some .brokenPipe) = .finish ending) :
      Plays step f final input output (.write output text next) (.write text.toList rest)
  /-- To copy lines behind their numbers is a single operation of a job. -/
  | copy {number : Nat} {next : Except Abort (Option Nat) → Job Ending} {loop after : Nat → Act σ}
      (hl : Numbers step loop after)
      (h : ∀ n, Plays step f final input output (next (.ok (some n))) (after n))
      (hb : ∃ ending, next (.error .brokenPipe) = .finish ending) :
      Plays step f final input output (.copy input output ⟨.line, false, []⟩ (some number) next)
        (loop number)
  /-- What is written to another sink does not matter. -/
  | note {sink : Nat} {text : String} {next : Option Abort → Job Ending} {act : Act σ}
      (hs : sink ≠ final) (h : Plays step f final input output (next none) act) :
      Plays step f final input output (.write (.sink sink) text next) act
  | count {next : Nat → Job Ending} {act : Act σ}
      (h : ∀ n, Plays step f final input output (next n) act) :
      Plays step f final input output (.count next) act

namespace World

/-- What stands in an output, then these bytes, then this text: in bytes for a pipe and in
characters for a sink. -/
def outlook (w : World) (output : Output) (unsent : List UInt8) (text : List Char) :
    List UInt8 ⊕ List Char :=
  match output with
  | .pipe pipe => .inl ((w.channel pipe).pipe.buffer.toList ++ unsent ++ Utf8.encode text)
  | .sink sink => .inr ((w.sinkText sink).toList ++ text)

/-- What a stage will have made of its output in so many operations, and its status, if these bytes
are still to come into the pipe that it reads. -/
def prospect (w : World) (step : σ → Act σ) (input : Nat) (output : Output) (unsent : List UInt8)
    (act : Act σ) (bytes : List UInt8) (depth : Nat) : (List UInt8 ⊕ List Char) × Nat :=
  (w.outlook output unsent (act.run step depth (w.coming input bytes)).1,
    (act.run step depth (w.coming input bytes)).2)

end World

/-- What the job of a stage is at between its turns: at the beginning of a program, in a reading
or a copying that has to go on, or in a writing that has. -/
inductive Job.Does (step : σ → Act σ) (f : Nat → Nat) (w : World) (final input : Nat) (output : Output) :
    Job Ending → List UInt8 → Act σ → Prop where
  | plays {job : Job Ending} {act : Act σ} (h : job.Plays step f final input output act) :
      Does step f w final input output job [] act
  | reads {left : Wanted} {next : String → Job Ending} {rest : List Char → σ}
      (hr : left.request ≠ .piece) (hm : w.Minds input left)
      (h : ∀ text, (next (String.ofList (left.before.reverse.flatten ++ text))).Plays step f final
        input output (step (rest text))) :
      Does step f w final input output (.read input left next) [] (.read left.request rest)
  | copies {left : Wanted} {number : Nat} {next : Except Abort (Option Nat) → Job Ending}
      {loop after : Nat → Act σ} (hr : left.request = .line) (hm : w.Minds input left)
      (hl : Numbers step loop after)
      (h : ∀ n, (next (.ok (some n))).Plays step f final input output (after n))
      (hb : ∃ ending, next (.error .brokenPipe) = .finish ending) :
      Does step f w final input output (.copy input output left (some number) next) [] (loop number)
  | sends {pipe : Nat} {unsent : List UInt8} {next : Option Abort → Job Ending} {rest : σ}
      (ho : output = .pipe pipe) (h : (next none).Plays step f final input output (step rest))
      (hb : ∃ ending, next (some .brokenPipe) = .finish ending) :
      Does step f w final input output (.send pipe unsent next) unsent (step rest)

/-- This depends on the input alone. -/
theorem Job.Does.congr {w w' : World} {final input : Nat} {output : Output} {job : Job Ending}
    {unsent : List UInt8} {act : Act σ} (h : job.Does step f w final input output unsent act)
    (hi : w'.input input = w.input input) : job.Does step f w' final input output unsent act := by
  have hminds {left : Wanted} (hm : w.Minds input left) : w'.Minds input left := by
    unfold World.Minds
    rw [hi]
    exact hm
  cases h with
  | plays h => exact .plays h
  | reads hr hm h => exact .reads hr (hminds hm) h
  | copies hr hm hl h hb => exact .copies hr (hminds hm) hl h hb
  | sends ho h hb => exact .sends ho h hb

/-! ## 3. What a turn may touch -/

namespace World

/-- A stage can go on with its streams: whatever comes, it can read its input to the end; it does
not write where it reads, its output is closed only if nobody reads it, and its sink is there. -/
structure Ready (w : World) (final input : Nat) (output : Output) (comes : List UInt8 → Prop) :
    Prop where
  nothing : comes []
  readable : ∀ bytes, comes bytes → w.Readable input bytes
  apart : ∀ pipe, output = .pipe pipe → (w.input input).supply ≠ .pipe pipe
  known : ∀ pipe, output = .pipe pipe → pipe < w.channels.size
  writable : ∀ pipe, output = .pipe pipe → (w.channel pipe).pipe.writeClosed = true →
    (w.channel pipe).pipe.readClosed = true
  sink : ∀ sink, output = .sink sink → sink = final ∧ sink < w.sinks.size

/-- What changes in a turn of a stage: its input, the pipes on both sides, and sinks, but of these
not the last one unless it is the output. -/
structure Steps (w : World) (final input : Nat) (output : Output) (w' : World) : Prop where
  alike : w.Alike w'
  wakes : w.Wakes w'
  inputs : ∀ i ≠ input, w'.input i = w.input i
  pipes : ∀ c, (w.input input).supply ≠ .pipe c → output ≠ .pipe c →
    (w'.channel c).pipe = (w.channel c).pipe
  sinks : w'.sinks.size = w.sinks.size
  final : output ≠ .sink final → w'.sinkText final = w.sinkText final

variable {w w₁ w' : World} {final input task : Nat} {output : Output} {bytes : List UInt8}
  {comes : List UInt8 → Prop}

theorem Steps.refl (w : World) (final input : Nat) (output : Output) :
    w.Steps final input output w :=
  ⟨alike_aside rfl rfl, (Works.refl w).wakes, fun _ _ => rfl, fun _ _ _ => rfl, rfl, fun _ => rfl⟩

theorem Steps.trans (h : w.Steps final input output w₁) (h' : w₁.Steps final input output w') :
    w.Steps final input output w' where
  alike := h.alike.trans h'.alike
  wakes := h.wakes.trans h'.wakes
  inputs := fun i hi => (h'.inputs i hi).trans (h.inputs i hi)
  pipes := by
    intro c hs ho
    refine (h'.pipes c ?_ ho).trans (h.pipes c hs ho)
    rw [h.alike.supply]
    exact hs
  sinks := h'.sinks.trans h.sinks
  final := fun ho => (h'.final ho).trans (h.final ho)

theorem steps_wait (w : World) (final input : Nat) (output : Output) (pipe task : Nat) :
    w.Steps final input output (w.wait pipe task) :=
  ⟨w.alike_wait pipe task, w.wakes_wait pipe task, fun _ _ => rfl,
    fun c _ _ => w.pipe_wait pipe task c, rfl, fun _ => rfl⟩

theorem Ready.of_steps (h : w.Ready final input output comes)
    (hs : w.Steps final input output w') (hr : ∀ bytes, comes bytes → w'.Readable input bytes) :
    w'.Ready final input output comes where
  nothing := h.nothing
  readable := hr
  apart := by
    intro pipe ho
    rw [hs.alike.supply]
    exact h.apart pipe ho
  known := by
    intro pipe ho
    rw [hs.alike.channels]
    exact h.known pipe ho
  writable := by
    intro pipe ho
    rw [hs.alike.writeClosed, hs.alike.readClosed]
    exact h.writable pipe ho
  sink := by
    intro sink ho
    rw [hs.sinks]
    exact h.sink sink ho

/-- An input stays readable while other things change. -/
theorem Readable.congr {index : Nat} (h : w.Readable index bytes)
    (hi : w'.input index = w.input index) (hn : w'.inputs.size = w.inputs.size)
    (hc : w'.channels.size = w.channels.size)
    (hp : ∀ c, (w.input index).supply = .pipe c → (w'.channel c).pipe = (w.channel c).pipe) :
    w'.Readable index bytes := by
  refine ⟨?_, ?_, ?_, ?_, ?_, ?_⟩
  · rw [hn]
    exact h.known
  · rw [hi]
    exact h.tidy
  · rw [hi]
    exact h.filled
  · rw [hi]
    exact h.supply
  · intro c hs
    rw [hi] at hs
    rw [hp c hs, hc]
    exact h.channel c hs
  · intro c decoder hs
    rw [hi] at hs
    rw [hp c (by rw [Input.supply, hs])]
    exact h.ended c decoder hs

/-! ## 4. Turns -/

/-- The ways a turn of a stage can go, if this is its prospect: it ends and has fulfilled it; or it
ends because nobody reads its output; or it fails; or it waits with the same prospect. -/
inductive ProgramTurn (step : σ → Act σ) (f : Nat → Nat) (w : World) (final input : Nat) (output : Output)
    (comes : List UInt8 → Prop) (prospect : List UInt8 → Nat → (List UInt8 ⊕ List Char) × Nat) :
    World × Phase Ending → Prop where
  | ends {w' : World} {status : Nat} {env : Environment} (hs : w.Steps final input output w')
      (hp : Deeper comes prospect fun _ _ => (w'.outlook output [] [], status)) :
      ProgramTurn step f w final input output comes prospect (w', .ended (.ok ⟨.ok (f status), env⟩))
  | broken {w' : World} {ending : Ending} {pipe : Nat} (hs : w.Steps final input output w')
      (ho : output = .pipe pipe) (hb : (w'.channel pipe).pipe.readClosed = true) :
      ProgramTurn step f w final input output comes prospect (w', .ended (.ok ending))
  | fails {w' : World} {abort : Abort} :
      ProgramTurn step f w final input output comes prospect (w', .ended (.error abort))
  | waits {w' : World} {job : Job Ending} {unsent : List UInt8} {act : Act σ}
      (hs : w.Steps final input output w') (hr : w'.Readable input [])
      (hd : job.Does step f w' final input output unsent act)
      (hp : Deeper comes prospect (w'.prospect step input output unsent act)) :
      ProgramTurn step f w final input output comes prospect (w', .active job)

variable {prospect prospect' : List UInt8 → Nat → (List UInt8 ⊕ List Char) × Nat}
  {unsent : List UInt8}

/-- A turn that begins with a part of the work. -/
theorem ProgramTurn.prepend {r : World × Phase Ending}
    (h : w₁.ProgramTurn step f final input output comes prospect' r)
    (hs : w.Steps final input output w₁) (hp : Deeper comes prospect prospect') :
    w.ProgramTurn step f final input output comes prospect r := by
  cases h with
  | ends hs' hp' => exact .ends (hs.trans hs') (hp.trans hp')
  | broken hs' ho hb => exact .broken (hs.trans hs') ho hb
  | fails => exact .fails
  | waits hs' hr hd hp' => exact .waits (hs.trans hs') hr hd (hp.trans hp')

/-! ### Reading -/

/-- A reading touches nothing but the input and its pipe. -/
theorem Reads.steps (h : w.Reads input w') (ha : w.Alike w') (hw : w.Wakes w') :
    w.Steps final input output w' where
  alike := ha
  wakes := hw
  inputs := h.inputs
  pipes := fun c hs _ => h.pipes c hs
  sinks := congrArg Array.size h.sinks
  final := fun _ => by rw [sinkText, h.sinks, sinkText]

/-- What a reading does to those who wait: they are woken, and the reader may wait now. -/
theorem Meets.wakes {done : List (List Char)} {r : World × Got} (h : w.Meets task input done r)
    (hh : (w.input input).supply ≠ .host) : w.Alike r.1 ∧ w.Wakes r.1 := by
  cases h with
  | text hs => exact ⟨hs.works.toAlike, hs.works.wakes⟩
  | waiting hs =>
    cases hs with
    | @waits w₁ pipe hw _ _ =>
      exact ⟨hw.toAlike.trans (w₁.alike_wait pipe task), hw.wakes.trans (w₁.wakes_wait pipe task)⟩
    | host _ hs _ => exact absurd hs hh

/-- The output stays as it is while a stage reads. -/
theorem Ready.outlook_reads (h : w.Ready final input output comes) (hr : w.Reads input w')
    (text : List Char) : w'.outlook output unsent text = w.outlook output unsent text := by
  cases output with
  | pipe pipe => rw [outlook, outlook, hr.pipes pipe (h.apart pipe rfl)]
  | sink sink => rw [outlook, outlook, sinkText, hr.sinks, sinkText]

/-- What is read does not depend on what comes. -/
theorem Ready.fetched {left : Wanted} {text : List Char} (hw : w.Ready final input output comes)
    (hf : ∀ bytes, comes bytes → w.Fetches input bytes left (w', .text text)) :
    ∃ more, text = left.before.reverse.flatten ++ more ∧ ∀ bytes, comes bytes →
      w.Gives input bytes more w' ∧ (left.request.split (w.coming input bytes)).1 = more := by
  cases hf [] hw.nothing with
  | text _ _ =>
    refine ⟨_, rfl, fun bytes hb => ?_⟩
    have hf' := hf bytes hb
    generalize (left.request.split (w.coming input [])).1 = more at hf' ⊢
    generalize ht : left.before.reverse.flatten ++ more = text at hf'
    cases hf' with
    | text hg _ =>
      obtain rfl := List.append_cancel_left ht
      exact ⟨hg, rfl⟩

/-- Nor does what has been read of it when the stage waits. -/
theorem Ready.fetching {left left' : Wanted} (hw : w.Ready final input output comes)
    (hf : ∀ bytes, comes bytes → w.Fetches input bytes left (w', .waiting left')) :
    left'.request = left.request ∧ w'.Minds input left' ∧
      ∃ more, left'.before.reverse.flatten = left.before.reverse.flatten ++ more ∧
        ∀ bytes, comes bytes → w.Gives input bytes more w' ∧
          (left.request.split (w.coming input bytes)).1 =
            more ++ (left.request.split (w'.coming input bytes)).1 := by
  cases hf [] hw.nothing with
  | @waiting _ _ more _ hr hb _ _ hm =>
    refine ⟨hr, hm, more, hb, fun bytes hcomes => ?_⟩
    cases hf bytes hcomes with
    | waiting hg _ hb' hs _ _ =>
      obtain rfl := List.append_cancel_left (hb.symm.trans hb')
      exact ⟨hg, hs⟩

/-- **A turn that begins with a reading.** What is read is what the program reads of all that is to
come; `goOn` is what comes then, and `stay` what is left to do when the stage has to wait. -/
theorem turn_read {left : Wanted} {rest : List Char → σ}
    (goOn : World → List Char → World × Phase Ending) (stay : Wanted → Job Ending)
    (hw : w.Ready final input output comes) (hr : left.request ≠ .piece)
    (hm : w.Minds input left)
    (hstay : ∀ w₁ left' text, left'.request = left.request → w₁.Minds input left' →
      left'.before.reverse.flatten = left.before.reverse.flatten ++ text →
      (stay left').Does step f w₁ final input output []
        (.read left'.request fun more => rest (text ++ more)))
    (hnext : ∀ text (w₁ : World), w₁.Ready final input output comes →
      w₁.ProgramTurn step f final input output comes
        (w₁.prospect step input output [] (step (rest text)))
        (goOn w₁ (left.before.reverse.flatten ++ text))) :
    w.ProgramTurn step f final input output comes
      (w.prospect step input output [] (.read left.request rest))
      (match w.read task input left with
      | (w, .text text) => goOn w text
      | (w, .waiting left) => (w, .active (stay left))) := by
  have hfetch (bytes : List UInt8) (hb : comes bytes) :=
    fetches_read task (hw.readable bytes hb).legible
      (fun _ => unasked_of_supply (hw.readable bytes hb).supply) hm hr
  have hmeets :=
    (w.meets_read task input left).wakes (hw.readable [] hw.nothing).supply
  generalize w.read task input left = r at hfetch hmeets ⊢
  rcases r with ⟨w₁, text | left'⟩
  · obtain ⟨more, rfl, hread⟩ := hw.fetched hfetch
    have hreads : w.Reads input w₁ := (hread [] hw.nothing).1.reads
    have hs : w.Steps final input output w₁ := hreads.steps hmeets.1 hmeets.2
    have hready := hw.of_steps hs fun bytes hb =>
      (hread bytes hb).1.readable (hw.readable bytes hb).supply
    refine (hnext more w₁ hready).prepend hs (.of_succ fun bytes hb depth => ?_)
    obtain ⟨hg, hsplit⟩ := hread bytes hb
    have happend := left.request.split_append (w.coming input bytes)
    rw [hsplit] at happend
    have hrest : (left.request.split (w.coming input bytes)).2 = w₁.coming input bytes :=
      List.append_cancel_left (happend.trans hg.coming)
    simp only [World.prospect, Act.run, hsplit, hrest, hw.outlook_reads hreads]
  · obtain ⟨hreq, hm', more, hb, hread⟩ := hw.fetching hfetch
    have hreads : w.Reads input w₁ := (hread [] hw.nothing).1.reads
    have hs : w.Steps final input output w₁ := hreads.steps hmeets.1 hmeets.2
    have hleft : w₁.Readable input [] :=
      (hread [] hw.nothing).1.readable (hw.readable [] hw.nothing).supply
    refine .waits hs hleft (hstay w₁ left' more hreq hm' hb)
      (.of_eq fun bytes hbytes depth => ?_)
    obtain ⟨hg, hsplit⟩ := hread bytes hbytes
    -- What has been read of it already stays in front of what is still wanted.
    have hrest := Request.split_snd hg.coming hsplit
    cases depth with
    | zero => simp only [World.prospect, Act.run, hw.outlook_reads hreads]
    | succ depth =>
      simp only [World.prospect, Act.run, hreq, hsplit, hrest, hw.outlook_reads hreads]

/-! ### Writing -/

/-- The pipe on the right has taken in bytes. -/
theorem steps_put (w : World) (final input : Nat) {pipe : Nat} (ho : output = .pipe pipe)
    (sent : List UInt8) : w.Steps final input output (w.put pipe sent) where
  alike := (works_put w pipe sent).toAlike
  wakes := (works_put w pipe sent).wakes
  inputs := by
    intro i _
    rw [World.input, put, inputs_change]
    rfl
  pipes := by
    intro c _ hc
    refine congrArg Channel.pipe (channel_change_of_ne _ ?_)
    rintro rfl
    exact hc ho
  sinks := congrArg Array.size (sinks_change _)
  final := fun _ => by rw [sinkText, put, sinks_change, sinkText]

/-- What is still to come to the stage does not depend on what it writes. -/
theorem Ready.untouched (hw : w.Ready final input output comes)
    (hi : w'.input input = w.input input) (hn : w'.inputs.size = w.inputs.size)
    (hc : w'.channels.size = w.channels.size)
    (hp : ∀ c, output ≠ .pipe c → (w'.channel c).pipe = (w.channel c).pipe) (hb : comes bytes) :
    w'.Readable input bytes ∧ w'.coming input bytes = w.coming input bytes := by
  have hpipe (c : Nat) (hs : (w.input input).supply = .pipe c) :
      (w'.channel c).pipe = (w.channel c).pipe := hp c fun ho => hw.apart c ho hs
  exact ⟨(hw.readable bytes hb).congr hi hn hc hpipe,
    coming_congr hi (fun c hs => congrArg Pipe.buffer (hpipe c hs)) bytes⟩

theorem Ready.untouched_put (hw : w.Ready final input output comes) {pipe : Nat}
    (ho : output = .pipe pipe) (sent : List UInt8) (hb : comes bytes) :
    (w.put pipe sent).Readable input bytes ∧
      (w.put pipe sent).coming input bytes = w.coming input bytes := by
  refine hw.untouched ?_ ?_ (size_change _) (fun c hc => ?_) hb
  · rw [World.input, put, inputs_change]
    rfl
  · rw [put, inputs_change]
  · refine congrArg Channel.pipe (channel_change_of_ne _ ?_)
    rintro rfl
    exact hc ho

/-- What has gone into the pipe stands there in front of what has not. -/
theorem Ready.outlook_put (hw : w.Ready final input output comes) {pipe : Nat}
    (ho : output = .pipe pipe) (sent : List UInt8) (text : List Char) :
    (w.put pipe sent).outlook output (sent.drop (w.channel pipe).pipe.room) text =
      w.outlook output sent text := by
  subst ho
  have hlt := hw.known pipe rfl
  simp only [outlook, put, pipe_change_self _ hlt, Pipe.toList_accept]
  rw [List.append_assoc _ (sent.take _), List.take_append_drop]

theorem Ready.refused (hw : w.Ready final input output comes) {pipe : Nat} {abort : Abort}
    (ho : output = .pipe pipe) (hr : (w.channel pipe).pipe.refusal? = some abort) :
    abort = .brokenPipe ∧ (w.channel pipe).pipe.readClosed = true := by
  have hclosed := hw.writable pipe ho
  unfold Pipe.refusal? at hr
  split at hr
  · next hc => exact ⟨(Option.some.inj hr).symm, hc⟩
  · next hc =>
    split at hr
    · next hwc => exact absurd (hclosed hwc) hc
    · cases hr

/-- A stage waits with what it has not sent yet. -/
theorem Ready.waits_sends (hw : w.Ready final input output comes) {pipe : Nat} {job : Job Ending}
    {rest : σ} (ho : output = .pipe pipe)
    (hd : job.Does step f (w.wait pipe task) final input output unsent (step rest)) :
    w.ProgramTurn step f final input output comes
      (w.prospect step input output unsent (step rest)) (w.wait pipe task, .active job) := by
  have huntouched {bytes : List UInt8} (hb : comes bytes) :
      (w.wait pipe task).Readable input bytes ∧
        (w.wait pipe task).coming input bytes = w.coming input bytes :=
    hw.untouched rfl rfl (w.size_wait pipe task) (fun c _ => w.pipe_wait pipe task c) hb
  refine .waits (w.steps_wait final input output pipe task) (huntouched hw.nothing).1 hd
    (.of_eq fun bytes hb depth => ?_)
  obtain ⟨-, hcoming⟩ := huntouched hb
  subst ho
  simp only [World.prospect, outlook, hcoming, pipe_wait]

/-- **A turn that begins with a sending.** -/
theorem turn_send {pipe : Nat} {rest : σ} (goOn : World → World × Phase Ending)
    (stop : World → Abort → World × Phase Ending) (stay : List UInt8 → Job Ending)
    (hw : w.Ready final input output comes) (ho : output = .pipe pipe)
    (hstay : ∀ w₁ unsent, (stay unsent).Does step f w₁ final input output unsent (step rest))
    (hstop : ∀ w₁, ∃ ending, stop w₁ .brokenPipe = (w₁, .ended (.ok ending)))
    (hnext : ∀ w₁ : World, w₁.Ready final input output comes →
      w₁.ProgramTurn step f final input output comes
        (w₁.prospect step input output [] (step rest)) (goOn w₁)) :
    w.ProgramTurn step f final input output comes
      (w.prospect step input output unsent (step rest))
      (match w.send task pipe unsent with
      | (w, .all) => goOn w
      | (w, .refused abort) => stop w abort
      | (w, .waiting left) => (w, .active (stay left))) := by
  have hsend := w.sends task pipe unsent
  have huntouched {bytes : List UInt8} (hb : comes bytes) := hw.untouched_put ho unsent hb
  have hsteps := w.steps_put final input ho unsent
  have hput := hw.of_steps hsteps fun bytes hb => (huntouched hb).1
  -- Bytes that have come to the pipe no longer count as unsent, and the prospect is the same.
  have hprospect : Deeper comes (w.prospect step input output unsent (step rest))
      ((w.put pipe unsent).prospect step input output (unsent.drop (w.channel pipe).pipe.room)
        (step rest)) := by
    refine .of_eq fun bytes hb depth => ?_
    rw [World.prospect, World.prospect, (huntouched hb).2, hw.outlook_put ho]
  generalize w.send task pipe unsent = r at hsend ⊢
  -- All bytes are sent, or the reader has gone, or some bytes stay for the next turn.
  cases hsend with
  | nothing => exact hnext w hw
  | refused _ hr =>
    obtain ⟨rfl, hclosed⟩ := hw.refused ho hr
    obtain ⟨ending, he⟩ := hstop w
    simp only [he]
    exact .broken (.refl w final input output) ho hclosed
  | full _ _ _ => exact hw.waits_sends ho (hstay _ _)
  | whole _ _ _ hd =>
    rw [hd] at hprospect
    exact (hnext _ hput).prepend hsteps hprospect
  | part _ _ _ => exact (hput.waits_sends ho (hstay _ _)).prepend hsteps hprospect

/-! ### Sinks -/

theorem sinkText_writeSink_self {sink : Nat} (text : String) (h : sink < w.sinks.size) :
    (w.writeSink sink text).sinkText sink = w.sinkText sink ++ text := by
  simp only [sinkText, writeSink, Array.getD_eq_getD_getElem?]
  rw [Array.getElem?_modify, if_pos rfl, Array.getElem?_eq_getElem h]
  -- The texts are kept with the last one first.
  simp only [Option.map_some, Option.getD_some]
  rw [List.reverse_cons, String.join_append]
  simp

theorem sinkText_writeSink_of_ne {sink i : Nat} (text : String) (h : i ≠ sink) :
    (w.writeSink sink text).sinkText i = w.sinkText i := by
  simp only [sinkText, writeSink, Array.getD_eq_getD_getElem?]
  rw [Array.getElem?_modify, if_neg (Ne.symm h)]

theorem steps_writeSink (w : World) {final sink : Nat} (input : Nat) (output : Output)
    (text : String) (h : sink = final → output = .sink final) :
    w.Steps final input output (w.writeSink sink text) where
  alike := alike_aside rfl rfl
  wakes := ⟨rfl, [], (List.append_nil _).symm⟩
  inputs := fun _ _ => rfl
  pipes := fun _ _ _ => rfl
  sinks := Array.size_modify ..
  final := by
    intro ho
    exact sinkText_writeSink_of_ne text fun he => ho (h he.symm)

/-- A sink takes a text at once. -/
theorem Ready.turn_writeSink {sink : Nat} {text : String} {rest : σ}
    {r : World × Phase Ending} (hw : w.Ready final input (.sink sink) comes)
    (h : (w.writeSink sink text).Ready final input (.sink sink) comes →
      (w.writeSink sink text).ProgramTurn step f final input (.sink sink) comes
        ((w.writeSink sink text).prospect step input (.sink sink) [] (step rest)) r) :
    w.ProgramTurn step f final input (.sink sink) comes
      (w.prospect step input (.sink sink) [] (.write text.toList rest)) r := by
  obtain ⟨rfl, hlt⟩ := hw.sink sink rfl
  have hs : w.Steps sink input (.sink sink) (w.writeSink sink text) :=
    w.steps_writeSink input (.sink sink) text fun _ => rfl
  have hready := hw.of_steps hs fun bytes hb =>
    (hw.readable bytes hb).congr rfl rfl rfl fun _ _ => rfl
  refine (h hready).prepend hs (.of_succ fun bytes _ depth => ?_)
  simp only [World.prospect, outlook, Act.run, sinkText_writeSink_self text hlt,
    String.toList_append, List.append_assoc]
  rfl

/-- A text that is to be written to a pipe is to be sent. -/
theorem deeper_write (w : World) (step : σ → Act σ) (input pipe : Nat) (text : List Char)
    (rest : σ) (comes : List UInt8 → Prop) :
    Deeper comes (w.prospect step input (.pipe pipe) [] (.write text rest))
      (w.prospect step input (.pipe pipe) (Utf8.encode text) (step rest)) := by
  refine .of_succ fun bytes _ depth => ?_
  simp only [prospect, outlook, Act.run, Utf8.encode, List.flatMap_append, List.append_nil,
    List.append_assoc]

/-- What comes of a writing in a turn. A sink takes everything at once, so `any` does not matter. -/
def afterWrite (output : Output) (goOn any : World → World × Phase Ending)
    (stop : World → Abort → World × Phase Ending) (stay : Nat → List UInt8 → Job Ending) :
    World × Sent → World × Phase Ending
  | (w, .all) => goOn w
  | (w, .refused abort) => stop w abort
  | (w, .waiting left) =>
    match output with
    | .pipe pipe => (w, .active (stay pipe left))
    | .sink _ => any w

/-- **A turn that begins with a writing.** -/
theorem turn_write {text : String} {rest : σ} (goOn any : World → World × Phase Ending)
    (stop : World → Abort → World × Phase Ending) (stay : Nat → List UInt8 → Job Ending)
    (hw : w.Ready final input output comes)
    (hstay : ∀ w₁ pipe unsent, output = .pipe pipe →
      (stay pipe unsent).Does step f w₁ final input output unsent (step rest))
    (hstop : ∀ w₁, ∃ ending, stop w₁ .brokenPipe = (w₁, .ended (.ok ending)))
    (hnext : ∀ w₁ : World, w₁.Ready final input output comes →
      w₁.ProgramTurn step f final input output comes
        (w₁.prospect step input output [] (step rest)) (goOn w₁)) :
    w.ProgramTurn step f final input output comes
      (w.prospect step input output [] (.write text.toList rest))
      (afterWrite output goOn any stop stay (w.write task output text)) := by
  cases output with
  | sink sink => exact hw.turn_writeSink (hnext _)
  | pipe pipe =>
    refine ProgramTurn.prepend ?_ (.refl w final input _) (w.deeper_write step _ _ _ _ _)
    exact turn_send goOn stop (stay pipe) hw rfl (fun w₁ unsent => hstay w₁ pipe unsent rfl) hstop
      hnext

/-! ### Copying -/

/-- What comes of a copying in a turn. -/
def afterCopy (task input : Nat) (output : Output) (next : Except Abort (Option Nat) → Job Ending)
    (request : Request) (r : World × Copied) : World × Phase Ending :=
  match Job.copied input output next request r.2 with
  | .inl job => (r.1, .active job)
  | .inr result => (next result).advance task r.1

theorem advance_copy (w : World) (task input : Nat) (output : Output) (left : Wanted)
    (number : Option Nat) (next : Except Abort (Option Nat) → Job Ending) :
    (Job.copy input output left number next).advance task w =
      afterCopy task input output next left.request
        (w.copy task input output (w.stock input) left number) := by
  rw [Job.advance]
  rcases w.copy task input output (w.stock input) left number with ⟨w₁, copied⟩
  simp only [afterCopy]
  cases Job.copied input output next left.request copied <;> rfl

/-- A copying goes on after the next line, or stays with what it has to wait for. -/
theorem afterCopy_succ (w : World) (task input : Nat) (output : Output) (turns number : Nat)
    (next : Except Abort (Option Nat) → Job Ending) (left : Wanted) :
    afterCopy task input output next left.request
        (w.copy task input output (turns + 1) left (some number)) =
      match w.read task input left with
      | (w, .text text) =>
        match text with
        | [] => (next (.ok (some number))).advance task w
        | c :: cs =>
          afterWrite output
            (fun w => afterCopy task input output next left.request
              (w.copy task input output turns ⟨left.request, false, []⟩ (some (number + 1))))
            (fun w => (next (.ok (some (number + 1)))).advance task w)
            (fun w abort => (next (.error abort)).advance task w)
            (fun pipe unsent => .send pipe unsent fun
              | none => .copy input output ⟨left.request, false, []⟩ (some (number + 1)) next
              | some abort => next (.error abort))
            (w.write task output (numberedLine (number + 1) (String.ofList (c :: cs))))
      | (w, .waiting left) => (w, .active (.copy input output left (some number) next)) := by
  rw [copy]
  -- One round of the copying: a read, and a write if there was something to read.
  rcases w.read task input left with ⟨w₁, text | left'⟩
  · cases text with
    | nil => rfl
    | cons c cs =>
      simp only
      rcases w₁.write task output _ with ⟨w₂, _ | abort | rest⟩
      · rfl
      · rfl
      · cases output <;> rfl
  · rfl

/-- **A turn that copies** reads line by line and writes each line behind its number. -/
theorem turn_copy {next : Except Abort (Option Nat) → Job Ending} {loop after : Nat → Act σ}
    (hl : Numbers step loop after)
    (h : ∀ n, (next (.ok (some n))).Plays step f final input output (after n))
    (hb : ∃ ending, next (.error .brokenPipe) = .finish ending)
    (hnext : ∀ n (w₁ : World), w₁.Ready final input output comes →
      w₁.ProgramTurn step f final input output comes
        (w₁.prospect step input output [] (after n))
        ((next (.ok (some n))).advance task w₁))
    (turns number : Nat) {left : Wanted} (hw : w.Ready final input output comes)
    (hr : left.request = .line) (hm : w.Minds input left) :
    w.ProgramTurn step f final input output comes
      (w.prospect step input output [] (loop number))
      (afterCopy task input output next left.request
        (w.copy task input output turns left (some number))) := by
  induction turns generalizing w left number with
  | zero =>
    exact .waits (.refl w final input output) (hw.readable [] hw.nothing)
      (.copies hr hm hl h hb) (.refl _ _)
  | succ turns ih =>
    obtain ⟨rest, hloop, hend, hline⟩ := hl number
    rw [← hr] at hloop
    have hbefore : left.before = [] := by
      rw [Wanted.before, hr]
    rw [afterCopy_succ, hloop]
    refine turn_read _ (fun left' => .copy input output left' (some number) next) hw ?_ hm ?_ ?_
    · rw [hr]
      exact fun he => by cases he
    · intro w₁ left' text hreq hm' hb'
      have hr' : left'.request = .line := hreq.trans hr
      have hbefore' : left'.before = [] := by
        rw [Wanted.before, hr']
      -- A reader of lines keeps what it has seen in the input.
      rw [hbefore, hbefore'] at hb'
      obtain rfl : [] = text := hb'
      have hdoes : (Job.copy input output left' (some number) next).Does step f w₁ final input output
          [] (loop number) := .copies hr' hm' hl h hb
      rw [hloop, ← hreq] at hdoes
      exact hdoes
    · intro text w₁ hw₁
      rw [hbefore]
      cases text with
      | nil =>
        rw [hend]
        exact hnext number w₁ hw₁
      | cons c cs =>
        obtain ⟨more, hmore, hwrite⟩ := hline (c :: cs) (List.cons_ne_nil c cs)
        rw [hwrite]
        have hmind (w₂ : World) : w₂.Minds input ⟨left.request, false, []⟩ := fun he => by cases he
        refine turn_write _ _ _ _ hw₁ (fun w₂ pipe unsent ho => .sends ho ?_ ?_) (fun w₂ => ?_)
          fun w₂ hw₂ => ?_
        · rw [hmore, hr]
          exact .copy hl h hb
        · exact hb
        · obtain ⟨ending, he⟩ := hb
          exact ⟨ending, by rw [he]; rfl⟩
        · rw [hmore]
          exact ih (number + 1) hw₂ hr (hmind w₂)

end World

/-! ### Jobs -/

theorem Wanted.before_nil (request : Request) (inside : Bool) :
    (⟨request, inside, []⟩ : Wanted).before = [] := by
  cases request <;> rfl

section

variable {final input : Nat} {output : Output} {job : Job Ending} {act : Act σ}
  {unsent : List UInt8} {comes : List UInt8 → Prop} {w : World}

open World

/-- The end of a job that is told that nobody reads any more. -/
theorem Job.advance_of_finish {job : Job Ending} (h : ∃ ending, job = .finish ending) (task : Nat)
    (w : World) : ∃ ending, job.advance task w = (w, .ended (.ok ending)) := by
  obtain ⟨ending, rfl⟩ := h
  exact ⟨ending, rfl⟩

/-- **A turn of a job that plays a program keeps its prospect.** -/
theorem Job.Plays.turn (h : job.Plays step f final input output act) (task : Nat)
    (hw : w.Ready final input output comes) :
    w.ProgramTurn step f final input output comes (w.prospect step input output [] act)
      (job.advance task w) := by
  -- On the program that the job plays. Jobs that wait end the turn, and the other ones go on with what follows.
  induction h generalizing w with
  | finish status env =>
    refine .ends (.refl w final input output) (.of_succ fun bytes _ depth => ?_)
    rfl
  | fail abort act => exact .fails
  | @read request next rest hr h ih =>
    have hm : w.Minds input ⟨request, false, []⟩ := fun he => by cases he
    rw [Job.advance]
    refine turn_read (fun w text => (next (String.ofList text)).advance task w)
      (fun left => .read input left next) hw hr hm (fun w₁ left text hreq hm' hb => ?_)
      fun text w₁ hw₁ => ?_
    · rw [Wanted.before_nil] at hb
      refine .reads (hreq ▸ hr) hm' fun more => ?_
      rw [hb]
      exact h (text ++ more)
    · rw [Wanted.before_nil]
      exact ih text hw₁
  | @write text next rest h hb ih =>
    rw [Job.advance]
    exact turn_write (fun w => (next none).advance task w) (fun w => (next none).advance task w)
      (fun w abort => (next (some abort)).advance task w) (fun pipe unsent => .send pipe unsent next)
      hw (fun w₁ pipe unsent ho => .sends ho h hb) (fun w₁ => advance_of_finish hb task w₁)
      fun w₁ hw₁ => ih hw₁
  | @copy number next loop after hl h hb ih =>
    have hm : w.Minds input ⟨.line, false, []⟩ := fun he => by cases he
    rw [advance_copy]
    exact turn_copy hl h hb (fun n w₁ hw₁ => ih n hw₁) (w.stock input) number hw rfl hm
  | @note sink text next act hs h ih =>
    have hsteps := w.steps_writeSink input output text fun he => absurd he hs
    have hready := hw.of_steps hsteps fun bytes hb =>
      (hw.readable bytes hb).congr rfl rfl rfl fun _ _ => rfl
    refine (ih hready).prepend hsteps (.of_eq fun bytes _ depth => ?_)
    cases output with
    | pipe pipe => rfl
    | sink own =>
      obtain ⟨rfl, -⟩ := hw.sink own rfl
      have hsame := w.sinkText_writeSink_of_ne text (Ne.symm hs)
      simp only [World.prospect, outlook, hsame]
      rfl
  | @count next act h ih =>
    have hsteps : w.Steps final input output { w with count := w.count + 1 } :=
      ⟨alike_aside rfl rfl, ⟨rfl, [], (List.append_nil _).symm⟩, fun _ _ => rfl,
        fun _ _ _ => rfl, rfl, fun _ => rfl⟩
    have hready := hw.of_steps hsteps fun bytes hb =>
      (hw.readable bytes hb).congr rfl rfl rfl fun _ _ => rfl
    exact (ih _ hready).prepend hsteps (.refl _ _)

/-- **Every turn of a stage keeps its prospect**, also one that goes on with a reading, a copying
or a writing. -/
theorem Job.Does.turn (task : Nat) (h : job.Does step f w final input output unsent act)
    (hw : w.Ready final input output comes) :
    w.ProgramTurn step f final input output comes (w.prospect step input output unsent act)
      (job.advance task w) := by
  cases h with
  | plays h => exact h.turn task hw
  | @reads left next rest hr hm h =>
    rw [Job.advance]
    refine turn_read (fun w text => (next (String.ofList text)).advance task w)
      (fun left => .read input left next) hw hr hm (fun w₁ left' text hreq hm' hb => ?_)
      fun text w₁ hw₁ => (h text).turn task hw₁
    refine .reads (hreq ▸ hr) hm' fun more => ?_
    rw [hb, List.append_assoc]
    exact h (text ++ more)
  | copies hr hm hl h hb =>
    rw [advance_copy]
    exact turn_copy hl h hb (fun n w₁ hw₁ => (h n).turn task hw₁) (w.stock input) _ hw hr hm
  | @sends pipe unsent next rest ho h hb =>
    rw [Job.advance]
    exact turn_send (fun w => (next none).advance task w)
      (fun w abort => (next (some abort)).advance task w) (fun unsent => .send pipe unsent next)
      hw ho (fun w₁ unsent => .sends ho h hb) (fun w₁ => advance_of_finish hb task w₁)
      fun w₁ hw₁ => h.turn task hw₁

end

end Shell
