/-
The forecast of a pipeline.

What a pipeline will have written in the end can be told at any time. From the left to the right:
what is still to come to a stage is what its input holds and what the stage before it will still
put into the pipe, and that is what its program makes of what is still to come to it. For the last
stage this gives the text in the sink and the status (`forecast`).

A turn of a stage changes what is in its input, in the pipes on both sides and in its program. It
does not change what it will have put out in the end, so the forecast of no stage on its right
changes (`Changes.forecast_eq`). A stage that finds that nobody reads its output puts out something
else than was told of it, but then the stage on its right has ended and nothing depends on that.
This is why the forecast of the last stage is the same from the beginning to the end of every run,
and the end is what it tells.

A program may go on for ever, so a forecast looks only so many operations of each stage ahead. As
a stage gets through some of them, one has to look less far ahead for the same forecast (`Tells`).
-/
import Shell.Proofs.Pipeline.Launch
import Shell.Proofs.Pipeline.Program

set_option autoImplicit false

namespace Shell

open Shell.Text

/-! ## 1. Forecasts -/

/-- What is left to do for a stage: nothing, or to send these bytes and then to make something of
what is still to come. -/
inductive Plan where
  | past (status : Except Abort Nat)
  | on (unsent : List UInt8) (run : List Char → List Char × Nat)

namespace Plan

def unsent : Plan → List UInt8
  | past _ => []
  | on unsent _ => unsent

/-- What is still to be written when this text is still to come. -/
def writes : Plan → List Char → List Char
  | past _, _ => []
  | on _ run, text => (run text).1

def status : Plan → List Char → Except Abort Nat
  | past status, _ => status
  | on _ run, text => .ok (run text).2

/-- What is still to be put into the pipe. -/
def bytes (plan : Plan) (text : List Char) : List UInt8 :=
  plan.unsent ++ Utf8.encode (plan.writes text)

end Plan

variable {σ : Type} {step : σ → Act σ}

/-- What is left to do for a stage that plays a program. -/
inductive Going (σ : Type) where
  | past (status : Except Abort Nat)
  | on (unsent : List UInt8) (act : Act σ)

/-- This, so many operations ahead. -/
def Going.plan (step : σ → Act σ) (depth : Nat) : Going σ → Plan
  | past status => .past status
  | on unsent act => .on unsent (act.run step depth)

namespace Line

variable {line : Line} {w w' : World} {plan plan' : Nat → Plan} {k : Nat}

/-- The bytes that are still to come into the pipe on the left of a stage. -/
def bytesTo (line : Line) (w : World) (plan : Nat → Plan) : Nat → List UInt8
  | 0 => []
  | k + 1 => (plan k).bytes (w.coming (line.inputOf k) (bytesTo line w plan k))

/-- The text that is still to come to a stage. -/
def textTo (line : Line) (w : World) (plan : Nat → Plan) (k : Nat) : List Char :=
  w.coming (line.inputOf k) (line.bytesTo w plan k)

/-- What a stage will have made of its output in the end, and its status. -/
def forecast (line : Line) (w : World) (plan : Nat → Plan) (k : Nat) :
    (List UInt8 ⊕ List Char) × Except Abort Nat :=
  (w.outlook (line.outputOf k) (plan k).unsent ((plan k).writes (line.textTo w plan k)),
    (plan k).status (line.textTo w plan k))

/-- The inputs of two stages are not the same. -/
theorem inputOf_ne (h : line.input < line.fresh) {j : Nat} (hj : j ≠ k) :
    line.inputOf j ≠ line.inputOf k := by
  unfold inputOf inputAt
  cases j with
  | zero =>
    cases k with
    | zero => exact absurd rfl hj
    | succ k =>
      simp only
      omega
  | succ j =>
    cases k with
    | zero =>
      simp only
      omega
    | succ k =>
      simp only
      omega

/-! ## 2. A turn of one stage -/

/-- What may change when a stage has a turn: its input and the pipes next to it. The end on its
right is not closed for reading by it, and only the last stage touches the sink. -/
structure Changes (line : Line) (final k : Nat) (w w' : World) : Prop where
  inputs : ∀ i ≠ line.inputOf k, w'.input i = w.input i
  supply : ∀ i, (w'.input i).supply = (w.input i).supply
  size : w'.inputs.size = w.inputs.size
  channels : w'.channels.size = w.channels.size
  pipes : ∀ j, j + 1 < line.stages → j ≠ k → j + 1 ≠ k →
    (w'.channel (line.pipe + j)).pipe = (w.channel (line.pipe + j)).pipe
  right : k + 1 < line.stages →
    (w'.channel (line.pipe + k)).pipe.readClosed = (w.channel (line.pipe + k)).pipe.readClosed
  sinks : w'.sinks.size = w.sinks.size
  final : k + 1 ≠ line.stages → w'.sinkText final = w.sinkText final

/-- What comes to a stage is told by what the stage on its left will have put out. -/
theorem coming_of_outlook {i c : Nat} {unsent unsent' : List UInt8} {text text' : List Char}
    (hs : (w.input i).supply = .pipe c) (hi : w'.input i = w.input i)
    (ho : w'.outlook (.pipe c) unsent' text' = w.outlook (.pipe c) unsent text) :
    w'.coming i (unsent' ++ Utf8.encode text') = w.coming i (unsent ++ Utf8.encode text) := by
  have hbytes := Sum.inl.inj ho
  rw [List.append_assoc, List.append_assoc] at hbytes
  unfold World.coming World.sourceText
  rw [hi]
  cases hsrc : (w.input i).source with
  | text rest => rfl
  | host rest ready => rfl
  | pipe pipe decoder ended =>
    rw [Input.supply, hsrc] at hs
    obtain rfl := Supply.pipe.inj hs
    simp only [hbytes]

/-- The first stage reads a text and the last one writes to a sink. -/
structure Plain (line : Line) (final : Nat) (w : World) : Prop where
  text : (w.input line.input).supply = .text
  output : line.output = .sink final
  known : final < w.sinks.size

section

variable {final : Nat} {done : Nat → Prop} (hp : line.Pipes w done) (hl : line.Plain final w)
  (hc : line.Changes final k w w')
include hp hl hc

/-- What is to come to another stage from the same bytes is the same, unless it is the one on the
right. -/
theorem Changes.coming_eq {j : Nat} (hj : j < line.stages) (hne : j ≠ k) (hright : j ≠ k + 1)
    (bytes : List UInt8) :
    w'.coming (line.inputOf j) bytes = w.coming (line.inputOf j) bytes := by
  refine World.coming_congr (hc.inputs _ (inputOf_ne hp.known hne)) (fun c hs => ?_) bytes
  cases j with
  | zero =>
    have htext : (w.input (line.inputOf 0)).supply = .text := hl.text
    rw [htext] at hs
    cases hs
  | succ j =>
    rw [hp.supply_succ hj] at hs
    obtain rfl := Supply.pipe.inj hs
    rw [hc.pipes j hj (by omega) (by omega)]

/-- So nothing changes on the left. -/
theorem Changes.bytesTo_eq (hg : ∀ j < k, plan' j = plan j) (hk : k < line.stages) {j : Nat}
    (hj : j ≤ k) : line.bytesTo w' plan' j = line.bytesTo w plan j := by
  induction j with
  | zero => rfl
  | succ j ih =>
    rw [bytesTo, bytesTo, ih (by omega), hg j (by omega),
      hc.coming_eq hp hl (by omega) (by omega) (by omega)]

omit hp in
/-- The outputs of other stages are as they were, apart from the pipe on the left. -/
theorem Changes.outlook_eq {j : Nat} (hj : j < line.stages) (hkj : k < j) (unsent : List UInt8)
    (text : List Char) :
    w'.outlook (line.outputOf j) unsent text = w.outlook (line.outputOf j) unsent text := by
  by_cases hin : j + 1 < line.stages
  · rw [outputOf_inner hin, World.outlook, World.outlook, hc.pipes j hin (by omega) (by omega)]
  · rw [outputOf_last (by omega), hl.output, World.outlook, World.outlook, hc.final (by omega)]

/-- **Nothing changes on the right**, as long as the stage keeps its own forecast or the stage on
its right has ended. -/
theorem Changes.forecast_eq (hg : ∀ j, k < j → plan' j = plan j)
    (hkeep : line.forecast w' plan' k = line.forecast w plan k ∨
      k + 1 < line.stages ∧ ∃ status, plan (k + 1) = .past status) {j : Nat} (hkj : k < j)
    (hj : j < line.stages) : line.forecast w' plan' j = line.forecast w plan j := by
  induction j with
  | zero => omega
  | succ j ih =>
    -- Either nothing is left to do for this stage, or the same comes to it.
    have hsame : (∃ status, plan (j + 1) = .past status) ∨
        line.textTo w' plan' (j + 1) = line.textTo w plan (j + 1) := by
      have hleft : line.forecast w' plan' j = line.forecast w plan j ∨
          ∃ status, plan (j + 1) = .past status := by
        rcases Nat.lt_or_ge k j with hlt | hge
        · exact .inl (ih hlt (by omega))
        · obtain rfl : j = k := by omega
          exact hkeep.imp id And.right
      refine hleft.symm.imp id fun hf => ?_
      have hout := congrArg Prod.fst hf
      simp only [forecast, outputOf_inner hj] at hout
      exact coming_of_outlook (hp.supply_succ hj)
        (hc.inputs _ (inputOf_ne hp.known (by omega))) hout
    rw [forecast, forecast, hg _ hkj, hc.outlook_eq hl hj hkj]
    rcases hsame with ⟨status, hover⟩ | htext
    · rw [hover]
      rfl
    · rw [htext]

end

/-! ### What makes up a turn -/

theorem changes_refl (line : Line) (final k : Nat) {w w' : World} (hi : w'.inputs = w.inputs)
    (hc : w'.channels = w.channels) (hs : w'.sinks = w.sinks) : line.Changes final k w w' where
  inputs := fun i _ => by rw [World.input, hi, World.input]
  supply := fun i => by rw [World.input, hi, World.input]
  size := congrArg Array.size hi
  channels := congrArg Array.size hc
  pipes := fun j _ _ _ => by rw [World.channel, hc, World.channel]
  right := fun _ => by rw [World.channel, hc, World.channel]
  sinks := congrArg Array.size hs
  final := fun _ => by rw [World.sinkText, hs, World.sinkText]

theorem Changes.trans {final : Nat} {w₁ : World} (h : line.Changes final k w w₁)
    (h' : line.Changes final k w₁ w') : line.Changes final k w w' where
  inputs := fun i hi => (h'.inputs i hi).trans (h.inputs i hi)
  supply := fun i => (h'.supply i).trans (h.supply i)
  size := h'.size.trans h.size
  channels := h'.channels.trans h.channels
  pipes := fun j hj hne hl => (h'.pipes j hj hne hl).trans (h.pipes j hj hne hl)
  right := fun hk => (h'.right hk).trans (h.right hk)
  sinks := h'.sinks.trans h.sinks
  final := fun hk => (h'.final hk).trans (h.final hk)

section

variable {final : Nat} {done : Nat → Prop}

/-- The turn of a stage itself. -/
theorem Pipes.changes_steps (hp : line.Pipes w done) (hk : k < line.stages)
    (hs : w.Steps final (line.inputOf k) (line.outputOf k) w') : line.Changes final k w w' where
  inputs := hs.inputs
  supply := hs.alike.supply
  size := hs.alike.inputs
  channels := hs.alike.channels
  pipes := by
    intro j hj hne hl
    refine hs.pipes _ (fun he => hl ((hp.supply_eq_iff hk).1 he)) fun he => ?_
    exact hne ((hp.outputOf_eq_iff hk hj).1 he)
  right := fun _ => hs.alike.readClosed _
  sinks := hs.sinks
  final := by
    intro hne
    refine hs.final fun he => ?_
    rw [outputOf_inner (by omega)] at he
    cases he

/-- A stage that ends closes its ends. -/
theorem Pipes.changes_closeEnds (hp : line.Pipes w done) (hk : k < line.stages) :
    line.Changes final k w (w.closeEnds (line.inputOf k) (line.outputOf k)) where
  inputs := fun i _ => by rw [World.input, World.inputs_closeEnds, World.input]
  supply := fun i => by rw [World.input, World.inputs_closeEnds, World.input]
  size := congrArg Array.size (w.inputs_closeEnds _ _)
  channels := w.size_closeEnds _ _
  pipes := by
    intro j hj hne hl
    rw [hp.pipe_closed hk hj, if_neg hl, if_neg hne]
  right := by
    intro hin
    rw [hp.pipe_closed hk hin, if_neg (by omega), if_pos rfl]
    rfl
  sinks := congrArg Array.size (w.sinks_closeEnds _ _)
  final := fun _ => by rw [World.sinkText, World.sinks_closeEnds, World.sinkText]

/-- It does not change what stands in its output. -/
theorem Pipes.outlook_closeEnds (hp : line.Pipes w done) (hl : line.output = .sink final)
    (hk : k < line.stages) (unsent : List UInt8) (text : List Char) :
    (w.closeEnds (line.inputOf k) (line.outputOf k)).outlook (line.outputOf k) unsent text =
      w.outlook (line.outputOf k) unsent text := by
  by_cases hin : k + 1 < line.stages
  · rw [outputOf_inner hin, World.outlook, World.outlook, ← outputOf_inner hin,
      hp.pipe_closed hk hin, if_neg (by omega), if_pos rfl]
    rfl
  · rw [outputOf_last (by omega), hl, World.outlook, World.outlook, World.sinkText,
      World.sinks_closeEnds, World.sinkText]

end

/-! ## 3. What every turn keeps -/

variable {going : Nat → Going σ} {depths spent : Nat → Nat} {n : Nat}

/-- What is left to do for all stages, so many operations of each ahead. -/
def plans (step : σ → Act σ) (going : Nat → Going σ) (depths : Nat → Nat) (k : Nat) : Plan :=
  (going k).plan step (depths k)

/-- A few more operations of one stage. -/
def deepen (k n : Nat) (depths : Nat → Nat) : Nat → Nat :=
  Function.update depths k (depths k + n)

theorem plans_update {j : Nat} (hj : j ≠ k) (left : Going σ) :
    plans step (Function.update going k left) depths j =
      plans step going (deepen k n depths) j := by
  rw [plans, plans, deepen, Function.update_of_ne hj, Function.update_of_ne hj]

/-- It does not matter whether one looks further ahead or the stage has got further. -/
theorem deepen_add (k n : Nat) (depths spent : Nat → Nat) :
    (fun j => deepen k n depths j + spent j) = fun j => depths j + deepen k n spent j := by
  funext j
  unfold deepen
  by_cases hj : j = k
  · subst hj
    rw [Function.update_self, Function.update_self]
    omega
  · rw [Function.update_of_ne hj, Function.update_of_ne hj]

/-- What the task of a stage is at, and what is left to do for it. -/
inductive Acts (step : σ → Act σ) (line : Line) (final : Nat) (w : World) (k : Nat) :
    Phase Ending → Going σ → Prop where
  | past {ending : Ending} : Acts step line final w k (.ended (.ok ending)) (.past ending.status)
  | on {job : Job Ending} {unsent : List UInt8} {act : Act σ}
      (hd : job.Does step id w final (line.inputOf k) (line.outputOf k) unsent act)
      (hr : w.Readable (line.inputOf k) []) :
      Acts step line final w k (.active job) (.on unsent act)

/-- Each stage does what is left to do for it, and this is what the last one will have written in
the end, and its status, if one looks so many operations ahead. The stages have got through
`spent` operations. -/
structure Tells (step : σ → Act σ) (line : Line) (final : Nat) (m : Machine Ending)
    (going : Nat → Going σ) (spent : Nat → Nat)
    (told : (Nat → Nat) → (List UInt8 ⊕ List Char) × Except Abort Nat) : Prop
    extends Plain line final m.world where
  acts : ∀ k < line.stages,
    line.Acts step final m.world k (m.task (line.task + k)).phase (going k)
  forecast : ∀ depths, line.forecast m.world (plans step going depths) (line.stages - 1) =
    told fun k => depths k + spent k

variable {final : Nat} {m m' : Machine Ending}
  {told : (Nat → Nat) → (List UInt8 ⊕ List Char) × Except Abort Nat} {queue : Queue Event}

/-- A stage has ended exactly if nothing is left to do for it. -/
theorem Tells.isDone_iff (h : line.Tells step final m going spent told) (hk : k < line.stages) :
    line.IsDone m k ↔ ∃ status, going k = .past status := by
  have hacts := h.acts k hk
  unfold IsDone
  generalize hph : (m.task (line.task + k)).phase = phase at hacts
  generalize going k = left at hacts ⊢
  cases hacts with
  | past =>
    rw [Machine.result?_eq_of_ended hph]
    exact ⟨fun _ => ⟨_, rfl⟩, fun _ => rfl⟩
  | on hd hr =>
    rw [Machine.result?_eq_none_of_active hph]
    exact ⟨(fun he => by cases he), fun ⟨_, he⟩ => by cases he⟩

/-- Then it is planned to be over. -/
theorem Tells.plan_of_isDone (h : line.Tells step final m going spent told) (hk : k < line.stages)
    (hd : line.IsDone m k) (depths : Nat → Nat) :
    ∃ status, plans step going depths k = .past status := by
  obtain ⟨status, hover⟩ := (h.isDone_iff hk).1 hd
  exact ⟨status, by rw [plans, hover]; rfl⟩

/-- The turn of one stage does not disturb what another is at. -/
theorem Changes.acts {done : Nat → Prop} (hc : line.Changes final k w w') (hp : line.Pipes w done)
    (hl : line.Plain final w) (hn : ¬ done k) {j : Nat} (hj : j < line.stages) (hne : j ≠ k)
    {phase : Phase Ending} {left : Going σ} (h : line.Acts step final w j phase left) :
    line.Acts step final w' j phase left := by
  cases h with
  | past => exact .past
  | on hd hr =>
    have hi := hc.inputs _ (inputOf_ne hp.known hne)
    refine .on (hd.congr hi) ?_
    -- The first stage reads from outside of the line, and each other one from the pipe before it.
    cases j with
    | zero =>
      refine hr.congr hi hc.size hc.channels fun c hs => ?_
      rw [show (w.input (line.inputOf 0)).supply = .text from hl.text] at hs
      cases hs
    | succ j =>
      have hsupply := hp.supply_succ hj
      by_cases hjk : j = k
      · -- It reads from the stage that has had the turn, which had not closed the pipe before.
        subst hjk
        refine ⟨?_, ?_, ?_, ?_, ?_, ?_⟩
        · rw [hc.size]
          exact hr.known
        · rw [hi]
          exact hr.tidy
        · rw [hi]
          exact hr.filled
        · rw [hi]
          exact hr.supply
        · intro c hs
          rw [hi, hsupply] at hs
          obtain rfl := Supply.pipe.inj hs
          obtain ⟨hlt, hread, -⟩ := hr.channel _ hsupply
          rw [hc.channels, hc.right hj]
          exact ⟨hlt, hread, fun _ => rfl⟩
        · intro c decoder hs
          rw [hi] at hs
          have hpipe : (w.input (line.inputOf (j + 1))).supply = .pipe c := by
            rw [Input.supply, hs]
          obtain rfl := Supply.pipe.inj (hsupply.symm.trans hpipe)
          exact absurd ((hp.writeClosed j hj).1 (hr.ended _ decoder hs).2.2) hn
      · refine hr.congr hi hc.size hc.channels fun c hs => ?_
        rw [hsupply] at hs
        obtain rfl := Supply.pipe.inj hs
        exact hc.pipes j hj hjk hne

/-- **A stage has had a turn** and keeps its forecast, or nobody reads what it writes. Then the
last stage keeps its own. -/
theorem Tells.became (h : line.Tells step final m going spent told) (hu : line.Underway m)
    (hk : k < line.stages) (hn : m.result? (line.task + k) = none)
    (hc : line.Changes final k m.world w') {phase : Phase Ending} {left : Going σ}
    (hacts : line.Acts step final w' k phase left)
    (hkeep : (∀ depths, line.forecast w' (plans step (Function.update going k left) depths) k =
        line.forecast m.world (plans step going (deepen k n depths)) k) ∨
      k + 1 < line.stages ∧ line.IsDone m (k + 1)) :
    line.Tells step final ((m.withQueue queue).became (line.task + k) phase w')
      (Function.update going k left) (deepen k n spent) told := by
  have hlt : line.task + k < (m.withQueue queue).tasks.size :=
    Machine.lt_size_of_result?_eq_none hn
  have hnot : ¬ line.IsDone m k := not_isDone_iff.2 hn
  -- The three parts: where the line writes, what its stages do, and what is foretold.
  refine ⟨⟨(hc.supply _).trans h.text, h.output, ?_⟩, fun j hj => ?_, fun depths => ?_⟩
  · rw [Machine.world_became, hc.sinks]
    exact h.known
  · by_cases hjk : j = k
    · subst hjk
      rw [Machine.task_became_self _ _ hlt, Function.update_self]
      exact hacts
    · rw [Machine.task_became_of_ne _ _ (by omega), Function.update_of_ne hjk]
      exact hc.acts hu.pipes h.toPlain hnot hj hjk (h.acts j hj)
  · rw [← deepen_add, ← h.forecast]
    -- A turn of an inner stage is seen through the stages behind it, and one of the last stage at once.
    rcases Nat.lt_or_ge k (line.stages - 1) with hlast | hlast
    · refine hc.forecast_eq hu.pipes h.toPlain (fun j hj => plans_update (Nat.ne_of_gt hj) left) ?_
        hlast (by omega)
      exact hkeep.imp (fun hf => hf depths) fun ⟨hin, hd⟩ => ⟨hin, h.plan_of_isDone hin hd _⟩
    · obtain rfl : k = line.stages - 1 := by omega
      exact (hkeep.resolve_right fun ⟨hin, _⟩ => by omega) depths

/-! ## 4. The turn of a stage -/

/-- Nothing comes any more into a pipe that has been closed. -/
theorem Tells.readable (h : line.Tells step final m going spent told) (hu : line.Underway m)
    (hk : k < line.stages) (hr : m.world.Readable (line.inputOf k) []) (depths : Nat → Nat) :
    m.world.Readable (line.inputOf k) (line.bytesTo m.world (plans step going depths) k) where
  known := hr.known
  tidy := hr.tidy
  filled := hr.filled
  supply := hr.supply
  channel := by
    intro c hs
    obtain ⟨hlt, hread, -⟩ := hr.channel c hs
    refine ⟨hlt, hread, fun hw => ?_⟩
    cases k with
    | zero => rfl
    | succ k =>
      rw [hu.pipes.supply_succ hk] at hs
      obtain rfl := Supply.pipe.inj hs
      -- The stage on the left has ended.
      obtain ⟨status, hover⟩ :=
        h.plan_of_isDone (by omega) ((hu.pipes.writeClosed k hk).1 hw) depths
      rw [bytesTo, hover]
      rfl
  ended := hr.ended

theorem Tells.ready (h : line.Tells step final m going spent told) (hu : line.Underway m)
    (hk : k < line.stages) (hn : m.result? (line.task + k) = none)
    (hr : m.world.Readable (line.inputOf k) []) :
    (m.withQueue queue).world.Ready final (line.inputOf k) (line.outputOf k)
      (m.world.Readable (line.inputOf k)) where
  nothing := hr
  readable := fun bytes hb => hb.congr rfl rfl rfl fun _ _ => rfl
  -- A stage writes to the pipe behind it and reads from the one before it.
  apart := by
    intro pipe ho hs
    by_cases hin : k + 1 < line.stages
    · rw [outputOf_inner hin] at ho
      obtain rfl := Output.pipe.inj ho
      have := (hu.pipes.supply_eq_iff hk).1 hs
      omega
    · rw [outputOf_last (by omega), h.output] at ho
      cases ho
  known := fun pipe ho => hu.pipes.lt_of_outputOf hk ho
  writable := (hu.pipes.suits hk (not_isDone_iff.2 hn)).writable
  sink := by
    intro sink ho
    by_cases hin : k + 1 < line.stages
    · rw [outputOf_inner hin] at ho
      cases ho
    · rw [outputOf_last (by omega), h.output] at ho
      obtain rfl := Output.sink.inj ho
      exact ⟨rfl, h.known⟩

/-- The forecast of a stage that has not ended is its prospect. -/
theorem forecast_on {unsent : List UInt8} {act : Act σ} (hg : going k = .on unsent act)
    (depths : Nat → Nat) : line.forecast w (plans step going depths) k =
      Prod.map id Except.ok (w.prospect step (line.inputOf k) (line.outputOf k) unsent act
        (line.bytesTo w (plans step going depths) k) (depths k)) := by
  rw [forecast, plans, hg]
  rfl

/-- What changes in the turn of a stage. -/
theorem Underway.changes_steps (hu : line.Underway m) (hk : k < line.stages)
    (hs : (m.withQueue queue).world.Steps final (line.inputOf k) (line.outputOf k) w') :
    line.Changes final k m.world w' := by
  have hqueue : line.Changes final k m.world (m.withQueue queue).world :=
    changes_refl line final k rfl rfl rfl
  exact hqueue.trans ((hu.pipes.of_alike (m.alike_withQueue queue)).changes_steps hk hs)

/-- A stage waits, and what is still to be expected of it is what was to be expected. -/
theorem Tells.waits (h : line.Tells step final m going spent told) (hu : line.Underway m)
    (hk : k < line.stages) (hn : m.result? (line.task + k) = none) {unsent unsent' : List UInt8}
    {act act' : Act σ} (hg : going k = .on unsent act)
    (hs : (m.withQueue queue).world.Steps final (line.inputOf k) (line.outputOf k) w')
    {job : Job Ending} (hr : w'.Readable (line.inputOf k) [])
    (hd : job.Does step id w' final (line.inputOf k) (line.outputOf k) unsent' act')
    (hp : ∀ bytes, m.world.Readable (line.inputOf k) bytes → ∀ depth,
      m.world.prospect step (line.inputOf k) (line.outputOf k) unsent act bytes (depth + n) =
        w'.prospect step (line.inputOf k) (line.outputOf k) unsent' act' bytes depth)
    (hread : m.world.Readable (line.inputOf k) []) :
    line.Tells step final ((m.withQueue queue).became (line.task + k) (.active job) w')
      (Function.update going k (.on unsent' act')) (deepen k n spent) told := by
  have hchange := hu.changes_steps hk hs
  refine h.became hu hk hn hchange (.on hd hr) (.inl fun depths => ?_)
  -- What is to come from the left is the same before and after the turn.
  have hleft : line.bytesTo w' (plans step (Function.update going k (.on unsent' act')) depths) k =
      line.bytesTo m.world (plans step going (deepen k n depths)) k :=
    hchange.bytesTo_eq hu.pipes h.toPlain (fun j hj => plans_update (Nat.ne_of_lt hj) _) hk
      (Nat.le_refl k)
  have hsame := hp _ (h.readable hu hk hread (deepen k n depths)) (depths k)
  rw [forecast_on hg, forecast_on (Function.update_self k _ going), hleft, ← hsame, deepen,
    Function.update_self]

/-- A stage ends, and has done what was to be expected of it or could not go on writing. -/
theorem Tells.ends (h : line.Tells step final m going spent told) (hu : line.Underway m)
    (hk : k < line.stages) (hn : m.result? (line.task + k) = none)
    (hs : (m.withQueue queue).world.Steps final (line.inputOf k) (line.outputOf k) w')
    {ending : Ending}
    (hkeep : (∀ depths, line.forecast m.world (plans step going (deepen k n depths)) k =
        (w'.outlook (line.outputOf k) [] [], ending.status)) ∨
      k + 1 < line.stages ∧ line.IsDone m (k + 1)) :
    line.Tells step final ((m.withQueue queue).became (line.task + k) (.ended (.ok ending))
      ((w'.closeEnds (line.inputOf k) (line.outputOf k)).push (.report (line.task + k) false)))
      (Function.update going k (.past ending.status)) (deepen k n spent) told := by
  have hpipes := hu.pipes_alike hs.alike
  have hclosed := (hu.changes_steps hk hs).trans (hpipes.changes_closeEnds hk)
  have hpush : line.Changes final k (w'.closeEnds (line.inputOf k) (line.outputOf k))
      ((w'.closeEnds (line.inputOf k) (line.outputOf k)).push (.report (line.task + k) false)) :=
    changes_refl line final k rfl rfl rfl
  refine h.became hu hk hn (hclosed.trans hpush) .past (hkeep.imp (fun hf depths => ?_) id)
  have hout := hpipes.outlook_closeEnds h.output hk [] []
  rw [hf, Line.forecast, plans, Function.update_self, ← hout]
  rfl

/-- A stage has failed. -/
def Failed (line : Line) (m : Machine Ending) : Prop :=
  ∃ k < line.stages, line.task + k < m.tasks.size ∧
    ∃ abort, m.result? (line.task + k) = some (.error abort)

/-- **The turn of a stage.** The pipeline stays under way and tells the same, or the stage fails. -/
theorem Tells.resume_stage (h : line.Tells step final m going spent told) (hu : line.Underway m)
    (hk : k < line.stages) (hp : m.Picks (.resume (line.task + k)) queue)
    (hn : m.result? (line.task + k) = none) :
    (line.Underway ((m.withQueue queue).resume (line.task + k)) ∧
      (∃ going' spent',
        line.Tells step final ((m.withQueue queue).resume (line.task + k)) going' spent' told) ∧
      ((m.withQueue queue).resume (line.task + k)).task line.starter = m.task line.starter) ∨
    line.Failed ((m.withQueue queue).resume (line.task + k)) := by
  have hseat := hu.seats k hk
  have hacts := h.acts k hk
  have hne : line.starter ≠ line.task + k := by
    have := hu.starter
    omega
  generalize hph : (m.task (line.task + k)).phase = phase at hacts
  generalize hg : going k = left at hacts
  cases hacts with
  | past =>
    rw [Machine.result?_eq_of_ended hph] at hn
    cases hn
  | @on job unsent act hd hr =>
    have hdoes : job.Does step id (m.withQueue queue).world final (line.inputOf k) (line.outputOf k)
        unsent act := hd.congr rfl
    have hturn := hdoes.turn (line.task + k) (h.ready hu hk hn hr)
    rcases hadv : job.advance (line.task + k) (m.withQueue queue).world with ⟨w₁, phase'⟩
    rw [hadv] at hturn
    cases hturn with
    | @waits _ job' unsent' act' hs hread hd' hsame =>
      obtain ⟨n, hn'⟩ := hsame
      rw [Machine.resume_of_waiting (m := m.withQueue queue) hph hseat.live hadv]
      exact .inl ⟨hu.waits hk hp hn hs.alike hs.wakes job',
        ⟨_, _, h.waits hu hk hn hg hs hread hd' hn' hr⟩, Machine.task_became_of_ne _ _ hne⟩
    | @ends _ status env hs hsame =>
      obtain ⟨n, hn'⟩ := hsame
      rw [hu.resume_ended hk hph hadv]
      refine .inl ⟨hu.ends hk hp hn hs.alike hs.wakes _,
        ⟨_, _, h.ends (n := n) hu hk hn hs (.inl fun depths => ?_)⟩,
        Machine.task_became_of_ne _ _ hne⟩
      have hnow : m.world.prospect step (line.inputOf k) (line.outputOf k) unsent act
          (line.bytesTo m.world (plans step going (deepen k n depths)) k) (depths k + n) =
            (w₁.outlook (line.outputOf k) [] [], status) :=
        hn' _ (h.readable hu hk hr _) (depths k)
      rw [forecast_on hg, deepen, Function.update_self, ← deepen, hnow]
      rfl
    | @broken _ ending pipe hs ho hb =>
      rw [hu.resume_ended hk hph hadv]
      refine .inl ⟨hu.ends hk hp hn hs.alike hs.wakes _,
        ⟨_, _, h.ends (n := 0) hu hk hn hs (.inr ?_)⟩, Machine.task_became_of_ne _ _ hne⟩
      -- The pipe is closed for reading, so the stage on the right has ended.
      have hin : k + 1 < line.stages := by
        refine Nat.lt_of_not_le fun hle => ?_
        rw [outputOf_last (by omega), h.output] at ho
        cases ho
      rw [outputOf_inner hin] at ho
      obtain rfl := Output.pipe.inj ho
      exact ⟨hin, ((hu.pipes_alike hs.alike).readClosed k hin).1 hb⟩
    | @fails _ abort =>
      have hlt : line.task + k < (m.withQueue queue).tasks.size :=
        Machine.lt_size_of_result?_eq_none hn
      rw [hu.resume_ended hk hph hadv]
      exact .inr ⟨k, hk, Nat.lt_of_lt_of_eq hlt (Machine.size_became _ _ _ _).symm, abort,
        Machine.result?_became_self _ hlt⟩

/-! ## 5. What does not matter -/

/-- What comes to a stage depends on the inputs and the pipes alone. -/
theorem bytesTo_congr (hi : w'.inputs = w.inputs) (hc : w'.channels = w.channels)
    (plan : Nat → Plan) (k : Nat) : line.bytesTo w' plan k = line.bytesTo w plan k := by
  induction k with
  | zero => rfl
  | succ k ih =>
    rw [bytesTo, bytesTo, ih]
    refine congrArg (plan k).bytes (World.coming_congr ?_ (fun c _ => ?_) _)
    · rw [World.input, hi, World.input]
    · rw [World.channel, hc, World.channel]

/-- Neither the queue nor the starter matters to what is told. -/
theorem Tells.congr (h : line.Tells step final m going spent told)
    (hw : m'.world = (m.withQueue queue).world)
    (ht : ∀ k < line.stages,
      (m'.task (line.task + k)).phase = (m.task (line.task + k)).phase) :
    line.Tells step final m' going spent told := by
  refine ⟨?_, fun k hk => ?_, fun depths => ?_⟩
  · rw [hw]
    exact ⟨h.text, h.output, h.known⟩
  · rw [ht k hk, hw]
    have hacts := h.acts k hk
    generalize (m.task (line.task + k)).phase = phase at hacts ⊢
    generalize going k = left at hacts ⊢
    cases hacts with
    | past => exact .past
    | on hd hr => exact .on (hd.congr rfl) (hr.congr rfl rfl rfl fun _ _ => rfl)
  · have hi : (m.withQueue queue).world.inputs = m.world.inputs := rfl
    have hc : (m.withQueue queue).world.channels = m.world.channels := rfl
    have hb (k : Nat) : line.bytesTo (m.withQueue queue).world (plans step going depths) k =
        line.bytesTo m.world (plans step going depths) k :=
      bytesTo_congr hi hc _ k
    rw [← h.forecast, hw, Line.forecast, Line.forecast, textTo, textTo, hb]
    rfl

end Line

end Shell
