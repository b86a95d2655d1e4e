/-
From the first turn of a pipeline to the last.

While the stages run, the forecast of the last one stays as it is (`Foretold.turn`). When the last
end has been noticed there is no stage left, and the forecast has come true (`Settled`). Then only
the starter goes on, and it ends with the status that it has been told (`Closing.turn`). What was
told at the beginning is what the programs make of the text, one after the other
(`Launched.tells`), and neither the capacity of the pipes nor the order of turns stands in that.

A pipeline of one program has no stages. The starter runs it, and its prospect stays as it is
(`Sole.turn`).
-/
import Shell.Proofs.Pipeline.Forecast

set_option autoImplicit false

namespace Shell

open Shell.Text

namespace Machine

/-! ## 1. The last task -/

/-- Nobody but a task has anything left to do, and nobody waits for this one. -/
structure Left {ρ : Type} (m : Machine ρ) (p : Nat) : Prop where
  others : ∀ i, i ≠ p → ∃ r, m.result? i = some r
  asked : m.world.asked = []
  top : (m.task p).starter = none
  live : (m.task p).cancelled = false

section

variable {ρ : Type} {m m' : Machine ρ} {p : Nat} {queue : Queue Event}

theorem Left.withQueue (h : m.Left p) (queue : Queue Event) : (m.withQueue queue).Left p :=
  ⟨h.others, h.asked, h.top, h.live⟩

/-- If it does not wait for stages of its own then its turns are all that can happen. -/
theorem Left.turn (h : m.Left p)
    (hp : (∃ job, (m.task p).phase = .active job) ∨ ∃ r, (m.task p).phase = .ended r)
    (ht : m.Turn m') :
    ∃ queue, m' = m.withQueue queue ∨ m' = (m.withQueue queue).resume p := by
  cases ht with
  | @event event queue _ =>
    cases event with
    | resume i =>
      by_cases hi : i = p
      · subst hi
        exact ⟨queue, .inr rfl⟩
      · obtain ⟨r, hr⟩ := h.others i hi
        exact ⟨queue, .inl (resume_of_result? (m := m.withQueue queue) hr)⟩
    | arrival i => exact ⟨queue.push (.resume i), .inl rfl⟩
    | report i late =>
      -- Nobody waits for stages, so nobody listens.
      refine ⟨queue, .inl ?_⟩
      have hphase (j : Nat) :
          (∃ job, (m.task j).phase = .active job) ∨ ∃ r, (m.task j).phase = .ended r := by
        by_cases hj : j = p
        · subst hj
          exact hp
        · obtain ⟨r, hr⟩ := h.others j hj
          exact .inr ⟨r, result?_eq_some_iff.1 hr⟩
      show (m.withQueue queue).report i late = m.withQueue queue
      unfold report
      split
      · next s r _ _ =>
        have hs : (∃ job, ((m.withQueue queue).task s).phase = .active job) ∨
            ∃ r, ((m.withQueue queue).task s).phase = .ended r := hphase s
        rcases hs with ⟨job, hs⟩ | ⟨r, hs⟩
        · simp only [hs]
        · simp only [hs]
      · rfl
  | host =>
    rw [mapWorld_hostTurn h.asked]
    exact ⟨m.world.queue, .inl rfl⟩

/-- It is still the last one after a turn of its own. -/
theorem Left.became (h : m.Left p) (hlt : p < m.tasks.size) (phase : Phase ρ) {w : World}
    (hw : w.asked = []) : (m.became p phase w).Left p := by
  refine ⟨fun i hi => ?_, hw, ?_, ?_⟩
  · rw [result?_became_of_ne _ _ hi]
    exact h.others i hi
  · rw [task_became_self _ _ hlt]
    exact h.top
  · rw [task_became_self _ _ hlt]
    exact h.live

end

/-- Only a task is left, and it has ended with a status or has nothing to do but to end with it. -/
structure Closing (m : Machine Ending) (p status : Nat) : Prop extends Left m p where
  ending : ∃ env, (m.task p).phase = .active (.finish ⟨.ok status, env⟩) ∨
    (m.task p).phase = .ended (.ok ⟨.ok status, env⟩)

variable {m m' : Machine Ending} {p status : Nat}

/-- Then nothing happens to the others, and nothing is written any more. -/
theorem Closing.turn (h : m.Closing p status) (ht : m.Turn m') :
    m'.Closing p status ∧ (∀ i, i ≠ p → m'.result? i = m.result? i) ∧
      m'.world.sinks = m.world.sinks := by
  obtain ⟨env, hp⟩ := h.ending
  obtain ⟨queue, rfl | rfl⟩ := h.toLeft.turn (hp.imp (fun hp => ⟨_, hp⟩) fun hp => ⟨_, hp⟩) ht
  · exact ⟨⟨h.toLeft.withQueue queue, env, hp⟩, fun _ _ => rfl, rfl⟩
  · rcases hp with hp | hp
    · have hlt : p < (m.withQueue queue).tasks.size :=
        lt_size_of_result?_eq_none (m := m) (result?_eq_none_of_active hp)
      rw [resume_of_ended (m := m.withQueue queue) hp h.live h.top rfl]
      refine ⟨⟨(h.toLeft.withQueue queue).became hlt _ h.asked, env, .inr ?_⟩, fun i hi => ?_, rfl⟩
      · rw [task_became_self _ _ hlt]
      · exact result?_became_of_ne (m := m.withQueue queue) _ _ hi
    · rw [resume_of_result? (m := m.withQueue queue) (result?_eq_of_ended hp)]
      exact ⟨⟨h.toLeft.withQueue queue, env, .inr hp⟩, fun _ _ => rfl, rfl⟩

end Machine

namespace Line

/-! ## 2. Stages -/

variable {σ : Type} {step : σ → Act σ} {line : Line} {final : Nat} {f : Nat → Nat}
  {told : (Nat → Nat) → List Char × Nat} {m m' : Machine Ending}
  {queue : Queue Event}

/-- When the last stage has ended with a status the starter ends with what `f` makes of it. -/
def Closes (next : Except Abort Ending → Job Ending) (f : Nat → Nat) : Prop :=
  ∀ status env, ∃ env', next (.ok ⟨.ok status, env⟩) = .finish ⟨.ok (f status), env'⟩

/-- A pipeline is under way to what has been told, and its starter is the last task that will have
anything to do. -/
structure Foretold (step : σ → Act σ) (line : Line) (final : Nat) (f : Nat → Nat)
    (told : (Nat → Nat) → List Char × Nat) (m : Machine Ending) : Prop
    extends Underway line m where
  nonempty : 0 < line.stages
  tells : ∃ going spent,
    line.Tells step final m going spent fun depths => Prod.map .inr .ok (told depths)
  waits : ∃ ended next,
    (m.task line.starter).phase = .joining line.task line.stages ended next ∧ Closes next f
  top : (m.task line.starter).starter = none
  live : (m.task line.starter).cancelled = false

/-- All stages have ended, and what has been told has come true. -/
structure Settled (line : Line) (final : Nat) (f : Nat → Nat)
    (told : (Nat → Nat) → List Char × Nat) (m : Machine Ending) (status : Nat) : Prop
    extends Machine.Closing m line.starter (f status) where
  apart : line.task + line.stages - 1 ≠ line.starter
  last : ∃ env, m.result? (line.task + line.stages - 1) = some (.ok ⟨.ok status, env⟩)
  told : ∃ spent : Nat → Nat, ∀ depths : Nat → Nat,
    told (fun k => depths k + spent k) = ((m.world.sinkText final).toList, status)

/-- A stage that has ended has done what was told of it. -/
theorem Tells.told_of_isDone {going : Nat → Going σ} {spent depths : Nat → Nat}
    (h : line.Tells step final m going spent fun depths => Prod.map .inr .ok (told depths))
    (hpos : 0 < line.stages) (hd : line.IsDone m (line.stages - 1)) :
    ∃ env, m.result? (line.task + line.stages - 1) =
        some (.ok ⟨.ok (told fun k => depths k + spent k).2, env⟩) ∧
      (m.world.sinkText final).toList = (told fun k => depths k + spent k).1 := by
  have hf := h.forecast depths
  have hacts := h.acts (line.stages - 1) (by omega)
  rw [← Nat.add_sub_assoc hpos] at hacts
  obtain ⟨status, hover⟩ := (h.isDone_iff (by omega)).1 hd
  rw [hover] at hacts
  generalize hph : (m.task (line.task + line.stages - 1)).phase = phase at hacts
  rw [Line.forecast, plans, hover, outputOf_last (by omega), h.output] at hf
  obtain ⟨hout, hstatus⟩ := Prod.mk.inj hf
  have hout' := (List.append_nil _).symm.trans (Sum.inr.inj hout)
  cases hacts with
  | @past ending =>
    rw [Machine.result?_eq_of_ended hph]
    have hok : ending.status = .ok (told fun k => depths k + spent k).2 := hstatus
    exact ⟨ending.env, by rw [← hok], hout'⟩

/-- **The last end has been noticed.** -/
theorem Foretold.settled (h : line.Foretold step final f told m)
    (hall : ∀ k < line.stages, line.IsDone m k) {last : Except Abort Ending}
    (hlast : m.result? (line.task + line.stages - 1) = some last) {ended : Nat}
    {next : Except Abort Ending → Job Ending}
    (hjoin : (m.task line.starter).phase = .joining line.task line.stages ended next) :
    ∃ status, line.Settled final f told (((m.withQueue queue).setPhase line.starter
      (.active (next last))).push (.resume line.starter)) status := by
  have hpos := h.nonempty
  have hst := h.starter
  obtain ⟨going, spent, htells⟩ := h.tells
  obtain ⟨ended', next', hjoin', hcloses⟩ := h.waits
  obtain ⟨-, -, -, rfl⟩ := Phase.joining.inj (hjoin.symm.trans hjoin')
  have hself := Machine.task_modifyTask_self (m := m.withQueue queue)
    (fun t => { t with phase := .active (next last) }) h.starter_lt
  have hrest {i : Nat} (hi : i ≠ line.starter) : (((m.withQueue queue).setPhase line.starter
      (.active (next last))).push (.resume line.starter)).task i = m.task i :=
    Machine.task_modifyTask_of_ne (m := m.withQueue queue) _ hi
  -- What was told of the last stage does not depend on how far one looks ahead any more.
  have hdone (depths : Nat → Nat) : ∃ env, m.result? (line.task + line.stages - 1) =
        some (.ok ⟨.ok (told fun k => depths k + spent k).2, env⟩) ∧
      (m.world.sinkText final).toList = (told fun k => depths k + spent k).1 :=
    htells.told_of_isDone hpos (hall (line.stages - 1) (by omega))
  obtain ⟨env, hres, hout⟩ := hdone fun _ => 0
  obtain rfl := Option.some.inj (hlast.symm.trans hres)
  obtain ⟨env', hfinish⟩ := hcloses (told fun k => 0 + spent k).2 env
  refine ⟨(told fun k => 0 + spent k).2, ⟨⟨fun i hi => ?_, h.asked, ?_, ?_⟩, env', .inl ?_⟩,
    by omega, ⟨env, ?_⟩, spent, fun depths => ?_⟩
  · rw [Machine.result?, hrest hi]
    by_cases hold : i < line.task
    · exact h.others i hold hi
    · obtain ⟨k, rfl⟩ := Nat.exists_eq_add_of_le (Nat.le_of_not_lt hold)
      by_cases hk : k < line.stages
      · exact Option.isSome_iff_exists.1 (hall k hk)
      -- There are no tasks behind the stages.
      · have hsize : m.tasks.size ≤ line.task + k := by
          rw [h.size]
          omega
        exact ⟨.error .cancelled, by rw [Machine.task_of_size_le hsize]; rfl⟩
  · exact (congrArg Task.starter hself).trans h.top
  · exact (congrArg Task.cancelled hself).trans h.live
  · rw [← hfinish]
    exact congrArg Task.phase hself
  · rw [Machine.result?, hrest (by omega)]
    exact hres
  · obtain ⟨env₁, hres₁, hout₁⟩ := hdone depths
    have hsame := hres.symm.trans hres₁
    simp only [Option.some.injEq, Except.ok.injEq, Ending.mk.injEq] at hsame
    exact Prod.ext hout₁.symm hsame.1.symm

/-- **Every turn** leaves a pipeline on its way, unless a stage fails or the last end has been
noticed. -/
theorem Foretold.turn (h : line.Foretold step final f told m) (ht : m.Turn m') :
    line.Foretold step final f told m' ∨ line.Failed m' ∨ ∃ status, line.Settled final f told m' status := by
  obtain ⟨going, spent, htells⟩ := h.tells
  obtain ⟨ended, next, hjoin, hcloses⟩ := h.waits
  cases ht with
  | @event event queue hp =>
    -- A turn is one of a stage, of a task outside of the line, or a report of a stage that has ended.
    rcases h.events event ((hp.mem_iff event).2 (.inl rfl)) with ⟨i, rfl⟩ | ⟨k, -, rfl, -⟩
    · rcases h.resume_cases hp with ⟨k, hk, rfl, hn⟩ | ⟨hidle, -⟩
      · rcases htells.resume_stage h.toUnderway hk hp hn with ⟨hway, htells', hstarter⟩ | hfailed
        · refine .inl ⟨hway, h.nonempty, htells', ⟨ended, next, ?_, hcloses⟩, ?_, ?_⟩
          · exact (congrArg Task.phase hstarter).trans hjoin
          · exact (congrArg Task.starter hstarter).trans h.top
          · exact (congrArg Task.cancelled hstarter).trans h.live
        · exact .inr (.inl hfailed)
      · show line.Foretold step final f told ((m.withQueue queue).resume i) ∨ _
        rw [hidle]
        exact .inl ⟨h.dropped hp rfl, h.nonempty, ⟨going, spent, htells.congr rfl fun _ _ => rfl⟩,
          ⟨ended, next, hjoin, hcloses⟩, h.top, h.live⟩
    · obtain ⟨ended', next', hjoin', ⟨hreport, hway⟩ | ⟨hall, last, hlast, hreport⟩⟩ :=
        h.report_cases hp
      · obtain ⟨-, -, rfl, rfl⟩ := Phase.joining.inj (hjoin.symm.trans hjoin')
        have hst := h.starter
        -- The starter counts one more stage that has ended.
        have hself := Machine.task_modifyTask_self (m := m.withQueue queue)
          (fun t => { t with phase := .joining line.task line.stages (ended + 1) next })
          h.starter_lt
        show line.Foretold step final f told ((m.withQueue queue).report (line.task + k) false) ∨ _
        rw [hreport] at hway ⊢
        refine .inl ⟨hway, h.nonempty,
          ⟨going, spent, htells.congr rfl fun j hj => ?_⟩,
          ⟨ended + 1, next, congrArg Task.phase hself, hcloses⟩,
          (congrArg Task.starter hself).trans h.top, (congrArg Task.cancelled hself).trans h.live⟩
        exact congrArg Task.phase
          (Machine.task_modifyTask_of_ne (m := m.withQueue queue) _ (by omega))
      · show _ ∨ _ ∨ ∃ status,
          line.Settled final f told ((m.withQueue queue).report (line.task + k) false) status
        rw [hreport]
        exact .inr (.inr (h.settled hall hlast hjoin'))
  | host =>
    rw [Machine.mapWorld_hostTurn h.asked]
    exact .inl h

/-- What has come true stays true. -/
theorem Settled.turn {status : Nat} (h : line.Settled final f told m status) (ht : m.Turn m') :
    line.Settled final f told m' status := by
  obtain ⟨hclosing, hrest, hsinks⟩ := h.toClosing.turn ht
  refine ⟨hclosing, h.apart, ?_, ?_⟩
  · rw [hrest _ h.apart]
    exact h.last
  · rw [World.sinkText, hsinks]
    exact h.told

/-- So does a failure. -/
theorem Failed.turn (h : line.Failed m) (ht : m.Turn m') : line.Failed m' := by
  obtain ⟨k, hk, hlt, abort, hr⟩ := h
  have hl := Machine.later_turn ht
  exact ⟨k, hk, Nat.lt_of_lt_of_le hlt hl.size, abort, hl.result _ hlt _ hr⟩

end Line

/-! ## 3. The beginning -/

section

variable {σ : Type}

/-- The text that comes to a program if each before it makes of its text what it can make of it in
so many operations. -/
def textThrough (step : σ → Act σ) (programs : Nat → σ) (text : List Char) (depths : Nat → Nat) :
    Nat → List Char
  | 0 => text
  | k + 1 => Utf8.decode (Utf8.encode
      ((step (programs k)).run step (depths k) (textThrough step programs text depths k)).1)

/-- What a program of several makes of the text that comes to it, and its status. -/
def outcomeOf (step : σ → Act σ) (programs : Nat → σ) (text : List Char) (k : Nat)
    (depths : Nat → Nat) : List Char × Nat :=
  (step (programs k)).run step (depths k) (textThrough step programs text depths k)

end

namespace Machine

variable {σ : Type} {step : σ → Act σ} {programs : Nat → σ} {text : List Char}
  {m m' : Machine Ending} {p stages capacity input final : Nat}
  {stage : Nat → Nat → Output → Job Ending} {next : Except Abort Ending → Job Ending}

/-- The stages can read. -/
theorem Launched.readable
    (hs : m.Launched p stages capacity input (.sink final) stage next m')
    (hr : m.world.Readable input []) (ht : (m.world.input input).supply = .text) {k : Nat}
    (hk : k < stages) :
    m'.world.Readable ((m.line p stages capacity input (.sink final)).inputOf k) [] := by
  -- The first stage reads the input of the pipeline, and each other one a new pipe.
  cases k with
  | zero =>
    have hi : m'.world.input input = m.world.input input := hs.oldInput _ hr.known
    show m'.world.Readable input []
    refine ⟨?_, ?_, ?_, ?_, fun c hc => ?_, fun c decoder hc => ?_⟩
    · rw [hs.inputs]
      exact Nat.lt_of_lt_of_le hr.known (Nat.le_add_right _ _)
    · rw [hi]
      exact hr.tidy
    · rw [hi]
      exact hr.filled
    · rw [hi]
      exact hr.supply
    · rw [hi, ht] at hc
      cases hc
    · rw [hi] at hc
      rw [Input.supply, hc] at ht
      cases ht
  | succ k =>
    have hi := hs.newInput k hk
    have hc := hs.newChannel k hk
    show m'.world.Readable (m.world.inputs.size + k) []
    refine ⟨?_, ?_, ?_, ?_, fun c he => ?_, fun c decoder he => ?_⟩
    · rw [hs.inputs]
      omega
    · rw [hi]
      exact fun piece hp => by cases hp
    · rw [hi]
      exact List.not_mem_nil
    · rw [hi]
      exact fun he => by cases he
    · rw [hi] at he
      obtain rfl := Supply.pipe.inj he
      rw [hc, hs.channels]
      exact ⟨by omega, rfl, fun _ => rfl⟩
    · rw [hi] at he
      cases he

/-- What comes to each stage is what the programs before it make of the text. -/
theorem Launched.textTo_eq
    (hs : m.Launched p stages capacity input (.sink final) stage next m')
    (hr : m.world.Readable input []) (ht : (m.world.input input).supply = .text)
    (htext : m.world.coming input [] = text) (depths : Nat → Nat) {k : Nat} (hk : k < stages) :
    (m.line p stages capacity input (.sink final)).textTo m'.world
        (Line.plans step (fun k => .on [] (step (programs k))) depths) k =
      textThrough step programs text depths k := by
  induction k with
  | zero =>
    refine Eq.trans ?_ htext
    refine World.coming_congr (hs.oldInput _ hr.known) (fun c hc => ?_) []
    rw [ht] at hc
    cases hc
  | succ k ih =>
    rw [textThrough, ← ih (by omega)]
    show m'.world.coming (m.world.inputs.size + k) _ = _
    -- The new input has nothing pending, and its pipe is empty.
    rw [World.coming, World.sourceText, hs.newInput k hk]
    simp only [Input.ofPipe, hs.newChannel k hk]
    rfl

/-- **What the pipeline comes to is told when its stages have been started.** -/
theorem Launched.tells
    (hs : m.Launched p stages capacity input (.sink final) stage next m') (hpos : 0 < stages)
    (hr : m.world.Readable input []) (ht : (m.world.input input).supply = .text)
    (htext : m.world.coming input [] = text) (hf : final < m.world.sinks.size)
    (hplays : ∀ k < stages, ∀ input output,
      (stage k input output).Plays step id final input output (step (programs k))) :
    (m.line p stages capacity input (.sink final)).Tells step final m'
      (fun k => .on [] (step (programs k))) (fun _ => 0) fun depths =>
        Prod.map .inr .ok (Prod.map ((m.world.sinkText final).toList ++ ·) id
          (outcomeOf step programs text (stages - 1) depths)) := by
  refine ⟨⟨?_, rfl, ?_⟩, fun k hk => ?_, fun depths => ?_⟩
  · show (m'.world.input input).supply = .text
    rw [hs.oldInput _ hr.known]
    exact ht
  · rw [hs.sinks]
    exact hf
  · show Line.Acts step _ final m'.world k (m'.task (m.tasks.size + k)).phase _
    rw [hs.newTask k hk]
    exact .on (.plays (hplays k hk _ _)) (hs.readable hr ht hk)
  -- The last stage writes to the sink, so what is foretold at its end is what the sink will hold.
  · have hlast : (m.line p stages capacity input (.sink final)).outputOf (stages - 1) =
        .sink final := Line.outputOf_last (Nat.sub_add_cancel hpos)
    have hk : stages - 1 < stages := Nat.sub_lt hpos Nat.one_pos
    show Line.forecast _ m'.world _ (stages - 1) = _
    rw [Line.forecast, hs.textTo_eq hr ht htext depths hk, hlast, World.outlook, World.sinkText,
      hs.sinks]
    rfl

/-! ## 4. A single program -/

/-- Only a task is left, and it plays a program: this is what it will have written in so many
operations, and the status of the program. -/
structure Sole (step : σ → Act σ) (f : Nat → Nat) (final input : Nat) (told : Nat → List Char × Nat)
    (m : Machine Ending) (p : Nat) : Prop extends Left m p where
  text : (m.world.input input).supply = .text
  known : final < m.world.sinks.size
  readable : m.world.Readable input []
  plays : ∃ job unsent act spent, (m.task p).phase = .active job ∧
    job.Does step f m.world final input (.sink final) unsent act ∧
    ∀ depth, m.world.prospect step input (.sink final) unsent act [] depth =
      Prod.map .inr id (told (depth + spent))

variable {f : Nat → Nat} {told : Nat → List Char × Nat}

theorem Sole.ready (h : m.Sole step f final input told p) (queue : Queue Event) :
    (m.withQueue queue).world.Ready final input (.sink final) (· = []) where
  nothing := rfl
  readable := by
    rintro _ rfl
    exact h.readable.congr rfl rfl rfl fun _ _ => rfl
  apart := fun _ he => by cases he
  known := fun _ he => by cases he
  writable := fun _ he => by cases he
  sink := by
    intro sink he
    obtain rfl := Output.sink.inj he
    exact ⟨rfl, h.known⟩

/-- **Every turn** keeps what is told of the program, unless it fails or has come to its end. -/
theorem Sole.turn (h : m.Sole step f final input told p) (ht : m.Turn m') :
    m'.Sole step f final input told p ∨ (∃ abort, m'.result? p = some (.error abort)) ∨
      ∃ status, m'.Closing p (f status) ∧ ∃ spent, ∀ depth,
        told (depth + spent) = ((m'.world.sinkText final).toList, status) := by
  obtain ⟨job, unsent, act, spent, hph, hd, htold⟩ := h.plays
  obtain ⟨queue, rfl | rfl⟩ := h.toLeft.turn (.inl ⟨job, hph⟩) ht
  · exact .inl ⟨h.toLeft.withQueue queue, h.text, h.known,
      h.readable.congr rfl rfl rfl fun _ _ => rfl, job, unsent, act, spent, hph, hd.congr rfl,
      htold⟩
  have hlt : p < (m.withQueue queue).tasks.size :=
    lt_size_of_result?_eq_none (m := m) (result?_eq_none_of_active hph)
  have hleft := h.toLeft.withQueue queue
  have hdoes : job.Does step f (m.withQueue queue).world final input (.sink final) unsent act :=
    hd.congr rfl
  have hturn := hdoes.turn p (h.ready queue)
  rcases hadv : job.advance p (m.withQueue queue).world with ⟨w₁, phase⟩
  rw [hadv] at hturn
  -- The stage waits, ends, or fails. It writes to a sink, so it is never refused.
  cases hturn with
  | @waits _ job' unsent' act' hs hread hd' hsame =>
    obtain ⟨n, hn⟩ := hsame
    rw [resume_of_waiting (m := m.withQueue queue) hph h.live hadv]
    refine .inl ⟨hleft.became hlt _ (hs.wakes.asked.trans h.asked), (hs.alike.supply _).trans h.text,
      Nat.lt_of_lt_of_eq h.known hs.sinks.symm, hread, job', unsent', act', n + spent, ?_, hd',
      fun depth => ?_⟩
    · rw [task_became_self _ _ hlt]
    · rw [← Nat.add_assoc, ← htold]
      exact (hn [] rfl depth).symm
  | @ends _ status env hs hsame =>
    obtain ⟨n, hn⟩ := hsame
    rw [resume_of_ended (m := m.withQueue queue) hph h.live h.top hadv]
    refine .inr (.inr ⟨status, ⟨hleft.became hlt _ (hs.wakes.asked.trans h.asked), env, .inr ?_⟩,
      n + spent, fun depth => ?_⟩)
    · rw [task_became_self _ _ hlt]
    · have hnow := (htold (depth + n)).symm.trans (hn [] rfl depth)
      obtain ⟨hout, hstatus⟩ := Prod.mk.inj hnow
      rw [← Nat.add_assoc]
      exact Prod.ext ((Sum.inr.inj hout).trans (List.append_nil _)) hstatus
  | broken _ ho _ => cases ho
  | @fails _ abort =>
    rw [resume_of_ended (m := m.withQueue queue) hph h.live h.top hadv]
    exact .inr (.inl ⟨abort, result?_became_self _ hlt⟩)

end Machine

end Shell
