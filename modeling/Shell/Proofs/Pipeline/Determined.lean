/-
What a pipeline comes to.

A pipeline runs the codes of its commands, and each plays a program: it reads lines or everything
to the end, writes texts, and ends with a status, and what it does depends on nothing but what it
has read. In every run that is completed without a failure the pipeline writes the same text and
comes to the same status, whatever the capacity of its pipes and in whatever order its tasks take
turns (`Machine.pipeline_determined`).

The reason is that every such run comes to what the programs make of the text one after the other,
as far as one has to look ahead for it (`AtPrograms.gives`). Two runs may have to look differently
far, and looking far enough for both of them gives one text and one status.
-/
import Shell.Execution
import Shell.Proofs.Pipeline.Course

set_option autoImplicit false

namespace Shell

open Shell.Text

/-! ## 1. Codes -/

namespace Execution

/-- How a task ends that has nothing to do but to run a pipeline. -/
def endOutcome (r : Except Abort Outcome) (s : State) : Job Ending :=
  endStage (r.map Outcome.toStatus) s

/-- What comes after a code: the job ends with what `f` makes of the status, or fails. -/
structure EndsWith (f : Nat → Nat) (next : Except Abort Outcome → State → Job Ending) : Prop where
  status : ∀ code s, ∃ env, next (.ok (.status code)) s = .finish ⟨.ok (f code), env⟩
  broken : ∀ s, ∃ ending, next (.error .brokenPipe) s = .finish ending
  fails : ∀ abort s, abort ≠ .brokenPipe → (∀ code, abort ≠ .exit code) →
    next (.error abort) s = .fail abort

/-- The codes of the commands of a pipeline. -/
def codesOf (run : Runner) (pipeline : Pipeline) : List (Exec Outcome) :=
  (pipeline.first :: pipeline.rest).map (command run)

variable {run : Runner} {pipeline : Pipeline} {c : Context} {s : State}

/-- What a pipeline does when its commands have come to an outcome, and how its task ends then. -/
def conclude (negated : Bool) (r : Except Abort Outcome) (s : State) : Job Ending :=
  match r with
  | .ok (.status code) =>
    .finish ⟨.ok (negate negated code), { s.env with status := negate negated code }⟩
  | r => endOutcome r s

theorem pipeline_eq (run : Runner) (pipeline : Pipeline) (c : Context) (s : State) :
    Execution.pipeline run pipeline c s endOutcome =
      (if pipeline.rest.isEmpty then single run pipeline.negated pipeline.first
        else Outcome.status <$> stages (codesOf run pipeline)) c s (conclude pipeline.negated) := by
  unfold Execution.pipeline
  split
  · generalize single run pipeline.negated pipeline.first = x
    refine congrArg (x c s) (funext fun r => funext fun s => ?_)
    rcases r with abort | (code | code | levels | levels) <;> rfl
  · show _ = (Outcome.status <$> stages ((pipeline.first :: pipeline.rest).map (command run))) c s _
    generalize Outcome.status <$> stages ((pipeline.first :: pipeline.rest).map (command run)) = x
    refine congrArg (x c s) (funext fun r => funext fun s => ?_)
    rcases r with abort | (code | code | levels | levels) <;> rfl

theorem endsWith_conclude (negated : Bool) : EndsWith (negate negated) (conclude negated) where
  status := fun _ _ => ⟨_, rfl⟩
  broken := fun _ => ⟨_, rfl⟩
  fails := by
    intro abort s hb _
    cases abort with
    | brokenPipe => exact absurd rfl hb
    | _ => rfl

/-- What a pipeline does when its last stage has ended. -/
def concludeStages (negated : Bool) (s : State) : Except Abort Ending → Job Ending
  | .ok ending => conclude negated (ending.status.map Outcome.status) s
  | .error abort => conclude negated (.error abort) s

/-- A pipeline of several commands runs them as stages. -/
theorem pipeline_eq_stages (hrest : pipeline.rest ≠ []) (hcap : 1 ≤ c.limits.pipeCapacity) :
    ∃ next, Line.Closes next (negate pipeline.negated) ∧
      Execution.pipeline run pipeline c s endOutcome =
        .pipeline (codesOf run pipeline).length c.limits.pipeCapacity.toNat c.input c.output
          (fun k input output =>
            stageJob c s ((codesOf run pipeline).getD k (return .status 0)) input output) next := by
  have hempty : ¬ pipeline.rest.isEmpty = true := by
    rw [List.isEmpty_iff]
    exact hrest
  rw [pipeline_eq, if_neg hempty]
  refine ⟨concludeStages pipeline.negated s, fun status env => ⟨_, rfl⟩, ?_⟩
  show stages (codesOf run pipeline) c s _ = _
  unfold stages
  rw [if_neg (Int.not_lt.2 hcap)]
  refine congrArg (Job.pipeline _ _ _ _ _) (funext fun r => ?_)
  rcases r with abort | ⟨status, env⟩
  · rfl
  · cases status <;> rfl

/-- A pipeline of a single command runs it, and negates its status if it is to. -/
theorem pipeline_eq_single (hrest : pipeline.rest = []) :
    Execution.pipeline run pipeline c s endOutcome =
      single run pipeline.negated pipeline.first c s (conclude pipeline.negated) := by
  rw [pipeline_eq, if_pos (List.isEmpty_iff.2 hrest)]

theorem length_codesOf (run : Runner) (pipeline : Pipeline) :
    (codesOf run pipeline).length = pipeline.rest.length + 1 := by
  rw [codesOf, List.length_map, List.length_cons]

variable {σ : Type} {step : σ → Act σ} {programs : Nat → σ} {final : Nat}

/-- The commands of a pipeline play programs: several of them as stages, wherever these read and
write, and a single one where the pipeline itself reads and writes, whatever comes after it. -/
structure CommandsPlay (step : σ → Act σ) (programs : Nat → σ) (final : Nat) (run : Runner)
    (pipeline : Pipeline) (c : Context) (s : State) : Prop where
  stages : pipeline.rest ≠ [] → ∀ k x, (codesOf run pipeline)[k]? = some x → ∀ input output,
    (stageJob c s x input output).Plays step id final input output (step (programs k))
  single : pipeline.rest = [] → ∀ f next, EndsWith f next →
    (single run pipeline.negated pipeline.first c s next).Plays step f final c.input c.output
      (step (programs 0))

theorem CommandsPlay.stage (h : CommandsPlay step programs final run pipeline c s)
    (hrest : pipeline.rest ≠ []) {k : Nat} (hk : k < (codesOf run pipeline).length) (input : Nat)
    (output : Output) :
    (stageJob c s ((codesOf run pipeline).getD k (return .status 0)) input output).Plays step id
      final input output (step (programs k)) := by
  rw [List.getD_eq_getElem?_getD, List.getElem?_eq_getElem hk]
  exact h.stages hrest k _ (List.getElem?_eq_getElem hk) input output

end Execution

namespace Machine

/-! ## 2. Runs -/

variable {σ : Type} {step : σ → Act σ} {programs : Nat → σ} {text : List Char}
  {m m' : Machine Ending} {p final : Nat} {run : Runner} {pipeline : Pipeline} {c : Context}
  {s : State}

/-- A task has come to a pipeline whose commands play programs, and nobody else has anything to do.
The pipeline reads a text, of which this part has not been read yet, and writes to a sink. -/
structure AtPrograms (m : Machine Ending) (p : Nat) (run : Runner) (pipeline : Pipeline)
    (c : Context) (s : State) (final : Nat) (step : σ → Act σ) (programs : Nat → σ)
    (text : List Char) : Prop where
  phase : (m.task p).phase =
    .active (Execution.pipeline run pipeline c s Execution.endOutcome)
  plays : Execution.CommandsPlay step programs final run pipeline c s
  capacity : 1 ≤ c.limits.pipeCapacity
  top : (m.task p).starter = none
  live : (m.task p).cancelled = false
  others : ∀ i, i ≠ p → ∃ r, m.result? i = some r
  queue : m.world.queue.toList = [.resume p]
  asked : m.world.asked = []
  readable : m.world.Readable c.input []
  supply : (m.world.input c.input).supply = .text
  text : m.world.coming c.input [] = text
  output : c.output = .sink final
  known : final < m.world.sinks.size

/-- A run is completed: its first task has ended, and none that it has started has failed. -/
structure Completes (m : Machine Ending) (p : Nat) (m' : Machine Ending) : Prop where
  turns : m.Turns m'
  ended : ∃ ending, m'.result? p = some (.ok ending)
  fine : ∀ i, m.tasks.size ≤ i → i < m'.tasks.size → ∀ abort, m'.result? i ≠ some (.error abort)

/-- A run of a pipeline has written this text, and this is the status of the last command; if it
was a stage then it has ended with it, and the pipeline has made its own status of it. -/
structure Gives (m : Machine Ending) (p : Nat) (pipeline : Pipeline) (final : Nat)
    (m' : Machine Ending) (written : String) (code : Nat) : Prop where
  text : m'.world.sinkText final = m.world.sinkText final ++ written
  last : pipeline.rest ≠ [] →
    ∃ env, m'.result? (m.tasks.size + pipeline.rest.length) = some (.ok ⟨.ok code, env⟩)
  status : ∃ env, m'.result? p = some (.ok ⟨.ok (Execution.negate pipeline.negated code), env⟩)

theorem AtPrograms.alone (h : m.AtPrograms p run pipeline c s final step programs text) :
    m.Alone p c.input (.sink final) where
  live := h.live
  others := h.others
  queue := h.queue
  asked := h.asked
  known := h.readable.known
  supply := h.readable.supply
  inner := by
    intro q hq
    rw [h.supply] at hq
    cases hq
  outer := fun _ he => by cases he

/-- What is told of a pipeline: what its sink will hold, and the status of its last command. -/
def toldOf (m : Machine Ending) (pipeline : Pipeline) (final : Nat) (step : σ → Act σ)
    (programs : Nat → σ) (text : List Char) (depths : Nat → Nat) : List Char × Nat :=
  Prod.map ((m.world.sinkText final).toList ++ ·) id
    (outcomeOf step programs text pipeline.rest.length depths)

/-! ### Several programs -/

/-- The parts of a run of several stages. -/
inductive Course (line : Line) (step : σ → Act σ) (final : Nat) (f : Nat → Nat)
    (told : (Nat → Nat) → List Char × Nat) (m m' : Machine Ending) : Prop where
  | before (h : m' = m)
  | foretold (h : line.Foretold step final f told m')
  | failed (h : line.Failed m')
  | settled {status : Nat} (h : line.Settled final f told m' status)

/-- **The first turn** starts the stages, and tells what they will come to. -/
theorem AtPrograms.foretold (h : m.AtPrograms p run pipeline c s final step programs text)
    (hrest : pipeline.rest ≠ []) {queue : Queue Event} (hq : queue.toList = []) :
    (m.line p (pipeline.rest.length + 1) c.limits.pipeCapacity.toNat c.input (.sink final)).Foretold
      step final (Execution.negate pipeline.negated)
      (m.toldOf pipeline final step programs text) ((m.withQueue queue).resume p) := by
  obtain ⟨next, hcloses, heq⟩ := Execution.pipeline_eq_stages hrest h.capacity
  have hphase := h.phase
  rw [heq, h.output, Execution.length_codesOf] at hphase
  have hs := h.alone.launched hphase (Nat.succ_pos _) hq
  have hlt : p < m.tasks.size :=
    lt_size_of_result?_eq_none (result?_eq_none_of_active h.phase)
  have htells := hs.tells (Nat.succ_pos _) h.readable h.supply h.text h.known
    fun k hk => h.plays.stage hrest (by rw [Execution.length_codesOf]; exact hk)
  exact ⟨h.alone.underway hlt hs, Nat.succ_pos _, ⟨_, _, htells⟩,
    ⟨0, next, congrArg Task.phase hs.starter, hcloses⟩,
    (congrArg Task.starter hs.starter).trans h.top,
    (congrArg Task.cancelled hs.starter).trans h.live⟩

/-- **A run of several stages** is in one of its parts. -/
theorem AtPrograms.course (h : m.AtPrograms p run pipeline c s final step programs text)
    (hrest : pipeline.rest ≠ []) (hr : m.Turns m') :
    Course (m.line p (pipeline.rest.length + 1) c.limits.pipeCapacity.toNat c.input (.sink final))
      step final (Execution.negate pipeline.negated) (m.toldOf pipeline final step programs text)
      m m' := by
  induction hr with
  | refl => exact .before rfl
  | @tail m₁ m₂ _ ht ih =>
    cases ih with
    | before he =>
      subst he
      cases ht with
      | event hp =>
        -- The only turn there is starts the stages.
        obtain ⟨rfl, hq⟩ := hp.of_singleton h.queue
        exact .foretold (h.foretold hrest hq)
      | host =>
        rw [mapWorld_hostTurn h.asked]
        exact .before rfl
    | foretold hf =>
      rcases hf.turn ht with hf | hf | ⟨status, hs⟩
      · exact .foretold hf
      · exact .failed hf
      · exact .settled hs
    | failed hf => exact .failed (hf.turn ht)
    | settled hs => exact .settled (hs.turn ht)

/-- What has been told of a completed run has come true. -/
theorem AtPrograms.settled (h : m.AtPrograms p run pipeline c s final step programs text)
    (hrest : pipeline.rest ≠ []) (hc : m.Completes p m') :
    ∃ status, (m.line p (pipeline.rest.length + 1) c.limits.pipeCapacity.toNat c.input
      (.sink final)).Settled final (Execution.negate pipeline.negated)
        (m.toldOf pipeline final step programs text) m' status := by
  obtain ⟨ending, hended⟩ := hc.ended
  cases h.course hrest hc.turns with
  | before he =>
    subst he
    rw [result?_eq_none_of_active h.phase] at hended
    cases hended
  | foretold hf =>
    -- The first task still waits for its stages.
    obtain ⟨ended, next, hjoin, -⟩ := hf.waits
    rw [result?_eq_some_iff] at hended
    cases hjoin.symm.trans hended
  | failed hf =>
    obtain ⟨k, -, hlt, abort, hr⟩ := hf
    exact absurd hr (hc.fine _ (Nat.le_add_right _ _) hlt abort)
  | settled hs => exact ⟨_, hs⟩

/-! ### A single program -/

/-- The parts of a run of a single program. -/
inductive SoleCourse (step : σ → Act σ) (f : Nat → Nat) (final input : Nat)
    (told : Nat → List Char × Nat) (p : Nat) (m' : Machine Ending) : Prop where
  | sole (h : m'.Sole step f final input told p)
  | failed {abort : Abort} (h : m'.result? p = some (.error abort)) (hlt : p < m'.tasks.size)
  | closing {status : Nat} (h : m'.Closing p (f status))
      (ht : ∃ spent, ∀ depth, told (depth + spent) = ((m'.world.sinkText final).toList, status))

theorem AtPrograms.sole (h : m.AtPrograms p run pipeline c s final step programs text)
    (hrest : pipeline.rest = []) :
    m.Sole step (Execution.negate pipeline.negated) final c.input
      (fun depth => m.toldOf pipeline final step programs text fun _ => depth) p := by
  have hphase := h.phase
  rw [Execution.pipeline_eq_single hrest] at hphase
  have hplays := h.plays.single hrest _ _ (Execution.endsWith_conclude pipeline.negated)
  rw [h.output] at hplays
  refine ⟨⟨h.others, h.asked, h.top, h.live⟩, h.supply, h.known, h.readable,
    _, [], _, 0, hphase, .plays hplays, fun depth => ?_⟩
  rw [World.prospect, World.outlook, h.text, toldOf, hrest]
  rfl

/-- **A run of a single program** is in one of its parts. -/
theorem AtPrograms.sole_course (h : m.AtPrograms p run pipeline c s final step programs text)
    (hrest : pipeline.rest = []) (hr : m.Turns m') :
    SoleCourse step (Execution.negate pipeline.negated) final c.input
      (fun depth => m.toldOf pipeline final step programs text fun _ => depth) p m' := by
  induction hr with
  | refl => exact .sole (h.sole hrest)
  | @tail m₁ m₂ _ ht ih =>
    have hl := later_turn ht
    cases ih with
    | sole hs =>
      obtain ⟨job, _, _, _, hph, -⟩ := hs.plays
      have hlt := lt_size_of_result?_eq_none (result?_eq_none_of_active hph)
      rcases hs.turn ht with hs' | ⟨abort, hf⟩ | ⟨status, hclosing, htold⟩
      · exact .sole hs'
      · exact .failed hf (Nat.lt_of_lt_of_le hlt hl.size)
      · exact .closing hclosing htold
    | failed hf hlt =>
      exact .failed (hl.result p hlt _ hf) (Nat.lt_of_lt_of_le hlt hl.size)
    | closing hclosing htold =>
      obtain ⟨hclosing', -, hsinks⟩ := hclosing.turn ht
      refine .closing hclosing' ?_
      rw [World.sinkText, hsinks]
      exact htold

/-! ## 3. Results -/

/-- A task that closes and has ended has ended with its status. -/
theorem Closing.result {status : Nat} {ending : Ending} (h : m.Closing p status)
    (hr : m.result? p = some (.ok ending)) :
    ∃ env, m.result? p = some (.ok ⟨.ok status, env⟩) := by
  obtain ⟨env, hp | hp⟩ := h.ending
  · rw [result?_eq_none_of_active hp] at hr
    cases hr
  · exact ⟨env, result?_eq_of_ended hp⟩

/-- What has come true of what was told is what the programs make of the text, as far as one has to
look ahead. -/
theorem exists_outcomeOf {code : Nat}
    (h : ∃ spent : Nat → Nat, ∀ depths : Nat → Nat,
      m.toldOf pipeline final step programs text (fun k => depths k + spent k) =
        ((m'.world.sinkText final).toList, code)) :
    ∃ (written : String) (spent : Nat → Nat),
      m'.world.sinkText final = m.world.sinkText final ++ written ∧ ∀ depths : Nat → Nat,
        outcomeOf step programs text pipeline.rest.length (fun k => depths k + spent k) =
          (written.toList, code) := by
  obtain ⟨spent, htold⟩ := h
  have hpair (depths : Nat → Nat) := Prod.mk.inj (htold depths)
  refine ⟨String.ofList (outcomeOf step programs text pipeline.rest.length
    fun k => 0 + spent k).1, spent, ?_, fun depths => ?_⟩
  · rw [← String.toList_inj, String.toList_append, String.toList_ofList]
    exact (hpair fun _ => 0).1.symm
  · rw [String.toList_ofList]
    refine Prod.ext ?_ (hpair depths).2
    -- Behind the same beginning there is the same rest.
    exact List.append_cancel_left ((hpair depths).1.trans (hpair fun _ => 0).1.symm)

/-- **Every completed run of a pipeline comes to what its programs make of the text**, one after the
other, if one looks at least so far ahead. -/
theorem AtPrograms.gives (h : m.AtPrograms p run pipeline c s final step programs text)
    (hc : m.Completes p m') :
    ∃ (written : String) (code : Nat) (spent : Nat → Nat),
      m.Gives p pipeline final m' written code ∧ ∀ depths : Nat → Nat,
        outcomeOf step programs text pipeline.rest.length (fun k => depths k + spent k) =
          (written.toList, code) := by
  obtain ⟨ending, hended⟩ := hc.ended
  by_cases hrest : pipeline.rest = []
  · cases h.sole_course hrest hc.turns with
    | sole hs =>
      obtain ⟨_, _, _, _, hph, -⟩ := hs.plays
      rw [result?_eq_none_of_active hph] at hended
      cases hended
    | failed hf _ =>
      rw [hended] at hf
      cases hf
    | @closing status hclosing htold =>
      -- One looks ahead of nothing but the only program.
      have htold' : ∃ spent : Nat → Nat, ∀ depths : Nat → Nat,
          m.toldOf pipeline final step programs text (fun k => depths k + spent k) =
            ((m'.world.sinkText final).toList, status) := by
        obtain ⟨spent, ht⟩ := htold
        refine ⟨fun _ => spent, fun depths => ?_⟩
        rw [← ht (depths 0), toldOf, toldOf, hrest]
        rfl
      obtain ⟨written, spent, htext, hout⟩ := exists_outcomeOf htold'
      exact ⟨written, status, spent, ⟨htext, fun hne => absurd hrest hne,
        hclosing.result hended⟩, hout⟩
  · obtain ⟨status, hs⟩ := h.settled hrest hc
    obtain ⟨written, spent, htext, hout⟩ := exists_outcomeOf hs.told
    exact ⟨written, status, spent, ⟨htext, fun _ => hs.last, hs.toClosing.result hended⟩, hout⟩

/-- **What a pipeline comes to is determined by its programs.** Any two completed runs write the same
text and have the same status, before and after it is negated. The pipes may have any capacities, the
tasks may take turns in any orders, and the programs may go on for ever. -/
theorem pipeline_determined {m₁ m₁' m₂ m₂' : Machine Ending} {p₁ p₂ final₁ final₂ : Nat}
    {c₁ c₂ : Context} {s₁ s₂ : State}
    (h₁ : m₁.AtPrograms p₁ run pipeline c₁ s₁ final₁ step programs text)
    (h₂ : m₂.AtPrograms p₂ run pipeline c₂ s₂ final₂ step programs text)
    (hc₁ : m₁.Completes p₁ m₁') (hc₂ : m₂.Completes p₂ m₂') :
    ∃ written code, m₁.Gives p₁ pipeline final₁ m₁' written code ∧
      m₂.Gives p₂ pipeline final₂ m₂' written code := by
  obtain ⟨written₁, code₁, spent₁, hgives₁, hout₁⟩ := h₁.gives hc₁
  obtain ⟨written₂, code₂, spent₂, hgives₂, hout₂⟩ := h₂.gives hc₂
  -- Looking as far ahead as both runs together need, one sees what each has come to.
  have hsame : (written₁.toList, code₁) = (written₂.toList, code₂) := by
    rw [← hout₁ spent₂, ← hout₂ spent₁]
    exact congrArg _ (funext fun k => Nat.add_comm _ _)
  obtain ⟨hwritten, rfl⟩ := Prod.mk.inj hsame
  obtain rfl := String.toList_inj.1 hwritten
  exact ⟨written₁, code₁, hgives₁, hgives₂⟩

/-! ### A program without end -/

/-- A code that writes a line as often as its limits allow. -/
def shouting : Exec Outcome := do
  Exec.writeOutput "y\n"
  Exec.writeOutput "y\n"
  Exec.writeOutput "y\n"
  Execution.tooManyCommands

/-- A code that reads a line and writes it. -/
def repeating : Exec Outcome := do
  let line ← Exec.lift (Action.read (← Exec.context).input .line)
  Exec.writeOutput line
  return .status 3

/-- The programs of the two. The first goes on for ever. -/
inductive Sample where
  | shout
  | listen
  | heard (line : List Char)
  | done

def Sample.act : Sample → Act Sample
  | shout => .write "y\n".toList shout
  | listen => .read .line heard
  | heard line => if line = [] then .finish 3 else .write line done
  | done => .finish 3

variable {input : Nat} {output : Output}

theorem plays_shouting :
    (Execution.stageJob c s shouting input output).Plays Sample.act id final input output
      (Sample.act .shout) :=
  .write (.write (.write (.fail _ _) ⟨_, rfl⟩) ⟨_, rfl⟩) ⟨_, rfl⟩

theorem plays_repeating :
    (Execution.stageJob c s repeating input output).Plays Sample.act id final input output
      (Sample.act .listen) := by
  refine .read (fun he => by cases he) fun line => ?_
  cases line with
  | nil => exact .finish 3 _
  | cons char rest =>
    have hne : (String.ofList (char :: rest)).isEmpty = false := by simp
    have hwrite (next : Option Abort → Job Ending)
        (h : (next none).Plays Sample.act id final input output (Sample.act .done))
        (hb : ∃ ending, next (some .brokenPipe) = .finish ending) :
        (Job.write output (String.ofList (char :: rest)) next).Plays Sample.act id final input output
          (Sample.act (.heard (char :: rest))) := by
      have hw : (Job.write output (String.ofList (char :: rest)) next).Plays Sample.act id final
          input output (.write (String.ofList (char :: rest)).toList .done) := .write h hb
      rw [String.toList_ofList] at hw
      exact hw
    show Job.Plays _ _ _ _ _ (Action.writeText output (String.ofList (char :: rest)) _) _
    rw [Action.writeText, if_neg (Bool.eq_false_iff.1 hne)]
    exact hwrite _ (.finish 3 _) ⟨_, rfl⟩

/-- `! { shouting; } | { repeating; }` -/
def samplePipeline : Pipeline where
  negated := true
  first := .group 1 ⟨[]⟩
  rest := [.group 1 ⟨[⟨⟨false, .group 1 ⟨[]⟩, []⟩, []⟩]⟩]

/-- The group without statements shouts, and the other one repeats. -/
def sampleRunner : Runner := fun body => if body.statements.isEmpty then shouting else repeating

def samplePrograms : Nat → Sample
  | 0 => .shout
  | _ => .listen

def sampleContext (capacity : Int) : Context where
  limits := { pipeCapacity := capacity }
  spawner := []
  name := defaultName
  files := {}
  input := 0
  output := .sink 0
  errors := .sink 1

def sample (capacity : Int) : Machine Ending where
  tasks := #[{ phase := .active (Execution.pipeline sampleRunner samplePipeline
    (sampleContext capacity) { env := {} } Execution.endOutcome) }]
  world := { inputs := #[.ofText ""], sinks := #[[], []], queue := ⟨[.resume 0], []⟩ }

theorem sample_atPrograms {capacity : Int} (h : 1 ≤ capacity) :
    (sample capacity).AtPrograms 0 sampleRunner samplePipeline (sampleContext capacity)
      { env := {} } 0 Sample.act samplePrograms [] where
  phase := rfl
  plays := by
    refine ⟨fun _ k x hx input output => ?_, fun hrest => by cases hrest⟩
    match k with
    | 0 =>
      obtain rfl := Option.some.inj hx
      exact plays_shouting
    | 1 =>
      obtain rfl := Option.some.inj hx
      exact plays_repeating
    | k + 2 => cases hx
  capacity := h
  top := rfl
  live := rfl
  -- There is no task besides the first one.
  others := by
    intro i hi
    have hsize : (sample capacity).tasks.size ≤ i := Nat.one_le_iff_ne_zero.2 hi
    exact ⟨.error .cancelled, by rw [result?, task_of_size_le hsize]; rfl⟩
  queue := rfl
  asked := rfl
  readable := by
    refine ⟨Nat.one_pos, fun piece hp => ?_, List.not_mem_nil, fun he => ?_, fun c hc => ?_,
      fun c decoder hc => ?_⟩
    · cases hp
    · cases he
    · cases hc
    · cases hc
  supply := rfl
  text := rfl
  output := rfl
  known := Nat.two_pos

/-- Three tasks have ended with results, the first and its two stages. -/
theorem completes_of_results {turns : Nat} {capacity : Int}
    (hsize : ((sample capacity).run turns).tasks.size = 3)
    (h : ∀ i < 3, ∃ ending, ((sample capacity).run turns).result? i = some (.ok ending)) :
    (sample capacity).Completes 0 ((sample capacity).run turns) where
  turns := turns_run turns _
  ended := h 0 (by omega)
  fine := by
    intro i _ hi abort hr
    rw [hsize] at hi
    obtain ⟨ending, he⟩ := h i hi
    rw [he] at hr
    cases hr

/-- The first stage never ends by itself. In both runs it is stopped in the middle of writing, with a
line more or less in the pipe, and both runs write one line. -/
theorem sample_determined :
    (sample 1).Completes 0 ((sample 1).run 9) ∧ (sample 3).Completes 0 ((sample 3).run 7) ∧
      ∃ written code, (sample 1).Gives 0 samplePipeline 0 ((sample 1).run 9) written code ∧
        (sample 3).Gives 0 samplePipeline 0 ((sample 3).run 7) written code := by
  have hnarrow : (sample 1).Completes 0 ((sample 1).run 9) := completes_of_results rfl fun i hi => by
    match i with
    | 0 | 1 | 2 => exact ⟨_, rfl⟩
    | i + 3 => omega
  have hwide : (sample 3).Completes 0 ((sample 3).run 7) := completes_of_results rfl fun i hi => by
    match i with
    | 0 | 1 | 2 => exact ⟨_, rfl⟩
    | i + 3 => omega
  exact ⟨hnarrow, hwide, pipeline_determined (sample_atPrograms (Int.le_refl 1))
    (sample_atPrograms (by decide)) hnarrow hwide⟩

end Machine

end Shell
