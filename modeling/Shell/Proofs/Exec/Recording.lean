/-
What a pipeline records.

A pipeline that comes to a status makes it the last status of its environment, and what comes after the
last pipeline of a list or a sequence leaves it there. So the status of a list is the last status when
the list has ended. This speaks of the state after code and not of its result alone; so the comparison of two
runs is said here once more with conditions on states (`Comparison.Leads`).
-/
import Shell.Proofs.Exec.Commands

set_option autoImplicit false

namespace Shell

/-! ## 1. Conditions on states

The comparison of runs says what results are like, but not what state they leave. `Leads` adds a condition on states
before and after, with the same rules. -/

namespace Comparison

variable {K : Comparison} {k : Nat} {c : Context} {d : Depth} {E : Abort → Prop} {α β : Type}

/-- Two pieces of code become jobs that go together from every state of `P`, if what follows them does
for all values and states of `Q`. -/
def Leads (K : Comparison) (k : Nat) (c : Context) (d : Depth) (E : Abort → Prop) (P : State → Prop)
    (Q : α → State → Prop) (x x' : Exec α) : Prop :=
  K.Sound c → K.Deep d → ∀ (t : K.Task) (s : State) (j : Nat)
    (next next' : Except Abort α → State → Job Ending), K.Serves t c → K.At d s → P s → k ≤ j →
      (∀ a s' log, K.At d s' → Q a s' → x.Assigns c s log (.ok a) s' →
        K.Together t j (next (.ok a) s') (next' (.ok a) s')) →
      (∀ abort s' log, K.At d s' → E abort → abort.Good K.good → x.Assigns c s log (.error abort) s' →
        K.Together t j (next (.error abort) s') (next' (.error abort) s')) →
      (K.lenient → ∀ abort s' job, abort.IsFinal → K.Together t j (next (.error abort) s') job) →
      K.Together t j (x c s next) (x' (c.within K.limits') s next')

/-- What is related says nothing of the states, so it leads from any condition to none. -/
theorem Related.leads {x x' : Exec α} {V : α → Prop} (h : K.Related k c d E V x x')
    (P : State → Prop) : K.Leads k c d E P (fun a _ => V a) x x' := by
  intro hc hd t s j next next' ht hs _ hj hn hr hl
  refine h hc hd t s j next next' ht hs hj (fun r s' log hs' hm hx => ?_) hl
  cases r with
  | ok a => exact hn a s' log hs' hm hx
  | error abort => exact hr abort s' log hs' hm.1 hm.2 hx

/-- Less may be asked of the states after it. -/
theorem Leads.mono {x x' : Exec α} {P : State → Prop} {Q Q' : α → State → Prop}
    (h : K.Leads k c d E P Q x x') (hq : ∀ a s, Q a s → Q' a s) : K.Leads k c d E P Q' x x' :=
  fun hc hd t s j next next' ht hs hp hj hn hr hl =>
    h hc hd t s j next next' ht hs hp hj (fun a s' log hs' ha hx => hn a s' log hs' (hq a s' ha) hx) hr hl

/-- A value that is known leaves the state as it is. -/
theorem leads_pure {a : α} {P : State → Prop} {Q : α → State → Prop} (h : ∀ s, P s → Q a s) :
    K.Leads k c d E P Q (pure a) (pure a) :=
  fun _ _ _ s _ _ _ _ hs hp _ hn _ _ =>
    hn a s [] hs (h s hp) (.step (f := fun s => (.ok a, s)) fun _ => rfl)

/-- A change of the state leads to what holds after it. -/
theorem leads_modify {f : State → State} {P Q : State → Prop} (ho : ∀ s, (f s).outer = s.outer)
    (h : ∀ s, K.At d s → P s → K.At d (f s) ∧ Q (f s)) :
    K.Leads k c d E P (fun _ => Q) (Exec.modify f) (Exec.modify f) :=
  fun _ _ _ s _ _ _ _ hs hp _ hn _ _ => hn () (f s) [] (h s hs hp).1 (h s hs hp).2
    (.step (f := fun s => (.ok (), f s)) ho)

/-- One piece of code after another: what the first leads to is what the second starts from. -/
theorem Leads.bind {x x' : Exec α} {f f' : α → Exec β} {P : State → Prop} {Q : α → State → Prop}
    {W : β → State → Prop} (h : K.Leads k c d E P Q x x')
    (hf : ∀ a, K.Leads k c d E (Q a) W (f a) (f' a)) :
    K.Leads k c d E P W (x >>= f) (x' >>= f') := by
  intro hc hd t s j next next' ht hs hp hj hn hr hl
  refine h hc hd t s j _ _ ht hs hp hj (fun a s₁ log hs₁ ha hx => ?_)
    (fun abort s₁ log hs₁ he hg hx => hr abort s₁ log hs₁ he hg (.bind_error hx)) hl
  exact hf a hc hd t s₁ j next next' ht hs₁ ha hj
    (fun b s' log' hs' hb hx' => hn b s' (log ++ log') hs' hb (.bind_ok hx hx'))
    (fun abort s' log' hs' he hg hx' => hr abort s' (log ++ log') hs' he hg (.bind_ok hx hx')) hl

/-- Both branches lead there. -/
theorem Leads.ite {p : Prop} [Decidable p] {x x' y y' : Exec α} {P : State → Prop}
    {Q : α → State → Prop} (hx : p → K.Leads k c d E P Q x x')
    (hy : ¬ p → K.Leads k c d E P Q y y') :
    K.Leads k c d E P Q (if p then x else y) (if p then x' else y') := by
  split
  · next h => exact hx h
  · next h => exact hy h

end Comparison

/-! ## 2. The status of a sequence

Statuses are recorded by pipelines. Upwards from these, each construct comes to the status of the pipeline that has
run last. -/

/-- An outcome that its depth allows, and that the last status is the one of if it is a status. -/
def Outcome.Recorded (good : Nat → Prop) (d : Depth) (outcome : Outcome) (s : State) : Prop :=
  outcome.May good d ∧ ∀ status, outcome = .status status → s.env.status = status

namespace Execution

open Comparison

variable {K : Comparison} {k : Nat} {run run' : Runner} {c : Context} {d : Depth}

/-- A status is the last status when it has been recorded. -/
theorem leads_record (negated : Bool) (outcome : Outcome) :
    K.Leads k c d c.Stops (fun _ => outcome.May K.good d) (Outcome.Recorded K.good d)
      (record negated outcome) (record negated outcome) := by
  cases outcome with
  | status code =>
    refine Leads.bind (Q := fun _ s => K.good s.env.status ∧ s.env.status = negate negated code)
      (leads_modify (fun _ => rfl) fun s hs ho => ?_) fun _ => ?_
    · have hgood := good_negate negated ho.2
      exact ⟨hs.withEnv ⟨hs.holds.calls, hgood⟩, hgood, rfl⟩
    · refine leads_pure fun s hs => ⟨⟨trivial, hs.2 ▸ hs.1⟩, fun status hstatus => ?_⟩
      obtain rfl := Outcome.status.inj hstatus
      exact hs.2
  | returned | broken | continued => exact leads_pure fun s ho => ⟨ho, nofun⟩

/-- A pipeline records its status. -/
theorem leads_pipeline (hrun : K.Runs k run run') (p : Pipeline) (P : State → Prop) :
    K.Leads k c d c.Stops P (Outcome.Recorded K.good d) (pipeline run p) (pipeline run' p) := by
  by_cases hp : p.rest.isEmpty = true
  · rw [pipeline_of_isEmpty hp, pipeline_of_isEmpty hp]
    exact ((related_single hrun p.negated p.first).leads P).bind (leads_record p.negated)
  · rw [pipeline_of_not_isEmpty hp, pipeline_of_not_isEmpty hp]
    have hstages := related_stages (c := c) (d := d) (p.first :: p.rest) (List.cons_ne_nil _ _)
      fun command _ _ _ => related_command hrun command
    have hstatus : K.Comes k c d
        (Outcome.status <$> stages ((p.first :: p.rest).map (command run)))
        (Outcome.status <$> stages ((p.first :: p.rest).map (command run'))) :=
      hstages.map fun _ hg => ⟨trivial, hg⟩
    exact (hstatus.leads P).bind (leads_record p.negated)

/-- By induction on the pipelines that are left. If none is run, the status of the one before is still the last. -/
theorem leads_joined (hrun : K.Runs k run run') (outcome : Outcome) (rest : List Joined) :
    K.Leads k c d c.Stops (outcome.Recorded K.good d) (Outcome.Recorded K.good d)
      (joined run outcome rest) (joined run' outcome rest) := by
  induction rest generalizing outcome with
  | nil => cases outcome <;> exact leads_pure fun _ h => h
  | cons next rest ih =>
    cases outcome with
    | status status =>
      refine Leads.ite (fun _ => ?_) fun _ => ih _
      exact (leads_pipeline hrun next.pipeline _).bind ih
    | returned | broken | continued => exact leads_pure fun _ h => h

/-- The first pipeline records its status, and so does each that is run after it. -/
theorem leads_andOr (hrun : K.Runs k run run') (list : AndOrList) (P : State → Prop) :
    K.Leads k c d c.Stops P (Outcome.Recorded K.good d) (andOr run list) (andOr run' list) :=
  (leads_pipeline hrun list.first P).bind fun outcome => leads_joined hrun outcome list.rest

/-- Statements come to the last status, unless there are none. -/
theorem leads_statements {one one' : AndOrList → Exec Outcome}
    (h : ∀ list P, K.Leads k c d c.Stops P (Outcome.Recorded K.good d) (one list) (one' list))
    {status : Nat} (hstatus : K.good status) (lists : List AndOrList) {P : State → Prop}
    (hp : lists = [] → ∀ s, P s → s.env.status = status) :
    K.Leads k c d c.Stops P (Outcome.Recorded K.good d) (statements one status lists)
      (statements one' status lists) := by
  -- The status before a list is the one that the list before it has recorded.
  induction lists generalizing status P with
  | nil =>
    refine leads_pure fun s hs => ⟨⟨trivial, hstatus⟩, fun n hn => ?_⟩
    exact Outcome.status.inj hn ▸ hp rfl s hs
  | cons list rest ih =>
    refine (h list P).bind fun outcome => ?_
    cases outcome with
    | status code =>
      intro hc hd t s j next next' ht hs ho
      exact ih ho.1.2 (P := fun s => s.env.status = code) (fun _ s hs => hs) hc hd t s j next next' ht hs
        (ho.2 code rfl)
    | returned | broken | continued => exact leads_pure fun _ ho => ho

/-- **A sequence that is not empty records its status.** -/
theorem leads_sequence (budget : Nat) (body : Sequence) (hbody : body.statements ≠ []) (P : State → Prop) :
    K.Leads k c d c.Stops P (Outcome.Recorded K.good d) (sequence budget body) (sequence budget body) := by
  have hcount (k : Nat) : K.Related k c d c.Stops (fun _ => True) countCommand countCommand :=
    Exec.bind_pure countCommand ▸ related_countCommand fun _ _ _ => related_pure trivial
  -- Without a budget every list stops at the count, so nothing has to be recorded.
  cases budget with
  | zero =>
    refine leads_statements (fun list P => ((hcount k).leads P).bind fun _ => ?_) (K.byte 0 (by decide))
      body.statements fun h => absurd h hbody
    exact (related_tooManyCommands.leads _).mono fun _ _ h => False.elim h
  | succ budget =>
    refine leads_statements (fun list P => ((hcount k).leads P).bind fun _ => ?_) (K.byte 0 (by decide))
      body.statements fun h => absurd h hbody
    exact leads_andOr (runs_self budget) list _

end Execution

end Shell
