/-
Commands.

Every node of a script keeps the depth at which it runs and comes to a signal only for what is
around it. The constructs that change the depth undo that in the end: a loop is left, a call is left,
and variables set for the time of a command are restored. Loops also change what they are passed: a
signal for one loop stays there, and one for more is passed on for one less (`fits_of_pass`).

The sequences of a script are run with a budget, and the induction is on it (`runs_sequence`). Two runs may
have different budgets, if the one that is used up first has too many lists behind it by then.
-/
import Shell.Execution
import Shell.Proofs.Exec.Builtins

set_option autoImplicit false

namespace Shell

open Comparison

variable {K : Comparison} {k : Nat} {run run' : Runner} {c : Context} {d : Depth}

/-- A loop is left as it was entered, however it ends. -/
theorem Comparison.Related.inLoop {α : Type} {x x' : Exec α} {E : Abort → Prop} {V : α → Prop}
    (h : K.Related k c d.inLoop E V x x') :
    K.Related k c d E V (Execution.inLoop x) (Execution.inLoop x') := by
  refine related_scope (fun _ => rfl) (fun _ => rfl) fun s hs => ⟨d.inLoop, ?_, K.deep_loop, ?_, h⟩
  · refine ⟨?_, hs.good.env, hs.good.outer, hs.good.substitution⟩
    obtain rfl := hs.depth
    rfl
  · refine fun s' hs' => ⟨?_, hs'.good.env, hs'.good.outer, hs'.good.substitution⟩
    have hloops : s'.loopDepth = d.loops + 1 := congrArg Depth.loops hs'.depth
    have hcalls : s'.env.calls = d.calls := congrArg Depth.calls hs'.depth
    have haround : s'.outer.map Environment.calls = d.around := congrArg Depth.around hs'.depth
    simp only [State.depth, hloops, hcalls, haround, Nat.add_sub_cancel]

/-- The environment after a call has the frame of the caller again. -/
theorem Environment.leaveCall_eq {env : Environment} {frame : Frame} {callers : List Frame}
    (h : env.callers = frame :: callers) :
    env.leaveCall =
      { env with frame := frame, callers := callers, callDepth := env.callDepth - 1 } := by
  unfold leaveCall popFrame?
  rw [h]

/-- The state in which the body of a function starts. -/
def State.enterCall (s : State) (frame : Frame) : State :=
  { s with
    env := { s.env.pushFrame frame with callDepth := s.env.callDepth + 1 }
    loopDepth := 0 }

/-- The state after a call that was made in `s`. -/
def State.leaveCall (s after : State) : State :=
  { after with env := after.env.leaveCall, loopDepth := s.loopDepth }

namespace Execution

/-! ## 1. Choices and loops -/

/-- By induction on the branches: the condition is run, and by its status the body or the branches that are left. -/
theorem related_choose (hrun : K.Runs k run run') (otherwise : Option Sequence)
    (branches : List Branch) :
    K.Comes k c d (choose run otherwise branches) (choose run' otherwise branches) := by
  -- The conditions are tried in turn, so the induction is on the branches that are left.
  induction branches with
  | nil =>
    cases otherwise with
    | none => exact comes_small 0 (by decide)
    | some body => exact hrun c d body
  | cons branch branches ih =>
    refine (hrun c d branch.condition).bind fun outcome ho => ?_
    cases outcome with
    | status code =>
      cases code with
      | zero => exact hrun c d branch.body
      | succ => exact ih
    | returned | broken | continued => exact related_pure ho

/-- What a loop passes on is for what is around it. -/
theorem fits_of_pass {outcome passed : Outcome} (h : outcome.May K.good d.inLoop)
    (hp : Reaction.ofOutcome outcome = .pass passed) : passed.May K.good d := by
  cases outcome with
  | status code => cases hp
  | returned code =>
    obtain rfl := Reaction.pass.inj hp
    exact h
  | broken levels | continued levels =>
    simp only [Reaction.ofOutcome] at hp
    split at hp
    -- A signal that is passed on has lost a level, and so it fits outside of the loop.
    · obtain rfl := Reaction.pass.inj hp
      have hle : levels ≤ d.loops + 1 := h.1.2
      exact ⟨⟨by omega, by omega⟩, trivial⟩
    · cases hp

/-- A status that a loop goes on with is that of its code. -/
theorem good_of_reaction {outcome : Outcome} {code : Nat} (h : outcome.May K.good d)
    (hr : Reaction.ofOutcome outcome = .status code) : K.good code := by
  cases outcome with
  | status => exact Reaction.status.inj hr ▸ h.2
  | returned => cases hr
  | broken levels | continued levels =>
    simp only [Reaction.ofOutcome] at hr
    split at hr <;> cases hr

/-- A loop that has gone around as often as it may, beside one that may be allowed to go on. -/
theorem related_tooManyRounds (loop : String) {V : Outcome → Prop} :
    K.Related k c d c.Stops V (tooManyRounds loop) (tooManyRounds loop) :=
  related_limit (fun limits => .iterations loop limits.maxLoopIterations) trivial

/-- The first loop may have fewer rounds left if the comparison is lenient. -/
theorem related_rounds (hrun : K.Runs k run run') (kind : LoopKind) (condition body : Sequence)
    {left left' : Nat} (hleft : left' = left ∨ K.lenient ∧ left ≤ left') {status : Nat}
    (hstatus : K.good status) :
    K.Related k c d.inLoop c.Stops (Outcome.May K.good d)
      (rounds run kind condition body left status) (rounds run' kind condition body left' status) := by
  -- By induction on the rounds that are left under the smaller limit. Where they run out under the smaller one
  -- only, the comparison is lenient and asks for nothing more.
  induction left generalizing left' status with
  | zero =>
    rcases hleft with rfl | ⟨hlenient, -⟩
    · exact related_tooManyRounds _
    · exact related_context (related_pardon hlenient)
  | succ left ih =>
    obtain ⟨left', rfl, hnext⟩ : ∃ n, left' = n + 1 ∧ (n = left ∨ K.lenient ∧ left ≤ n) := by
      rcases hleft with rfl | ⟨hlenient, hle⟩
      · exact ⟨left, rfl, .inl rfl⟩
      · exact ⟨left' - 1, by omega, .inr ⟨hlenient, by omega⟩⟩
    refine (hrun c d.inLoop condition).bind fun outcome ho => ?_
    cases hr : Reaction.ofOutcome outcome with
    | pass passed => exact related_pure (fits_of_pass ho hr)
    | stop => exact related_pure ⟨trivial, hstatus⟩
    | next => exact ih hnext hstatus
    | status code =>
      -- The condition has given a status, and so says whether there is another round.
      refine Related.ite (fun _ => ?_) fun _ => related_pure ⟨trivial, hstatus⟩
      refine (hrun c d.inLoop body).bind fun outcome ho => ?_
      cases hr : Reaction.ofOutcome outcome with
      | pass passed => exact related_pure (fits_of_pass ho hr)
      | stop => exact related_pure ⟨trivial, K.byte 0 (by decide)⟩
      | next => exact ih hnext (K.byte 0 (by decide))
      | status code => exact ih hnext (good_of_reaction ho hr)

/-- By induction on the words. Two runs may have different limits, if the comparison is lenient. -/
theorem related_roundsOver (hrun : K.Runs k run run') (name : String) (body : Sequence)
    (words : List String) {left left' : Nat} (hleft : left' = left ∨ K.lenient ∧ left ≤ left')
    {status : Nat} (hstatus : K.good status) :
    K.Related k c d.inLoop c.Stops (Outcome.May K.good d)
      (roundsOver run name body words left status) (roundsOver run' name body words left' status) := by
  -- Here the words are what gets less. The rounds may run out first, as in the other loops.
  induction words generalizing left left' status with
  | nil => exact related_pure ⟨trivial, hstatus⟩
  | cons word words ih =>
    cases left with
    | zero =>
      rcases hleft with rfl | ⟨hlenient, -⟩
      · exact related_tooManyRounds _
      · exact related_context (related_pardon hlenient)
    | succ left =>
      obtain ⟨left', rfl, hnext⟩ : ∃ n, left' = n + 1 ∧ (n = left ∨ K.lenient ∧ left ≤ n) := by
        rcases hleft with rfl | ⟨hlenient, hle⟩
        · exact ⟨left, rfl, .inl rfl⟩
        · exact ⟨left' - 1, by omega, .inr ⟨hlenient, by omega⟩⟩
      refine Related.bind (V := fun _ => True) (related_modifyEnv fun _ he => ⟨he.calls, he.good⟩)
        fun _ _ => ?_
      refine (hrun c d.inLoop body).bind fun outcome ho => ?_
      cases hr : Reaction.ofOutcome outcome with
      | pass passed => exact related_pure (fits_of_pass ho hr)
      | stop => exact related_pure ⟨trivial, K.byte 0 (by decide)⟩
      | next => exact ih hnext (K.byte 0 (by decide))
      | status code => exact ih hnext (good_of_reaction ho hr)

/-- How many rounds the two runs may have. -/
theorem related_maxRounds {β : Type} {E : Abort → Prop} {V : β → Prop} {f f' : Nat → Exec β}
    (h : ∀ left left', left' = left ∨ K.lenient ∧ left ≤ left' →
      K.Related k c d E V (f left) (f' left')) :
    K.Related k c d E V (maxRounds >>= f) (maxRounds >>= f') := by
  intro hc
  -- Two comparisons differ in the limit only if the one that goes on longer is allowed to.
  have hleft : K.limits'.maxLoopIterations.toNat = c.limits.maxLoopIterations.toNat ∨
      K.lenient ∧ c.limits.maxLoopIterations.toNat ≤ K.limits'.maxLoopIterations.toNat := by
    rw [K.limits_eq hc]
    rcases K.strict with heq | hlenient
    · exact .inl (by rw [heq])
    · exact .inr ⟨hlenient, Int.toNat_le_toNat K.below.loopIterations⟩
  have hrounds : K.Related k c d E V (Exec.context >>= fun c => f c.limits.maxLoopIterations.toNat)
      (Exec.context >>= fun c => f' c.limits.maxLoopIterations.toNat) :=
    related_context (h _ _ hleft)
  exact hrounds hc

/-- A loop is one level deeper than what is around it, and its signals are passed on from there. -/
theorem related_loop (hrun : K.Runs k run run') (kind : LoopKind) (condition body : Sequence) :
    K.Comes k c d (loop run kind condition body) (loop run' kind condition body) :=
  related_maxRounds fun _ _ hleft =>
    (related_rounds hrun kind condition body hleft (K.byte 0 (by decide))).inLoop

/-- A loop over words, which are expanded before the loop is entered. -/
theorem related_each (hrun : K.Runs k run run') (name : String) (words : Option (List Word))
    (body : Sequence) : K.Comes k c d (each run name words body) (each run' name words body) := by
  -- The words have become texts, whichever they were.
  have hgo (values : List String) : K.Comes k c d
      (do inLoop (roundsOver run name body values (← maxRounds) 0))
      (do inLoop (roundsOver run' name body values (← maxRounds) 0)) :=
    related_maxRounds fun _ _ hleft =>
      (related_roundsOver hrun name body values hleft (K.byte 0 (by decide))).inLoop
  cases words with
  | none => exact related_env.bind fun env _ => hgo _
  | some words =>
    refine (Expansion.related_fields hrun words).attempt.bind fun r _ => ?_
    cases r with
    | ok values => exact hgo values
    | error e => exact comes_diagnosed _ 1 (by decide)

/-! ## 2. Simple commands -/

/-- The value of an assignment is a word that is expanded. -/
theorem related_assignedValue (hrun : K.Runs k run run') (a : Assignment) :
    K.Related k c d c.Spoils (fun _ => True) (assignedValue run a) (assignedValue run' a) := by
  refine (Expansion.related_wordText hrun a.value).bind fun value _ => ?_
  refine Related.ite (fun _ => ?_) fun _ => related_pure trivial
  exact related_env.bind fun _ _ => related_pure trivial

/-- By induction on the assignments. -/
theorem related_assignAll (hrun : K.Runs k run run') (assignments : List Assignment) :
    K.Related k c d c.Spoils (fun _ => True) (assignAll run assignments)
      (assignAll run' assignments) := by
  induction assignments with
  | nil => exact related_pure trivial
  | cons a rest ih =>
    refine (related_assignedValue hrun a).bind fun value _ => ?_
    refine Related.bind (V := fun _ => True) (related_modifyEnv fun _ he => ⟨he.calls, he.good⟩)
      fun _ _ => ?_
    exact ih

/-- By induction on the assignments, of which only the values are computed. -/
theorem related_temporaryValues (hrun : K.Runs k run run') (values : List (String × String))
    (assignments : List Assignment) :
    K.Related k c d c.Spoils (fun _ => True) (temporaryValues run values assignments)
      (temporaryValues run' values assignments) := by
  induction assignments generalizing values with
  | nil => exact related_pure trivial
  | cons a rest ih => exact (related_assignedValue hrun a).bind fun value _ => ih _

/-- The status of assignments is that of the last substitution in them. -/
theorem related_assignOnly (hrun : K.Runs k run run') (assignments : List Assignment) :
    K.Comes k c d (assignOnly run assignments) (assignOnly run' assignments) := by
  refine Related.bind (V := fun _ => True) (related_modify (fun _ => rfl) fun s hs => ?_) fun _ _ => ?_
  · exact ⟨hs.depth, hs.good.env, hs.good.outer, nofun⟩
  refine (related_assignAll hrun assignments).attempt.bind fun r _ => ?_
  cases r with
  | ok _ =>
    refine related_get.bind fun s hs => comes_status ?_
    cases hn : s.substitution with
    | none => exact K.byte 0 (by decide)
    | some status => exact hs.good.substitution status hn
  | error e => exact comes_diagnosed _ 1 (by decide)

/-- A call is one level deeper, and in no loop. -/
theorem at_enterCall {s : State} (hs : K.At d s) (frame : Frame) :
    K.At (d.inCall s.env.frame) (s.enterCall frame) := by
  refine ⟨?_, hs.good.env, hs.good.outer, hs.good.substitution⟩
  obtain rfl := hs.depth
  rfl

/-- The frame of a call is still the innermost one when the body has ended. -/
theorem at_leaveCall {s after : State} {frame : Frame} (hs : K.At d s)
    (ha : K.At (d.inCall frame) after) : K.At d (s.leaveCall after) := by
  have hloops : s.loopDepth = d.loops := congrArg Depth.loops hs.depth
  have hdepth : after.env.callDepth = d.calls.1 + 1 := congrArg Prod.fst ha.holds.calls
  have hcallers : after.env.callers = frame :: d.calls.2 := congrArg Prod.snd ha.holds.calls
  have haround : after.outer.map Environment.calls = d.around := congrArg Depth.around ha.depth
  -- The frame of the caller is the one on top, and it is taken off.
  have hleave := Environment.leaveCall_eq hcallers
  refine ⟨?_, ?_, ha.good.outer, ha.good.substitution⟩
  · simp only [State.depth, State.leaveCall, hleave, hloops, haround, Environment.calls, hdepth,
      Nat.add_sub_cancel]
  · show K.good after.env.leaveCall.status
    rw [hleave]
    exact ha.good.env

/-- A call is left as it was entered. No loop is around its body. -/
theorem related_callFunction (hrun : K.Runs k run run') (name : String) (body : Sequence)
    (args : List String) :
    K.Related k c d c.Stops K.good (callFunction run name body args)
      (callFunction run' name body args) := by
  intro hc
  -- Both runs meet the limit at the same depth, or the second one may go deeper.
  have hlimits : K.limits'.maxCallDepth = c.limits.maxCallDepth ∨
      K.lenient ∧ c.limits.maxCallDepth ≤ K.limits'.maxCallDepth := by
    rw [K.limits_eq hc]
    rcases K.strict with heq | hlenient
    · exact .inl (by rw [heq])
    · exact .inr ⟨hlenient, K.below.callDepth⟩
  refine related_context (related_get.bind (W := K.good) fun before hb => ?_) hc
  have hbefore : before.env.callDepth = d.calls.1 := congrArg Prod.fst hb.holds.calls
  -- Below the limit the body runs in the new frame, which is left however the body ends.
  have hcall (h : ¬ c.limits.maxCallDepth ≤ before.env.callDepth) :
      K.Related k c d c.Stops K.good
        (do
          Exec.modify (State.enterCall · ⟨args, some name⟩)
          return (← (run body).ensure before.leaveCall).toStatus)
        (do
          Exec.modify (State.enterCall · ⟨args, some name⟩)
          return (← (run' body).ensure before.leaveCall).toStatus) := by
    have hbody : K.Related k c d c.Stops (Outcome.Good K.good)
        (Exec.modify (State.enterCall · ⟨args, some name⟩) >>= fun _ =>
          (run body).ensure before.leaveCall)
        (Exec.modify (State.enterCall · ⟨args, some name⟩) >>= fun _ =>
          (run' body).ensure before.leaveCall) := by
      refine related_scope (fun _ => rfl) (fun _ => rfl) fun s hs =>
        ⟨d.inCall s.env.frame, at_enterCall hs _, fun hd => K.deep_call _ hd ?_,
          fun s' hs' => at_leaveCall hb hs', (hrun c _ body).mono (fun _ he => he) fun _ ho => ho.2⟩
      rw [← K.limits_eq hc]
      omega
    exact hbody.bind fun outcome ho => related_pure (good_toStatus ho)
  -- At the limit of the first run, the second one fails in the same way or is not looked at any more.
  by_cases hlimit : c.limits.maxCallDepth ≤ before.env.callDepth
  · rw [if_pos hlimit]
    rcases hlimits with heq | ⟨hlenient, -⟩
    · have hlimit' : K.limits'.maxCallDepth ≤ before.env.callDepth := by omega
      have habort : K.Related k c d c.Stops K.good
          (Exec.abort (.limit (.callDepth c.limits.maxCallDepth)))
          (Exec.abort (.limit (.callDepth K.limits'.maxCallDepth))) := by
        rw [heq]
        exact related_abort trivial trivial
      exact Eq.subst (motive := K.Related k c d c.Stops K.good _) (if_pos hlimit').symm habort
    · exact related_pardon hlenient
  · have hlimit' : ¬ K.limits'.maxCallDepth ≤ before.env.callDepth := by omega
    rw [if_neg hlimit]
    exact Eq.subst (motive := K.Related k c d c.Stops K.good _) (if_neg hlimit').symm (hcall hlimit)

/-- A utility that a name is resolved to is the one that the name has. -/
theorem find?_of_resolve? {env : Environment} {spawner : Spawner} {name : String}
    {utility : Utility} (h : Meaning.resolve? env spawner name = some (.utility utility)) :
    spawner.find? name = some utility := by
  unfold Meaning.resolve? Meaning.runnable at h
  cases hb : Builtin.ofName? name <;> cases hf : env.function? name <;>
    cases hu : spawner.find? name <;> simp_all

/-- **The first field is a name**: of a builtin, of a function, or of a utility, and otherwise it is not found. -/
theorem related_runFields (hrun : K.Runs k run run') (fields : List String) :
    K.Comes k c d (runFields run fields) (runFields run' fields) := by
  cases fields with
  | nil => exact comes_small 0 (by decide)
  | cons name args =>
    refine related_env.bind fun env _ => related_context ?_
    -- A name without a meaning and a keyword are reported in the same way.
    have hnot : K.Comes k c d
        (do Exec.diagnose (notFound name); return .status notFoundStatus)
        (do Exec.diagnose (notFound name); return .status notFoundStatus) :=
      comes_diagnosed _ 127 (by decide)
    rw [Context.within_spawner]
    cases hm : Meaning.resolve? env c.spawner name with
    | none => exact hnot
    | some meaning =>
      cases meaning with
      | keyword _ => exact hnot
      | builtin which => exact Builtin.related_run hrun which args
      | function body =>
        exact (related_callFunction hrun name body args).bind fun _ hg => comes_status hg
      | utility utility =>
        exact (Builtin.related_start (find?_of_resolve? hm) args).bind fun _ hg => comes_status hg

/-- Variables set for a command change neither the depth nor the status. -/
theorem standing_applyTemporary (env : Environment) (values : List (String × String)) :
    (env.applyTemporary values).1.standing = env.standing := by
  have hfold (values : List (String × String)) (p : Environment × List Restore) :
      (values.foldl (fun p value => (p.1.override value.1 value.2, p.1.saved value.1 :: p.2)) p).1.standing =
        p.1.standing := by
    induction values generalizing p with
    | nil => rfl
    | cons value values ih => exact ih _
  exact hfold values (env, [])

/-- And restoring them does not either. -/
theorem standing_restoreTemporary (env : Environment) (saved : List Restore) :
    (env.restoreTemporary saved).standing = env.standing := by
  unfold Environment.restoreTemporary
  induction saved generalizing env with
  | nil => rfl
  | cons r saved ih =>
    refine (ih (env.restore r)).trans ?_
    unfold Environment.restore
    cases r.value <;> cases r.exported <;> rfl

/-- What is set for the time of code is no part of the depth. -/
theorem related_withTemporary {x x' : Exec Outcome} (values : List (String × String))
    (h : K.Comes k c d x x') : K.Comes k c d (withTemporary values x) (withTemporary values x') := by
  refine related_env.bind fun env he => ?_
  have hset : K.Holds d (env.applyTemporary values).1 :=
    he.of_standing (standing_applyTemporary env values)
  exact related_scope (fun _ => rfl) (fun _ => rfl) fun s hs => ⟨d, hs.withEnv hset, id,
    fun s' hs' => hs'.withEnv (hs'.holds.of_standing (standing_restoreTemporary _ _)), h⟩

/-- The words of a command are expanded, its assignments are made, it is run, and they are undone. -/
theorem related_runNamed (hrun : K.Runs k run run') (words : List Word)
    (assignments : List Assignment) :
    K.Comes k c d (runNamed run words assignments) (runNamed run' words assignments) := by
  refine (related_temporaryValues hrun [] assignments).attempt.bind fun r _ => ?_
  cases r with
  | error e => exact comes_diagnosed _ 1 (by decide)
  | ok values =>
    refine related_withTemporary values ?_
    refine (Expansion.related_fields hrun words).attempt.bind fun r _ => ?_
    cases r with
    | error e => exact comes_diagnosed _ 1 (by decide)
    | ok fields => exact related_runFields hrun fields

/-- A simple command has a name or is made of assignments. -/
theorem related_simple (hrun : K.Runs k run run') (name : Option Word) (args : List Word)
    (assignments : List Assignment) :
    K.Comes k c d (simple run name args assignments) (simple run' name args assignments) := by
  cases name with
  | none => exact related_assignOnly hrun assignments
  | some word => exact related_runNamed hrun (word :: args) assignments

/-! ## 3. Pipelines -/

/-- A stage fails with what only the end of the run deals with. -/
theorem endStage_of_isFinal {abort : Abort} (h : abort.IsFinal) (s : State) :
    endStage (.error abort) s = .fail abort := by
  cases abort with
  | limit _ | fault _ => rfl
  | exit _ | expansion _ | brokenPipe | cancelled => exact h.elim

/-- The ends of two stages go together. -/
theorem together_stageJob {x x' : Exec Outcome} {t : K.Task} {s : State} {j input : Nat}
    {output : Output} (hc : K.Sound c) (hd : K.Deep d) (ht : K.Serves t c) (hs : K.At d s) (hj : k ≤ j)
    (h : K.Comes k { c with input := input, output := output } (d.forked false) x x') :
    K.Together (K.stage input output) j (stageJob c s x input output)
      (stageJob (c.within K.limits') s x' input output) := by
  refine h.fork (E := fun abort => (∀ status, abort ≠ .exit status) ∧
      Context.Stops { c with input := input, output := output } abort) (W := K.good) rfl
    (fun _ ha hn => ⟨hn, ha⟩) (fun _ ho => good_toStatus ho.2) (fun _ _ hg => hg)
    (K.sound_streams input output hc) hd (K.serves_stage input output ht) hs hj
    (fun r s' log hs' hr _ => ?_) fun hlenient abort s' job ha => by
      rw [endStage_of_isFinal ha]
      exact K.pardon hlenient ha
  -- A stage that ends well has a status, and its environment is given back.
  have hfinish (status : Nat) (hstatus : K.good status) :
      K.Together (K.stage input output) j (.finish ⟨.ok status, s'.env⟩)
        (.finish ⟨.ok status, s'.env⟩) := by
    refine K.finish ⟨⟨status, rfl⟩, fun ending n hend hn => ?_⟩
    obtain rfl := Except.ok.inj hend
    exact Except.ok.inj hn ▸ hstatus
  -- A broken pipe becomes a status. The other ways to end early are those of a pipeline, or are excluded by what a
  -- fork stops with.
  cases r with
  | ok status => exact hfinish status hr
  | error abort =>
    obtain ⟨⟨hn, ha⟩, -⟩ := hr
    cases abort with
    | exit status => exact absurd rfl (hn status)
    | limit _ => exact K.fail ⟨trivial, nofun⟩
    | expansion _ => exact ha.elim
    | brokenPipe => exact hfinish brokenPipeStatus (K.byte 141 (by decide))
    | fault _ =>
      refine K.fail ⟨fun he => ?_, nofun⟩
      rw [← K.limits_eq hc]
      exact ha he
    | cancelled => exact ha.elim

/-- Stages that go together one by one. -/
theorem related_stages {ι : Type} {f f' : ι → Exec Outcome} (l : List ι) (hl : l ≠ [])
    (h : ∀ a ∈ l, ∀ c d, K.Comes k c d (f a) (f' a)) :
    K.Related k c d c.Stops K.good (stages (l.map f)) (stages (l.map f')) := by
  intro hc hd t s j next next' ht hs hj hn hlenient
  -- Pipes are as large under both limits, so the bytes travel in the same pieces.
  have hcapacity : (c.within K.limits').limits.pipeCapacity = c.limits.pipeCapacity := by
    rw [K.limits_eq hc]
    exact K.below.pipeCapacity
  unfold stages
  rw [hcapacity, List.length_map, List.length_map]
  -- Pipes of no size are refused before any stage has started.
  split
  · next hcap => exact hn _ _ [] hs ⟨fun _ => hcap, trivial⟩ .stages
  · refine K.pipeline ht (List.length_pos_iff.mpr hl) (by omega)
      (fun index input output => ?_) (fun r hr => ?_) fun hl abort job => hlenient hl abort s job
    · refine together_stageJob hc hd ht hs hj ?_
      rw [List.getD_eq_getElem?_getD, List.getD_eq_getElem?_getD, List.getElem?_map,
        List.getElem?_map]
      -- There is a stage for each index that is asked for, so that the other case does not matter.
      cases ha : l[index]? with
      | none => exact comes_small 0 (by decide)
      | some a => exact h a (List.mem_of_getElem? ha) _ _
    · cases r with
      | ok ending =>
        obtain ⟨⟨status, hstatus⟩, hgood⟩ := hr
        simp only [hstatus]
        exact hn _ _ [] hs (hgood ending status rfl hstatus) .stages
      | error abort =>
        refine hn _ _ [] hs ?_ .stages
        have hend := hr.1
        cases abort with
        | limit _ => exact ⟨trivial, trivial⟩
        | fault _ =>
          refine ⟨fun he => ?_, trivial⟩
          rw [K.limits_eq hc]
          exact hend he
        | exit _ | expansion _ | brokenPipe | cancelled => exact hend.elim

/-! ## 4. Commands and lists -/

/-- **Every form of command**, one construct at a time. -/
theorem related_command (hrun : K.Runs k run run') (command : Command) :
    K.Comes k c d (Execution.command run command) (Execution.command run' command) := by
  cases command with
  | simple _ name args assignments => exact related_simple hrun name args assignments
  | choice _ condition body branches otherwise => exact related_choose hrun otherwise _
  | loop _ kind condition body => exact related_loop hrun kind condition body
  | each _ name words body => exact related_each hrun name words body
  | group _ body => exact hrun c d body
  | subshell _ body =>
    -- A subshell has a depth of its own, and an abort in it becomes a status.
    have hfork : K.Related k c d c.Stops K.good (Exec.isolate false id (run body))
        (Exec.isolate false id (run' body)) :=
      (hrun c (d.forked false) body).isolate rfl id (fun _ ht => ht) (fun _ ha _ => ha)
        (fun _ ho => good_toStatus ho.2) fun _ _ hg => hg
    exact hfork.bind fun _ hg => comes_status hg
  | function _ name body =>
    refine Related.bind (V := fun _ => True) (related_modifyEnv fun _ he => ⟨he.calls, he.good⟩)
      fun _ _ => ?_
    exact comes_small 0 (by decide)
  | arithmetic _ expression =>
    refine (Expansion.related_evaluateWord hrun expression).attempt.bind fun r _ => ?_
    cases r with
    | ok value =>
      refine comes_small _ ?_
      split <;> decide
    | error e => exact comes_diagnosed _ 1 (by decide)

/-- A command that is a pipeline by itself, of which a failure of an expansion is a status. -/
theorem related_single (hrun : K.Runs k run run') (negated : Bool) (command : Command) :
    K.Comes k c d (single run negated command) (single run' negated command) := by
  refine (related_command hrun command).handle (fun abort ha hg => ?_)
    fun _ => Exec.eq_abort (fun _ => rfl) fun _ => rfl
  cases abort with
  | exit status =>
    exact Related.ite (fun _ => comes_status hg) fun _ => related_abort ha hg
  | limit _ | expansion _ | brokenPipe | fault _ | cancelled => exact related_abort ha hg

/-- Records the status that a pipeline gives; a signal is passed on. -/
def record (negated : Bool) : Outcome → Exec Outcome
  | .status code => do
    Exec.modifyEnv fun env => { env with status := negate negated code }
    return .status (negate negated code)
  | signal => return signal

/-- A pipeline of one command records what that comes to. -/
theorem pipeline_of_isEmpty {p : Pipeline} (h : p.rest.isEmpty = true) :
    pipeline run p = single run p.negated p.first >>= record p.negated := by
  unfold pipeline
  rw [if_pos h]
  exact congrArg (single run p.negated p.first >>= ·) (funext fun outcome => by cases outcome <;> rfl)

/-- A pipeline of more commands records the status of the last stage. -/
theorem pipeline_of_not_isEmpty {p : Pipeline} (h : ¬ p.rest.isEmpty = true) :
    pipeline run p =
      (Outcome.status <$> stages ((p.first :: p.rest).map (command run))) >>= record p.negated := by
  unfold pipeline
  rw [if_neg h]
  exact congrArg (Outcome.status <$> stages ((p.first :: p.rest).map (command run)) >>= ·)
    (funext fun outcome => by cases outcome <;> rfl)

/-- A negated status is 0 or 1. -/
theorem good_negate (negated : Bool) {status : Nat} (h : K.good status) :
    K.good (negate negated status) := by
  unfold negate
  split
  · split
    · exact K.byte 1 (by decide)
    · exact K.byte 0 (by decide)
  · exact h

/-- The status that is recorded is good, and a signal is passed on. -/
theorem related_record (negated : Bool) {outcome : Outcome} (ho : outcome.May K.good d) :
    K.Comes k c d (record negated outcome) (record negated outcome) := by
  cases outcome with
  | status code =>
    have hgood := good_negate negated ho.2
    exact Related.bind (V := fun _ => True) (related_modifyEnv fun _ he => ⟨he.calls, hgood⟩)
      fun _ _ => comes_status hgood
  | returned | broken | continued => exact related_pure ho

/-- A pipeline of one command is run here, and others are run in stages. -/
theorem related_pipeline (hrun : K.Runs k run run') (p : Pipeline) :
    K.Comes k c d (pipeline run p) (pipeline run' p) := by
  by_cases hp : p.rest.isEmpty = true
  · rw [pipeline_of_isEmpty hp, pipeline_of_isEmpty hp]
    exact (related_single hrun p.negated p.first).bind fun _ ho => related_record p.negated ho
  · rw [pipeline_of_not_isEmpty hp, pipeline_of_not_isEmpty hp]
    have hstages := related_stages (c := c) (d := d) (p.first :: p.rest) (List.cons_ne_nil _ _)
      fun command _ _ _ => related_command hrun command
    exact Related.bind (hstages.map (W := Outcome.May K.good d) fun _ hg => ⟨trivial, hg⟩)
      fun _ ho => related_record p.negated ho

/-- By induction on the pipelines that are left, each of which is run or passed over by the status before it. -/
theorem related_joined (hrun : K.Runs k run run') {outcome : Outcome} (ho : outcome.May K.good d)
    (rest : List Joined) : K.Comes k c d (joined run outcome rest) (joined run' outcome rest) := by
  induction rest generalizing outcome with
  | nil => cases outcome <;> exact related_pure ho
  | cons next rest ih =>
    cases outcome with
    | status status =>
      refine Related.ite (fun _ => ?_) fun _ => ih ho
      exact (related_pipeline hrun next.pipeline).bind fun _ ho => ih ho
    | returned | broken | continued => exact related_pure ho

/-- The first pipeline, and those joined to it. -/
theorem related_andOr (hrun : K.Runs k run run') (list : AndOrList) :
    K.Comes k c d (andOr run list) (andOr run' list) :=
  (related_pipeline hrun list.first).bind fun _ ho => related_joined hrun ho list.rest

/-- By induction on the statements. A signal is not followed by the others. -/
theorem related_statements {one one' : AndOrList → Exec Outcome}
    (h : ∀ list, K.Comes k c d (one list) (one' list)) {status : Nat} (hstatus : K.good status)
    (lists : List AndOrList) :
    K.Comes k c d (statements one status lists) (statements one' status lists) := by
  induction lists generalizing status with
  | nil => exact comes_status hstatus
  | cons list rest ih =>
    refine (h list).bind fun outcome ho => ?_
    cases outcome with
    | status code => exact ih ho.2
    | returned | broken | continued => exact related_pure ho

/-! ## 5. Counting -/

/-- A run over its limit is stopped, which is final. -/
theorem related_tooManyCommands {α : Type} {V : α → Prop} :
    K.Related k c d c.Stops V (tooManyCommands : Exec α) tooManyCommands :=
  related_limit (fun limits => .commands limits.maxCommandCount) trivial

/-- What follows the count of a list runs if there are not too many of them. -/
theorem countCommand_bind {β : Type} (f : Unit → Exec β) :
    countCommand >>= f = Exec.context >>= fun c => Exec.count >>= fun n =>
      if c.limits.maxCommandCount < n then tooManyCommands else f () := by
  have hite (p : Prop) [Decidable p] :
      (if p then tooManyCommands else pure ()) >>= f = if p then tooManyCommands else f () := by
    split <;> rfl
  exact congrArg (Exec.context >>= ·) (funext fun _ =>
    congrArg (Exec.count >>= ·) (funext fun _ => hite _))

/-- What follows the count of a list, in two runs. If it comes to run at all, more lists have been
counted, and not too many. -/
theorem related_countCommand {β : Type} {V : β → Prop} {f f' : Unit → Exec β}
    (h : ∀ n : Nat, (K.counting → k < n) → (n : Int) ≤ K.limits.maxCommandCount →
      K.Related (max k n) c d c.Stops V (f ()) (f' ())) :
    K.Related k c d c.Stops V (countCommand >>= f) (countCommand >>= f') := by
  intro hc
  have hbelow := K.below.commandCount
  rw [countCommand_bind, countCommand_bind]
  refine related_context (related_count fun n hn => ?_) hc
  show K.Related (max k n) c d c.Stops V
    (if c.limits.maxCommandCount < n then tooManyCommands else f ())
    (if K.limits'.maxCommandCount < n then tooManyCommands else f' ())
  rw [K.limits_eq hc]
  -- Where the first run has counted too many commands, so has the second one, or it may go on.
  by_cases hmany : K.limits.maxCommandCount < n
  · rw [if_pos hmany]
    rcases K.strict with heq | hlenient
    · rw [heq, if_pos hmany]
      exact related_tooManyCommands
    -- The first run has stopped at its limit, and nothing is said of the second.
    · exact fun _ _ _ _ _ _ _ _ _ _ _ hl => hl hlenient _ _ _ trivial
  · rw [if_neg hmany, if_neg (by omega)]
    exact h n hn (by omega)

/-- What two budgets must be like for two runs that have counted `k` lists: the same; or neither is less
than what can still be counted in its run; or the comparison is lenient, and the second is no less. -/
def Budgets (K : Comparison) (k budget budget' : Nat) : Prop :=
  budget = budget' ∨
    (K.counting ∧ K.limits.maxCommandCount ≤ k + budget ∧ K.limits'.maxCommandCount ≤ k + budget') ∨
      K.lenient ∧ budget ≤ budget'

/-- A list inside another one comes after it in the count, so its budget may be one less. -/
theorem Budgets.pred {budget budget' n : Nat} (h : Budgets K k (budget + 1) (budget' + 1))
    (hn : K.counting → k < n) : Budgets K (max k n) budget budget' := by
  rcases h with h | ⟨hk, h, h'⟩ | ⟨hlenient, h⟩
  · exact .inl (Nat.succ.inj h)
  · have hlt := hn hk
    exact .inr (.inl ⟨hk, by omega, by omega⟩)
  · exact .inr (.inr ⟨hlenient, Nat.le_of_succ_le_succ h⟩)

/-- **Two runs of a sequence go together**, if their budgets are enough. -/
theorem runs_sequence {budget budget' : Nat} (h : Budgets K k budget budget') :
    K.Runs k (sequence budget) (sequence budget') := by
  have hbelow := K.below.commandCount
  -- By induction on the budget of the first run. A budget is what a run may count, so it is never the budget that
  -- stops a run whose count has not been used up.
  induction budget generalizing k budget' with
  | zero =>
    cases budget' with
    | zero =>
      exact fun c d body => related_statements
        (fun _ => related_countCommand fun _ _ _ => related_tooManyCommands)
        (K.byte 0 (by decide)) body.statements
    | succ budget' =>
      refine fun c d body => related_statements (fun list => related_countCommand fun n hn hmax => ?_)
        (K.byte 0 (by decide)) body.statements
      -- The budgets are equal, or both are more than the commands left, or the second is larger and may be.
      rcases h with h | ⟨hk, h, -⟩ | ⟨hlenient, -⟩
      · cases h
      · exact absurd (hn hk) (by omega)
      · exact fun _ _ _ _ _ _ _ _ _ _ _ hl => hl hlenient _ _ _ trivial
  | succ budget ih =>
    cases budget' with
    | zero =>
      refine fun c d body => related_statements (fun list => related_countCommand fun n hn hmax => ?_)
        (K.byte 0 (by decide)) body.statements
      rcases h with h | ⟨hk, -, h⟩ | ⟨-, h⟩
      · cases h
      · exact absurd (hn hk) (by omega)
      · exact absurd h (by omega)
    | succ budget' =>
      exact fun c d body => related_statements
        (fun list => related_countCommand fun n hn _ => related_andOr (ih (h.pred hn)) list)
        (K.byte 0 (by decide)) body.statements

/-- The same runner is a runner for both. -/
theorem runs_self (budget : Nat) : K.Runs k (sequence budget) (sequence budget) :=
  runs_sequence (.inl rfl)

end Execution

end Shell
